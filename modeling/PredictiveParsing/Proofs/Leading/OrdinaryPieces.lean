import Mathlib.Data.Char
import Mathlib.Data.List.Nodup
import Mathlib.Data.Nat.Basic
import PredictiveParsing.Proofs.Leading.Classes
import PredictiveParsing.Proofs.Leading.Ordinary

/-!
# Pieces of ordinary patterns

What the scan of a pattern makes of the pieces of an ordinary one, with any text behind them:
characters and classes with the set of their members, and quantifiers. Quantifiers that the scan
does not know leave a sign that no expression can begin with.
-/

namespace PredictiveParsing.Leading

open Unicode

/-! ## Written characters -/

theorem of_isEscapable {c : Char} (h : Regex.isEscapable c = true) :
    isAscii c = true ∧ c.isAlphanum = false := by
  simp only [Regex.isEscapable, Bool.or_eq_true, Bool.and_eq_true, List.contains_iff_mem,
    Bool.not_eq_true'] at h
  rcases h with h | ⟨⟨⟨hascii, halpha⟩, -⟩, -⟩
  · have hall : Regex.metaCharacters.all (fun d => isAscii d && !d.isAlphanum) = true := by decide
    simpa using List.all_eq_true.mp hall c h
  · exact ⟨hascii, halpha⟩

/-- A character that is no letter and no digit stands for itself behind a backslash. -/
theorem scanEscapeSet_other {c : Char} (h : c.isAlphanum = false) (cs : List Char) :
    scanEscapeSet (c :: cs) = some (LeadingSet.empty.insert c, cs) := by
  dsimp only [scanEscapeSet]
  split
  iterate 14
    · exact absurd h (by decide)
  rw [if_neg (by simp [h])]

private theorem scanEscape_other {c : Char} (h : c.isAlphanum = false) (cs : List Char) :
    scanEscape (c :: cs) = some (.of (LeadingSet.empty.insert c), cs) := by
  have hletter : ¬(c = 'b' ∨ c = 'B' ∨ c = 'A' ∨ c = 'z') := by
    rintro (rfl | rfl | rfl | rfl) <;> exact absurd h (by decide)
  rw [scanEscape, if_neg (by simpa [or_assoc] using hletter), scanEscapeSet_other h]
  rfl

private theorem single?_insert {c : Char} (h : isAscii c = true) :
    (LeadingSet.empty.insert c).single? = some c := by
  have hmem : ∀ n, (LeadingSet.empty.insert c).ascii.getLsbD n = (n == c.toNat) := by
    intro n
    have hlt := isAscii_iff.mp h
    rw [LeadingSet.insert, if_pos h]
    simp [LeadingSet.empty, BitVec.getLsbD_twoPow, hlt, Bool.beq_eq_decide_eq, eq_comm]
  have hcodes : (LeadingSet.empty.insert c).asciiCodes = [c.toNat] := by
    have hone : (List.range 128).count c.toNat = 1 :=
      List.count_eq_one_of_mem List.nodup_range (List.mem_range.mpr (isAscii_iff.mp h))
    rw [LeadingSet.asciiCodes]
    simp only [hmem]
    rw [List.filter_beq, hone]
    rfl
  have hnon : (LeadingSet.empty.insert c).nonAscii = false := by
    rw [LeadingSet.insert, if_pos h]
    rfl
  rw [LeadingSet.single?, hcodes, hnon]
  exact congrArg some (Char.ofNat_toNat c)

theorem scanEscapedChar_other {c : Char} (h : Regex.isEscapable c = true) (cs : List Char) :
    scanEscapedChar (c :: cs) = some (c, cs) := by
  obtain ⟨hascii, halpha⟩ := of_isEscapable h
  rw [scanEscapedChar, scanEscapeSet_other halpha]
  simp [single?_insert hascii]

/-! ## Classes -/

section Classes

variable {fuel : Nat} {first : Bool} {s : LeadingSet} {cs : List Char}

private theorem scanMembers_written (x : Written classMarks) :
    scanMembers (fuel + 1) first s (x.text ++ cs) =
      (scanRange s x.char cs).bind fun (s, rest) => scanMembers fuel false s rest := by
  obtain ⟨c, escaped, h⟩ := x
  cases escaped with
  | true =>
    have hletter : isClassLetter c = false := by
      obtain ⟨-, halpha⟩ := of_isEscapable h
      cases hc : isClassLetter c with
      | false => rfl
      | true =>
        simp only [isClassLetter, List.contains_iff_mem, List.mem_cons, List.not_mem_nil,
          or_false] at hc
        rcases hc with rfl | rfl | rfl | rfl | rfl | rfl | rfl | rfl <;> cases halpha
    change scanMembers (fuel + 1) first s ('\\' :: c :: cs) = _
    rw [scanMembers.eq_def]
    simp [hletter, scanEscapedChar_other h]
  | false =>
    have hc : c ∉ classMarks := h
    simp only [classMarks, List.mem_cons, List.not_mem_nil, or_false, not_or] at hc
    change scanMembers (fuel + 1) first s (c :: cs) = _
    rw [scanMembers.eq_def]
    simp [hc]

private theorem scanRange_range (x : Written classMarks) (a : Char) :
    scanRange s a ('-' :: x.text ++ cs) = some (s.insertRange a x.char, cs) := by
  obtain ⟨c, escaped, h⟩ := x
  cases escaped with
  | true => 
    simp [Written.text, scanRange, startsRange, scanEscapedChar_other h]
  | false =>
    have hc : c ∉ classMarks := h
    simp only [classMarks, List.mem_cons, List.not_mem_nil, or_false, not_or] at hc
    simp [Written.text, scanRange, startsRange, hc]

def Member.enter (s : LeadingSet) : Member → LeadingSet
  | single x => s.insert x.char
  | range first last _ => s.insertRange first.char last.char

private theorem scanMembers_member (m : Member) (h : cs.head? ≠ some '-') :
    scanMembers (fuel + 1) first s (m.text ++ cs) = scanMembers fuel false (m.enter s) cs := by
  cases m with
  | single x =>
    rw [Member.text, scanMembers_written, scanRange_single (startsRange_eq_false h)]
    rfl
  | range a b _ =>
    rw [Member.text, List.append_assoc, scanMembers_written, scanRange_range]
    rfl

theorem Member.head_text (m : Member) : (m.text ++ cs).head? ≠ some '-' ∧
    (m.text ++ cs).head? ≠ some '^' := by
  have hwritten : ∀ (x : Written classMarks) (cs : List Char), (x.text ++ cs).head? ≠ some '-' ∧
      (x.text ++ cs).head? ≠ some '^' := by
    rintro ⟨c, escaped, h⟩ cs
    cases escaped with
    | true => simp [Written.text]
    | false =>
      have hc : c ∉ classMarks := h
      simp only [classMarks, List.mem_cons, List.not_mem_nil, or_false, not_or] at hc
      simp [Written.text, hc]
  cases m with
  | single x => exact hwritten x cs
  | range a b _ =>
    rw [text, List.append_assoc]
    exact hwritten a _

private theorem Member.length_text (m : Member) : 0 < m.text.length := by
  have hwritten : ∀ x : Written classMarks, 0 < x.text.length := by
    intro x
    rw [Written.text]
    split <;> simp
  cases m with
  | single x => exact hwritten x
  | range a b _ =>
    simp only [text, List.length_append, List.length_cons]
    omega

private theorem scanMembers_members {ms : List Member} (hms : first = true → ms ≠ [])
    (hfuel : (ms.flatMap Member.text).length + 1 ≤ fuel) :
    scanMembers fuel first s (ms.flatMap Member.text ++ ']' :: cs) =
      some (ms.foldl Member.enter s, cs) := by
  induction ms generalizing fuel first s with
  | nil =>
    cases fuel with
    | zero => simp at hfuel
    | succ fuel =>
      cases first with
      | true => exact absurd rfl (hms rfl)
      | false => rfl
  | cons m ms ih =>
    cases fuel with
    | zero => simp at hfuel
    | succ fuel =>
      have hlength := m.length_text
      rw [List.flatMap_cons, List.append_assoc, scanMembers_member, ih (by simp)]
      · rfl
      · simp only [List.flatMap_cons, List.length_append] at hfuel
        omega
      · cases ms with
        | nil => simp
        | cons m ms =>
          rw [List.flatMap_cons, List.append_assoc]
          exact m.head_text.1

private theorem scanClass_members (negated : Bool) (m : Member) (ms : List Member) :
    scanClass ((if negated then ['^'] else []) ++ (m :: ms).flatMap Member.text ++ ']' :: cs) =
      some (let s := (m :: ms).foldl Member.enter .empty
        if negated then s.negated else s, cs) := by
  cases negated with
  | true =>
    have hfuel : ((m :: ms).flatMap Member.text).length + 1 ≤
        ('^' :: (m :: ms).flatMap Member.text ++ ']' :: cs).length := by simp
    change Option.map _ (scanMembers ('^' :: (m :: ms).flatMap Member.text ++ ']' :: cs).length true
      .empty ((m :: ms).flatMap Member.text ++ ']' :: cs)) = _
    rw [scanMembers_members (by simp) hfuel]
    rfl
  | false =>
    have hfuel : ((m :: ms).flatMap Member.text).length + 1 ≤
        ((m :: ms).flatMap Member.text ++ ']' :: cs).length + 1 := by simp
    have hhead : ((m :: ms).flatMap Member.text ++ ']' :: cs).head? ≠ some '^' := by
      rw [List.flatMap_cons, List.append_assoc]
      exact m.head_text.2
    change scanClass ((m :: ms).flatMap Member.text ++ ']' :: cs) = _
    rw [scanClass]
    · exact scanMembers_members (by simp) hfuel
    · intro rest heq
      rw [heq] at hhead
      exact hhead rfl

end Classes

/-! ## Expressions for one character -/

def Kind.set : Kind → LeadingSet
  | digit => digitSet
  | word => wordSet
  | blank => blankSet

/-- The set that the scan has for an expression for one character. -/
def Leaf.set : Leaf → LeadingSet
  | literal x => LeadingSet.empty.insert x.char
  | dot => dotSet
  | kind k negated => if negated then k.set.negated else k.set
  | members negated first others =>
    let s := (first :: others).foldl Member.enter .empty
    if negated then s.negated else s

private theorem Kind.contains_set (k : Kind) {c : Char} (h : isAscii c = true) :
    k.set.contains c = k.holds c := by
  cases k with
  | digit => exact contains_digitSet h
  | word => exact contains_wordSet h
  | blank => exact contains_blankSet h

private theorem contains_dotSet {c : Char} (h : isAscii c = true) :
    dotSet.contains c = (c != '\n') :=
  forall_ascii (P := fun c => dotSet.contains c = (c != '\n')) (by decide +kernel) h

private theorem Member.contains_enter {s : LeadingSet} (m : Member) {c : Char}
    (h : isAscii c = true) : (m.enter s).contains c = (s.contains c || m.contains c) := by
  rw [Bool.eq_iff_iff, Bool.or_eq_true]
  cases m with
  | single x => simp [enter, contains, LeadingSet.contains_insert, h]
  | range a b _ => simp [enter, contains, LeadingSet.contains_insertRange, h]

private theorem Member.nonAscii_enter {s : LeadingSet} (m : Member) :
    (m.enter s).nonAscii = (s.nonAscii || !isAscii m.last) := by
  cases m with
  | single x =>
    rw [enter, LeadingSet.insert, last]
    cases isAscii x.char <;> simp
  | range a b h =>
    rw [enter, LeadingSet.insertRange, if_neg (not_lt.mpr h), last]

private theorem contains_foldl_enter (ms : List Member) (s : LeadingSet) {c : Char}
    (h : isAscii c = true) :
    (ms.foldl Member.enter s).contains c = (s.contains c || ms.any (·.contains c)) := by
  induction ms generalizing s with
  | nil => simp
  | cons m ms ih => rw [List.foldl_cons, ih, m.contains_enter h, List.any_cons, Bool.or_assoc]

private theorem nonAscii_foldl_enter (ms : List Member) (s : LeadingSet) :
    (ms.foldl Member.enter s).nonAscii = (s.nonAscii || ms.any fun m => !isAscii m.last) := by
  induction ms generalizing s with
  | nil => simp
  | cons m ms ih => rw [List.foldl_cons, ih, m.nonAscii_enter, List.any_cons, Bool.or_assoc]

namespace Leaf

theorem contains_set (x : Leaf) {c : Char} (h : isAscii c = true) :
    x.set.contains c = x.contains c := by
  cases x with
  | literal x =>
    rw [Bool.eq_iff_iff]
    simp [set, contains, LeadingSet.contains_insert, LeadingSet.not_contains_empty, h]
  | dot => exact contains_dotSet h
  | kind k negated =>
    cases negated with
    | true => simp [set, contains, LeadingSet.contains_negated, k.contains_set h, h]
    | false => simp [set, contains, k.contains_set h]
  | members negated first others =>
    have hall := contains_foldl_enter (first :: others) .empty h
    rw [LeadingSet.not_contains_empty, Bool.false_or] at hall
    rw [contains, ← hall, set]
    cases negated with
    | true => simp [LeadingSet.contains_negated, h]
    | false => simp

theorem nonAscii_set (x : Leaf) : x.set.nonAscii = x.reachesBeyond := by
  cases x with
  | literal x =>
    rw [set, reachesBeyond, LeadingSet.insert]
    cases isAscii x.char <;> rfl
  | dot => rfl
  | kind k negated => cases k <;> cases negated <;> rfl
  | members negated first others =>
    have hall := nonAscii_foldl_enter (first :: others) .empty
    cases negated with
    | true => rfl
    | false => exact hall

end Leaf

def quantifierSigns : List Char := ['*', '+', '?', '\x7b']

/-- Signs that end a branch or stand for a quantifier, so no atom starts with one. -/
def outerSigns : List Char := '|' :: ')' :: quantifierSigns

private theorem outerSigns_subset : outerSigns ⊆ marks := by decide

theorem scanAtom_leaf (x : Leaf) : ∃ c tail, x.text = c :: tail ∧ c ∉ outerSigns ∧
    ∀ fuel rest, scanAtom (fuel + 1) c (tail ++ rest) = some (.of x.set, rest) := by
  cases x with
  | literal x =>
    obtain ⟨c, escaped, h⟩ := x
    cases escaped with
    | true =>
      exact ⟨'\\', [c], rfl, by decide, fun fuel rest =>
        scanEscape_other (of_isEscapable h).2 rest⟩
    | false =>
      have hc : c ∉ marks := h
      refine ⟨c, [], rfl, fun hmem => hc (outerSigns_subset hmem), fun fuel rest => ?_⟩
      change scanAtom (fuel + 1) c rest = _
      dsimp only [scanAtom]
      split
      iterate 10
        · exact absurd (by decide) hc
      rfl
  | dot => exact ⟨'.', [], rfl, by decide, fun fuel rest => rfl⟩
  | kind k negated =>
    refine ⟨'\\', [k.letter negated], rfl, by decide, fun fuel rest => ?_⟩
    cases k <;> cases negated <;> rfl
  | members negated first others =>
    refine ⟨'[', (if negated then ['^'] else []) ++ (first :: others).flatMap Member.text ++ [']'],
      rfl, by decide, fun fuel rest => ?_⟩
    rw [List.append_assoc, List.singleton_append, scanAtom, scanClass_members]
    rfl

/-! ## Quantifiers -/

private theorem le_ofDigitChars (ds : List Char) (n : Nat) : n ≤ Nat.ofDigitChars 10 ds n := by
  induction ds generalizing n with
  | nil => exact le_rfl
  | cons d ds ih =>
    rw [Nat.ofDigitChars_cons]
    exact le_trans (by omega) (ih _)

private theorem digitsValue?_eq {ds : List Char} {n : Nat} (hds : ∀ d ∈ ds, d.isDigit = true)
    (hlt : Nat.ofDigitChars 10 ds n < 0x100000000) :
    digitsValue? 10 n ds = some (Nat.ofDigitChars 10 ds n) := by
  induction ds generalizing n with
  | nil => rfl
  | cons d ds ih =>
    rw [List.forall_mem_cons] at hds
    have hvalue : hexValue? d = some (d.toNat - '0'.toNat) := by simp [hexValue?, hds.1]
    have hten : d.toNat - '0'.toNat < 10 := by
      have hle := (Char.isDigit_iff_toNat.mp hds.1).2
      have hspan : '9'.toNat = '0'.toNat + 9 := rfl
      omega
    rw [Nat.ofDigitChars_cons, Nat.mul_comm] at hlt ⊢
    have hle := le_ofDigitChars ds (n * 10 + (d.toNat - '0'.toNat))
    simp only [digitsValue?, hvalue, Option.bind_eq_bind, Option.bind_some]
    rw [if_neg (by omega), if_neg (by omega), ih hds.2 hlt]

theorem isDigit_of_mem_text {n : Count} {d : Char} (h : d ∈ n.text) : d.isDigit = true :=
  Nat.isDigit_of_mem_toDigits (by decide) le_rfl h

theorem brace_notMem_text (n : Count) : '\x7d' ∉ n.text := fun h =>
  absurd (isDigit_of_mem_text h) (by decide)

private theorem digitsValue?_count (n : Count) : digitsValue? 10 0 n.text = some n.val := by
  have heq : Nat.ofDigitChars 10 n.text 0 = n.val := Nat.ofDigitChars_toDigits (by decide) le_rfl
  have hlt : Nat.ofDigitChars 10 n.text 0 < 0x100000000 := heq ▸ n.isLt
  rw [digitsValue?_eq (fun d => isDigit_of_mem_text) hlt, heq]

private theorem scanQuantifier_count (n : Count) {more : List Char} (cs : List Char)
    (hmore : '\x7d' ∉ more) (hhead : ∀ c ∈ more.head?, c.isDigit = false) :
    scanQuantifier ('\x7b' :: n.text ++ (more ++ '\x7d' :: cs)) =
      some (n.val == 0, skipMode cs) := by
  have hdigits : ∀ d ∈ n.text, d.isDigit = true := fun d => isDigit_of_mem_text
  have hbrace : '\x7d' ∉ n.text ++ more := fun h =>
    (List.mem_append.mp h).elim (brace_notMem_text n) hmore
  have htake : (n.text ++ (more ++ '\x7d' :: cs)).takeWhile (·.isDigit) = n.text := by
    rw [List.takeWhile_append_of_pos hdigits]
    cases more with
    | nil => simp
    | cons c more => simp [hhead c rfl]
  have hne : n.text ≠ [] := Nat.toDigits_ne_nil
  have hup : upTo? '\x7d' (n.text ++ (more ++ '\x7d' :: cs)) = some (n.text ++ more, cs) := by
    rw [← List.append_assoc]
    exact upTo?_append hbrace
  rw [List.cons_append, scanQuantifier]
  simp only [hup, htake, digitsValue?_count, Option.bind_eq_bind, Option.bind_some,
    List.isEmpty_eq_false_iff.mpr hne]
  rfl

private theorem scanQuantifier_text (q : Quantifier) (cs : List Char) :
    scanQuantifier (q.text ++ cs) = some (q.allowsNone, skipMode cs) := by
  cases q with
  | star => rfl
  | plus => rfl
  | optional => rfl
  | exactly n => 
    have h := scanQuantifier_count n cs List.not_mem_nil (by simp)
    simpa [Quantifier.text, Quantifier.allowsNone] using h
  | atLeast n =>
    have hmore : '\x7d' ∉ [','] := by decide
    have h := scanQuantifier_count n cs hmore (by simp)
    simpa [Quantifier.text, Quantifier.allowsNone] using h
  | between n m =>
    have hmore : '\x7d' ∉ ',' :: m.text := by simp [brace_notMem_text]
    have h := scanQuantifier_count n cs hmore (by simp)
    simpa [Quantifier.text, Quantifier.allowsNone] using h

def Quiet (cs : List Char) : Prop := ∀ c ∈ cs.head?, c ∉ quantifierSigns

private theorem skipMode_quiet {cs : List Char} (h : Quiet cs) : skipMode cs = cs := by
  cases cs with
  | nil => rfl
  | cons c cs =>
    have hc : c ∉ quantifierSigns := h c rfl
    rw [skipMode]
    · rintro cs' heq
      obtain rfl := (List.cons.inj heq).1
      exact hc (by decide)
    · rintro cs' heq
      obtain rfl := (List.cons.inj heq).1
      exact hc (by decide)

private theorem scanQuantifier_quiet {cs : List Char} (h : Quiet cs) :
    scanQuantifier cs = some (false, cs) := by
  cases cs with
  | nil => rfl
  | cons c cs =>
    have hc : c ∉ quantifierSigns := h c rfl
    dsimp only [scanQuantifier]
    split
    iterate 4
      · rename_i heq
        obtain rfl := (List.cons.inj heq).1
        exact absurd (by decide) hc
    rfl

/-- Only two quantifiers start with a sign that the scan takes for the mode of the one before. -/
theorem Quantifier.exists_text (q : Quantifier) : ∃ c tail, q.text = c :: tail ∧
    c ∈ quantifierSigns ∧ (c = '?' → q = .optional) ∧ (c = '+' → q = .plus) := by
  cases q with
  | star => exact ⟨_, _, rfl, by decide, by decide, by decide⟩
  | plus => exact ⟨_, _, rfl, by decide, by decide, fun _ => rfl⟩
  | optional => exact ⟨_, _, rfl, by decide, fun _ => rfl, by decide⟩
  | exactly n => exact ⟨_, _, rfl, by decide, by simp, by simp⟩
  | atLeast n => exact ⟨_, _, rfl, by decide, by simp, by simp⟩
  | between n m => exact ⟨_, _, rfl, by decide, by simp, by simp⟩

def Loud (cs : List Char) : Prop := ∃ c tail, cs = c :: tail ∧ c ∈ quantifierSigns

private theorem loud_marks (m : Mark) (ms : List Mark) (rest : List Char) :
    Loud ((m :: ms).flatMap Mark.text ++ rest) := by
  obtain ⟨c, tail, heq, hc, -⟩ := m.quantifier.exists_text
  rw [List.flatMap_cons, Mark.text, heq]
  exact ⟨c, _, rfl, hc⟩

private theorem skipMode_mark {m : Mark} (hoptional : m.quantifier ≠ .optional)
    (hplus : m.quantifier ≠ .plus) (rest : List Char) :
    skipMode (m.text ++ rest) = m.text ++ rest := by
  obtain ⟨c, tail, heq, -, hquestion, hsign⟩ := m.quantifier.exists_text
  have hne : c ≠ '?' := fun h => hoptional (hquestion h)
  have hne' : c ≠ '+' := fun h => hplus (hsign h)
  rw [Mark.text, heq]
  simp only [List.cons_append]
  rw [skipMode]
  · exact fun cs h => hne (List.cons.inj h).1
  · exact fun cs h => hne' (List.cons.inj h).1

/-- The scan knows quantifiers that follow one another plainly, and otherwise leaves one. -/
theorem scanQuantifier_marks {ms : List Mark} (h : ms.IsChain Mark.MayPrecede) {rest : List Char}
    (hrest : Quiet rest) :
    ∃ zero after, scanQuantifier (ms.flatMap Mark.text ++ rest) = some (zero, after) ∧
      if plainlyMarked ms then zero = ms.any (·.quantifier.allowsNone) ∧ after = rest
      else Loud after := by
  cases ms with
  | nil => exact ⟨false, rest, scanQuantifier_quiet hrest, rfl, rfl⟩
  | cons m ms =>
    obtain ⟨q, isLazy⟩ := m
    refine ⟨q.allowsNone, if isLazy then ms.flatMap Mark.text ++ rest
      else skipMode (ms.flatMap Mark.text ++ rest), ?_, ?_⟩
    · rw [List.flatMap_cons, List.append_assoc, Mark.text, List.append_assoc,
        scanQuantifier_text]
      cases isLazy <;> rfl
    · cases ms with
      | nil => cases isLazy <;> simp [plainlyMarked, skipMode_quiet hrest]
      | cons next ms =>
        cases isLazy with
        | true =>
          have hplain : plainlyMarked (⟨q, true⟩ :: next :: ms) = false := by
            cases ms <;> simp [plainlyMarked]
          rw [hplain]
          exact loud_marks next ms rest
        | false =>
          have hoptional : next.quantifier ≠ .optional :=
            (List.isChain_cons_cons.mp h).1.resolve_left (by simp)
          by_cases hplus : next.quantifier = .plus
          · obtain ⟨_, nextLazy⟩ := next
            obtain rfl : _ = Quantifier.plus := hplus
            cases nextLazy with
            | true =>
              have hplain : plainlyMarked (⟨q, false⟩ :: ⟨.plus, true⟩ :: ms) = false := by
                cases ms <;> simp [plainlyMarked]
              rw [hplain]
              exact ⟨'?', _, rfl, by decide⟩
            | false =>
              cases ms with
              | nil =>
                simp [plainlyMarked, Mark.text, Quantifier.text, Quantifier.allowsNone, skipMode]
              | cons m ms => exact loud_marks m ms rest
          · have hplain : plainlyMarked (⟨q, false⟩ :: next :: ms) = false := by
              cases ms with
              | nil =>
                have hne : next ≠ ⟨.plus, false⟩ := fun h => hplus (h ▸ rfl)
                simp [plainlyMarked, hne]
              | cons m ms => rfl
            rw [hplain, List.flatMap_cons, List.append_assoc, skipMode_mark hoptional hplus,
              ← List.append_assoc, ← List.flatMap_cons]
            exact loud_marks next ms rest

end PredictiveParsing.Leading
