import PredictiveParsing.Leading.Pattern
import PredictiveParsing.Proofs.Leading.Set
import PredictiveParsing.Proofs.Outcome
import PredictiveParsing.Regex.Reader

/-!
# Escapes

What the scan of a pattern takes an escape for, compared with what the escape means. Both read the
same text; the scan has one character where the escape stands for one, and otherwise at least the
characters of the class.
-/

namespace PredictiveParsing

@[simp] theorem Regex.skip_none (cs : List Char) : Regex.skip .none cs = cs := rfl

namespace Leading

open Unicode

/-! ## Texts up to a character -/

section

variable {stop : Char} {cs front rest : List Char}

theorem of_upTo? (h : upTo? stop cs = some (front, rest)) :
    cs = front ++ stop :: rest ∧ stop ∉ front := by
  rw [upTo?] at h
  split at h
  · cases h
  · rename_i c more hdrop
    obtain ⟨rfl, rfl⟩ := Prod.mk.inj (Option.some.inj h)
    have hc : c = stop := by
      have hhead := List.head?_dropWhile_not (· != stop) cs
      rw [hdrop] at hhead
      simpa using hhead
    refine ⟨?_, ?_⟩
    · subst hc
      rw [← hdrop, List.takeWhile_append_dropWhile]
    · intro hmem
      have hall := List.all_eq_true.mp List.all_takeWhile stop hmem
      simp at hall

theorem upTo?_append (h : stop ∉ front) :
    upTo? stop (front ++ stop :: rest) = some (front, rest) := by
  have hfront : ∀ c ∈ front, (c != stop) = true := fun c hc => by
    rw [bne_iff_ne]
    rintro rfl
    exact h hc
  rw [upTo?, List.dropWhile_append_of_pos hfront, List.takeWhile_append_of_pos hfront]
  simp

theorem upTo_unique {front' rest' : List Char} (h : stop ∉ front) (h' : stop ∉ front')
    (heq : front ++ stop :: rest = front' ++ stop :: rest') : front = front' ∧ rest = rest' := by
  have hboth : upTo? stop (front ++ stop :: rest) = some (front, rest) := upTo?_append h
  rw [heq, upTo?_append h'] at hboth
  obtain ⟨rfl, rfl⟩ := Prod.mk.inj (Option.some.inj hboth)
  exact ⟨rfl, rfl⟩

end

/-! ## Digits -/

def valueOf? (base value : Nat) (digits : List Char) : Option Nat :=
  digits.foldlM (fun v c => (hexValue? c).map (v * base + ·)) value

theorem valueOf?_cons {base value : Nat} {c : Char} {cs : List Char} :
    valueOf? base value (c :: cs) =
      (hexValue? c).bind fun d => valueOf? base (value * base + d) cs := by
  rw [valueOf?, List.foldlM_cons]
  cases hexValue? c <;> rfl

theorem valueOf?_of_digitsValue? {base value v : Nat} {cs : List Char}
    (h : digitsValue? base value cs = some v) : valueOf? base value cs = some v := by
  induction cs generalizing value with
  | nil => exact h
  | cons c cs ih =>
    rw [valueOf?_cons]
    rw [digitsValue?] at h
    obtain ⟨d, hd, h⟩ := Option.bind_eq_some_iff.mp h
    rw [hd, Option.bind_some]
    split at h
    · cases h
    · split at h
      · cases h
      · exact ih h

private theorem charOfCode?_of_codePoint? {digits : List Char} {code : Nat} {c : Char}
    (hcode : valueOf? 16 0 digits = some code) (h : codePoint? digits = some c) :
    Regex.charOfCode? code = some c := by
  have hplus : ∀ ds, digits ≠ '+' :: ds := by
    rintro ds rfl
    rw [valueOf?_cons] at hcode
    cases hcode
  unfold codePoint? at h
  split at h
  · rename_i ds
    exact absurd rfl (hplus ds)
  · dsimp only at h
    split at h
    · cases h
    · obtain ⟨v, hv, h⟩ := Option.bind_eq_some_iff.mp h
      have := (valueOf?_of_digitsValue? hv).symm.trans hcode
      obtain rfl := Option.some.inj this
      exact h

section

variable {value n fuel : Nat} {cs rest : List Char} {c : Char}

private theorem of_readHexDigits (h : Regex.readHexDigits .none value n cs = .ok (c, rest)) :
    ∃ digits code, cs = digits ++ rest ∧ digits.length = n ∧
      valueOf? 16 value digits = some code ∧ Regex.charOfCode? code = some c := by
  induction n generalizing value cs with
  | zero =>
    rw [Regex.readHexDigits] at h
    split at h
    · rename_i d hd
      obtain ⟨rfl, rfl⟩ := Prod.mk.inj (Except.ok.inj h)
      exact ⟨[], value, rfl, rfl, rfl, hd⟩
    · cases h
  | succ n ih =>
    cases cs with
    | nil => cases h
    | cons a cs =>
      rw [Regex.readHexDigits] at h
      split at h
      · rename_i d hd
        obtain ⟨digits, code, rfl, rfl, hcode, hc⟩ := ih h
        refine ⟨a :: digits, code, rfl, rfl, ?_, hc⟩
        rw [valueOf?_cons]
        exact Option.bind_eq_some_iff.mpr ⟨d, hd, hcode⟩
      · cases h

private theorem of_readBracedHex (h : Regex.readBracedHex .none value n fuel cs = .ok (c, rest)) :
    ∃ digits code, cs = digits ++ '\x7d' :: rest ∧ '\x7d' ∉ digits ∧
      valueOf? 16 value digits = some code ∧ Regex.charOfCode? code = some c := by
  induction fuel generalizing value n cs with
  | zero => cases h
  | succ fuel ih =>
    cases cs with
    | nil => cases h
    | cons a cs =>
      rw [Regex.readBracedHex] at h
      split at h
      · rename_i ha
        subst a
        split at h
        · cases h
        · split at h
          · rename_i d hd
            obtain ⟨rfl, rfl⟩ := Prod.mk.inj (Except.ok.inj h)
            exact ⟨[], value, rfl, List.not_mem_nil, rfl, hd⟩
          · cases h
      · rename_i ha
        split at h
        · rename_i d hd
          obtain ⟨digits, code, rfl, hnot, hcode, hc⟩ := ih h
          refine ⟨a :: digits, code, rfl, ?_, ?_, hc⟩
          · intro hmem
            rcases List.mem_cons.mp hmem with heq | hmem
            · exact ha heq.symm
            · exact hnot hmem
          · rw [valueOf?_cons]
            exact Option.bind_eq_some_iff.mpr ⟨d, hd, hcode⟩
        · cases h

end

variable {cs tail rest after : List Char}

private theorem scanHex_agrees {c d : Char} (hscan : scanHex cs = some (c, rest))
    (hread : Regex.readHex .none 2 (cs ++ tail) = .ok (d, after)) :
    d = c ∧ after = rest ++ tail := by
  have hsame : ∀ {digits code}, valueOf? 16 0 digits = some code → codePoint? digits = some c →
      Regex.charOfCode? code = some d → d = c := by
    intro digits code hcode hc hd
    exact Option.some.inj (hd.symm.trans (charOfCode?_of_codePoint? hcode hc))
  simp only [scanHex] at hscan
  split at hscan
  · obtain ⟨⟨digits, _⟩, hup, hscan⟩ := Option.bind_eq_some_iff.mp hscan
    obtain ⟨_, hc, hscan⟩ := Option.bind_eq_some_iff.mp hscan
    obtain ⟨rfl, rfl⟩ := Prod.mk.inj (Option.some.inj hscan)
    obtain ⟨rfl, hnot⟩ := of_upTo? hup
    obtain ⟨digits', code, heq, hnot', hcode, hd⟩ := of_readBracedHex hread
    have heq := (List.append_assoc digits _ tail).symm.trans heq
    obtain ⟨rfl, rfl⟩ := upTo_unique hnot hnot' heq
    exact ⟨hsame hcode hc hd, rfl⟩
  · rename_i a b more hne
    obtain ⟨_, hc, hscan⟩ := Option.bind_eq_some_iff.mp hscan
    obtain ⟨rfl, rfl⟩ := Prod.mk.inj (Option.some.inj hscan)
    have hread : Regex.readHexDigits .none 0 2 (a :: b :: (more ++ tail)) = .ok (d, after) := by
      rw [Regex.readHex] at hread
      split at hread
      · cases hread
      · rename_i heq
        exact absurd (List.cons.inj heq).1 fun h => hne h
      · exact hread
    obtain ⟨digits, code, heq, hlength, hcode, hd⟩ := of_readHexDigits hread
    match digits, hlength with
    | [x, y], _ =>
      simp only [List.cons_append, List.nil_append, List.cons.injEq] at heq
      obtain ⟨rfl, rfl, rfl⟩ := heq
      exact ⟨hsame hcode hc hd, rfl⟩
  · cases hscan

private theorem of_readBraced {name name' : List Char} {fuel : Nat}
    (h : Regex.readBraced .none name fuel cs = .ok (name', rest)) :
    ∃ front, cs = front ++ '\x7d' :: rest ∧ '\x7d' ∉ front := by
  induction cs generalizing name fuel with
  | nil => cases fuel <;> cases h
  | cons c cs ih =>
    cases fuel with
    | zero => cases h
    | succ fuel =>
      rw [Regex.readBraced] at h
      split at h
      · rename_i hc
        obtain ⟨_, rfl⟩ := Prod.mk.inj (Except.ok.inj h)
        exact ⟨[], hc ▸ rfl, List.not_mem_nil⟩
      · rename_i hc
        obtain ⟨front, rfl, hnot⟩ := ih h
        refine ⟨c :: front, rfl, ?_⟩
        intro hmem
        rcases List.mem_cons.mp hmem with heq | hmem
        · exact hc heq.symm
        · exact hnot hmem

variable [Regex.Dialect]

private theorem eq_of_propertyClass? {negated : Bool} {name : List Char} {k : CharClass}
    (h : (match Regex.Options.propertyClass? .none negated name with
      | none => Except.error Regex.PatternError.unknownProperty
      | some s => .ok (s, rest)) = .ok (k, after)) : rest = after := by
  split at h
  · cases h
  · exact (Prod.mk.inj (Except.ok.inj h)).2

private theorem of_readProperty {negated : Bool} {k : CharClass}
    (h : Regex.readProperty .none negated cs = .ok (k, after)) :
    (∃ more name, cs = '\x7b' :: more ∧
      Regex.readBraced .none [] more.length more = .ok (name, after)) ∨
      ∃ c, c ≠ '\x7b' ∧ cs = c :: after := by
  rw [Regex.readProperty] at h
  dsimp only [Regex.skip_none] at h
  split at h
  · cases h
  · rename_i more
    obtain ⟨⟨name, rest⟩, hread, h⟩ := Outcome.bind_eq_ok.mp h
    obtain rfl := eq_of_propertyClass? h
    exact .inl ⟨more, name, rfl, hread⟩
  · cases h
  · rename_i c more hne _
    obtain rfl := eq_of_propertyClass? h
    exact .inr ⟨c, hne, rfl⟩

private theorem skipProperty_agrees {negated : Bool} {k : CharClass}
    (hscan : skipProperty cs = some rest)
    (hread : Regex.readProperty .none negated (cs ++ tail) = .ok (k, after)) :
    after = rest ++ tail := by
  simp only [skipProperty] at hscan
  split at hscan
  · obtain ⟨⟨front, _⟩, hup, rfl⟩ := Option.map_eq_some_iff.mp hscan
    obtain ⟨rfl, hnot⟩ := of_upTo? hup
    rcases of_readProperty hread with ⟨more, name, heq, hname⟩ | ⟨c, hne, heq⟩
    · obtain ⟨front', hfront', hnot'⟩ := of_readBraced hname
      rw [(List.cons.inj heq).2.symm, List.append_eq, List.append_assoc] at hfront'
      exact (upTo_unique hnot hnot' hfront').2.symm
    · exact absurd (List.cons.inj heq).1.symm hne
  · rename_i c more hne
    obtain rfl := Option.some.inj hscan
    rcases of_readProperty hread with ⟨more, name, heq, hname⟩ | ⟨c, _, heq⟩
    · exact absurd (List.cons.inj heq).1 hne
    · exact (List.cons.inj heq).2.symm
  · cases hscan

omit [Regex.Dialect] in
/-- The scan accepts a brace behind an expression only in front of a digit. -/
theorem exists_digit_of_scanQuantifier (h : (scanQuantifier ('\x7b' :: cs)).isSome = true) :
    ∃ d more, cs = d :: more ∧ d.isDigit = true := by
  obtain ⟨result, hresult⟩ := Option.isSome_iff_exists.mp h
  obtain ⟨_, _, hresult⟩ := Option.bind_eq_some_iff.mp hresult
  dsimp only at hresult
  split at hresult
  · cases hresult
  · rename_i hdigits
    cases cs with
    | nil => simp at hdigits
    | cons d more =>
      refine ⟨d, more, rfl, ?_⟩
      cases hd : d.isDigit with
      | true => rfl
      | false => simp [hd] at hdigits

omit [Regex.Dialect] in
private theorem not_isBoundaryLetter {c : Char} (h : c.isDigit = true) :
    ¬ Regex.isBoundaryLetter c = true := by
  have hle := (Char.isDigit_iff_toNat.mp h).2
  have hascii : isAscii c = true := isAscii_iff.mpr (Nat.lt_of_le_of_lt hle (by decide))
  exact forall_ascii
    (P := fun c => c.isDigit = true → ¬ Regex.isBoundaryLetter c = true) (by decide) hascii h

omit [Regex.Dialect] in
/-- A word boundary in front of a quantifier that the scan accepts has no name. -/
theorem readBoundary_agrees {l : Look} (hquantifier : (scanQuantifier cs).isSome = true)
    (hread : Regex.readBoundary .none (cs ++ [')']) = .ok (l, after)) : after = cs ++ [')'] := by
  simp only [Regex.readBoundary] at hread
  split at hread
  · rename_i more heq
    dsimp only [Regex.skip_none] at hread
    split at hread
    · cases hread
    · rename_i c more'
      split at hread
      · rename_i hletter
        exfalso
        cases cs with
        | nil => cases heq
        | cons x cs =>
          obtain ⟨rfl, hmore⟩ := List.cons.inj heq
          obtain ⟨d, more, rfl, hd⟩ := exists_digit_of_scanQuantifier hquantifier
          obtain ⟨rfl, _⟩ := List.cons.inj hmore
          exact not_isBoundaryLetter hd hletter
      · exact (Prod.mk.inj (Except.ok.inj hread)).2.symm
  · exact (Prod.mk.inj (Except.ok.inj hread)).2.symm

/-! ## Agreement -/

/-- What the scan takes an escape for, next to what the escape means. -/
def Agrees (letter : Char) (s : LeadingSet) : Regex.Escape → Prop
  | .literal c => s = LeadingSet.empty.insert c
  | .class k =>
    s.nonAscii = true ∧ (∀ c, k.contains c = true → s.contains c = true) ∧
      (letter ≠ 'p' → letter ≠ 'P' →
        ∀ c, isAscii c = true → s.contains c = true → k.contains c = true)
  | .look _ => letter = '<' ∨ letter = '>'

omit [Regex.Dialect] in
theorem contains_digitSet {c : Char} (h : isAscii c = true) :
    digitSet.contains c = isDecimalDigit c :=
  forall_ascii (P := fun c => digitSet.contains c = isDecimalDigit c) (by decide +kernel) h

omit [Regex.Dialect] in
theorem contains_wordSet {c : Char} (h : isAscii c = true) :
    wordSet.contains c = isWordCharacter c :=
  forall_ascii (P := fun c => wordSet.contains c = isWordCharacter c) (by decide +kernel) h

omit [Regex.Dialect] in
theorem contains_blankSet {c : Char} (h : isAscii c = true) : blankSet.contains c = isBlank c :=
  forall_ascii (P := fun c => blankSet.contains c = isBlank c) (by decide +kernel) h

/-- A set that is the class on ASCII and has all other characters. -/
theorem agrees_class {letter : Char} {s : LeadingSet} {k : CharClass} (hnon : s.nonAscii = true)
    (h : ∀ c, isAscii c = true → s.contains c = k.contains c) : Agrees letter s (.class k) := by
  refine ⟨hnon, ?_, fun _ _ c hc hs => (h c hc) ▸ hs⟩
  intro c hk
  cases hc : isAscii c with
  | true => rw [h c hc, hk]
  | false => rw [LeadingSet.contains_nonAscii hc, hnon]

private theorem agrees_complement {letter : Char} {s : LeadingSet} {k : CharClass}
    (h : ∀ c, isAscii c = true → s.contains c = k.contains c) :
    Agrees letter s.negated (.class (.complement k)) := by
  apply agrees_class rfl
  intro c hc
  rw [LeadingSet.contains_negated, hc, h c hc]
  rfl

private theorem agrees_all {letter : Char} {k : CharClass} (h : letter = 'p' ∨ letter = 'P') :
    Agrees letter .all (.class k) := by
  refine ⟨rfl, fun _ _ => LeadingSet.contains_all, ?_⟩
  intro hp hP
  rcases h with h | h
  · exact absurd h hp
  · exact absurd h hP

omit [Regex.Dialect] in
private theorem look_of_mem_specialEscapes {c : Char} {e : Regex.Escape}
    (h : (c, e) ∈ Regex.specialEscapes .none) (hplain : ¬ c.isAlphanum = true) :
    (c = '<' ∨ c = '>') ∧ ∃ l, e = .look l := by
  have hall : ∀ p ∈ Regex.specialEscapes .none, p.1.isAlphanum = true ∨
      ((p.1 = '<' ∨ p.1 = '>') ∧ ∃ l, p.2 = .look l) := by
    simp [Regex.specialEscapes]
  exact (hall (c, e) h).resolve_left hplain

theorem scanEscapeSet_agrees {c : Char} {s : LeadingSet} {e : Regex.Escape}
    (hscan : scanEscapeSet (c :: cs) = some (s, rest))
    (hread : Regex.readEscape .none (c :: cs ++ tail) = .ok (e, after)) :
    after = rest ++ tail ∧ Agrees c s e := by
  dsimp only [scanEscapeSet] at hscan
  split at hscan
  · obtain ⟨rfl, rfl⟩ := Prod.mk.inj (Option.some.inj hscan)
    obtain ⟨rfl, rfl⟩ := Prod.mk.inj (Except.ok.inj hread)
    exact ⟨rfl, agrees_class rfl fun c hc => contains_digitSet hc⟩
  · obtain ⟨rfl, rfl⟩ := Prod.mk.inj (Option.some.inj hscan)
    obtain ⟨rfl, rfl⟩ := Prod.mk.inj (Except.ok.inj hread)
    exact ⟨rfl, agrees_class rfl fun c hc => contains_wordSet hc⟩
  · obtain ⟨rfl, rfl⟩ := Prod.mk.inj (Option.some.inj hscan)
    obtain ⟨rfl, rfl⟩ := Prod.mk.inj (Except.ok.inj hread)
    exact ⟨rfl, agrees_class rfl fun c hc => contains_blankSet hc⟩
  · obtain ⟨rfl, rfl⟩ := Prod.mk.inj (Option.some.inj hscan)
    obtain ⟨rfl, rfl⟩ := Prod.mk.inj (Except.ok.inj hread)
    exact ⟨rfl, agrees_complement fun c hc => contains_digitSet hc⟩
  · obtain ⟨rfl, rfl⟩ := Prod.mk.inj (Option.some.inj hscan)
    obtain ⟨rfl, rfl⟩ := Prod.mk.inj (Except.ok.inj hread)
    exact ⟨rfl, agrees_complement fun c hc => contains_wordSet hc⟩
  · obtain ⟨rfl, rfl⟩ := Prod.mk.inj (Option.some.inj hscan)
    obtain ⟨rfl, rfl⟩ := Prod.mk.inj (Except.ok.inj hread)
    exact ⟨rfl, agrees_complement fun c hc => contains_blankSet hc⟩
  iterate 5
    · obtain ⟨rfl, rfl⟩ := Prod.mk.inj (Option.some.inj hscan)
      obtain ⟨rfl, rfl⟩ := Prod.mk.inj (Except.ok.inj hread)
      exact ⟨rfl, rfl⟩
  · obtain ⟨⟨x, _⟩, hhex, hscan⟩ := Option.map_eq_some_iff.mp hscan
    obtain ⟨rfl, rfl⟩ := Prod.mk.inj hscan
    obtain ⟨⟨d, _⟩, hd, hread⟩ := Outcome.map_eq_ok.mp hread
    obtain ⟨rfl, rfl⟩ := Prod.mk.inj hread
    obtain ⟨rfl, rfl⟩ := scanHex_agrees hhex hd
    exact ⟨rfl, rfl⟩
  · obtain ⟨_, hskip, hscan⟩ := Option.map_eq_some_iff.mp hscan
    obtain ⟨rfl, rfl⟩ := Prod.mk.inj hscan
    obtain ⟨⟨k, _⟩, hk, hread⟩ := Outcome.map_eq_ok.mp hread
    obtain ⟨rfl, rfl⟩ := Prod.mk.inj hread
    exact ⟨skipProperty_agrees hskip hk, agrees_all (.inl rfl)⟩
  · obtain ⟨_, hskip, hscan⟩ := Option.map_eq_some_iff.mp hscan
    obtain ⟨rfl, rfl⟩ := Prod.mk.inj hscan
    obtain ⟨⟨k, _⟩, hk, hread⟩ := Outcome.map_eq_ok.mp hread
    obtain ⟨rfl, rfl⟩ := Prod.mk.inj hread
    exact ⟨skipProperty_agrees hskip hk, agrees_all (.inr rfl)⟩
  · split at hscan
    · cases hscan
    · rename_i hplain
      obtain ⟨rfl, rfl⟩ := Prod.mk.inj (Option.some.inj hscan)
      have hne : ∀ d : Char, d.isAlphanum = true → c ≠ d := by
        rintro d hd rfl
        exact hplain hd
      rw [List.cons_append, Regex.readEscape, if_neg (hne 'x' rfl), if_neg (hne 'u' rfl),
        if_neg (hne 'U' rfl), if_neg (hne 'p' rfl), if_neg (hne 'P' rfl),
        if_neg (hne 'b' rfl)] at hread
      split at hread
      · obtain ⟨rfl, rfl⟩ := Prod.mk.inj (Except.ok.inj hread)
        exact ⟨rfl, rfl⟩
      · split at hread
        · rename_i e' he
          obtain ⟨rfl, rfl⟩ := Prod.mk.inj (Except.ok.inj hread)
          obtain ⟨front, back, hspecial, _⟩ := List.lookup_eq_some_iff.mp he
          have hmem : (c, e') ∈ Regex.specialEscapes .none := by
            rw [hspecial]
            exact List.mem_append_right _ List.mem_cons_self
          obtain ⟨hc, l, rfl⟩ := look_of_mem_specialEscapes hmem hplain
          exact ⟨rfl, hc⟩
        · cases hread

theorem class_of_isClassLetter {c : Char} {e : Regex.Escape} (hc : isClassLetter c = true)
    (h : Regex.readEscape .none (c :: cs) = .ok (e, rest)) : ∃ k, e = .class k := by
  have hmem : c = 'd' ∨ c = 'w' ∨ c = 's' ∨ c = 'D' ∨ c = 'W' ∨ c = 'S' ∨ c = 'p' ∨ c = 'P' := by
    simpa [isClassLetter] using hc
  rcases hmem with rfl | rfl | rfl | rfl | rfl | rfl | rfl | rfl
  iterate 6
    · obtain ⟨rfl, rfl⟩ := Prod.mk.inj (Except.ok.inj h)
      exact ⟨_, rfl⟩
  all_goals
    obtain ⟨⟨k, _⟩, _, hk⟩ := Outcome.map_eq_ok.mp h
    obtain ⟨rfl, rfl⟩ := Prod.mk.inj hk
    exact ⟨k, rfl⟩

/-- An escape that the scan takes for one character stands for that character, or for none. -/
theorem scanEscapedChar_agrees {c : Char} {e : Regex.Escape}
    (hscan : scanEscapedChar cs = some (c, rest))
    (hread : Regex.readEscape .none (cs ++ tail) = .ok (e, after)) :
    after = rest ++ tail ∧ (e = .literal c ∨ ∃ l, e = .look l) := by
  obtain ⟨⟨s, _⟩, hset, hscan⟩ := Option.bind_eq_some_iff.mp hscan
  obtain ⟨_, hc, hscan⟩ := Option.bind_eq_some_iff.mp hscan
  obtain ⟨rfl, rfl⟩ := Prod.mk.inj (Option.some.inj hscan)
  cases cs with
  | nil => cases hset
  | cons a cs =>
    obtain ⟨hafter, hagrees⟩ := scanEscapeSet_agrees hset hread
    refine ⟨hafter, ?_⟩
    cases e with
    | literal x =>
      subst hagrees
      exact .inl (LeadingSet.eq_of_single?_insert hc ▸ rfl)
    | «class» k =>
      rw [LeadingSet.single?_of_nonAscii hagrees.1] at hc
      cases hc
    | look l => exact .inr ⟨l, rfl⟩

end Leading

end PredictiveParsing
