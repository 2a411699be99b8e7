import PredictiveParsing.Proofs.Leading.Classes
import PredictiveParsing.Proofs.Leading.Quantifiers

/-!
# Patterns

The scan of a legible source, side by side with the reading of the pattern. Between two pieces of a
branch both stand at the same place; what the scan has of the branch so far covers what has been
read of it, wherever a match can begin in the branch.
-/

namespace PredictiveParsing.Leading

open Regex (Piece Reading Opened)

variable {cs rest : List Char} {x : First} {leading : Bool} {q : Piece} {branches ps : List Piece}
  {opened : List Opened} {names : List (List Char)}

/-! ## Groups -/

variable [Regex.Dialect]

private theorem of_readGroupName {name : List Char}
    (h : Regex.readGroupName cs = .ok (name, rest)) :
    ∃ front, cs = front ++ '>' :: rest ∧ '>' ∉ front := by
  rw [Regex.readGroupName] at h
  split at h
  · cases h
  · rename_i c more hdrop
    have hrest : rest = more := by
      dsimp only at h
      split at h
      · cases h
      · split at h
        · exact (Prod.mk.inj (Except.ok.inj h)).2.symm
        · cases h
    subst hrest
    have hc : c = '>' := by
      have hhead := List.head?_dropWhile_not (· != '>') cs
      rw [hdrop] at hhead
      simpa using hhead
    refine ⟨cs.takeWhile (· != '>'), ?_, ?_⟩
    · rw [← hc, ← hdrop, hc, List.takeWhile_append_dropWhile]
    · intro hmem
      have hall := List.all_eq_true.mp List.all_takeWhile '>' hmem
      simp at hall

private theorem openNamed_agrees {front after text : List Char} {r : Reading}
    (hup : upTo? '>' cs = some (front, after))
    (hread : Reading.openNamed ⟨text, .none, branches, ps, opened, names⟩ (cs ++ [')']) = .ok r) :
    ∃ names', r = ⟨after ++ [')'], .none, [], [], ⟨branches, ps, .none⟩ :: opened, names'⟩ := by
  obtain ⟨rfl, hnot⟩ := of_upTo? hup
  obtain ⟨⟨name, rest⟩, hname, hread⟩ := Outcome.bind_eq_ok.mp hread
  obtain ⟨front', heq, hnot'⟩ := of_readGroupName hname
  rw [List.append_assoc] at heq
  obtain ⟨rfl, rfl⟩ := upTo_unique hnot hnot' heq
  dsimp only at hread
  split at hread
  · cases hread
  · exact ⟨name :: names, (Except.ok.inj hread).symm⟩

/-- A group that the scan enters is opened at the same place, with the options around it. -/
theorem readGroup_agrees {r : Reading} (hscan : skipGroupHead cs = some rest)
    (hread : Reading.readGroup ⟨'(' :: cs ++ [')'], .none, branches, ps, opened, names⟩
      (cs ++ [')']) = .ok r) :
    ∃ names', r = ⟨rest ++ [')'], .none, [], [], ⟨branches, ps, .none⟩ :: opened, names'⟩ := by
  simp only [skipGroupHead] at hscan
  split at hscan
  · obtain rfl := Option.some.inj hscan
    exact ⟨names, (Except.ok.inj hread).symm⟩
  · obtain ⟨⟨front, _⟩, hup, rfl⟩ := Option.map_eq_some_iff.mp hscan
    exact openNamed_agrees hup hread
  · obtain ⟨⟨front, _⟩, hup, rfl⟩ := Option.map_eq_some_iff.mp hscan
    rw [Reading.readGroup] at hread
    dsimp only [Regex.skip_none] at hread
    split at hread
    · cases hread
    · cases hread
    · cases hread
    · cases hread
    · rename_i heq
      cases heq
    · rename_i heq
      obtain rfl := (List.cons.inj (List.cons.inj heq).2).2
      exact openNamed_agrees hup hread
    · rename_i hnamed heq
      exact (hnamed _ (List.cons.inj heq).2.symm).elim
    · rename_i hquestion
      exact absurd rfl (hquestion _)
  · cases hscan
  · rename_i hne
    obtain rfl := Option.some.inj hscan
    have hhead : ∀ more, cs ++ [')'] ≠ '?' :: more := by
      intro more heq
      cases cs with
      | nil => cases heq
      | cons c cs =>
        obtain ⟨rfl, _⟩ := List.cons.inj heq
        exact hne cs rfl
    rw [Reading.readGroup] at hread
    dsimp only [Regex.skip_none] at hread
    split at hread
    iterate 7
      · rename_i heq
        exact absurd heq (hhead _)
    exact ⟨names, (Except.ok.inj hread).symm⟩

/-! ## Single expressions -/

theorem covers_single (c : Char) :
    (First.of (LeadingSet.empty.insert c)).Covers (Regex.literalRegex .none c) :=
  .chars (Demand.met_single (d := .atLeast))

private theorem covers_dot : (First.of dotSet).Covers (Regex.dotRegex .none) := by
  refine .chars fun c hc => ?_
  have hne : c ≠ '\n' := by
    rintro rfl
    cases hc
  cases hascii : Unicode.isAscii c with
  | true =>
    exact Unicode.forall_ascii (P := fun c => c ≠ '\n' → dotSet.contains c = true)
      (by decide +kernel) hascii hne
  | false => exact LeadingSet.contains_nonAscii hascii

def leaf (e : Regex) : Piece := ⟨e, 0, 1, true⟩

def escapeRegex : Regex.Escape → Regex
  | .literal c => Regex.literalRegex .none c
  | .class k => .chars k
  | .look l => .look l

private theorem step_escape {r : Reading}
    (h : Reading.step ⟨'\\' :: cs, .none, branches, ps, opened, names⟩ '\\' cs = .ok r) :
    ∃ e after, Regex.readEscape .none cs = .ok (e, after) ∧
      r = ⟨after, .none, branches, leaf (escapeRegex e) :: ps, opened, names⟩ := by
  obtain ⟨⟨e, after⟩, he, h⟩ := Outcome.bind_eq_ok.mp h
  refine ⟨e, after, he, ?_⟩
  cases e with
  | literal c => exact (Except.ok.inj h).symm
  | «class» k => exact (Except.ok.inj h).symm
  | look l => exact (Except.ok.inj h).symm

theorem Agrees.covers {c : Char} {s : LeadingSet} {e : Regex.Escape} (h : Agrees c s e)
    (hc : c ≠ '<' ∧ c ≠ '>') : (First.of s).Covers (escapeRegex e) := by
  cases e with
  | literal d =>
    obtain rfl : s = LeadingSet.empty.insert d := h
    exact covers_single d
  | «class» k => exact .chars h.2.1
  | look l =>
    rcases h with h | h
    · exact absurd h hc.1
    · exact absurd h hc.2

/-- The scan reads an escape as the pattern does, apart from a word boundary such as `\<`. -/
theorem escape_agrees {e : Regex.Escape} {after : List Char}
    (hscan : scanEscape cs = some (x, rest)) (hquantifier : (scanQuantifier rest).isSome = true)
    (hread : Regex.readEscape .none (cs ++ [')']) = .ok (e, after)) :
    after = rest ++ [')'] ∧
      (cs.head? ≠ some '<' → cs.head? ≠ some '>' → x.Covers (escapeRegex e)) := by
  cases cs with
  | nil => cases hscan
  | cons c cs =>
    rw [scanEscape] at hscan
    dsimp only at hscan
    split at hscan
    · rename_i hc
      obtain ⟨rfl, rfl⟩ := Prod.mk.inj (Option.some.inj hscan)
      have hc : c = 'b' ∨ c = 'B' ∨ c = 'A' ∨ c = 'z' := by simpa [or_assoc] using hc
      rcases hc with rfl | rfl | rfl | rfl
      · obtain ⟨⟨l, _⟩, hl, hread⟩ := Outcome.map_eq_ok.mp hread
        obtain ⟨rfl, rfl⟩ := Prod.mk.inj hread
        exact ⟨readBoundary_agrees hquantifier hl, fun _ _ => .look l⟩
      all_goals
        obtain ⟨rfl, rfl⟩ := Prod.mk.inj (Except.ok.inj hread)
        exact ⟨rfl, fun _ _ => .look _⟩
    · obtain ⟨⟨s, _⟩, hset, hscan⟩ := Option.map_eq_some_iff.mp hscan
      obtain ⟨rfl, rfl⟩ := Prod.mk.inj hscan
      obtain ⟨hafter, hagrees⟩ := scanEscapeSet_agrees hset hread
      refine ⟨hafter, fun hless hgreater => hagrees.covers ⟨?_, ?_⟩⟩
      · rintro rfl
        exact hless rfl
      · rintro rfl
        exact hgreater rfl

def marks : List Char := ['(', ')', '|', '[', '?', '*', '+', '\x7b', '\\', '.', '^', '$']

private theorem step_literal {c : Char} (h : c ∉ marks) :
    Reading.step ⟨c :: cs, .none, branches, ps, opened, names⟩ c cs =
      .ok ⟨cs, .none, branches, leaf (Regex.literalRegex .none c) :: ps, opened, names⟩ := by
  simp only [Reading.step]
  split
  iterate 12
    · exact absurd (by decide) h
  rfl

/-! ## Branches -/

omit [Regex.Dialect] in
theorem scanBranch_cons {fuel : Nat} {before : First} {c : Char} (hbar : c ≠ '|')
    (hclose : c ≠ ')') :
    scanBranch (fuel + 1) before (c :: cs) =
      (scanPiece fuel c cs).bind fun (piece, rest) =>
        scanBranch fuel (before.followedBy piece) rest := by
  rw [scanBranch, if_neg (by simp [hbar, hclose]), scanPiece]
  cases scanAtom fuel c cs with
  | none => rfl
  | some atom =>
    dsimp only [Option.bind_eq_bind, Option.bind_some]
    cases scanQuantifier atom.2 with
    | none => rfl
    | some quantifier => rfl

omit [Regex.Dialect] in
private theorem head_of_scanBranch {fuel : Nat} {before : First} {result : Rest First}
    (h : scanBranch fuel before cs = some result) : cs.head? ≠ some '?' := by
  cases cs with
  | nil => simp
  | cons c cs =>
    intro hc
    obtain rfl := Option.some.inj hc
    cases fuel with
    | zero => cases h
    | succ fuel =>
      rw [scanBranch_cons (by decide) (by decide)] at h
      obtain ⟨piece, hpiece, _⟩ := Option.bind_eq_some_iff.mp h
      obtain ⟨atom, hatom, _⟩ := Option.bind_eq_some_iff.mp hpiece
      cases fuel with
      | zero => cases hatom
      | succ fuel => cases hatom

private theorem First.covers_all (e : Regex) : (⟨.all, true⟩ : First).Covers e where
  contains := fun _ _ => LeadingSet.contains_all
  nullable := fun _ => rfl

private theorem First.Covers.sequence_cons_of_not_nullable {p : Piece}
    (hx : x.Covers (Piece.sequence ps).regex) (hn : x.nullable = false) :
    x.Covers (Piece.sequence (p :: ps)).regex := by
  have h := hx.sequence_cons (First.covers_all p.regex)
  rwa [First.followedBy, hn] at h

/-- The scan of branches, of the rest of a branch and of an expression, at one measure of fuel: each
ends at a place that the reading reaches too. -/
structure Agreement (fuel : Nat) : Prop where
  branches : ∀ {cs rest x leading q branches opened names},
    scanBranches fuel cs = some (x, rest) → legibleBranches fuel leading cs = true →
      Reads ⟨cs ++ [')'], .none, branches, [], opened, names⟩ q →
        ∃ bs ps names', Reads ⟨rest ++ [')'], .none, bs ++ branches, ps, opened, names'⟩ q ∧
          (leading = true →
            (∀ p ∈ bs, x.Covers p.regex) ∧ x.Covers (Piece.sequence ps).regex)
  branch : ∀ {cs rest before x leading q branches ps opened names},
    scanBranch fuel before cs = some (x, rest) →
      legibleBranch fuel (leading && before.nullable) cs = true →
      (leading = true → before.Covers (Piece.sequence ps).regex) →
      Reads ⟨cs ++ [')'], .none, branches, ps, opened, names⟩ q →
        ∃ ps' names', Reads ⟨rest ++ [')'], .none, branches, ps', opened, names'⟩ q ∧
          (leading = true → x.Covers (Piece.sequence ps').regex)
  atom : ∀ {c cs rest x leading q branches ps opened names}, c ≠ '|' → c ≠ ')' →
    scanAtom fuel c cs = some (x, rest) → legibleAtom fuel leading c cs = true →
      (scanQuantifier rest).isSome = true →
      Reads ⟨c :: cs ++ [')'], .none, branches, ps, opened, names⟩ q →
        ∃ p names', Reads ⟨rest ++ [')'], .none, branches, p :: ps, opened, names'⟩ q ∧
          (leading = true → x.Covers p.regex)

private theorem agreement_zero : Agreement 0 where
  branches := fun h => by cases h
  branch := fun h => by cases h
  atom := fun _ _ h => by cases h

private theorem branches_succ {fuel : Nat} (ih : Agreement fuel)
    (hscan : scanBranches (fuel + 1) cs = some (x, rest))
    (hlegible : legibleBranches (fuel + 1) leading cs = true)
    (h : Reads ⟨cs ++ [')'], .none, branches, [], opened, names⟩ q) :
    ∃ bs ps names', Reads ⟨rest ++ [')'], .none, bs ++ branches, ps, opened, names'⟩ q ∧
      (leading = true →
        (∀ p ∈ bs, x.Covers p.regex) ∧ x.Covers (Piece.sequence ps).regex) := by
  obtain ⟨⟨first, after⟩, hbranch, hscan⟩ := Option.bind_eq_some_iff.mp hscan
  rw [legibleBranches, hbranch, Bool.and_eq_true] at hlegible
  have hfirst : legibleBranch fuel (leading && First.epsilon.nullable) cs = true := by
    rw [First.epsilon, Bool.and_true]
    exact hlegible.1
  have hempty : leading = true → First.epsilon.Covers (Piece.sequence []).regex := fun _ => .empty
  obtain ⟨ps, names', h, hcovers⟩ := ih.branch hbranch hfirst hempty h
  dsimp only at hscan
  split at hscan
  · rename_i more
    obtain ⟨⟨others, rest'⟩, hothers, hscan⟩ := Option.bind_eq_some_iff.mp hscan
    obtain ⟨rfl, rfl⟩ := Prod.mk.inj (Option.some.inj hscan)
    obtain ⟨r, hr, h⟩ := h.step
    obtain rfl := Except.ok.inj hr
    obtain ⟨bs, ps', names'', h, hall⟩ := ih.branches hothers hlegible.2 h
    refine ⟨bs ++ [Piece.sequence ps], ps', names'', ?_, fun hlead => ⟨?_, ?_⟩⟩
    · rw [List.append_assoc]
      exact h
    · intro p hp
      rcases List.mem_append.mp hp with hp | hp
      · exact ((hall hlead).1 p hp).either_right
      · rw [List.mem_singleton.mp hp]
        exact (hcovers hlead).either_left
    · exact (hall hlead).2.either_right
  · obtain ⟨rfl, rfl⟩ := Prod.mk.inj (Option.some.inj hscan)
    exact ⟨[], ps, names', h, fun hlead => ⟨fun p hp => (by cases hp), hcovers hlead⟩⟩

omit [Regex.Dialect] in
private theorem nullable_followedBy {a b : First} :
    (a.followedBy b).nullable = (a.nullable && b.nullable) := by
  rw [First.followedBy]
  cases ha : a.nullable with
  | true => rfl
  | false => exact ha

private theorem branch_succ {fuel : Nat} {before : First} (ih : Agreement fuel)
    (hscan : scanBranch (fuel + 1) before cs = some (x, rest))
    (hlegible : legibleBranch (fuel + 1) (leading && before.nullable) cs = true)
    (hbefore : leading = true → before.Covers (Piece.sequence ps).regex)
    (h : Reads ⟨cs ++ [')'], .none, branches, ps, opened, names⟩ q) :
    ∃ ps' names', Reads ⟨rest ++ [')'], .none, branches, ps', opened, names'⟩ q ∧
      (leading = true → x.Covers (Piece.sequence ps').regex) := by
  cases cs with
  | nil =>
    obtain ⟨rfl, rfl⟩ := Prod.mk.inj (Option.some.inj hscan)
    exact ⟨ps, names, h, hbefore⟩
  | cons c cs =>
    by_cases hend : c = '|' ∨ c = ')'
    · rw [scanBranch, if_pos (by simpa using hend)] at hscan
      obtain ⟨rfl, rfl⟩ := Prod.mk.inj (Option.some.inj hscan)
      exact ⟨ps, names, h, hbefore⟩
    · obtain ⟨hbar, hclose⟩ := not_or.mp hend
      rw [scanBranch_cons hbar hclose] at hscan
      obtain ⟨⟨piece, after⟩, hpiece, hmore⟩ := Option.bind_eq_some_iff.mp hscan
      rw [legibleBranch, if_neg (by simpa using hend), hpiece, Bool.and_eq_true] at hlegible
      obtain ⟨⟨atom, text⟩, hatom, hpiece⟩ := Option.bind_eq_some_iff.mp hpiece
      obtain ⟨⟨zero, _⟩, hzero, hpiece⟩ := Option.bind_eq_some_iff.mp hpiece
      obtain ⟨rfl, rfl⟩ := Prod.mk.inj (Option.some.inj hpiece)
      obtain ⟨p, names', h, hp⟩ := ih.atom hbar hclose hatom hlegible.1
        (Option.isSome_of_eq_some hzero) h
      obtain ⟨p', hp', h⟩ := quantifier_agrees hzero (head_of_scanBranch hmore) h
      refine ih.branch hmore ?_ (fun hlead => ?_) h
      · rw [nullable_followedBy, ← Bool.and_assoc]
        exact hlegible.2
      · cases hn : before.nullable with
        | true => exact (hbefore hlead).sequence_cons (hp' atom (hp (by rw [hlead, hn]; rfl)))
        | false =>
          rw [First.followedBy, hn]
          exact (hbefore hlead).sequence_cons_of_not_nullable hn

private theorem atom_succ {fuel : Nat} {c : Char} (ih : Agreement fuel) (hbar : c ≠ '|')
    (hclose : c ≠ ')') (hscan : scanAtom (fuel + 1) c cs = some (x, rest))
    (hlegible : legibleAtom (fuel + 1) leading c cs = true)
    (hquantifier : (scanQuantifier rest).isSome = true)
    (h : Reads ⟨c :: cs ++ [')'], .none, branches, ps, opened, names⟩ q) :
    ∃ p names', Reads ⟨rest ++ [')'], .none, branches, p :: ps, opened, names'⟩ q ∧
      (leading = true → x.Covers p.regex) := by
  obtain ⟨r, hr, h⟩ := h.step
  simp only [scanAtom] at hscan
  split at hscan
  · obtain ⟨text, hhead, hscan⟩ := Option.bind_eq_some_iff.mp hscan
    obtain ⟨⟨inner, after⟩, hinner, hscan⟩ := Option.bind_eq_some_iff.mp hscan
    have hlegible : legibleBranches fuel leading text = true := by
      simpa [legibleAtom, hhead] using hlegible
    obtain ⟨names₁, rfl⟩ := readGroup_agrees hhead hr
    obtain ⟨bs, ps', names₂, h, hall⟩ := ih.branches hinner hlegible h
    dsimp only at hscan
    split at hscan
    · obtain ⟨rfl, rfl⟩ := Prod.mk.inj (Option.some.inj hscan)
      obtain ⟨r, hr, h⟩ := h.step
      rw [List.append_nil] at hr
      obtain rfl := Except.ok.inj hr
      exact ⟨_, names₂, h, fun hlead => (hall hlead).2.alternatives (hall hlead).1⟩
    · cases hscan
  · obtain ⟨⟨s, _⟩, hclass, hscan⟩ := Option.map_eq_some_iff.mp hscan
    obtain ⟨rfl, rfl⟩ := Prod.mk.inj hscan
    obtain ⟨⟨⟨k, depth⟩, after⟩, hread, hr⟩ := Outcome.bind_eq_ok.mp hr
    obtain rfl := Except.ok.inj hr
    obtain ⟨rfl, hk⟩ := scanClass_agrees hclass hlegible hread
    exact ⟨_, names, h, fun hlead => .chars (hk hlead)⟩
  · obtain ⟨e, after, hread, rfl⟩ := step_escape hr
    obtain ⟨rfl, he⟩ := escape_agrees hscan hquantifier hread
    refine ⟨_, names, h, fun hlead => ?_⟩
    have hhead : cs.head? ≠ some '<' ∧ cs.head? ≠ some '>' := by
      simpa [legibleAtom, hlead] using hlegible
    exact he hhead.1 hhead.2
  · obtain ⟨rfl, rfl⟩ := Prod.mk.inj (Option.some.inj hscan)
    obtain rfl := Except.ok.inj hr
    exact ⟨_, names, h, fun _ => covers_dot⟩
  · obtain ⟨rfl, rfl⟩ := Prod.mk.inj (Option.some.inj hscan)
    obtain rfl := Except.ok.inj hr
    exact ⟨_, names, h, fun _ => .look _⟩
  · obtain ⟨rfl, rfl⟩ := Prod.mk.inj (Option.some.inj hscan)
    obtain rfl := Except.ok.inj hr
    exact ⟨_, names, h, fun _ => .look _⟩
  · cases hscan
  · cases hscan
  · cases hscan
  · cases hscan
  · obtain ⟨rfl, rfl⟩ := Prod.mk.inj (Option.some.inj hscan)
    rename_i hopen hclass hescape hdot hstart hend hstar hplus hquestion hbrace
    have hplain : c ∉ marks := by
      simp only [marks, List.mem_cons, List.not_mem_nil, or_false, not_or]
      exact ⟨hopen, hclose, hbar, hclass, hquestion, hstar, hplus, hbrace, hescape, hdot, hstart,
        hend⟩
    rw [step_literal hplain] at hr
    obtain rfl := Except.ok.inj hr
    exact ⟨_, names, h, fun _ => covers_single c⟩

theorem agreement : ∀ fuel, Agreement fuel
  | 0 => agreement_zero
  | fuel + 1 => {
    branches := branches_succ (agreement fuel)
    branch := branch_succ (agreement fuel)
    atom := atom_succ (agreement fuel) }

end PredictiveParsing.Leading
