import PredictiveParsing.Grammar.Production

/-!
# Derivations

What a phrase derives: lists of categories, where options are taken or passed over, repetitions
iterate, one branch of a choice is taken and calls stand for what the called rules derive. The depth
of a derivation says how many calls nest in it at most.
-/

namespace PredictiveParsing

namespace Phrase

/-- Every choice has a branch. -/
def HasBranches : Phrase → Prop
  | nil => True
  | terminal _ _ rest => rest.HasBranches
  | call _ _ rest => rest.HasBranches
  | option _ body rest => body.HasBranches ∧ rest.HasBranches
  | repetition _ _ body rest => body.HasBranches ∧ rest.HasBranches
  | choice (n := n) _ _ body rest => (n ≠ 0 ∧ ∀ k, (body k).HasBranches) ∧ rest.HasBranches

/-- A token of the category is among the pieces. -/
def Consumes (x : CategoryId) (p : Phrase) : Prop :=
  ∃ idx, (Occurrence.terminal x, idx) ∈ p.occurrences

section

variable {x c : CategoryId} {i : Nat} {body rest : Phrase}

theorem consumes_terminal : (terminal c i rest).Consumes x ↔ x = c ∨ rest.Consumes x := by
  simp [Consumes, occurrences, exists_or]

theorem consumes_call {r : String} : (call r i rest).Consumes x ↔ rest.Consumes x := by
  simp [Consumes, occurrences]

theorem consumes_option : (option i body rest).Consumes x ↔ body.Consumes x ∨ rest.Consumes x := by
  simp [Consumes, occurrences, exists_or]

theorem consumes_repetition {b : Bool} :
    (repetition i b body rest).Consumes x ↔ body.Consumes x ∨ rest.Consumes x := by
  simp [Consumes, occurrences, exists_or]

theorem consumes_choice {n : Nat} {gated : Fin n → Bool} {body : Fin n → Phrase} :
    (choice i gated body rest).Consumes x ↔ (∃ k, (body k).Consumes x) ∨ rest.Consumes x := by
  simp only [Consumes, occurrences, List.mem_cons, List.mem_append, List.mem_flatten,
    List.mem_ofFn, Prod.mk.injEq, reduceCtorEq, false_and, false_or, exists_or]
  refine or_congr_left ⟨?_, ?_⟩
  · rintro ⟨idx, _, ⟨k, rfl⟩, h⟩
    exact ⟨k, idx, h⟩
  · rintro ⟨k, idx, h⟩
    exact ⟨idx, _, ⟨k, rfl⟩, h⟩

end

/-- Where all rounds of a repetition together consume nothing there may be none, or one of them
consumes nothing. -/
theorem eq_false_or_nil_mem {α : Type} {b : Bool} {vs : List (List α)} (hn : b = true → vs ≠ [])
    (h : vs.flatten = []) : b = false ∨ [] ∈ vs := by
  cases b with
  | false => exact .inl rfl
  | true =>
    obtain ⟨v, hv⟩ := List.exists_mem_of_ne_nil vs (hn rfl)
    exact .inr (List.flatten_eq_nil_iff.mp h v hv ▸ hv)

/-- The categories that a phrase derives with calls that nest at most so deep. -/
inductive Derives (g : Grammar) : (depth : Nat) → Phrase → List CategoryId → Prop
  | nil {d} : Derives g d .nil []
  | terminal {d c i rest w} (hw : Derives g d rest w) : Derives g d (.terminal c i rest) (c :: w)
  | call {d r i rest p v w} (hp : g.phrase? r = some p) (hv : Derives g d p v)
      (hw : Derives g (d + 1) rest w) : Derives g (d + 1) (.call r i rest) (v ++ w)
  | skip {d i body rest w} (hw : Derives g d rest w) : Derives g d (.option i body rest) w
  | take {d i body rest v w} (hv : Derives g d body v) (hw : Derives g d rest w) :
      Derives g d (.option i body rest) (v ++ w)
  | repetition {d i b body rest w} {vs : List (List CategoryId)} (hn : b = true → vs ≠ [])
      (hv : ∀ v ∈ vs, Derives g d body v) (hw : Derives g d rest w) :
      Derives g d (.repetition i b body rest) (vs.flatten ++ w)
  | choice {d n i rest v w} {gated : Fin n → Bool} {body : Fin n → Phrase} (k : Fin n)
      (hv : Derives g d (body k) v) (hw : Derives g d rest w) :
      Derives g d (.choice i gated body rest) (v ++ w)

end Phrase

/-- The categories that a rule derives with calls that nest at most so deep, its own included. -/
def Grammar.Derives (g : Grammar) (depth : Nat) (rule : String) (w : List CategoryId) : Prop :=
  ∃ p below, g.phrase? rule = some p ∧ below < depth ∧ p.Derives g below w

theorem Phrase.Derives.mono {g : Grammar} {d e : Nat} {p : Phrase} {w : List CategoryId}
    (h : p.Derives g d w) (hd : d ≤ e) : p.Derives g e w := by
  induction h generalizing e with
  | nil => exact .nil
  | terminal _ ih => exact .terminal (ih hd)
  | call hp _ _ ihv ihw =>
    obtain ⟨e, rfl⟩ : ∃ e', e = e' + 1 := ⟨e - 1, by omega⟩
    exact .call hp (ihv (Nat.le_of_succ_le_succ hd)) (ihw hd)
  | skip _ ih => exact .skip (ih hd)
  | take _ _ ihv ihw => exact .take (ihv hd) (ihw hd)
  | repetition hn _ _ ihv ihw => exact .repetition hn (fun v hv => ihv v hv hd) (ihw hd)
  | choice k _ _ ihv ihw => exact .choice k (ihv hd) (ihw hd)

end PredictiveParsing
