import PredictiveParsing.Parsing.Session
import PredictiveParsing.Proofs.Token.Hierarchy

/-!
# Spelling

A stretch of the input spells a list of categories if its tokens belong to them, one by one.
-/

namespace PredictiveParsing.ParseContext

variable {V : Type} (c : ParseContext V)

/-- The tokens from `i` on and in front of `j` belong to the categories, one by one. -/
def Spells (i : Nat) : List CategoryId → (j : Nat) → Prop
  | [], j => i = j
  | x :: w, j =>
    i < c.tokens.endIndex ∧ c.isA (c.tokens.get i).category x = true ∧ Spells (i + 1) w j

variable {c}

theorem category_get_of_le {i : Nat} (h : c.tokens.endIndex ≤ i) :
    (c.tokens.get i).category = CategoryId.eof := by
  have hn : c.tokens.before[i]? = none := Array.getElem?_eq_none h
  rw [TokenStream.get, hn, Option.getD_none, c.tokens.last_isEof]

theorem spells_append {i k : Nat} {v w : List CategoryId} :
    c.Spells i (v ++ w) k ↔ ∃ j, c.Spells i v j ∧ c.Spells j w k := by
  induction v generalizing i with
  | nil => simp [Spells]
  | cons x v ih => simp [Spells, ih, and_assoc]

theorem Spells.eq_add {i j : Nat} {w : List CategoryId} (h : c.Spells i w j) :
    j = i + w.length := by
  induction w generalizing i with
  | nil => exact Eq.symm h
  | cons x w ih => rw [ih h.2.2, List.length_cons]; omega

theorem Spells.le_endIndex {i j : Nat} {w : List CategoryId} (h : c.Spells i w j)
    (hi : i ≤ c.tokens.endIndex) : j ≤ c.tokens.endIndex := by
  induction w generalizing i with
  | nil => exact Eq.symm h ▸ hi
  | cons x w ih => exact ih h.2.2 h.1

theorem Spells.lt_endIndex {i j : Nat} {w : List CategoryId} (h : c.Spells i w j) (hw : w ≠ []) :
    i < c.tokens.endIndex := by
  cases w with
  | nil => exact absurd rfl hw
  | cons x w => exact h.1

/-- A spelling up to the end of the input is one of all tokens that are left. -/
theorem spells_endIndex_iff {i : Nat} {w : List CategoryId} (hi : i ≤ c.tokens.endIndex) :
    c.Spells i w c.tokens.endIndex ↔
      List.Forall₂ (fun t x => c.isA t.category x = true) (c.tokens.before.toList.drop i) w := by
  induction w generalizing i with
  | nil =>
    simp only [Spells, List.forall₂_nil_right_iff, List.drop_eq_nil_iff, TokenStream.endIndex,
      Array.length_toList] at hi ⊢
    omega
  | cons x w ih =>
    rcases Nat.lt_or_eq_of_le hi with hlt | rfl
    · have hd : c.tokens.before.toList.drop i
          = c.tokens.get i :: c.tokens.before.toList.drop (i + 1) := by
        have hl : i < c.tokens.before.toList.length := by simpa [TokenStream.endIndex] using hlt
        rw [List.drop_eq_getElem_cons hl]
        have hg : c.tokens.before[i]? = some c.tokens.before[i] := by simp
        simp [TokenStream.get, hg]
      rw [hd, List.forall₂_cons, ← ih hlt]
      simp [Spells, hlt]
    · have hd : c.tokens.before.toList.drop c.tokens.endIndex = [] := by
        simp [TokenStream.endIndex]
      rw [hd]
      simp [Spells]

end PredictiveParsing.ParseContext
