import PredictiveParsing.Token.Category

/-!
# Sets of categories

A set of categories lists its members in ascending order, so that equal sets are equal lists.
-/

namespace PredictiveParsing

def insertAscending (c : Nat) : List Nat → List Nat
  | [] => [c]
  | x :: xs =>
    if c < x then c :: x :: xs else if c = x then x :: xs else x :: insertAscending c xs

theorem mem_insertAscending {c d : Nat} {xs : List Nat} :
    d ∈ insertAscending c xs ↔ d = c ∨ d ∈ xs := by
  induction xs with
  | nil => simp [insertAscending]
  | cons x xs ih =>
    unfold insertAscending
    split
    · exact List.mem_cons
    · split
      · rename_i h
        rw [h, List.mem_cons, ← or_assoc, or_self]
      · rw [List.mem_cons, List.mem_cons, ih, or_left_comm]

private theorem pairwise_insertAscending {c : Nat} {xs : List Nat} (h : xs.Pairwise (· < ·)) :
    (insertAscending c xs).Pairwise (· < ·) := by
  induction xs with
  | nil => exact List.pairwise_singleton _ _
  | cons x xs ih =>
    have hx := List.pairwise_cons.1 h
    unfold insertAscending
    split
    · rename_i hc
      refine List.pairwise_cons.2 ⟨fun d hd => ?_, h⟩
      cases hd with
      | head => exact hc
      | tail _ hd => exact Nat.lt_trans hc (hx.1 d hd)
    · split
      · exact h
      · rename_i hc hne
        refine List.pairwise_cons.2 ⟨fun d hd => ?_, ih hx.2⟩
        rcases mem_insertAscending.1 hd with rfl | hd
        · exact Nat.lt_of_le_of_ne (Nat.le_of_not_lt hc) (Ne.symm hne)
        · exact hx.1 d hd

structure CategorySet where
  toList : List CategoryId
  ascending : toList.Pairwise (· < ·)
deriving DecidableEq

namespace CategorySet

def empty : CategorySet := ⟨[], List.Pairwise.nil⟩

instance : Inhabited CategorySet := ⟨empty⟩

def insert (s : CategorySet) (c : CategoryId) : CategorySet :=
  ⟨insertAscending c s.toList, pairwise_insertAscending s.ascending⟩

def ofList (cs : List CategoryId) : CategorySet := cs.foldl insert empty

def union (s t : CategorySet) : CategorySet := t.toList.foldl insert s

instance : Union CategorySet := ⟨union⟩

instance : Membership CategoryId CategorySet := ⟨fun s c => c ∈ s.toList⟩

theorem mem_insert {s : CategorySet} {c d : CategoryId} : d ∈ s.insert c ↔ d = c ∨ d ∈ s :=
  mem_insertAscending

private theorem mem_foldl_insert {cs : List CategoryId} {s : CategorySet} {c : CategoryId} :
    c ∈ cs.foldl insert s ↔ c ∈ s ∨ c ∈ cs := by
  induction cs generalizing s with
  | nil => simp
  | cons d cs ih =>
    rw [List.foldl_cons, ih, mem_insert, List.mem_cons, or_comm (a := c = d), or_assoc]

theorem mem_union {s t : CategorySet} {c : CategoryId} : c ∈ s ∪ t ↔ c ∈ s ∨ c ∈ t :=
  mem_foldl_insert

end CategorySet

end PredictiveParsing
