import Mathlib.Data.String.Basic
import PredictiveParsing.Text.Dictionary

/-!
# Looking up in dictionaries

A dictionary whose keys ascend has a value under a key if and only if one was put there, and to
change the value under one key leaves all others alone.
-/

namespace PredictiveParsing.Dictionary

variable {α β : Type} {d : Dictionary α} {key : String}

/-- The keys ascend. -/
def Ascending (d : Dictionary α) : Prop := d.Pairwise fun x y => x.1 < y.1

private theorem get?_eq_none_of_forall_lt (h : ∀ x ∈ d, key < x.1) : d.get? key = none := by
  rw [get?, List.lookup_eq_none_iff]
  exact fun x hx => by simpa using (h x hx).ne

theorem get?_cons (x : String × α) (d : Dictionary α) :
    get? (x :: d) key = if key = x.1 then some x.2 else get? d key := by
  rw [get?, List.lookup_cons]
  split <;> simp_all [get?]

private theorem forall_lt_alter {k : String} {change : Option α → α} (hk : k < key)
    (h : ∀ x ∈ d, k < x.1) : ∀ x ∈ alter key change d, k < x.1 := by
  induction d with
  | nil => simpa [alter] using hk
  | cons y d ih =>
    obtain ⟨l, v⟩ := y
    rw [List.forall_mem_cons] at h
    rw [alter]
    split
    · exact List.forall_mem_cons.mpr ⟨h.1, h.2⟩
    · split
      · exact List.forall_mem_cons.mpr ⟨hk, List.forall_mem_cons.mpr h⟩
      · exact List.forall_mem_cons.mpr ⟨h.1, ih h.2⟩

theorem Ascending.alter (h : Ascending d) (key : String) (change : Option α → α) :
    Ascending (alter key change d) := by
  induction d with
  | nil => exact List.pairwise_singleton _ _
  | cons y d ih =>
    obtain ⟨l, v⟩ := y
    obtain ⟨hl, hd⟩ := List.pairwise_cons.mp h
    rw [Dictionary.alter]
    split
    · exact List.pairwise_cons.mpr ⟨hl, hd⟩
    · split
      · rename_i hlt
        exact List.pairwise_cons.mpr
          ⟨List.forall_mem_cons.mpr ⟨hlt, fun x hx => hlt.trans (hl x hx)⟩, h⟩
      · rename_i hne hlt
        have hgt : l < key := lt_of_le_of_ne (not_lt.mp hlt) (Ne.symm hne)
        exact List.pairwise_cons.mpr ⟨forall_lt_alter hgt hl, ih hd⟩

theorem get?_alter (h : Ascending d) (key : String) (change : Option α → α) (k : String) :
    (alter key change d).get? k = if k = key then some (change (d.get? key)) else d.get? k := by
  induction d with
  | nil =>
    rw [alter, get?_cons]
    rfl
  | cons y d ih =>
    obtain ⟨l, v⟩ := y
    obtain ⟨hl, hd⟩ := List.pairwise_cons.mp h
    rw [alter]
    split
    · rename_i heq
      subst heq
      simp only [get?_cons, if_true]
      split <;> rfl
    · rename_i hne
      split
      · rename_i hlt
        have hnone : get? d key = none :=
          get?_eq_none_of_forall_lt fun x hx => hlt.trans (hl x hx)
        simp only [get?_cons, if_neg hne, hnone]
      · by_cases hk : k = l
        · subst hk
          rw [get?_cons, if_pos rfl, if_neg (Ne.symm hne), get?_cons, if_pos rfl]
        · simp only [get?_cons, if_neg hk, if_neg hne, ih hd]

theorem get?_map (f : α → β) (d : Dictionary α) :
    get? (d.map fun entry => (entry.1, f entry.2)) key = (d.get? key).map f := by
  induction d with
  | nil => rfl
  | cons y d ih =>
    obtain ⟨l, v⟩ := y
    rw [List.map_cons, get?_cons, get?_cons, ih]
    by_cases hk : key = l
    · rw [if_pos hk, if_pos hk, Option.map_some]
    · rw [if_neg hk, if_neg hk]

end PredictiveParsing.Dictionary
