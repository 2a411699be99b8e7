import Mathlib.Data.List.Nodup
import PredictiveParsing.Grammar.Production

/-!
# Rules by their names

The rule that a name calls has that name, and rules whose names differ are numbered by their places.
-/

namespace PredictiveParsing.Grammar

theorem getElem?_foldl_insert {names : List String} (h : names.Nodup) (k : Nat)
    (index : Std.HashMap String RuleId) (name : String) (i : Nat) :
    ((names.zipIdx k).foldl (fun index (name, i) => index.insert name i) index)[name]? = some i ↔
      (k ≤ i ∧ names[i - k]? = some name) ∨ (name ∉ names ∧ index[name]? = some i) := by
  induction names generalizing k index with
  | nil => simp
  | cons n names ih =>
    obtain ⟨hn, hd⟩ := List.nodup_cons.1 h
    rw [List.zipIdx_cons, List.foldl_cons, ih hd, Std.HashMap.getElem?_insert]
    -- the first name has the number `k`, all others have higher ones
    have hi : (k ≤ i ∧ (n :: names)[i - k]? = some name)
        ↔ (i = k ∧ n = name) ∨ (k + 1 ≤ i ∧ names[i - (k + 1)]? = some name) := by
      rcases Nat.lt_trichotomy i k with h | rfl | h
      · have h' : ¬k ≤ i ∧ ¬i = k ∧ ¬k + 1 ≤ i := ⟨by omega, by omega, by omega⟩
        simp [h'.1, h'.2.1, h'.2.2]
      · have h' : ¬i + 1 ≤ i := by omega
        simp [h']
      · obtain ⟨j, rfl⟩ : ∃ j, i = k + 1 + j := ⟨i - (k + 1), by omega⟩
        have h₁ : k + 1 + j - k = j + 1 := by omega
        have h₂ : ¬k + 1 + j = k := by omega
        have h₃ : k ≤ k + 1 + j := by omega
        simp [h₁, h₂, h₃]
    rw [hi]
    by_cases hnn : n = name
    · subst hnn
      simp [hn, eq_comm (a := k), or_comm]
    · have hnn' : ¬name = n := fun h => hnn h.symm
      simp [hnn, hnn']

/-- Names that differ are numbered by their places. -/
theorem getElem?_numbering {names : List String} (h : names.Nodup) {name : String} {i : RuleId} :
    (numbering names)[name]? = some i ↔ names[i]? = some name := by
  rw [numbering, getElem?_foldl_insert h]
  simp

private theorem getElem?_of_foldl_insert {names : List String} {k : Nat}
    {index : Std.HashMap String RuleId} {name : String} {i : RuleId}
    (h : ((names.zipIdx k).foldl (fun index (name, i) => index.insert name i) index)[name]? =
      some i) : (k ≤ i ∧ names[i - k]? = some name) ∨ index[name]? = some i := by
  induction names generalizing k index with
  | nil => exact .inr h
  | cons n names ih =>
    rw [List.zipIdx_cons, List.foldl_cons] at h
    rcases ih h with ⟨hk, hi⟩ | hi
    · obtain ⟨j, rfl⟩ := Nat.exists_eq_add_of_le hk
      have hj : k + 1 + j - k = j + 1 := by omega
      refine .inl ⟨by omega, ?_⟩
      rw [hj, List.getElem?_cons_succ]
      simpa using hi
    · simp only [Std.HashMap.getElem?_insert] at hi
      split at hi
      · rename_i hn
        obtain rfl : n = name := by simpa using hn
        obtain rfl := Option.some.inj hi
        simp
      · exact .inr hi

/-- Whatever rules have the same name, the one that is called is among those with the name. -/
theorem name_of_ruleId? {rules : List Production} {name : String} {i : RuleId}
    (h : (ofList rules).ruleId? name = some i) : ∃ p, rules[i]? = some p ∧ p.name = name := by
  rcases getElem?_of_foldl_insert h with ⟨-, hi⟩ | h
  · rw [List.getElem?_map, Option.map_eq_some_iff] at hi
    exact hi
  · simp at h

theorem ruleName_of_ruleId? {rules : List Production} {name : String} {i : RuleId}
    (h : (ofList rules).ruleId? name = some i) : (ofList rules).ruleName i = name := by
  obtain ⟨p, hp, rfl⟩ := name_of_ruleId? h
  simp [ruleName, ofList, hp]

theorem phrase?_of_ruleId? {rules : List Production} {name : String} {i : RuleId}
    (h : (ofList rules).ruleId? name = some i) :
    ∃ p, rules[i]? = some p ∧ (ofList rules).phrase? name = some p.phrase := by
  obtain ⟨p, hp, -⟩ := name_of_ruleId? h
  have hproduction : (ofList rules).productions[i]? = some p := by simpa [ofList] using hp
  exact ⟨p, hp, by simp [phrase?, h, hproduction]⟩

end PredictiveParsing.Grammar
