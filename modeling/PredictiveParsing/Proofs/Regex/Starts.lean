import PredictiveParsing.Proofs.Regex.Matches

/-!
# First characters of matches

The characters with which a match of an expression that is not empty can begin, as a relation on
the expression, and the expressions that match only where the text starts.
-/

namespace PredictiveParsing.Regex

variable [Dialect]

/-- Some match of the expression begins with the character. -/
def Starts (c : Char) : Regex → Prop
  | empty => False
  | chars s => s.contains c = true
  | look _ => False
  | cat a b => Starts c a ∨ (a.nullable = true ∧ Starts c b)
  | alt a b => Starts c a ∨ Starts c b
  | plus _ a => Starts c a
  | again _ a => Starts c a

theorem Matches.nullable {e : Regex} {before : Option Char} {xs rest : List Char}
    (h : e.Matches before xs rest) (hxs : xs = []) : e.nullable = true := by
  induction h with
  | empty => rfl
  | chars => cases hxs
  | look => rfl
  | cat _ _ iha ihb =>
    obtain ⟨hxs, hys⟩ := List.append_eq_nil_iff.mp hxs
    simp [Regex.nullable, iha hxs, ihb hys]
  | left _ ih => simp [Regex.nullable, ih hxs]
  | right _ ih => simp [Regex.nullable, ih hxs]
  | plus _ _ iha _ => exact iha (List.append_eq_nil_iff.mp hxs).1
  | stop => rfl
  | again => rfl

/-- A match that is not empty begins with one of the characters. -/
theorem Matches.starts {e : Regex} {before : Option Char} {c : Char} {xs cs rest : List Char}
    (h : e.Matches before xs rest) (hxs : xs = c :: cs) : e.Starts c := by
  induction h generalizing cs with
  | empty => cases hxs
  | chars hc =>
    obtain ⟨rfl, -⟩ := List.cons.inj hxs
    exact hc
  | look => cases hxs
  | cat ha _ iha ihb =>
    rcases List.append_eq_cons_iff.mp hxs with ⟨hnil, hys⟩ | ⟨more, hxs, -⟩
    · exact .inr ⟨ha.nullable hnil, ihb hys⟩
    · exact .inl (iha hxs)
  | left _ ih => exact .inl (ih hxs)
  | right _ ih => exact .inr (ih hxs)
  | plus _ _ iha ihb =>
    rcases List.append_eq_cons_iff.mp hxs with ⟨-, hys⟩ | ⟨more, hxs, -⟩
    · exact ihb hys
    · exact iha hxs
  | stop => cases hxs
  | again _ _ iha ihb =>
    rcases List.append_eq_cons_iff.mp hxs with ⟨-, hys⟩ | ⟨more, hxs, -⟩
    · exact ihb hys
    · exact iha hxs

/-- Behind the start of a text an expression matches only there, and as it does on its own. -/
theorem Matches.of_anchored {e : Regex} {before : Option Char} {xs rest : List Char}
    (h : ((Regex.look .textStart).andThen e).Matches before xs rest) :
    before = none ∧ e.Matches none xs rest := by
  obtain ⟨ys, zs, rfl, hlook, he⟩ := h.of_andThen
  cases hlook with
  | look hbefore =>
    obtain rfl : before = none := by simpa [Look.holds] using hbefore
    exact ⟨rfl, he⟩

/-! ## Combinations -/

variable {c : Char} {a b : Regex}

theorem starts_andThen : (a.andThen b).Starts c ↔
    a.Starts c ∨ (a.nullable = true ∧ b.Starts c) := by
  unfold andThen
  split
  · subst a; simp [Starts, nullable]
  · split
    · subst b; simp [Starts]
    · rfl

omit [Dialect] in
theorem nullable_andThen : (a.andThen b).nullable = (a.nullable && b.nullable) := by
  unfold andThen
  split
  · subst a; simp [nullable]
  · split
    · subst b; simp [nullable]
    · rfl

theorem starts_optional (greedy : Bool) : (optional greedy a).Starts c ↔ a.Starts c := by
  cases greedy <;> simp [optional, Starts]

private theorem starts_star (greedy : Bool) : (star greedy a).Starts c ↔ a.Starts c := by
  unfold star
  split
  · rw [starts_optional]; rfl
  · rfl

private theorem starts_of_times {tail : Regex} {n : Nat} (h : (a.times tail n).Starts c) :
    a.Starts c ∨ tail.Starts c := by
  induction n with
  | zero => exact .inr h
  | succ n ih =>
    rcases starts_andThen.mp h with h | ⟨_, h⟩
    · exact .inl h
    · exact ih h

omit [Dialect] in
private theorem nullable_of_times {tail : Regex} {n : Nat} (h : (a.times tail n).nullable = true) :
    n = 0 ∨ a.nullable = true := by
  cases n with
  | zero => exact .inl rfl
  | succ n =>
    rw [times, nullable_andThen, Bool.and_eq_true] at h
    exact .inr h.1

private theorem starts_of_atMost {greedy : Bool} {n : Nat} (h : (atMost greedy a n).Starts c) :
    a.Starts c := by
  induction n with
  | zero => exact h.elim
  | succ n ih =>
    rw [atMost, starts_optional] at h
    rcases starts_andThen.mp h with h | ⟨_, h⟩
    · exact h
    · exact ih h

/-- A repetition begins as one round does. -/
theorem starts_of_repeated {greedy : Bool} {least : Nat} {most : Option Nat}
    (h : (repeated greedy least most a).Starts c) : a.Starts c := by
  unfold repeated at h
  split at h
  · rcases starts_of_times h with h | h
    · exact h
    · exact starts_of_atMost h
  · split at h
    · exact (starts_star greedy).mp h
    · rcases starts_of_times h with h | h
      · exact h
      · exact h

omit [Dialect] in
/-- A repetition is empty only where it needs no round or a round can be empty. -/
theorem nullable_of_repeated {greedy : Bool} {least : Nat} {most : Option Nat}
    (h : (repeated greedy least most a).nullable = true) : least = 0 ∨ a.nullable = true := by
  unfold repeated at h
  split at h
  · exact nullable_of_times h
  · split at h
    · exact .inl rfl
    · rename_i n
      cases n with
      | zero => exact .inr h
      | succ n => exact .inr ((nullable_of_times h).resolve_left (by simp))

end PredictiveParsing.Regex
