import PredictiveParsing.Proofs.Parsing.Invariants
import PredictiveParsing.Proofs.Parsing.Repairs

/-!
# Repetitions move on or stop

A repetition ends with the first round that does not move on, whatever the rounds do. No parse goes
beyond the end of the input, so there are no more rounds than tokens and one, and the bound on their
number never shows.
-/

namespace PredictiveParsing

namespace TokenStream.UsedUp

private theorem le_max {tokens : TokenStream} {i j : Nat} {uses : List TokenUse}
    (h : tokens.UsedUp i uses j) : j ≤ max i tokens.endIndex := by
  induction h with
  | nil => exact Nat.le_max_left _ _
  | returned h _ ih => omega
  | deleted d h recovery actual _ ih => omega
  | skipped d n h recovery _ ih => omega

end TokenStream.UsedUp

namespace ParseContext

variable {V : Type} {c : ParseContext V} {s t : ParseState}

/-! ## No parse goes beyond the end -/

private theorem cursor_settle_le (id : RuleId) (f : Failure) (s : ParseState) :
    (Parse.stateOf (c.settle id f s)).cursor ≤ max s.cursor c.tokens.endIndex := by
  rw [settle_eq]
  split
  · exact Nat.le_trans (Nat.le_of_eq (ParseState.cursor_report _ _ _)) (Nat.le_max_left _ _)
  · split
    · rename_i n hn
      exact Nat.le_trans (Nat.le_of_eq (ParseState.cursor_report _ _ _))
        (Deed.resumption?_le hn)
    · exact Nat.le_max_left _ _

private theorem cursor_deed_le (d : Deed V) :
    (d.after c).cursor ≤ max d.state.cursor c.tokens.endIndex := by
  obtain ⟨s, act⟩ := d
  cases act with
  | step body => exact (Deed.effect_step s body).usedUp.le_max
  | enter id => exact Nat.le_max_left _ _
  | leave => exact Nat.le_max_left _ _
  | settle id f => exact cursor_settle_le id f s
  | finish => exact (Deed.effect_finish s).usedUp.le_max

private theorem cursor_le_of_leads {deeds : List (Deed V)} (h : c.Leads s deeds t) :
    t.cursor ≤ max s.cursor c.tokens.endIndex := by
  induction deeds generalizing s with
  | nil =>
    obtain rfl : s = t := h
    exact Nat.le_max_left _ _
  | cons d deeds ih =>
    obtain ⟨rfl, hrest⟩ := h
    have hdeed := cursor_deed_le (c := c) d
    have hlater := ih hrest
    omega

/-- No body goes beyond the end of the input, in whatever state it is run. -/
theorem cursor_run_le (left : Nat) (body : Body V) (s : ParseState) :
    ((body.run c (c.callRule left)).after s).cursor ≤ max s.cursor c.tokens.endIndex :=
  cursor_le_of_leads (Body.leadsBy_run (c.leadsBy_callRule left) body s)

end ParseContext

/-! ## Rounds -/

namespace Parse

variable {α : Type} {enters : ParseState → Bool} {part : Parse α} {s u : ParseState}
  {starts : List ParseState} {r : Except Failure (List α)} {n : Nat}

/-- The rounds of a repetition with no bound on their number: the states in front of them, what they
come to and the state behind them. A round that fails or does not move on is the last one. -/
inductive Repeats (enters : ParseState → Bool) (part : Parse α) :
    ParseState → List ParseState → Except Failure (List α) → ParseState → Prop
  | stop {s : ParseState} (h : enters s = false) : Repeats enters part s [] (.ok []) s
  | fail {s t : ParseState} {f : Failure} (h : enters s = true) (round : part s = .error f t) :
      Repeats enters part s [s] (.error f) t
  | stall {s t : ParseState} {a : α} (h : enters s = true) (round : part s = .ok a t)
      (stays : t.cursor = s.cursor) : Repeats enters part s [s] (.ok [a]) t
  | next {s t u : ParseState} {a : α} {starts : List ParseState} {r : Except Failure (List α)}
      (h : enters s = true) (round : part s = .ok a t) (moves : t.cursor ≠ s.cursor)
      (rest : Repeats enters part t starts r u) :
      Repeats enters part s (s :: starts) (r.map (a :: ·)) u

/-- A round in front of others adds one value to theirs. -/
theorem length_values_cons {a : α} (h : ∀ values, r = .ok values → values.length = n) :
    ∀ values, r.map (a :: ·) = .ok values → values.length = n + 1 := by
  intro values hr
  cases r with
  | error f => cases hr
  | ok later =>
    obtain rfl : a :: later = values := Except.ok.inj hr
    rw [List.length_cons, h later rfl]

namespace Repeats

/-- All rounds but the last one move on. -/
theorem moves_on (hon : part.Onward) (h : Repeats enters part s starts r u) :
    ∀ v ∈ starts.dropLast, v.cursor < (part.after v).cursor := by
  induction h with
  | stop h => simp
  | fail h round => simp
  | stall h round stays => simp
  | @next s t u a starts r h round moves rest ih =>
    intro v hv
    cases starts with
    | nil => cases hv
    | cons s' starts =>
      rcases List.mem_cons.mp hv with rfl | hv
      · rw [after_eq_of_ok round]
        exact Nat.lt_of_le_of_ne (hon.of_ok round).cursor_le (Ne.symm moves)
      · exact ih v hv

/-- Rounds that cannot go beyond `n` are no more than there are tokens up to there, and one. -/
theorem length_le (hon : part.Onward) (hend : ∀ s, (part.after s).cursor ≤ max s.cursor n)
    (h : Repeats enters part s starts r u) : starts.length ≤ n - s.cursor + 1 := by
  induction h with
  | stop h => exact Nat.zero_le _
  | fail h round => exact Nat.le_add_left _ _
  | stall h round stays => exact Nat.le_add_left _ _
  | @next s t u a starts r h round moves rest ih =>
    have hle := (hon.of_ok round).cursor_le
    have hmax := after_eq_of_ok round ▸ hend s
    rw [List.length_cons]
    omega

theorem length_values (h : Repeats enters part s starts r u) :
    ∀ values, r = .ok values → values.length = starts.length := by
  induction h with
  | stop h =>
    rintro _ ⟨⟩
    rfl
  | fail h round => nofun
  | stall h round stays =>
    rintro _ ⟨⟩
    rfl
  | next h round moves rest ih => exact length_values_cons ih

end Repeats

/-- Where no round goes back or beyond `n`, the bound on the number of rounds does not show. -/
theorem repeats_repeatWhile (hon : part.Onward)
    (hend : ∀ s, (part.after s).cursor ≤ max s.cursor n) {fuel : Nat} (hfuel : n - s.cursor < fuel)
    (done : List α) : ∃ starts r u, Repeats enters part s starts r u ∧
      repeatWhile enters part fuel done s = (ofExcept (r.map (done.reverse ++ ·)) : Parse _) u := by
  induction fuel generalizing s done with
  | zero => cases hfuel
  | succ fuel ih =>
    simp only [repeatWhile]
    cases henters : enters s with
    | false => exact ⟨[], .ok [], s, .stop henters, by simp [Except.map, ofExcept]; rfl⟩
    | true =>
      cases hround : part s with
      | error f t => exact ⟨[s], .error f, t, .fail henters hround, rfl⟩
      | ok a t =>
        by_cases hstay : t.cursor = s.cursor
        · refine ⟨[s], .ok [a], t, .stall henters hround hstay, ?_⟩
          simp [Except.map, ofExcept, hstay]
          rfl
        · -- the round has moved on, so that there are less tokens left than the bound allows for
          have hle := (hon.of_ok hround).cursor_le
          have hmax := after_eq_of_ok hround ▸ hend s
          obtain ⟨starts, r, u, hrest, heq⟩ := ih (s := t) (by omega) (a :: done)
          refine ⟨s :: starts, _, u, .next henters hround hstay hrest, ?_⟩
          simp only [if_true, if_neg hstay, heq]
          cases r with
          | error f => rfl
          | ok values => simp [Except.map]

end Parse

namespace ParseContext

variable {V α : Type} (c : ParseContext V)

/-- What comes of a repetition that may have no round. -/
inductive ManyRounds (idx : Nat) (part : Parse α) (s : ParseState) :
    List ParseState → Except Failure (List α) → ParseState → Prop
  | unrecorded (h : c.decision? s .many idx = none) :
      ManyRounds idx part s [] (.error (c.failure s (.unrecorded DecisionKind.many.keyword idx))) s
  | rounds {d : Decision} {starts : List ParseState} {r : Except Failure (List α)} {u : ParseState}
      (h : c.decision? s .many idx = some d)
      (rounds : Parse.Repeats (c.enters · d) part s starts r u) : ManyRounds idx part s starts r u

/-- What comes of a repetition with at least one round, the first of which may be entered behind a
token that is deleted. -/
inductive AtLeastOneRounds (idx : Nat) (part : Parse α) (s : ParseState) :
    List ParseState → Except Failure (List α) → ParseState → Prop
  | refuse {f : Failure} {t : ParseState} (h : c.entrance idx s = .error f t) :
      AtLeastOneRounds idx part s [] (.error f) t
  | fail {d : Decision} {f : Failure} {t u : ParseState} (h : c.entrance idx s = .ok d t)
      (first : part t = .error f u) : AtLeastOneRounds idx part s [t] (.error f) u
  | rounds {d : Decision} {a : α} {t u v : ParseState} {starts : List ParseState}
      {r : Except Failure (List α)} (h : c.entrance idx s = .ok d t) (first : part t = .ok a u)
      (rounds : Parse.Repeats (c.enters · d) part u starts r v) :
      AtLeastOneRounds idx part s (t :: starts) (r.map (a :: ·)) v

variable {c}

theorem repeats_rounds {part : Parse α} (hon : part.Onward)
    (hend : ∀ s, (part.after s).cursor ≤ max s.cursor c.tokens.endIndex) (d : Decision)
    (s : ParseState) : ∃ starts r u, Parse.Repeats (c.enters · d) part s starts r u ∧
      c.rounds d part s = (ofExcept r : Parse _) u := by
  obtain ⟨starts, r, u, hrepeats, heq⟩ :=
    @Parse.repeats_repeatWhile α (c.enters · d) part s c.tokens.endIndex hon hend _
      (Nat.lt_succ_self _) []
  refine ⟨starts, r, u, hrepeats, heq.trans ?_⟩
  cases r <;> rfl

end ParseContext

namespace Body

variable {V : Type}

/-- The values of the rounds of a repetition, and what is behind it. -/
def behindRounds (c : ParseContext V) (call : RuleId → Rule V → Parse V) (rest : Body V)
    (r : Except Failure (List (List (Yield V)))) : Parse (List (Yield V)) := do
  let rounds ← ofExcept r
  return .items (rounds.map .items) :: (← rest.run c call)

variable {c : ParseContext V}

private theorem run_many (left idx : Nat) (body rest : Body V) (s : ParseState) : ∃ starts r u,
    c.ManyRounds idx (body.run c (c.callRule left)) s starts r u ∧
      (repetition idx false body rest).run c (c.callRule left) s =
        behindRounds c (c.callRule left) rest r u := by
  cases h : c.decision? s .many idx with
  | none =>
    refine ⟨[], _, s, .unrecorded h, ?_⟩
    simp only [run, Bind.bind, EStateM.bind, ParseContext.decision, h]
    rfl
  | some d =>
    obtain ⟨starts, r, u, hrepeats, heq⟩ := ParseContext.repeats_rounds
      (onward_run c (c.onward_callRule left) body) (ParseContext.cursor_run_le left body) d s
    refine ⟨starts, r, u, .rounds h hrepeats, ?_⟩
    simp only [run, Bind.bind, EStateM.bind, ParseContext.decision, h, heq]
    cases r <;> rfl

private theorem run_atLeastOne (left idx : Nat) (body rest : Body V) (s : ParseState) :
    ∃ starts r u, c.AtLeastOneRounds idx (body.run c (c.callRule left)) s starts r u ∧
      (repetition idx true body rest).run c (c.callRule left) s =
        behindRounds c (c.callRule left) rest r u := by
  rw [run_repetition]
  cases h : c.entrance idx s with
  | error f t =>
    refine ⟨[], .error f, t, .refuse h, ?_⟩
    simp only [Bind.bind, EStateM.bind, h]
    rfl
  | ok d t =>
    cases hfirst : body.run c (c.callRule left) t with
    | error f u =>
      refine ⟨[t], .error f, u, .fail h hfirst, ?_⟩
      simp only [Bind.bind, EStateM.bind, h, hfirst]
      rfl
    | ok a u =>
      obtain ⟨starts, r, v, hrepeats, heq⟩ := ParseContext.repeats_rounds
        (onward_run c (c.onward_callRule left) body) (ParseContext.cursor_run_le left body) d u
      refine ⟨t :: starts, _, v, .rounds h hfirst hrepeats, ?_⟩
      simp only [Bind.bind, EStateM.bind, h, hfirst, heq]
      cases r <;> rfl

end Body

namespace ParseContext

variable {V α : Type} {c : ParseContext V} {idx : Nat} {part : Parse α} {s u : ParseState}
  {starts : List ParseState} {r : Except Failure (List α)}

private theorem ManyRounds.move_on (hon : part.Onward)
    (hend : ∀ s, (part.after s).cursor ≤ max s.cursor c.tokens.endIndex)
    (h : c.ManyRounds idx part s starts r u) :
    (∀ v ∈ starts.dropLast, v.cursor < (part.after v).cursor) ∧
      starts.length ≤ c.tokens.endIndex - s.cursor + 1 ∧
      ∀ values, r = .ok values → values.length = starts.length := by
  cases h with
  | unrecorded h => exact ⟨by simp, Nat.zero_le _, nofun⟩
  | rounds h rounds => exact ⟨rounds.moves_on hon, rounds.length_le hon hend, rounds.length_values⟩

private theorem AtLeastOneRounds.move_on (hon : part.Onward)
    (hend : ∀ s, (part.after s).cursor ≤ max s.cursor c.tokens.endIndex)
    (h : c.AtLeastOneRounds idx part s starts r u) :
    (∀ v ∈ starts.tail.dropLast, v.cursor < (part.after v).cursor) ∧
      starts.length ≤ c.tokens.endIndex - s.cursor + 2 ∧
      ∀ values, r = .ok values → values.length = starts.length := by
  cases h with
  | refuse h => exact ⟨by simp, Nat.zero_le _, nofun⟩
  | fail h first => exact ⟨by simp, Nat.le_add_left _ _, nofun⟩
  | @rounds d a t v _ starts r h first rounds =>
    have hentered := ((onward_entrance idx).of_ok h).cursor_le
    have hfirst := (hon.of_ok first).cursor_le
    have hlength := rounds.length_le hon hend
    refine ⟨rounds.moves_on hon, ?_, Parse.length_values_cons rounds.length_values⟩
    rw [List.length_cons]
    omega

/-- Wherever a repetition is run its rounds move on, but for the last one and, where there has to be
one, the first one. So there are no more rounds than tokens up to the end of the input and one, or
two where there has to be one. -/
theorem repetitions_move_on (c : ParseContext V) (left idx : Nat) (body rest : Body V)
    (s : ParseState) :
    (∃ starts r u, c.ManyRounds idx (body.run c (c.callRule left)) s starts r u ∧
        (Body.repetition idx false body rest).run c (c.callRule left) s =
          Body.behindRounds c (c.callRule left) rest r u ∧
        (∀ v ∈ starts.dropLast, v.cursor < ((body.run c (c.callRule left)).after v).cursor) ∧
        starts.length ≤ c.tokens.endIndex - s.cursor + 1 ∧
        ∀ values, r = .ok values → values.length = starts.length) ∧
      ∃ starts r u, c.AtLeastOneRounds idx (body.run c (c.callRule left)) s starts r u ∧
        (Body.repetition idx true body rest).run c (c.callRule left) s =
          Body.behindRounds c (c.callRule left) rest r u ∧
        (∀ v ∈ starts.tail.dropLast, v.cursor < ((body.run c (c.callRule left)).after v).cursor) ∧
        starts.length ≤ c.tokens.endIndex - s.cursor + 2 ∧
        ∀ values, r = .ok values → values.length = starts.length := by
  have hon := Body.onward_run c (c.onward_callRule left) body
  have hend := cursor_run_le (c := c) left body
  obtain ⟨starts, r, u, hmany, hrun⟩ := Body.run_many (c := c) left idx body rest s
  obtain ⟨starts', r', u', honce, hrun'⟩ := Body.run_atLeastOne (c := c) left idx body rest s
  exact ⟨⟨starts, r, u, hmany, hrun, hmany.move_on hon hend⟩,
    starts', r', u', honce, hrun', honce.move_on hon hend⟩

end ParseContext

end PredictiveParsing
