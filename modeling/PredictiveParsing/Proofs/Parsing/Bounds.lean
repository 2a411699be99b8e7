import PredictiveParsing.Proofs.Parsing.TokenAccount

/-!
# What holds at every moment of a parse

A parse never leaves its tokens, never nests its calls too deep and never keeps more diagnostics
than it may. Whatever is done next, whether or not it succeeds, goes onward from where the parse is.
-/

namespace PredictiveParsing

open Parse ParseContext

variable {V α β : Type} {c : ParseContext V} {left : Nat} {s t : ParseState}

/-- The state is within all limits, and calls can nest `left` deeper. -/
structure ParseContext.Bounds (c : ParseContext V) (left : Nat) (s : ParseState) : Prop where
  cursor_le : s.cursor ≤ c.tokens.endIndex
  depth : s.stack.length + left ≤ Limits.maxParseDepth
  kept : s.diagnostics.size ≤ c.registry.preferences.diagnosticLimit

namespace ParseContext.Bounds

theorem mono (h : c.Bounds left s) {less : Nat} (hle : less ≤ left) : c.Bounds less s :=
  ⟨h.cursor_le, (Nat.add_le_add_left hle _).trans h.depth, h.kept⟩

/-- What is reported is kept up to the limit. -/
theorem of_reported (h : c.Bounds left s) {ds : List Diagnostic}
    (hr : s.Reported c.registry.preferences.diagnosticLimit ds t)
    (hcursor : t.cursor ≤ c.tokens.endIndex) (hstack : t.stack.length ≤ s.stack.length) :
    c.Bounds left t where
  cursor_le := hcursor
  depth := (Nat.add_le_add_right hstack _).trans h.depth
  kept := by
    have hsize := congrArg List.length hr.kept
    simp only [Array.length_toList, List.length_append, List.length_take] at hsize
    have hkept := h.kept
    omega

theorem report (h : c.Bounds left s) (d : Diagnostic) : c.Bounds left (c.report s d) := by
  refine h.of_reported (s.reported_report _ d) ?_ ?_
  · rw [ParseContext.report, ParseState.cursor_report]
    exact h.cursor_le
  · exact (s.onward_report _ d).stack_eq ▸ Nat.le_refl _

/-- What a deed does keeps to the limits. -/
theorem deed {d : Deed V} (h : c.Bounds left d.state)
    (hstack : (d.after c).stack.length ≤ d.state.stack.length) : c.Bounds left (d.after c) :=
  h.of_reported (d.effect h.cursor_le).reported
    ((d.effect h.cursor_le).usedUp.le_endIndex h.cursor_le) hstack

theorem enter (h : c.Bounds (left + 1) s) (id : RuleId) :
    c.Bounds left { s with stack := id :: s.stack } where
  cursor_le := h.cursor_le
  depth := by
    have hdepth := h.depth
    rw [List.length_cons]
    omega
  kept := h.kept

end ParseContext.Bounds

/-! ## Steps -/

def Parse.Bounded (c : ParseContext V) (x : Parse α) : Prop :=
  ∀ left s, c.Bounds left s → c.Bounds left (x.after s)

namespace Parse.Bounded

theorem of_mends {x : Parse α} {x' : ParseState → Parse α}
    (h : ∀ s, Deed.Mends c s x (x' s)) : Bounded c x := by
  intro left s hs
  rcases h s with ⟨hafter, -⟩ | ⟨-, inside, site, code, expected, -, hafter, -⟩
  · rwa [hafter]
  · have hbehind :
        c.Bounds left { s with cursor := s.cursor + 1, repaired := site :: s.repaired } :=
      ⟨inside, hs.depth, hs.kept⟩
    rw [hafter]
    exact hbehind.report _

private theorem of_looks {x : Parse α} (h : Deed.Looks x) : Bounded c x := of_mends h.mends

theorem get : Bounded c (MonadState.get : Parse ParseState) := fun _ _ hs => hs

theorem throw (f : Failure) : Bounded c (MonadExcept.throw f : Parse α) := fun _ _ hs => hs

theorem consume (idx : Nat) (category : CategoryId) : Bounded c (c.consume idx category) := by
  intro left s hs
  have hafter : Deed.after c ⟨s, .step (.consume idx category .done)⟩
      = (c.consume idx category).after s := Deed.after_consume s
  rw [← hafter]
  refine Bounds.deed hs ?_
  rw [hafter, (c.onward_consume idx category s).stack_eq]

end Parse.Bounded

/-! ## Moments -/

namespace Traced

/-- The moments of the part are within the limits, and so is the state behind it. -/
def Bounded (c : ParseContext V) (left : Nat) (x : Traced α) : Prop :=
  ∀ calls s, c.Bounds left s →
    (∀ m ∈ x.moments calls s, c.Bounds 0 m.state) ∧ c.Bounds left (x.run.after s)

namespace Bounded

variable {x : Traced α}

theorem pure (a : α) : Bounded c left (Pure.pure a : Traced α) := fun _ _ hs => ⟨nofun, hs⟩

theorem step {x : Parse α} (h : Parse.Bounded c x) : Bounded c left (step x) := by
  intro calls s hs
  have ht := h left s hs
  exact ⟨List.forall_mem_singleton.mpr (ht.mono (Nat.zero_le _)), ht⟩

theorem bind {f : α → Traced β} (hx : Bounded c left x) (hf : ∀ a, Bounded c left (f a)) :
    Bounded c left (x >>= f) := by
  intro calls s hs
  obtain ⟨hmoments, hafter⟩ := hx calls s hs
  cases h : x.run s with
  | ok a t =>
    rw [after_eq_of_ok h] at hafter
    obtain ⟨hlater, hend⟩ := hf a calls t hafter
    have hrun : (x >>= f).run.after s = (f a).run.after t := by
      simp only [after, Bind.bind, EStateM.bind, h]
    refine ⟨List.forall_mem_append.mpr ⟨hmoments, ?_⟩, hrun ▸ hend⟩
    simpa only [h] using hlater
  | error e t =>
    rw [after_eq_of_error h] at hafter
    have hrun : (x >>= f).run.after s = t := by
      simp only [after, Bind.bind, EStateM.bind, h, stateOf]
    refine ⟨List.forall_mem_append.mpr ⟨hmoments, ?_⟩, hrun ▸ hafter⟩
    simp only [h]
    exact List.forall_mem_nil _

theorem map {f : α → β} (hx : Bounded c left x) : Bounded c left (f <$> x) :=
  hx.bind fun a => .pure (f a)

theorem catching (hx : Bounded c left x) : Bounded c left (Traced.catching x) := by
  intro calls s hs
  have hafter : (Traced.catching x).run.after s = x.run.after s := by
    simp only [run_catching, after, Parse.catching]
    cases x.run s <;> rfl
  rw [hafter]
  exact hx calls s hs

theorem repeatWhile (hx : Bounded c left x) (enters : ParseState → Bool) (fuel : Nat)
    (done : List α) : Bounded c left (Traced.repeatWhile enters x fuel done) := by
  induction fuel generalizing done with
  | zero => exact .pure _
  | succ fuel ih =>
    refine (Bounded.step .get).bind fun s => ?_
    split
    · refine hx.bind fun a => (Bounded.step .get).bind fun t => ?_
      split
      · exact .pure _
      · exact ih (a :: done)
    · exact .pure _

theorem rounds (hx : Bounded c left x) (d : Decision) : Bounded c left (c.tracedRounds d x) :=
  fun calls s => hx.repeatWhile (c.enters · d) (c.tokens.endIndex - s.cursor + 1) [] calls s

end Bounded

end Traced

open Traced in
private theorem Body.bounded_traced {call : RuleId → Rule V → Traced V}
    (hcall : ∀ name, Bounded c left (c.tracedNamed call name)) (body : Body V) :
    Bounded c left (body.traced c call) := by
  induction body with
  | done => exact .pure _
  | consume idx category rest ih =>
    exact (Bounded.step (.consume idx category)).bind fun _ => ih.bind fun _ => .pure _
  | subrule idx name rest ih => exact (hcall name).bind fun _ => ih.bind fun _ => .pure _
  | option idx body rest ihb ih =>
    refine (Bounded.step (.of_looks (Deed.looks_decision .option idx))).bind fun d =>
      (Bounded.step .get).bind fun s => ?_
    have hrest := fun y : Yield V => ih.bind fun ys => .pure (y :: ys)
    split
    · exact ihb.map.bind hrest
    · exact (Bounded.pure _).bind hrest
  | repetition idx atLeastOne body rest ihb ih =>
    cases atLeastOne with
    | false =>
      exact (Bounded.step (.of_looks (Deed.looks_decision .many idx))).bind fun d =>
        (ihb.rounds d).bind fun _ => ih.bind fun _ => .pure _
    | true =>
      exact (Bounded.step (.of_looks (Deed.looks_decision .atLeastOne idx))).bind fun d =>
        (Bounded.step (.of_mends fun s => Deed.mends_enterOnce s idx d)).bind fun _ =>
          ihb.bind fun _ => (ihb.rounds d).bind fun _ => ih.bind fun _ => .pure _
  | choice idx expecting gate body rest ihb ih =>
    exact (Bounded.step (.of_looks (Deed.looks_choiceDecision idx _))).bind fun d =>
      (Bounded.step (.of_mends fun s => Deed.mends_choose s idx expecting gate d)).bind fun k =>
        (ihb k).bind fun _ => ih.bind fun _ => .pure _
  | action value rest ih => exact ih.bind fun _ => .pure _
  | observe value rest ih => exact (Bounded.step .get).bind fun _ => ih.bind fun _ => .pure _
  | fail phase cause rest ih =>
    rw [traced]
    split
    · exact (Bounded.step .get).bind fun _ => (Bounded.step (.throw _)).bind fun _ =>
        ih.bind fun _ => .pure _
    · exact ih.bind fun _ => .pure _
  | during phase body rest ihb ih =>
    rw [traced]
    have hrest := fun y : Yield V => ih.bind fun ys => .pure (y :: ys)
    split
    · exact ihb.map.bind hrest
    · exact (Bounded.pure _).bind hrest
  | attempt body rest ihb ih =>
    rw [traced]
    have hrest := fun y : Yield V => ih.bind fun ys => .pure (y :: ys)
    refine ihb.catching.bind fun result => ?_
    cases result <;> exact (Bounded.pure _).bind hrest

namespace ParseContext

open Traced

/-- What a call does keeps to the limits. -/
theorem Bounds.callRule (h : c.Bounds (left + 1) s) {id : RuleId} {rule : Rule V}
    (hbody : c.Bounds left ((rule.body.run c (c.callRule left)).after
      { s with stack := id :: s.stack })) :
    c.Bounds (left + 1) ((c.callRule (left + 1) id rule).after s) := by
  have hstack := (c.onward_callRule (left + 1) id rule s).stack_eq
  suffices hlimits : c.Bounds 0 ((c.callRule (left + 1) id rule).after s) from
    ⟨hlimits.cursor_le, hstack ▸ h.depth, hlimits.kept⟩
  simp only [after, ParseContext.callRule] at hbody ⊢
  cases hrun : rule.body.run c (c.callRule left) { s with stack := id :: s.stack } with
  | ok ys t =>
    rw [hrun] at hbody
    refine Bounds.deed (d := ⟨t, .leave⟩) (hbody.mono (Nat.zero_le _)) ?_
    simp [Deed.after, leave]
  | error f t =>
    rw [hrun] at hbody
    refine Bounds.deed (d := ⟨t, .settle id f⟩) (hbody.mono (Nat.zero_le _)) ?_
    have hentered : ({ s with stack := id :: s.stack } : ParseState).Onward t :=
      (Body.onward_run c (c.onward_callRule left) rule.body).of_error hrun
    have hsettled := (c.onward_settle hentered f).stack_eq
    simp [Deed.after, hsettled, hentered.stack_eq]

private theorem bounded_tracedNamed {call : RuleId → Rule V → Traced V}
    (hcall : ∀ id rule, Bounded c left (call id rule)) (name : String) :
    Bounded c left (c.tracedNamed call name) := by
  rw [tracedNamed]
  split
  · exact hcall _ _
  · exact .step fun _ _ hs => hs

private theorem bounded_tracedCall (id : RuleId) (rule : Rule V) :
    Bounded c left (c.tracedCall left id rule) := by
  induction left generalizing id rule with
  | zero => exact .step fun _ _ hs => hs
  | succ left ih =>
    intro calls s hs
    obtain ⟨hmoments, hend⟩ := Body.bounded_traced (bounded_tracedNamed ih) rule.body
      (⟨id, s.cursor⟩ :: calls) _ (hs.enter id)
    rw [Body.run_traced, funext fun id => funext (c.run_tracedCall left id)] at hend
    have hafter := hs.callRule hend
    refine ⟨List.forall_mem_cons.mpr ⟨(hs.enter id).mono (Nat.zero_le _), ?_⟩, hafter⟩
    exact List.forall_mem_append.mpr
      ⟨hmoments, List.forall_mem_singleton.mpr (hafter.mono (Nat.zero_le _))⟩

private theorem bounds_startState (rule : Rule V) (s : ParseState) :
    c.Bounds Limits.maxParseDepth (c.startState rule s) where
  cursor_le := Nat.zero_le _
  depth := Nat.le_of_eq (Nat.zero_add _)
  kept := Nat.zero_le _

private theorem bounds_of_mem_moments {id : RuleId} {rule : Rule V} {m : Moment}
    (hm : m ∈ c.moments id rule s) : c.Bounds 0 m.state := by
  have hstart := bounds_startState (c := c) rule s
  obtain ⟨hmoments, hend⟩ := bounded_tracedCall (c := c) id rule [] _ hstart
  have hrule : c.Bounds 0 (c.parseRule id rule (c.startState rule s)).2 := by
    rw [run_tracedCall] at hend
    rw [parseRule]
    split
    · exact (after_eq_of_ok ‹_› ▸ hend).mono (Nat.zero_le _)
    · exact ((after_eq_of_error ‹_› ▸ hend).mono (Nat.zero_le _)).report _
  rcases List.mem_cons.mp hm with rfl | hm
  · exact hstart.mono (Nat.zero_le _)
  rcases List.mem_append.mp hm with hm | hm
  · exact hmoments m hm
  rcases List.mem_cons.mp hm with rfl | hm
  · exact hrule
  · obtain rfl := List.mem_singleton.mp hm
    have hrest : c.Bounds 0 (c.reportRest _) := Bounds.deed (d := ⟨_, .finish⟩) hrule
      (Nat.le_of_eq (congrArg List.length (c.onward_reportRest _).stack_eq))
    exact ⟨hrest.cursor_le, hrest.depth, hrest.kept⟩

end ParseContext

private theorem TokenStream.le_endIndex_of_isEof {tokens : TokenStream} {i n : Nat}
    (hi : i ≤ tokens.endIndex) (h : ∀ j < n, (tokens.get (i + j)).isEof = false) :
    i + n ≤ tokens.endIndex := by
  by_contra hlt
  have hlast := h (tokens.endIndex - i) (by omega)
  rw [isEof_get (by omega)] at hlast
  cases hlast

namespace Session

/-- At every moment of a parse it is in front of one of the tokens, in no more rules than calls can
nest, and has kept no more diagnostics than it may. It is in front of a token, too, while it tries
to go on behind some that are not the end of the input. Whatever body is run there and whatever
rule is called, the tokens stay the same and the parse goes onward, whether or not that succeeds.
-/
theorem within_limits {s : Session V} {start : String} {m : Moment} (hm : m ∈ s.moments start) :
    m.state.cursor ≤ s.context.tokens.endIndex
      ∧ m.state.stack.length ≤ Limits.maxParseDepth
      ∧ m.state.diagnostics.size ≤ s.context.registry.preferences.diagnosticLimit
      ∧ (∀ n, (∀ i < n, (s.context.tokens.get (m.state.cursor + i)).isEof = false) →
        m.state.cursor + n ≤ s.context.tokens.endIndex)
      ∧ (∀ body, m.state.Onward ((s.context.runBody body).after m.state))
      ∧ (∀ left id rule, m.state.Onward ((s.context.callRule left id rule).after m.state))
      ∧ (s.invoke start).2.context = s.context
      ∧ ∀ body, (runBody { s with state := m.state } body).2.context = s.context := by
  have hbounds : s.context.Bounds 0 m.state := by
    rw [moments] at hm
    split at hm
    · cases hm
    · exact bounds_of_mem_moments hm
  refine ⟨hbounds.cursor_le, hbounds.depth, hbounds.kept,
    fun n => TokenStream.le_endIndex_of_isEof hbounds.cursor_le,
    fun body => Body.onward_run _ (s.context.onward_callRule _) body m.state,
    fun left id rule => s.context.onward_callRule left id rule m.state, ?_, fun body => ?_⟩
  · simp only [invoke]
    split <;> rfl
  · simp only [runBody]
    split <;> rfl

set_option maxRecDepth 4000 in
private theorem moment_noisySession : ((noisySession.moments "list")[3]?).map (fun m =>
    (m.state.cursor, m.state.stack, m.state.diagnostics.size, m.state.repaired.length)) =
      some (2, [1, 0], 1, 1) := by
  cbv

/-- Where the comma has been deleted and the item was taken another comma can be asked for, though
there is none. -/
theorem within_limits_noisySession : ∃ m ∈ noisySession.moments "list", m.state.cursor = 2
    ∧ m.state.stack = [1, 0] ∧ m.state.repaired.length = 1
    ∧ m.state.diagnostics.size ≤ noisySession.context.registry.preferences.diagnosticLimit
    ∧ m.state.Onward ((noisySession.context.runBody (.consume 2 2 .done)).after m.state) := by
  obtain ⟨m, hm, h⟩ := Option.map_eq_some_iff.mp moment_noisySession
  obtain ⟨hcursor, hstack, -, hrepaired⟩ : m.state.cursor = 2 ∧ m.state.stack = [1, 0]
      ∧ m.state.diagnostics.size = 1 ∧ m.state.repaired.length = 1 := by simpa using h
  have hmem := List.mem_of_getElem? hm
  obtain ⟨-, -, hkept, -, honward, -⟩ := within_limits hmem
  exact ⟨m, hmem, hcursor, hstack, hrepaired, hkept, honward _⟩

end Session

end PredictiveParsing
