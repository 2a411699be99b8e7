import PredictiveParsing.Parsing.Session
import PredictiveParsing.Proofs.Parsing.Attempts

/-!
# A parse never goes back

Whether a part of a parse succeeds or fails, it leaves the rules being parsed as they were, stays
where it is in the stream or moves forward, and keeps all diagnostics and the places of all repairs.
-/

namespace PredictiveParsing

namespace ParseState

/-- The state can come behind the other one in the same rule. -/
structure Onward (s t : ParseState) : Prop where
  cursor_le : s.cursor ≤ t.cursor
  stack_eq : t.stack = s.stack
  diagnostics : s.diagnostics.toList <+: t.diagnostics.toList
  suppressed : s.suppressed ≤ t.suppressed
  /-- The latest repair comes first. -/
  repaired : s.repaired <:+ t.repaired

namespace Onward

variable {s t u : ParseState}

theorem rfl : s.Onward s :=
  ⟨Nat.le_refl _, Eq.refl _, List.prefix_rfl, Nat.le_refl _, List.suffix_rfl⟩

/-- Further on nothing else may have changed but for some repairs. -/
theorem moved {i : Nat} {repaired : List RepairSite} (hi : s.cursor ≤ i)
    (hr : s.repaired <:+ repaired) : s.Onward { s with cursor := i, repaired := repaired } :=
  ⟨hi, Eq.refl _, List.prefix_rfl, Nat.le_refl _, hr⟩

theorem trans (h : s.Onward t) (h' : t.Onward u) : s.Onward u where
  cursor_le := Nat.le_trans h.cursor_le h'.cursor_le
  stack_eq := h'.stack_eq.trans h.stack_eq
  diagnostics := h.diagnostics.trans h'.diagnostics
  suppressed := Nat.le_trans h.suppressed h'.suppressed
  repaired := h.repaired.trans h'.repaired

/-- Where nothing has been reported nothing had been reported before. -/
theorem clean (h : s.Onward t) (ht : t.diagnostics = #[]) : s.diagnostics = #[] := by
  have hprefix := h.diagnostics
  rw [ht] at hprefix
  exact Array.toList_eq_nil_iff.mp (List.prefix_nil.mp hprefix)

end Onward

theorem onward_note (s : ParseState) (e : Log.Event) : s.Onward (s.note e) :=
  ⟨Nat.le_refl _, rfl, List.prefix_rfl, Nat.le_refl _, List.suffix_rfl⟩

theorem onward_report (cap : Nat) (s : ParseState) (d : Diagnostic) :
    s.Onward (s.report cap d) := by
  rw [report]
  split
  · exact ⟨Nat.le_refl _, rfl, List.prefix_rfl, Nat.le_succ _, List.suffix_rfl⟩
  · exact ⟨Nat.le_refl _, rfl, by simp, Nat.le_refl _, List.suffix_rfl⟩

end ParseState

namespace Parse

variable {α β : Type}

/-- The state in which a part succeeds or fails. -/
def stateOf : EStateM.Result Failure ParseState α → ParseState
  | .ok _ t => t
  | .error _ t => t

/-- The state behind a part. -/
def after (x : Parse α) (s : ParseState) : ParseState := stateOf (x s)

/-- The part leads from every state onward. -/
def Onward (x : Parse α) : Prop := ∀ s : ParseState, s.Onward (x.after s)

theorem after_eq_of_ok {x : Parse α} {s t : ParseState} {a : α} (h : x s = .ok a t) :
    x.after s = t := by
  rw [after, h, stateOf]

theorem after_eq_of_error {x : Parse α} {s t : ParseState} {f : Failure} (h : x s = .error f t) :
    x.after s = t := by
  rw [after, h, stateOf]

namespace Onward

variable {x : Parse α}

theorem of_ok (hx : x.Onward) {s t : ParseState} {a : α} (h : x s = .ok a t) : s.Onward t :=
  after_eq_of_ok h ▸ hx s

theorem of_error (hx : x.Onward) {s t : ParseState} {f : Failure} (h : x s = .error f t) :
    s.Onward t :=
  after_eq_of_error h ▸ hx s

theorem pure (a : α) : Onward (Pure.pure a) := fun _ => .rfl

theorem throw (f : Failure) : Onward (MonadExcept.throw f : Parse α) := fun _ => .rfl

theorem get : Onward (MonadState.get : Parse ParseState) := fun _ => .rfl

theorem bind {f : α → Parse β} (hx : x.Onward) (hf : ∀ a, (f a).Onward) :
    Onward (x >>= f) := by
  intro s
  cases h : x s with
  | ok a t =>
    have hafter : (x >>= f).after s = (f a).after t := by
      simp only [after, Bind.bind, EStateM.bind, h]
    exact hafter ▸ (hx.of_ok h).trans (hf a t)
  | error e t =>
    have hafter : (x >>= f).after s = t := by
      simp only [after, Bind.bind, EStateM.bind, h, stateOf]
    exact hafter ▸ hx.of_error h

theorem map {f : α → β} (hx : x.Onward) : Onward (f <$> x) := by
  rw [map_eq_pure_bind]
  exact hx.bind fun a => .pure (f a)

theorem catching (hx : x.Onward) : Onward (Parse.catching x) := by
  intro s
  cases h : x s with
  | ok a t =>
    rw [after_eq_of_ok (t := t) (a := .ok a) (by rw [Parse.catching, h])]
    exact hx.of_ok h
  | error f t =>
    rw [after_eq_of_ok (t := t) (a := .error f) (by rw [Parse.catching, h])]
    exact hx.of_error h

theorem repeatWhile (hx : x.Onward) (enters : ParseState → Bool) (fuel : Nat) (done : List α) :
    Onward (Parse.repeatWhile enters x fuel done) := by
  induction fuel generalizing done with
  | zero => exact fun _ => .rfl
  | succ fuel ih =>
    intro s
    simp only [after, Parse.repeatWhile]
    split
    · split
      · exact hx.of_error ‹_›
      · split
        · exact hx.of_ok ‹_›
        · exact (hx.of_ok ‹_›).trans (ih _ _)
    · exact .rfl

end Onward

end Parse

namespace ParseContext

variable {V : Type} (c : ParseContext V)

open Parse

/-! ## Repairs -/

theorem onward_reportRepair (s : ParseState) (code : Code) (message : String)
    (expected : List CategoryId) (actual : Token) (recovery : Diagnostic.Recovery) :
    s.Onward (c.reportRepair s code message expected actual recovery) :=
  s.onward_report _ _

theorem onward_advance : Onward c.advance := by
  intro s
  simp only [after, advance, stateOf]
  split
  · exact .moved (Nat.le_succ _) List.suffix_rfl
  · exact .rfl

private theorem onward_repairToken (idx : Nat) (category : CategoryId) (repair : TokenRepair) :
    Onward (c.repairToken idx category repair) := by
  intro s
  cases repair with
  | delete =>
    let behind : ParseState := { s with
      cursor := s.cursor + 1
      repaired := .token s.currentRule category idx :: s.repaired }
    have hbehind : s.Onward behind := .moved (Nat.le_succ _) (List.suffix_cons _ _)
    exact (hbehind.trans (c.onward_advance behind)).trans (c.onward_reportRepair ..)
  | insert =>
    have hrepaired : s.Onward { s with
        repaired := .token s.currentRule category idx :: s.repaired } :=
      .moved (Nat.le_refl _) (List.suffix_cons _ _)
    exact hrepaired.trans (c.onward_reportRepair ..)

theorem onward_passed (site : RepairSite) (code : Code) (expected : List CategoryId)
    (s : ParseState) : s.Onward (c.passed site code expected s) :=
  .trans (.moved (Nat.le_succ _) (List.suffix_cons _ _)) (c.onward_reportRepair ..)

private theorem onward_resumed (rule : RuleId) (f : Failure) (n : Nat) (s : ParseState) :
    s.Onward (c.resumed rule f n s) := by
  have hskipped : s.Onward { s with cursor := s.cursor + n } :=
    .moved (Nat.le_add_right _ _) List.suffix_rfl
  exact (hskipped.trans (ParseState.onward_note _ _)).trans (ParseState.onward_report ..)

/-! ## Steps of a body -/

theorem onward_consume (idx : Nat) (category : CategoryId) : Onward (c.consume idx category) := by
  intro s
  simp only [after, consume]
  split
  · exact c.onward_advance s
  · split
    · exact c.onward_repairToken idx category _ s
    · exact .rfl

theorem onward_decision (kind : DecisionKind) (idx : Nat) : Onward (c.decision kind idx) := by
  intro s
  simp only [after, decision]
  split <;> exact .rfl

theorem onward_choiceDecision (idx n : Nat) : Onward (c.choiceDecision idx n) := by
  refine (c.onward_decision .or idx).bind fun d => ?_
  split
  · exact .pure d
  · exact Onward.get.bind fun _ => .throw _

theorem onward_rounds {α : Type} (d : Decision) {part : Parse α} (hx : part.Onward) :
    Onward (c.rounds d part) :=
  fun s => hx.repeatWhile _ _ _ s

theorem onward_enterOnce (idx : Nat) (d : Decision) : Onward (c.enterOnce idx d) := by
  intro s
  simp only [after, enterOnce_eq]
  split
  · exact .rfl
  · split
    · exact c.onward_passed ..
    · exact .rfl

theorem onward_choose {n : Nat} (idx : Nat) (expecting : Option String)
    (gate : Fin n → Option Gate) (d : Decision) : Onward (c.choose idx expecting gate d) := by
  intro s
  simp only [after, choose_eq]
  split
  · exact .rfl
  · split
    · exact c.onward_passed ..
    · exact .rfl

theorem onward_callNamed {call : RuleId → Rule V → Parse V}
    (hcall : ∀ id rule, (call id rule).Onward) (name : String) :
    Onward (c.callNamed call name) := by
  intro s
  simp only [after, callNamed]
  split
  · exact hcall _ _ s
  · exact .rfl

end ParseContext

namespace Body

variable {V : Type} (c : ParseContext V)

open Parse ParseContext

theorem onward_run {call : RuleId → Rule V → Parse V} (hcall : ∀ id rule, (call id rule).Onward)
    (body : Body V) : Onward (body.run c call) := by
  induction body with
  | done => exact .pure _
  | consume idx category rest ih =>
    exact (c.onward_consume idx category).bind fun _ => ih.bind fun _ => .pure _
  | subrule idx name rest ih =>
    exact (c.onward_callNamed hcall name).bind fun _ => ih.bind fun _ => .pure _
  | option idx body rest ihb ih =>
    refine (c.onward_decision .option idx).bind fun d => Onward.get.bind fun s => ?_
    have hrest := fun y : Yield V => ih.bind fun ys => .pure (y :: ys)
    simp only
    split
    · exact ihb.map.bind hrest
    · exact hrest _
  | repetition idx atLeastOne body rest ihb ih =>
    cases atLeastOne with
    | false =>
      exact (c.onward_decision .many idx).bind fun d => (c.onward_rounds d ihb).bind fun _ =>
        ih.bind fun _ => .pure _
    | true =>
      exact (c.onward_decision .atLeastOne idx).bind fun d => (c.onward_enterOnce idx d).bind
        fun _ => ihb.bind fun _ => (c.onward_rounds d ihb).bind fun _ => ih.bind fun _ => .pure _
  | choice idx expecting gate body rest ihb ih =>
    exact (c.onward_choiceDecision idx _).bind fun d => (c.onward_choose idx expecting gate d).bind
      fun k => (ihb k).bind fun _ => ih.bind fun _ => .pure _
  | action value rest ih => exact ih.bind fun _ => .pure _
  | observe value rest ih => exact Onward.get.bind fun _ => ih.bind fun _ => .pure _
  | fail phase cause rest ih =>
    rw [run]
    split
    · exact Onward.get.bind fun _ => Onward.bind (.throw _) fun _ => ih.bind fun _ => .pure _
    · exact ih.bind fun _ => .pure _
  | during phase body rest ihb ih =>
    rw [run]
    have hrest := fun y : Yield V => ih.bind fun ys => .pure (y :: ys)
    split
    · exact ihb.map.bind hrest
    · exact hrest _
  | attempt body rest ihb ih =>
    rw [run]
    have hrest := fun y : Yield V => ih.bind fun ys => .pure (y :: ys)
    refine ihb.catching.bind fun result => ?_
    cases result <;> exact hrest _

end Body

namespace ParseContext

variable {V : Type} (c : ParseContext V)

open Parse

/-- What is done in a rule and then about its end comes behind the state in which it was called. -/
theorem onward_leave {s t : ParseState} {id : RuleId}
    (h : ParseState.Onward { s with stack := id :: s.stack } t) : s.Onward (leave t) where
  cursor_le := h.cursor_le
  stack_eq := by rw [leave, h.stack_eq, List.drop_succ_cons, List.drop_zero]
  diagnostics := h.diagnostics
  suppressed := h.suppressed
  repaired := h.repaired

/-- A rule that failed is left, whatever becomes of it. -/
theorem onward_settle {s t : ParseState} {id : RuleId}
    (h : ParseState.Onward { s with stack := id :: s.stack } t) (f : Failure) :
    s.Onward (stateOf (c.settle id f t)) := by
  rw [settle_eq]
  split
  · exact onward_leave (h.trans (ParseState.onward_report ..))
  · split
    · exact onward_leave (h.trans (c.onward_resumed ..))
    · exact onward_leave h

theorem onward_callRule (left : Nat) (id : RuleId) (rule : Rule V) :
    Onward (c.callRule left id rule) := by
  induction left generalizing id rule with
  | zero => exact fun _ => .rfl
  | succ left ih =>
    intro s
    have hbody := Body.onward_run c ih rule.body
    simp only [after, callRule]
    split
    · exact onward_leave (hbody.of_ok ‹_›)
    · exact c.onward_settle (hbody.of_error ‹_›) _

/-! ## The whole parse -/

theorem onward_parseRule (id : RuleId) (rule : Rule V) (s : ParseState) :
    s.Onward (c.parseRule id rule s).2 := by
  have hcall := c.onward_callRule Limits.maxParseDepth id rule
  rw [parseRule]
  split
  · exact hcall.of_ok ‹_›
  · exact (hcall.of_error ‹_›).trans (ParseState.onward_report ..)

theorem onward_reportRest (s : ParseState) : s.Onward (c.reportRest s) := by
  simp only [reportRest]
  split
  · exact .rfl
  · exact ParseState.onward_report ..

end ParseContext

end PredictiveParsing
