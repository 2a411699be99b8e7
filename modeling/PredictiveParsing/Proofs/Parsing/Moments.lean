import PredictiveParsing.Proofs.Parsing.Onward

/-!
# The moments of a parse

A part of a parse can be made to keep the states that it passes, with the calls that have not ended
there. It then still comes to the result that it comes to otherwise.
-/

namespace PredictiveParsing

/-- A call that has not ended. -/
structure Activation where
  rule : RuleId
  /-- The index of the token in front of which the rule was called. -/
  entered : Nat
deriving DecidableEq

/-- A state that a parse passes, and the calls that have not ended there, the innermost first. -/
structure Moment where
  state : ParseState
  calls : List Activation

/-- A part of a parse with the moments that it passes inside of some calls. -/
structure Traced (α : Type) where
  run : Parse α
  moments : List Activation → ParseState → List Moment

namespace Traced

variable {α β : Type}

def step (x : Parse α) : Traced α where
  run := x
  moments calls s := [⟨x.after s, calls⟩]

def look : Traced ParseState := step fun s => .ok s s

instance : Monad Traced where
  pure a := ⟨pure a, fun _ _ => []⟩
  bind x f :=
    { run := x.run >>= fun a => (f a).run
      moments := fun calls s => x.moments calls s ++
        match x.run s with
        | .ok a t => (f a).moments calls t
        | .error _ _ => [] }

/-- Goes on with the outcome of a part whose failure is caught. -/
def catching (x : Traced α) : Traced (Except Failure α) where
  run := Parse.catching x.run
  moments := x.moments

def repeatWhile (enters : ParseState → Bool) (part : Traced α) :
    (fuel : Nat) → (done : List α) → Traced (List α)
  | 0, done => pure done.reverse
  | fuel + 1, done => do
    let s ← look
    if enters s then
      let a ← part
      let t ← look
      if t.cursor = s.cursor then pure (a :: done).reverse
      else repeatWhile enters part fuel (a :: done)
    else pure done.reverse

@[simp] theorem run_pure (a : α) : (pure a : Traced α).run = pure a := rfl

@[simp] theorem run_bind (x : Traced α) (f : α → Traced β) :
    (x >>= f).run = x.run >>= fun a => (f a).run := rfl

@[simp] theorem run_step (x : Parse α) : (step x).run = x := rfl

@[simp] theorem run_look : look.run = get := rfl

@[simp] theorem run_map (x : Traced α) (f : α → β) : (f <$> x).run = f <$> x.run := by
  rw [map_eq_pure_bind f x.run]
  rfl

@[simp] theorem run_catching (x : Traced α) : (catching x).run = Parse.catching x.run := rfl

@[simp] theorem run_ite (b : Prop) [Decidable b] (x y : Traced α) :
    (if b then x else y).run = if b then x.run else y.run := by
  split <;> rfl

private theorem run_repeatWhile (enters : ParseState → Bool) (part : Traced α) (fuel : Nat)
    (done : List α) :
    (repeatWhile enters part fuel done).run = Parse.repeatWhile enters part.run fuel done := by
  induction fuel generalizing done with
  | zero => rfl
  | succ fuel ih =>
    funext s
    simp only [repeatWhile, run_bind, run_ite, run_pure, ih]
    change (if enters s then _ else _ : Parse (List α)) s = _
    simp only [Parse.repeatWhile]
    split
    · cases h : part.run s with
      | ok a t =>
        simp only [Bind.bind, EStateM.bind, h]
        change (if t.cursor = s.cursor then _ else _ : Parse (List α)) t = _
        split <;> rfl
      | error f t => simp only [Bind.bind, EStateM.bind, h]
    · rfl

end Traced

namespace ParseContext

variable {V : Type} (c : ParseContext V)

def tracedRounds {α : Type} (d : Decision) (part : Traced α) : Traced (List α) where
  run s := (Traced.repeatWhile (c.enters · d) part (c.tokens.endIndex - s.cursor + 1) []).run s
  moments calls s :=
    (Traced.repeatWhile (c.enters · d) part (c.tokens.endIndex - s.cursor + 1) []).moments calls s

def tracedNamed (call : RuleId → Rule V → Traced V) (name : String) : Traced V :=
  match c.registry.find? name with
  | some (id, rule) => call id rule
  | none => .step fun s => .error (c.failure s (.unknownRule name)) s

@[simp] theorem run_tracedRounds {α : Type} (d : Decision) (part : Traced α) :
    (c.tracedRounds d part).run = c.rounds d part.run := by
  funext s
  let fuel := c.tokens.endIndex - s.cursor + 1
  exact congrFun (Traced.run_repeatWhile (c.enters · d) part fuel []) s

@[simp] theorem run_tracedNamed (call : RuleId → Rule V → Traced V) (name : String) :
    (c.tracedNamed call name).run = c.callNamed (fun id rule => (call id rule).run) name := by
  funext s
  rw [tracedNamed]
  simp only [callNamed]
  cases c.registry.find? name <;> rfl

end ParseContext

namespace Body

variable {V : Type}

open Traced ParseContext

/-- The moments of a body are those of its steps, and of the bodies of the rules that it calls. -/
def traced (c : ParseContext V) (call : RuleId → Rule V → Traced V) :
    Body V → Traced (List (Yield V))
  | done => pure []
  | consume idx category rest => do
    let t ← step (c.consume idx category)
    let ys ← rest.traced c call
    return .token t :: ys
  | subrule _ rule rest => do
    let v ← c.tracedNamed call rule
    let ys ← rest.traced c call
    return .value v :: ys
  | option idx body rest => do
    let d ← step (c.decision .option idx)
    let s ← look
    let y ← if c.enters s d then Yield.items <$> body.traced c call else pure Yield.nothing
    let ys ← rest.traced c call
    return y :: ys
  | repetition idx false body rest => do
    let d ← step (c.decision .many idx)
    let rounds ← c.tracedRounds d (body.traced c call)
    let ys ← rest.traced c call
    return .items (rounds.map .items) :: ys
  | repetition idx true body rest => do
    let d ← step (c.decision .atLeastOne idx)
    step (c.enterOnce idx d)
    let first ← body.traced c call
    let rounds ← c.tracedRounds d (body.traced c call)
    let ys ← rest.traced c call
    return .items ((first :: rounds).map .items) :: ys
  | choice (n := n) idx expecting gate body rest => do
    let d ← step (c.choiceDecision idx n)
    let k ← step (c.choose idx expecting gate d)
    let taken ← (body k).traced c call
    let ys ← rest.traced c call
    return .chosen k taken :: ys
  | action value rest => do
    let ys ← rest.traced c call
    return .value value :: ys
  | observe value rest => do
    let s ← look
    let ys ← rest.traced c call
    return .value (value (c.view s)) :: ys
  | fail phase cause rest => do
    if phase.covers false then
      let s ← look
      step (throw (c.failure s cause))
    let ys ← rest.traced c call
    return .nothing :: ys
  | during phase body rest => do
    let y ← if phase.covers false then Yield.items <$> body.traced c call else pure Yield.nothing
    let ys ← rest.traced c call
    return y :: ys
  | attempt body rest => do
    let y ←
      match ← catching (body.traced c call) with
      | .ok ys => pure (Yield.kept ys)
      | .error f => pure (Yield.caught f)
    let ys ← rest.traced c call
    return y :: ys

variable {c : ParseContext V} {call : RuleId → Rule V → Traced V}

theorem run_traced (call : RuleId → Rule V → Traced V) (body : Body V) :
    (body.traced c call).run = body.run c fun id rule => (call id rule).run := by
  induction body with
  | done => rfl
  | consume idx category rest ih => simp only [traced, run, run_bind, run_step, run_pure, ih]
  | subrule idx name rest ih => simp only [traced, run, run_bind, run_pure, ih, run_tracedNamed]
  | option idx body rest ihb ih =>
    simp only [traced, run, run_bind, run_step, run_look, run_pure, run_ite, run_map, ih, ihb]
  | repetition idx atLeastOne body rest ihb ih =>
    cases atLeastOne <;>
      simp only [traced, run, run_bind, run_step, run_pure, run_tracedRounds, ih, ihb]
  | choice idx expecting gate body rest ihb ih =>
    simp only [traced, run, run_bind, run_step, run_pure, ih, ihb]
  | action value rest ih => simp only [traced, run, run_bind, run_pure, ih]
  | observe value rest ih => simp only [traced, run, run_bind, run_look, run_pure, ih]
  | fail phase cause rest ih =>
    simp only [traced, run, run_bind, run_step, run_look, run_pure, run_ite, ih]
  | during phase body rest ihb ih =>
    simp only [traced, run, run_bind, run_pure, run_ite, run_map, ih, ihb]
  | attempt body rest ihb ih =>
    simp only [traced, run, run_bind, run_catching, ihb]
    refine congrArg _ (funext fun result => ?_)
    cases result <;> simp only [run_bind, run_pure, ih]

end Body

namespace ParseContext

variable {V : Type} (c : ParseContext V)

/-- A call passes the state in which it begins, the moments of the body, and the state behind it. -/
def tracedCall : (left : Nat) → RuleId → Rule V → Traced V
  | 0, id, rule => .step (c.callRule 0 id rule)
  | left + 1, id, rule =>
    { run := c.callRule (left + 1) id rule
      moments := fun calls s =>
        let inside : Moment := ⟨{ s with stack := id :: s.stack }, ⟨id, s.cursor⟩ :: calls⟩
        inside :: (rule.body.traced c (tracedCall left)).moments inside.calls inside.state
          ++ [⟨(c.callRule (left + 1) id rule).after s, calls⟩] }

theorem run_tracedCall (left : Nat) (id : RuleId) (rule : Rule V) :
    (c.tracedCall left id rule).run = c.callRule left id rule := by
  cases left <;> rfl

theorem run_tracedNamed_tracedCall (left : Nat) (name : String) :
    (c.tracedNamed (c.tracedCall left) name).run = c.callNamed (c.callRule left) name := by
  rw [run_tracedNamed, funext fun id => funext (c.run_tracedCall left id)]

/-- The state in which a parse of all tokens begins. -/
def startState (rule : Rule V) (s : ParseState) : ParseState :=
  s.rewind.note (.debug "Parse started"
    [("start", rule.name), ("tokens", toString c.tokens.size)])

theorem onward_parseAll (id : RuleId) (rule : Rule V) (s : ParseState) :
    (c.startState rule s).Onward (c.parseAll id rule s).2 := by
  have hrule := c.onward_parseRule id rule (c.startState rule s)
  exact (hrule.trans (c.onward_reportRest _)).trans (ParseState.onward_note _ _)

/-- The moments of a parse of all tokens. -/
def moments (id : RuleId) (rule : Rule V) (s : ParseState) : List Moment :=
  let start := c.startState rule s
  ⟨start, []⟩ :: (c.tracedCall Limits.maxParseDepth id rule).moments [] start
    ++ [⟨(c.parseRule id rule start).2, []⟩, ⟨(c.parseAll id rule s).2, []⟩]

end ParseContext

/-- The moments of a parse of the tokens of a session; there is none where the rule is unknown. -/
def Session.moments {V : Type} (s : Session V) (start : String) : List Moment :=
  match s.context.registry.find? start with
  | none => []
  | some (id, rule) => s.context.moments id rule s.state

end PredictiveParsing
