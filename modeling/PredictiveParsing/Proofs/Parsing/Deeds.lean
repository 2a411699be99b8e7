import PredictiveParsing.Proofs.Parsing.Moments

/-!
# The deeds of a parse

A parse is a row of deeds. A step of a body is begun, a rule is entered or left, or it is settled
what becomes of a rule that failed. Every deed is done in the state that the one before it leaves
behind.
-/

namespace PredictiveParsing

/-- What is done in a parse. -/
inductive Act (V : Type) where
  /-- The first step of a body is begun. -/
  | step (body : Body V)
  | enter (id : RuleId)
  /-- A rule that went well is left. -/
  | leave
  | settle (id : RuleId) (f : Failure)
  /-- Tokens that are left behind the start rule are reported. -/
  | finish

/-- Something done in a parse, and the state in which it is done. -/
structure Deed (V : Type) where
  state : ParseState
  act : Act V

namespace ParseContext

variable {V : Type} (c : ParseContext V)

/-- The decision of a repetition with at least one round, the first of which is ready to begin. -/
def entrance (idx : Nat) : Parse Decision := do
  let d ← c.decision .atLeastOne idx
  c.enterOnce idx d
  return d

def selection {n : Nat} (idx : Nat) (expecting : Option String) (gate : Fin n → Option Gate) :
    Parse (Fin n) := do
  let d ← c.choiceDecision idx n
  c.choose idx expecting gate d

def resolve (name : String) : Parse Unit := fun s =>
  match c.registry.find? name with
  | some _ => .ok () s
  | none => .error (c.failure s (.unknownRule name)) s

end ParseContext

namespace Body

variable {V : Type}

/-- What the first step of a body does itself, apart from the bodies that it runs. -/
def opening (c : ParseContext V) : Body V → Parse Unit
  | done => pure ()
  | consume idx category _ => discard (c.consume idx category)
  | subrule _ name _ => c.resolve name
  | option idx _ _ => discard (c.decision .option idx)
  | repetition idx false _ _ => discard (c.decision .many idx)
  | repetition idx true _ _ => discard (c.entrance idx)
  | choice idx expecting gate _ _ => discard (c.selection idx expecting gate)
  | action _ _ => pure ()
  | observe _ _ => pure ()
  | fail phase cause _ => fun s =>
    if phase.covers false then .error (c.failure s cause) s else .ok () s
  | during _ _ _ => pure ()
  | attempt _ _ => pure ()

/-- The bodies that the first step of a body can run, and the steps behind it. -/
def parts : Body V → List (Body V)
  | done => []
  | consume _ _ rest => [rest]
  | subrule _ _ rest => [rest]
  | option _ body rest => [body, rest]
  | repetition _ _ body rest => [body, rest]
  | choice _ _ _ body rest => rest :: List.ofFn body
  | action _ rest => [rest]
  | observe _ rest => [rest]
  | fail _ _ rest => [rest]
  | during phase body rest => if phase.covers false then [body, rest] else [rest]
  | attempt body rest => [body, rest]

end Body

/-- The state that a deed leaves behind. -/
def Deed.after {V : Type} (c : ParseContext V) (d : Deed V) : ParseState :=
  match d.act with
  | .step body => (body.opening c).after d.state
  | .enter id => { d.state with stack := id :: d.state.stack }
  | .leave => ParseContext.leave d.state
  | .settle id f => Parse.stateOf (c.settle id f d.state)
  | .finish => c.reportRest d.state

/-! ## The deeds of bodies and rules -/

namespace Parse

variable {V α : Type}

/-- The deeds of a part, and those of what is done with its result. -/
def deedsOf (x : Parse α) (here : ParseState → List (Deed V))
    (behind : α → ParseState → List (Deed V)) : ParseState → List (Deed V) := fun s =>
  here s ++ match x s with
    | .ok a t => behind a t
    | .error _ _ => []

def deedsWhile (enters : ParseState → Bool) (part : Parse α) (here : ParseState → List (Deed V)) :
    (fuel : Nat) → ParseState → List (Deed V)
  | 0 => fun _ => []
  | fuel + 1 => fun s =>
    if enters s then
      deedsOf part here (fun _ t =>
        if t.cursor = s.cursor then [] else deedsWhile enters part here fuel t) s
    else []

end Parse

open Parse

namespace ParseContext

variable {V : Type} (c : ParseContext V)

def deedsOfRounds {α : Type} (d : Decision) (part : Parse α) (here : ParseState → List (Deed V)) :
    ParseState → List (Deed V) := fun s =>
  deedsWhile (c.enters · d) part here (c.tokens.endIndex - s.cursor + 1) s

def deedsOfNamed (inside : RuleId → Rule V → ParseState → List (Deed V)) (name : String) :
    ParseState → List (Deed V) := fun s =>
  match c.registry.find? name with
  | some (id, rule) => inside id rule s
  | none => []

end ParseContext

namespace Body

variable {V : Type}

def begun (body : Body V) : ParseState → List (Deed V) := fun s => [⟨s, .step body⟩]

/-- The deeds of a body: those of its steps, and of the bodies of the rules that it calls. -/
def deeds (c : ParseContext V) (call : RuleId → Rule V → Parse V)
    (inside : RuleId → Rule V → ParseState → List (Deed V)) : Body V → ParseState → List (Deed V)
  | done => fun _ => []
  | body@(consume idx category rest) =>
    deedsOf (c.consume idx category) body.begun fun _ => rest.deeds c call inside
  | body@(subrule _ name rest) =>
    deedsOf (c.callNamed call name) (fun s => body.begun s ++ c.deedsOfNamed inside name s)
      fun _ => rest.deeds c call inside
  | whole@(option idx body rest) =>
    deedsOf (c.decision .option idx) whole.begun fun d s =>
      if c.enters s d then
        deedsOf (body.run c call) (body.deeds c call inside) (fun _ => rest.deeds c call inside) s
      else rest.deeds c call inside s
  | whole@(repetition idx false body rest) =>
    deedsOf (c.decision .many idx) whole.begun fun d =>
      deedsOf (c.rounds d (body.run c call))
        (c.deedsOfRounds d (body.run c call) (body.deeds c call inside))
        fun _ => rest.deeds c call inside
  | whole@(repetition idx true body rest) =>
    deedsOf (c.entrance idx) whole.begun fun d =>
      deedsOf (body.run c call) (body.deeds c call inside) fun _ =>
        deedsOf (c.rounds d (body.run c call))
          (c.deedsOfRounds d (body.run c call) (body.deeds c call inside))
          fun _ => rest.deeds c call inside
  | whole@(choice idx expecting gate body rest) =>
    deedsOf (c.selection idx expecting gate) whole.begun fun k =>
      deedsOf ((body k).run c call) ((body k).deeds c call inside) fun _ =>
        rest.deeds c call inside
  | body@(action _ rest) => fun s => body.begun s ++ rest.deeds c call inside s
  | body@(observe _ rest) => fun s => body.begun s ++ rest.deeds c call inside s
  | body@(fail phase _ rest) => fun s =>
    body.begun s ++ if phase.covers false then [] else rest.deeds c call inside s
  | whole@(during phase body rest) => fun s =>
    whole.begun s ++
      if phase.covers false then
        deedsOf (body.run c call) (body.deeds c call inside) (fun _ => rest.deeds c call inside) s
      else rest.deeds c call inside s
  | whole@(attempt body rest) => fun s =>
    whole.begun s ++ deedsOf (Parse.catching (body.run c call)) (body.deeds c call inside)
      (fun _ => rest.deeds c call inside) s

end Body

namespace ParseContext

variable {V : Type} (c : ParseContext V)

/-- The deed that a rule ends with when its body has come to an end. -/
def ending (id : RuleId) : EStateM.Result Failure ParseState (List (Yield V)) → Deed V
  | .ok _ t => ⟨t, .leave⟩
  | .error f t => ⟨t, .settle id f⟩

/-- The deeds of a call, from which calls can nest `left` deep, itself included. -/
def deedsOfCall : (left : Nat) → RuleId → Rule V → ParseState → List (Deed V)
  | 0, _, _ => fun _ => []
  | left + 1, id, rule => fun s =>
    let entered : ParseState := { s with stack := id :: s.stack }
    ⟨s, .enter id⟩ :: rule.body.deeds c (c.callRule left) (deedsOfCall left) entered
      ++ [ending id (rule.body.run c (c.callRule left) entered)]

def deeds (id : RuleId) (rule : Rule V) (s : ParseState) : List (Deed V) :=
  let start := c.startState rule s
  c.deedsOfCall Limits.maxParseDepth id rule start ++ [⟨(c.parseRule id rule start).2, .finish⟩]

/-- Every deed is done in the state behind the one before it. -/
def Leads : ParseState → List (Deed V) → ParseState → Prop
  | s, [], t => s = t
  | s, d :: ds, t => d.state = s ∧ Leads (d.after c) ds t

end ParseContext

/-- The deeds of a parse of the tokens of a session; there is none where the rule is unknown. -/
def Session.deeds {V : Type} (s : Session V) (start : String) : List (Deed V) :=
  match s.context.registry.find? start with
  | none => []
  | some (id, rule) => s.context.deeds id rule s.state

/-! ## Every deed begins where the one before it ends -/

namespace Parse

variable {V α β : Type} {c : ParseContext V}

theorem after_discard (x : Parse α) (s : ParseState) :
    (discard x : Parse Unit).after s = x.after s := by
  simp only [after, discard, Functor.mapConst, Function.comp, EStateM.map]
  cases x s <;> rfl

theorem after_bind_pure (x : Parse α) (f : α → β) (s : ParseState) :
    (x >>= fun a => pure (f a)).after s = x.after s := by
  simp only [after, Bind.bind, EStateM.bind]
  cases x s <;> rfl

/-- The part leads from every state through its deeds to the state behind it. -/
def LeadsBy (c : ParseContext V) (x : Parse α) (here : ParseState → List (Deed V)) : Prop :=
  ∀ s, c.Leads s (here s) (x.after s)

end Parse

namespace ParseContext

variable {V : Type} {c : ParseContext V} {s u : ParseState}

theorem leads_append {xs ys : List (Deed V)} :
    c.Leads s (xs ++ ys) u ↔ ∃ t, c.Leads s xs t ∧ c.Leads t ys u := by
  induction xs generalizing s with
  | nil => simp [Leads]
  | cons d xs ih => simp [Leads, ih, and_assoc]

end ParseContext

namespace Parse.LeadsBy

variable {V α β : Type} {c : ParseContext V} {x : Parse α} {here : ParseState → List (Deed V)}

open ParseContext

theorem bind {f : α → Parse β} {behind : α → ParseState → List (Deed V)} (hx : LeadsBy c x here)
    (hf : ∀ a, LeadsBy c (f a) (behind a)) : LeadsBy c (x >>= f) (deedsOf x here behind) := by
  intro s
  have hs := hx s
  simp only [after, deedsOf, Bind.bind, EStateM.bind] at hs ⊢
  cases h : x s with
  | ok a t =>
    simp only [h, stateOf] at hs ⊢
    exact leads_append.mpr ⟨t, hs, hf a t⟩
  | error e t =>
    simp only [h, stateOf, List.append_nil] at hs ⊢
    exact hs

private theorem bind_pure {f : α → β} (hx : LeadsBy c x here) :
    LeadsBy c (x >>= fun a => pure (f a)) here :=
  fun s => after_bind_pure x f s ▸ hx s

private theorem of_opening {body : Body V} (h : body.opening c = discard x) :
    LeadsBy c x body.begun :=
  fun s => ⟨rfl, (congrArg (after · s) h).trans (after_discard x s)⟩

private theorem get_bind {f : ParseState → Parse α} (h : ∀ s, c.Leads s (here s) ((f s).after s)) :
    LeadsBy c (get >>= f) here := h

private theorem behind_begun {body : Body V} (h : ∀ s, (body.opening c).after s = s)
    (hx : LeadsBy c x here) : LeadsBy c x fun s => body.begun s ++ here s :=
  fun s => leads_append.mpr ⟨s, ⟨rfl, h s⟩, hx s⟩

theorem catching (hx : LeadsBy c x here) : LeadsBy c (Parse.catching x) here := by
  intro s
  have hafter : (Parse.catching x).after s = x.after s := by
    simp only [after, Parse.catching]
    cases x s <;> rfl
  exact hafter ▸ hx s

theorem repeatWhile (hx : LeadsBy c x here) (enters : ParseState → Bool) (fuel : Nat)
    (done : List α) :
    LeadsBy c (Parse.repeatWhile enters x fuel done) (deedsWhile enters x here fuel) := by
  induction fuel generalizing done with
  | zero => exact fun s => rfl
  | succ fuel ih =>
    intro s
    have hs := hx s
    simp only [after, Parse.repeatWhile, deedsWhile] at hs ⊢
    split
    · simp only [deedsOf]
      cases h : x s with
      | error f t =>
        simp only [h, stateOf, List.append_nil] at hs ⊢
        exact hs
      | ok a t =>
        simp only [h, stateOf] at hs ⊢
        refine leads_append.mpr ⟨t, hs, ?_⟩
        split
        · exact rfl
        · exact ih (a :: done) t
    · exact rfl

end Parse.LeadsBy

namespace Body

variable {V : Type} {c : ParseContext V}

open Parse ParseContext

private theorem after_resolve (name : String) (s : ParseState) : (c.resolve name).after s = s := by
  simp only [after, resolve]
  cases c.registry.find? name <;> rfl

private theorem leadsBy_named {call : RuleId → Rule V → Parse V}
    {inside : RuleId → Rule V → ParseState → List (Deed V)}
    (hcall : ∀ id rule, LeadsBy c (call id rule) (inside id rule)) (name : String) :
    LeadsBy c (c.callNamed call name) (c.deedsOfNamed inside name) := by
  intro s
  simp only [after, callNamed, deedsOfNamed]
  cases c.registry.find? name with
  | none => exact rfl
  | some found => exact hcall found.1 found.2 s

private theorem leadsBy_rounds {α : Type} (d : Decision) {x : Parse α}
    {here : ParseState → List (Deed V)} (hx : LeadsBy c x here) :
    LeadsBy c (c.rounds d x) (c.deedsOfRounds d x here) :=
  fun s => hx.repeatWhile _ _ _ s

theorem run_repetition {call : RuleId → Rule V → Parse V} (idx : Nat) (body rest : Body V) :
    (repetition idx true body rest).run c call = (do
      let d ← c.entrance idx
      let first ← body.run c call
      let rounds ← c.rounds d (body.run c call)
      return .items ((first :: rounds).map .items) :: (← rest.run c call)) := by
  simp only [run, entrance, bind_assoc, pure_bind]

theorem run_choice {call : RuleId → Rule V → Parse V} {n : Nat} (idx : Nat)
    (expecting : Option String) (gate : Fin n → Option Gate) (body : Fin n → Body V)
    (rest : Body V) : (choice idx expecting gate body rest).run c call = (do
      let k ← c.selection idx expecting gate
      let ys ← (body k).run c call
      return .chosen k ys :: (← rest.run c call)) := by
  simp only [run, selection, bind_assoc]

/-- A body leads through its deeds if the rules that it calls do. -/
theorem leadsBy_run {call : RuleId → Rule V → Parse V}
    {inside : RuleId → Rule V → ParseState → List (Deed V)}
    (hcall : ∀ id rule, LeadsBy c (call id rule) (inside id rule)) (body : Body V) :
    LeadsBy c (body.run c call) (body.deeds c call inside) := by
  induction body with
  | done => exact fun s => rfl
  | consume idx category rest ih => exact LeadsBy.bind (.of_opening rfl) fun _ => ih.bind_pure
  | subrule idx name rest ih =>
    have hcalled : LeadsBy c (c.callNamed call name) fun s =>
        (subrule idx name rest).begun s ++ c.deedsOfNamed inside name s :=
      (leadsBy_named hcall name).behind_begun (after_resolve name)
    exact hcalled.bind fun _ => ih.bind_pure
  | option idx body rest ihb ih =>
    refine LeadsBy.bind (.of_opening rfl) fun d => .get_bind fun s => ?_
    simp only
    split
    · rw [bind_map_left]
      exact ihb.bind (fun _ => ih.bind_pure) s
    · rw [pure_bind]
      exact ih.bind_pure s
  | repetition idx atLeastOne body rest ihb ih =>
    have hrounds := fun d => leadsBy_rounds d ihb
    cases atLeastOne with
    | false => exact LeadsBy.bind (.of_opening rfl) fun d => (hrounds d).bind fun _ => ih.bind_pure
    | true =>
      rw [run_repetition]
      exact LeadsBy.bind (.of_opening rfl) fun d => ihb.bind fun _ => (hrounds d).bind fun _ =>
        ih.bind_pure
  | choice idx expecting gate body rest ihb ih =>
    rw [run_choice]
    exact LeadsBy.bind (.of_opening rfl) fun k => (ihb k).bind fun _ => ih.bind_pure
  | action value rest ih => exact ih.bind_pure.behind_begun fun _ => rfl
  | observe value rest ih =>
    exact .get_bind fun s => ih.bind_pure.behind_begun (fun _ => rfl) s
  | fail phase cause rest ih =>
    intro s
    simp only [deeds, run]
    split
    · rename_i h
      refine ⟨rfl, ?_⟩
      simp only [Deed.after, opening, after, h]
      rfl
    · rename_i h
      exact ih.bind_pure.behind_begun (fun s => by simp only [opening, after, h]; rfl) s
  | during phase body rest ihb ih =>
    intro s
    refine leads_append.mpr ⟨s, ⟨rfl, rfl⟩, ?_⟩
    simp only [run]
    split
    · rw [bind_map_left]
      exact ihb.bind (fun _ => ih.bind_pure) s
    · rw [pure_bind]
      exact ih.bind_pure s
  | attempt body rest ihb ih =>
    refine LeadsBy.behind_begun (fun _ => rfl) (ihb.catching.bind fun result => ?_)
    cases result <;> exact ih.bind_pure

end Body

namespace ParseContext

variable {V : Type} (c : ParseContext V)

open Parse

theorem leadsBy_callRule (left : Nat) (id : RuleId) (rule : Rule V) :
    LeadsBy c (c.callRule left id rule) (c.deedsOfCall left id rule) := by
  induction left generalizing id rule with
  | zero => exact fun s => rfl
  | succ left ih =>
    intro s
    have hbody := Body.leadsBy_run ih rule.body { s with stack := id :: s.stack }
    refine ⟨rfl, leads_append.mpr ⟨_, hbody, ?_⟩⟩
    simp only [after, callRule]
    cases rule.body.run c (c.callRule left) { s with stack := id :: s.stack } with
    | ok ys t => exact ⟨rfl, rfl⟩
    | error f t => exact ⟨rfl, rfl⟩

private theorem exists_callRule_eq_ok (left : Nat) (id : RuleId) (rule : Rule V) {s : ParseState}
    (hs : s.stack = []) : ∃ v t, c.callRule (left + 1) id rule s = .ok v t := by
  have hbody := Body.onward_run c (c.onward_callRule left) rule.body
  simp only [callRule]
  cases h : rule.body.run c (c.callRule left) { s with stack := id :: s.stack } with
  | ok ys t => exact ⟨_, _, rfl⟩
  | error f t =>
    have hstack : t.stack = id :: s.stack := (hbody.of_error h).stack_eq
    simp only [settle, hstack, hs, List.length_singleton, if_true]
    exact ⟨_, _, rfl⟩

private theorem stack_startState (rule : Rule V) (s : ParseState) :
    (c.startState rule s).stack = [] := rfl

theorem leads_deeds (id : RuleId) (rule : Rule V) (s : ParseState) :
    c.Leads (c.startState rule s) (c.deeds id rule s)
      (c.reportRest (c.parseRule id rule (c.startState rule s)).2) := by
  refine leads_append.mpr ⟨(c.parseRule id rule (c.startState rule s)).2, ?_, rfl, rfl⟩
  obtain ⟨v, t, h⟩ := c.exists_callRule_eq_ok (Limits.maxParseDepth - 1) id rule
    (c.stack_startState rule s)
  change c.callRule Limits.maxParseDepth id rule (c.startState rule s) = _ at h
  have hrule : (c.parseRule id rule (c.startState rule s)).2 = t := by simp only [parseRule, h]
  have hcall := c.leadsBy_callRule Limits.maxParseDepth id rule (c.startState rule s)
  rwa [after_eq_of_ok h, ← hrule] at hcall

end ParseContext

end PredictiveParsing
