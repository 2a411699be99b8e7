import PredictiveParsing.Parsing.Repair

/-!
# Running rule bodies

A body is run step by step until a step fails. The lookahead tables decide whether optional and
repeated parts are entered and which alternative is taken. A rule that fails is given up where the
parse can go on behind it, and then has the blank value.
-/

namespace PredictiveParsing

namespace Parse

/-- The outcome of a part whose failure is caught. -/
def catching {α : Type} (x : Parse α) : Parse (Except Failure α) := fun s =>
  match x s with
  | .ok a s => .ok (.ok a) s
  | .error f s => .ok (.error f) s

/-- Repeats a part while it is to be entered and moves on, in front of which `done` lies, reversed.
-/
def repeatWhile {α : Type} (enters : ParseState → Bool) (part : Parse α) :
    (fuel : Nat) → (done : List α) → Parse (List α)
  | 0, done => fun s => .ok done.reverse s
  | fuel + 1, done => fun s =>
    if enters s then
      let before := s.cursor
      match part s with
      | .error f s => .error f s
      | .ok a s =>
        if s.cursor = before then .ok (a :: done).reverse s
        else repeatWhile enters part fuel (a :: done) s
    else .ok done.reverse s

end Parse

namespace ParseContext

variable {V : Type} (c : ParseContext V)

/-- Takes one token of a category or of a category below it. -/
def consume (idx : Nat) (category : CategoryId) : Parse Token := fun s =>
  if c.isA (c.ahead s 1).category category then c.advance s
  else
    match c.tokenRepair? s idx category with
    | some repair => c.repairToken idx category repair s
    | none => .error (c.failure s (.mismatch [category])) s

/-- The decision of the current rule that a step belongs to. -/
def decision (kind : DecisionKind) (idx : Nat) : Parse Decision := fun s =>
  match c.decision? s kind idx with
  | some d => .ok d s
  | none => .error (c.failure s (.unrecorded kind.keyword idx)) s

/-- Rounds of a repetition for as long as there are any. A round that does not move on is the last,
so there are no more than tokens and one. -/
def rounds {α : Type} (d : Decision) (part : Parse α) : Parse (List α) := fun s =>
  Parse.repeatWhile (fun s => c.enters s d) part (c.tokens.endIndex - s.cursor + 1) [] s

/-- Makes sure that a part is entered that has to be there. -/
def enterOnce (idx : Nat) (d : Decision) : Parse Unit := fun s =>
  if c.enters s d then .ok () s
  else
    let expected := Decision.startCategories (d.alternatives.take 1)
    let site := RepairSite.decision s.currentRule .atLeastOne idx
    let select (s : ParseState) : Option Unit := if c.enters s d then some () else none
    match c.deleteFor site Code.earlyExit expected select s with
    | (some _, s) => .ok () s
    | (none, s) => .error (c.failure s (.earlyExit expected)) s

def choose {n : Nat} (idx : Nat) (expecting : Option String) (gate : Fin n → Option Gate)
    (d : Decision) : Parse (Fin n) := fun s =>
  match c.select? gate d s with
  | some k => .ok k s
  | none =>
    let expected := Decision.startCategories d.alternatives
    let site := RepairSite.decision s.currentRule .or idx
    match c.deleteFor site Code.noViableAlternative expected (c.select? gate d) s with
    | (some k, s) => .ok k s
    | (none, s) => .error (c.failure s (.noAlternative expected expecting)) s

def choiceDecision (idx n : Nat) : Parse Decision := do
  let d ← c.decision .or idx
  if d.alternatives.length = n then return d
  else throw (c.failure (← get) (.unrecorded DecisionKind.or.keyword idx))

def callNamed (call : RuleId → Rule V → Parse V) (name : String) : Parse V := fun s =>
  match c.registry.find? name with
  | some (id, rule) => call id rule s
  | none => .error (c.failure s (.unknownRule name)) s

end ParseContext

namespace Body

variable {V : Type}

/-- Runs a body, where `call` runs the rules that it calls. -/
def run (c : ParseContext V) (call : RuleId → Rule V → Parse V) : Body V → Parse (List (Yield V))
  | done => pure []
  | consume idx category rest => do
    let t ← c.consume idx category
    return .token t :: (← rest.run c call)
  | subrule _ rule rest => do
    let v ← c.callNamed call rule
    return .value v :: (← rest.run c call)
  | option idx body rest => do
    let d ← c.decision .option idx
    let y ← if c.enters (← get) d then Yield.items <$> body.run c call else pure Yield.nothing
    return y :: (← rest.run c call)
  | repetition idx false body rest => do
    let d ← c.decision .many idx
    let rounds ← c.rounds d (body.run c call)
    return .items (rounds.map .items) :: (← rest.run c call)
  | repetition idx true body rest => do
    let d ← c.decision .atLeastOne idx
    c.enterOnce idx d
    let first ← body.run c call
    let rounds ← c.rounds d (body.run c call)
    return .items ((first :: rounds).map .items) :: (← rest.run c call)
  | choice (n := n) idx expecting gate body rest => do
    let d ← c.choiceDecision idx n
    let k ← c.choose idx expecting gate d
    let ys ← (body k).run c call
    return .chosen k ys :: (← rest.run c call)
  | action value rest => do
    return .value value :: (← rest.run c call)
  | observe value rest => do
    let v := value (c.view (← get))
    return .value v :: (← rest.run c call)
  | fail phase cause rest => do
    if phase.covers false then throw (c.failure (← get) cause)
    return .nothing :: (← rest.run c call)
  | during phase body rest => do
    let y ← if phase.covers false then Yield.items <$> body.run c call else pure Yield.nothing
    return y :: (← rest.run c call)
  | attempt body rest => do
    let y ←
      match ← Parse.catching (body.run c call) with
      | .ok ys => pure (Yield.kept ys)
      | .error f => pure (Yield.caught f)
    return y :: (← rest.run c call)

end Body

namespace ParseContext

variable {V : Type} (c : ParseContext V)

/-- Ends the innermost rule. -/
def leave (s : ParseState) : ParseState := { s with stack := s.stack.drop 1 }

/-- What becomes of a rule that failed: the outermost one is reported, any other is given up if the
parse can go on behind it. -/
def settle (id : RuleId) (f : Failure) (s : ParseState) : EStateM.Result Failure ParseState V :=
  if s.stack.length = 1 then .ok c.registry.blank (leave (c.report s (c.diagnosis s f)))
  else
    match c.resync id f s with
    | .ok v s => .ok v (leave s)
    | .error f s => .error f (leave s)

/-- Calls a rule, from which calls can nest `left` deep, itself included. -/
def callRule : (left : Nat) → RuleId → Rule V → Parse V
  | 0, _, _ => fun s => .error (c.failure s (.tooDeep s.stack.length)) s
  | left + 1, id, rule => fun s =>
    match rule.body.run c (callRule left) { s with stack := id :: s.stack } with
    | .ok ys s => .ok (rule.value ys) (leave s)
    | .error f s => c.settle id f s

/-- Runs a body on its own, outside of all rules or inside of those being parsed. -/
def runBody (body : Body V) : Parse (List (Yield V)) := fun s =>
  body.run c (c.callRule (Limits.maxParseDepth - s.stack.length)) s

end ParseContext

end PredictiveParsing
