import PredictiveParsing.Diagnostic
import PredictiveParsing.Grammar.Production
import PredictiveParsing.Parsing.Failure

/-!
# Rule bodies

A body tells a parser what to do for a rule, step by step: to consume tokens, to call other rules,
and to decide between further steps by the tokens that come next. Before parsing, every body is
recorded once: it runs without tokens and leaves the phrase that it stands for.
-/

namespace PredictiveParsing

/-- Where a parse is: its place in the input, the rules and the tokens to come. -/
structure Outlook where
  position : Nat
  /-- The rules that are being parsed, the outermost first. -/
  ruleStack : List String
  ahead : Nat → Token

/-- What a body and its gates can see of the parse. -/
structure View extends Outlook where
  /-- The diagnostics so far, those beyond the limit on them apart. -/
  reports : Array Diagnostic
  recording : Bool

/-- The number of diagnostics so far. -/
def View.diagnostics (v : View) : Nat := v.reports.size

/-- A condition on an alternative besides the tokens that it starts with. -/
structure Gate where
  isOpen : View → Bool

namespace Gate

def constant (b : Bool) : Gate := ⟨fun _ => b⟩

def image (n : Nat) (text : String) : Gate := ⟨fun v => (v.ahead n).image == text⟩

/-- The very category of the token `n` places ahead. -/
def category (n : Nat) (c : CategoryId) : Gate := ⟨fun v => (v.ahead n).category == c⟩

def depthAtMost (d : Nat) : Gate := ⟨fun v => v.ruleStack.length ≤ d⟩

def not (g : Gate) : Gate := ⟨fun v => !g.isOpen v⟩

end Gate

/-- When a step of a body is done. -/
inductive Phase where
  | always | parsing | recording
deriving DecidableEq

def Phase.covers (isRecording : Bool) : Phase → Bool
  | always => true
  | parsing => !isRecording
  | recording => isRecording

/-- What one step of a body leaves behind. -/
inductive Yield (V : Type) where
  | token (t : Token)
  /-- The value of a rule or of an action. -/
  | value (v : V)
  | nothing
  /-- What further steps left behind. -/
  | items (ys : List (Yield V))
  /-- What an alternative left behind. -/
  | chosen (k : Nat) (ys : List (Yield V))
  /-- What an attempt left behind that went well. -/
  | kept (ys : List (Yield V))
  | caught (f : Failure)
deriving Inhabited

/-- Steps in a row; every step holds the ones behind it. -/
inductive Body (V : Type) where
  | done
  | consume (idx : Nat) (category : CategoryId) (rest : Body V)
  | subrule (idx : Nat) (rule : String) (rest : Body V)
  | option (idx : Nat) (body rest : Body V)
  | repetition (idx : Nat) (atLeastOne : Bool) (body rest : Body V)
  /-- One of several bodies; `expecting` describes them all. -/
  | choice {n : Nat} (idx : Nat) (expecting : Option String) (gate : Fin n → Option Gate)
    (body : Fin n → Body V) (rest : Body V)
  /-- A value that is there when parsing. -/
  | action (value : V) (rest : Body V)
  | observe (value : View → V) (rest : Body V)
  | fail (phase : Phase) (cause : Failure.Cause) (rest : Body V)
  /-- Steps for one phase only. -/
  | during (phase : Phase) (body rest : Body V)
  /-- Steps whose failure does not end the rule. -/
  | attempt (body rest : Body V)
deriving Inhabited

/-- A rule: its body, and what its value is when the body has been run. -/
structure Rule (V : Type) where
  name : String
  body : Body V
  value : List (Yield V) → V

namespace Body

variable {V : Type}

/-- Whether a body consists of steps on tokens and rules only. -/
def isPlain : Body V → Bool
  | done => true
  | consume _ _ rest => rest.isPlain
  | subrule _ _ rest => rest.isPlain
  | option _ body rest => body.isPlain && rest.isPlain
  | repetition _ _ body rest => body.isPlain && rest.isPlain
  | choice _ _ _ body rest => (List.ofFn fun k => (body k).isPlain).all id && rest.isPlain
  | action .. => false
  | observe .. => false
  | fail .. => false
  | during .. => false
  | attempt .. => false

/-- The phrase that a plain body stands for. -/
def phrase : Body V → Phrase
  | done => .nil
  | consume idx c rest => .terminal c idx rest.phrase
  | subrule idx r rest => .call r idx rest.phrase
  | option idx body rest => .option idx body.phrase rest.phrase
  | repetition idx b body rest => .repetition idx b body.phrase rest.phrase
  | choice idx _ gate body rest =>
    .choice idx (fun k => (gate k).isSome) (fun k => (body k).phrase) rest.phrase
  | action _ rest => rest.phrase
  | observe _ rest => rest.phrase
  | fail _ _ rest => rest.phrase
  | during _ _ rest => rest.phrase
  | attempt _ rest => rest.phrase

end Body

end PredictiveParsing
