import PredictiveParsing.Diagnostic
import PredictiveParsing.Parsing.Registry

/-!
# States of a parse

A parse goes along a stream of tokens. Its state is the place in the stream, the rules that are
being parsed, and what has been reported and repaired so far.
-/

namespace PredictiveParsing

/-- A place in a rule at which a repair can be made, at most once in a parse. -/
inductive RepairSite where
  | token (rule : RuleId) (category : CategoryId) (idx : Nat)
  | decision (rule : RuleId) (kind : DecisionKind) (idx : Nat)
deriving DecidableEq

structure ParseState where
  /-- The index of the next token. -/
  cursor : Nat
  /-- The rules that are being parsed, the innermost first. -/
  stack : List RuleId
  diagnostics : Array Diagnostic
  /-- The number of diagnostics beyond the limit on them. -/
  suppressed : Nat
  repaired : List RepairSite
  /-- Events that have not been written yet, the latest first. -/
  events : List Log.Event

namespace ParseState

def start : ParseState := ⟨0, [], #[], 0, [], []⟩

def note (s : ParseState) (e : Log.Event) : ParseState := { s with events := e :: s.events }

/-- The rule that is being parsed; outside of all rules the first one counts. -/
def currentRule (s : ParseState) : RuleId := s.stack.headD 0

/-- Back at the first token, with nothing reported or repaired. -/
def rewind (s : ParseState) : ParseState := { start with events := s.events }

/-- Keeps a diagnostic if there are less than `cap` of them, or else counts it. -/
def report (cap : Nat) (s : ParseState) (d : Diagnostic) : ParseState :=
  if cap ≤ s.diagnostics.size then { s with suppressed := s.suppressed + 1 }
  else
    let e := .debug "Syntax diagnostic"
      [("code", d.code), ("offset", toString d.offset), ("message", d.message)]
    { s with diagnostics := s.diagnostics.push d, events := e :: s.events }

end ParseState

/-- A part of a parse. A failure keeps the state in which it occurred. -/
abbrev Parse (α : Type) := EStateM Failure ParseState α

/-- What does not change in a parse: the rules, their analysis and the tokens. -/
structure ParseContext (V : Type) where
  registry : Registry V
  analysis : AnalyzedGrammar
  tokens : TokenStream

namespace ParseContext

variable {V : Type} (c : ParseContext V)

def isA (actual expected : CategoryId) : Bool := c.registry.model.isA actual expected

/-- The token `n` places ahead, where the next token is one place ahead. -/
def ahead (s : ParseState) (n : Nat) : Token := c.tokens.get (s.cursor + (max n 1 - 1))

def failure (s : ParseState) (cause : Failure.Cause) : Failure := ⟨cause, c.ahead s 1⟩

def ruleNames (s : ParseState) : List String := (s.stack.map c.registry.ruleName).reverse

def outlook (s : ParseState) : Outlook := ⟨s.cursor, c.ruleNames s, c.ahead s⟩

def view (s : ParseState) : View := ⟨c.outlook s, s.diagnostics, false⟩

def report (s : ParseState) (d : Diagnostic) : ParseState :=
  s.report c.registry.preferences.diagnosticLimit d

/-- The diagnostic of a failure that nothing was done about. -/
def diagnosis (s : ParseState) (f : Failure) : Diagnostic :=
  { Diagnostic.syntactic f.code (f.describe c.registry.model) f.expected f.actual with
    ruleStack := c.ruleNames s }

/-- The decision of the current rule with a kind and an index. -/
def decision? (s : ParseState) (kind : DecisionKind) (idx : Nat) : Option Decision :=
  c.analysis.rules[s.currentRule]?.bind fun r => r.decision? kind idx

/-- Whether one of the paths of an alternative matches the next tokens. -/
def isAhead (s : ParseState) (a : Alternative) : Bool :=
  a.paths.any fun path => path.zipIdx.all fun (expected, i) =>
    c.isA (c.ahead s (i + 1)).category expected

/-- Whether the next tokens are those of the first alternative: to enter an option or a repetition.
-/
def enters (s : ParseState) (d : Decision) : Bool := d.alternatives.head?.any (c.isAhead s)

/-- The first alternative with an open gate that the next tokens are those of. -/
def select? {n : Nat} (gate : Fin n → Option Gate) (d : Decision) (s : ParseState) :
    Option (Fin n) :=
  (List.finRange n).find? fun k =>
    (gate k).all (·.isOpen (c.view s)) && d.alternatives[k.val]?.any (c.isAhead s)

/-- The next token; the end of the input stays the next token. -/
def advance : Parse Token := fun s =>
  let t := c.ahead s 1
  .ok t (if s.cursor < c.tokens.endIndex then { s with cursor := s.cursor + 1 } else s)

end ParseContext

end PredictiveParsing
