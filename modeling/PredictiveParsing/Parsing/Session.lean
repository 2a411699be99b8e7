import PredictiveParsing.Parsing.Run

/-!
# Sessions

A session parses streams of tokens, one at a time, with the rules of a registry that has been
analyzed. Parsing always gives a value, and says in its diagnostics what was wrong.
-/

namespace PredictiveParsing

/-- Why a parse cannot start. -/
inductive ParseRefusal where
  | notFinalized
  | defect (d : GrammarDefect)
  | unknownStart (name : String)

namespace ParseRefusal

def message : ParseRefusal → String
  | notFinalized => "Registry has not been finalized"
  | defect d => s!"Grammar is structurally invalid: {d.message}"
  | unknownStart name => s!"Start rule '{name}' is not defined"

def code : ParseRefusal → Code
  | notFinalized => Code.notFinalized
  | defect d => d.code
  | unknownStart _ => Code.unknownRuleName

end ParseRefusal

structure ParseResult (V : Type) where
  value : V
  lexical : List Diagnostic
  syntactic : List Diagnostic
  /-- The number of syntactic diagnostics beyond the limit on them. -/
  suppressed : Nat

namespace ParseResult

variable {V : Type}

def diagnostics (o : ParseResult V) : List Diagnostic := o.lexical ++ o.syntactic

def isClean (o : ParseResult V) : Bool := o.lexical.isEmpty && o.syntactic.isEmpty

end ParseResult

structure Session (V : Type) where
  context : ParseContext V
  /-- What was reported of the text that the tokens come from. -/
  lexical : List Diagnostic
  state : ParseState

/-- A session over some tokens, if the rules have been analyzed and have no defect. -/
def Registry.session {V : Type} (r : Registry V) (tokens : TokenStream) :
    Except ParseRefusal (Session V) :=
  match r.outcome with
  | none => .error .notFinalized
  | some (.error d) => .error (.defect d)
  | some (.ok a) => .ok ⟨⟨r, a, tokens⟩, [], .start⟩

namespace ParseContext

variable {V : Type} (c : ParseContext V)

/-- The value of the start rule on all tokens, and the state behind it. -/
def parseRule (id : RuleId) (rule : Rule V) (s : ParseState) : V × ParseState :=
  match c.callRule Limits.maxParseDepth id rule s with
  | .ok v s => (v, s)
  | .error f s => (c.registry.blank, c.report s (c.diagnosis s f))

def reportRest (s : ParseState) : ParseState :=
  let next := c.ahead s 1
  if next.isEof then s
  else
    c.report s (.syntactic Code.notAllInputParsed
      s!"Redundant input, expecting end of input but found {next.text}" [CategoryId.eof] next)

def parseAll (id : RuleId) (rule : Rule V) (s : ParseState) : V × ParseState :=
  let started := .debug "Parse started"
    [("start", rule.name), ("tokens", toString c.tokens.size)]
  let (v, s) := c.parseRule id rule (s.rewind.note started)
  let s := c.reportRest s
  let complete := .success Code.parseComplete "Parse complete"
    [("start", rule.name), ("consumed", toString s.cursor),
      ("diagnostics", toString s.diagnostics.size), ("suppressed", toString s.suppressed)]
  (v, s.note complete)

end ParseContext

namespace Session

variable {V : Type}

/-- The session with other tokens. -/
def load (s : Session V) (tokens : TokenStream) (lexical : List Diagnostic) : Session V :=
  { s with
    context := { s.context with tokens := tokens }
    lexical := lexical
    state := s.state.rewind }

/-- Parses the tokens with the rule of the given name. The diagnostics go into the output. -/
def invoke (s : Session V) (start : String) : Except ParseRefusal (ParseResult V) × Session V :=
  let r := s.context.registry
  match r.find? start with
  | none => (.error (.unknownStart start), s)
  | some (id, rule) =>
    let (v, state) := s.context.parseAll id rule s.state
    let output := ⟨v, s.lexical, state.diagnostics.toList, state.suppressed⟩
    (.ok output, { s with lexical := [], state := { state with diagnostics := #[] } })

/-- Runs a body outside of all rules. -/
def runBody (s : Session V) (body : Body V) : Except Failure (List (Yield V)) × Session V :=
  match s.context.runBody body s.state with
  | .ok ys state => (.ok ys, { s with state := state })
  | .error f state => (.error f, { s with state := state })

def text (s : Session V) : String :=
  String.join ["ParseSession \x7b recording: false, cursor: ", toString s.state.cursor,
    ", tokens: ", toString s.context.tokens.size, ", depth: ", toString s.state.stack.length,
    ", diagnostics: ", toString s.state.diagnostics.size, " \x7d"]

def flush (s : Session V) : Log.Logged (Session V) := do
  Log.emitAll s.state.events.reverse
  return { s with state := { s.state with events := [] } }

def invokeLogged (s : Session V) (start : String) :
    Log.Logged (Except ParseRefusal (ParseResult V) × Session V) := do
  let (outcome, s) := s.invoke start
  return (outcome, ← s.flush)

def runBodyLogged (s : Session V) (body : Body V) :
    Log.Logged (Except Failure (List (Yield V)) × Session V) := do
  let (outcome, s) := s.runBody body
  return (outcome, ← s.flush)

end Session

def Registry.parse {V : Type} (r : Registry V) (start : String) (tokens : TokenStream) :
    Except ParseRefusal (ParseResult V) := do
  ((← r.session tokens).invoke start).1

end PredictiveParsing
