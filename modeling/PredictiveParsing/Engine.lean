import PredictiveParsing.Lexing.Tokenizer
import PredictiveParsing.Parsing.Session

/-!
# Engines

An engine tokenizes a text and parses the tokens, with a tokenizer and rules for the same token
model.
-/

namespace PredictiveParsing

inductive EngineError where
  | tokenizer (cause : TokenizerError)
  | grammar (cause : GrammarDefect)
  | parse (cause : ParseRefusal)
  | modelMismatch

namespace EngineError

def message : EngineError → String
  | tokenizer cause => s!"Tokenizer setup failed: {cause.message}"
  | grammar cause => s!"Grammar analysis failed: {cause.message}"
  | parse cause => s!"Parse could not start: {cause.message}"
  | modelMismatch => "Tokenizer and registry were built from different token models"

def code : EngineError → Code
  | tokenizer cause => cause.code
  | grammar cause => cause.code
  | parse cause => cause.code
  | modelMismatch => Code.configurationError

end EngineError

structure Engine (V : Type) where
  tokenizer : Tokenizer
  registry : Registry V

/-- All that comes of a text. -/
structure EngineResult (V : Type) where
  parse : ParseResult V
  groups : Dictionary (List Token)
  counts : TokenCounts
  /-- The number of tokens for the parser, with the end of the input. -/
  tokenCount : Nat

namespace Engine

variable {V : Type}

/-- Puts a tokenizer and a registry together and analyzes the rules. -/
def buildLogged (t : Tokenizer) (r : Registry V) : Log.Logged (Except EngineError (Engine V)) := do
  if t.model.tag ≠ r.model.tag then
    Log.emit (.error Code.configurationError "Tokenizer and registry use different token models" [])
    return .error .modelMismatch
  else
    let r ← r.finalizeLogged
    match r.outcome with
    | some (.error d) => return .error (.grammar d)
    | _ => return .ok ⟨t, r⟩

def build (t : Tokenizer) (r : Registry V) : Except EngineError (Engine V) :=
  (buildLogged t r #[]).1

/-- An engine with its own tokenizer for the model of the registry. -/
def ofRegistryLogged (r : Registry V) (p : TokenizerPreferences) :
    Log.Logged (Except EngineError (Engine V)) := do
  match ← Tokenizer.buildLogged r.model p with
  | .error e => return .error (.tokenizer e)
  | .ok t => buildLogged t r

def analysis? (e : Engine V) : Option AnalyzedGrammar := e.registry.analysis?

/-- The event of a text that has been parsed; it took no measured time. -/
def completeEvent (start : String) (o : EngineResult V) : Log.Event :=
  .success Code.pipelineComplete "Tokenize and parse pipeline finished"
    [("start", start), ("tokens", toString o.tokenCount),
      ("lexical_diagnostics", toString o.parse.lexical.length),
      ("syntactic_diagnostics", toString o.parse.syntactic.length),
      ("duration_ms", "0"), ("processing_rate_tokens_per_sec", "0")]

/-- Tokenizes a text and parses it with the rule of the given name. -/
def parseLogged (e : Engine V) (start : String) (text : List Char) :
    Log.Logged (Except EngineError (EngineResult V)) := do
  Log.emit (.debug "Pipeline started" [("start", start), ("bytes", toString (byteCount text))])
  let o ← e.tokenizer.tokenizeLogged text
  match e.registry.session (.ofList o.tokens) with
  | .error cause => return .error (.parse cause)
  | .ok session =>
    let (outcome, _) ← { session with lexical := o.diagnostics }.invokeLogged start
    match outcome with
    | .error cause => return .error (.parse cause)
    | .ok parse =>
      let output := ⟨parse, o.groups, o.counts, o.tokens.length⟩
      Log.emit (completeEvent start output)
      return .ok output

def parse (e : Engine V) (start : String) (text : List Char) :
    Except EngineError (EngineResult V) :=
  (e.parseLogged start text #[]).1

end Engine

end PredictiveParsing
