import PredictiveParsing.Calculator.Arithmetic
import PredictiveParsing.Unicode.Blank

/-!
# Evaluation reports

What came of an expression, as a text for people or as data. Lists of expressions are read line by
line.
-/

namespace PredictiveParsing

/-- What came of one expression. -/
structure Calculator.Report where
  input : String
  value : Option Float
  diagnostics : List Diagnostic
  /-- The diagnostics with the places in the input that they talk about. -/
  rendered : List String
  /-- Why there was no evaluation. -/
  error : Option String

namespace Calculator.Report

def ofOutcome (m : TokenModel) (input : String) :
    Except EngineError (EngineResult Float) → Calculator.Report
  | .ok o =>
    let ds := o.parse.diagnostics
    ⟨input, some o.parse.value, ds, ds.map (·.render input.toList m), none⟩
  | .error e => ⟨input, none, [], [], some s!"[{e.code}] {e.message}"⟩

def isClean (r : Calculator.Report) : Bool := r.error.isNone && r.diagnostics.isEmpty

def outcomeText (r : Calculator.Report) : String :=
  match r.error, r.value with
  | some e, _ => s!"error: {e}"
  | none, some v => Decimal.Layout.plain.render v
  | none, none => "no value"

def text (r : Calculator.Report) : String :=
  s!"{r.input} => {r.outcomeText}\n" ++ String.join r.rendered

/-- The report as data; the evaluation took no measured time. -/
def toJson (r : Calculator.Report) : Json :=
  .object [("input", .string r.input), ("value", Json.ofOption .float r.value),
    ("diagnostics", .array (r.diagnostics.map (·.toJson))),
    ("rendered", .array (r.rendered.map .string)), ("error", Json.ofOption .string r.error),
    ("duration_us", .nat 0)]

end Calculator.Report

namespace Calculator

def reportLogged (c : Calculator) (input : String) : Log.Logged Calculator.Report := do
  return .ofOutcome c.engine.tokenizer.model input (← c.evaluateLogged input.toList)

def reportAllLogged (c : Calculator) (inputs : List String) : Log.Logged (List Calculator.Report) :=
  inputs.mapM c.reportLogged

/-- The lines of a text that are not blank, without the blanks around them. -/
def expressionsOf (text : String) : List String :=
  (((Excerpt.splitLines text.toList).map Unicode.trimBlank).filter (!·.isEmpty)).map String.ofList

def expressionsOfBytes? (bytes : ByteArray) : Option (List String) :=
  (String.fromUTF8? bytes).map expressionsOf

end Calculator

end PredictiveParsing
