import PredictiveParsing.Text.Excerpt
import PredictiveParsing.Json.Value
import PredictiveParsing.Token.Model
import PredictiveParsing.Token.Stream

/-!
# Diagnostics

What was wrong with an input and what was done about it. Diagnostics are part of a result; they do
not stop a tokenizer or a parser.
-/

namespace PredictiveParsing

namespace Diagnostic

inductive Kind where
  | lexical | syntactic
deriving DecidableEq

inductive Severity where
  /-- Repaired in place, so that the rule at hand went on. -/
  | recoverable
  /-- What was being tried was given up. -/
  | fatalForAlternative
deriving DecidableEq

inductive Recovery where
  | none
  /-- Text without a category was skipped. -/
  | skippedInput (bytes : Nat)
  /-- The token was passed over. -/
  | deleted
  /-- A missing token was supplied. -/
  | inserted
  /-- Tokens were skipped up to one that can follow the rule that failed. -/
  | resynced (skipped : Nat)
deriving DecidableEq

end Diagnostic

structure Diagnostic where
  kind : Diagnostic.Kind
  code : Code
  severity : Diagnostic.Severity
  message : String
  span : Span
  expected : List CategoryId
  actual : Option Token
  /-- The rules that were being parsed, the outermost first. -/
  ruleStack : List String
  recovery : Diagnostic.Recovery
deriving DecidableEq

namespace Diagnostic

def lexical (code : Code) (message : String) (span : Span) : Diagnostic where
  kind := .lexical
  code := code
  severity := .recoverable
  message := message
  span := span
  expected := []
  actual := none
  ruleStack := []
  recovery := .skippedInput span.length

def syntactic (code : Code) (message : String) (expected : List CategoryId) (actual : Token) :
    Diagnostic where
  kind := .syntactic
  code := code
  severity := .fatalForAlternative
  message := message
  span := actual.span
  expected := expected
  actual := some actual
  ruleStack := []
  recovery := .none

def offset (d : Diagnostic) : Nat := d.span.start.offset

def isLexical (d : Diagnostic) : Bool := d.kind == .lexical

def isRecoverable (d : Diagnostic) : Bool := d.severity == .recoverable

def line (d : Diagnostic) : String := s!"[{d.code}] {d.message} at {d.span.start.text}"

/-- The diagnostic with the line of the input that it is about. -/
def render (d : Diagnostic) (input : List Char) (m : TokenModel) : String :=
  let expected :=
    if d.expected.isEmpty then "" else s!" (expected one of: {m.describe d.expected})"
  let rules :=
    if d.ruleStack.isEmpty then "" else "  = in rule: " ++ " > ".intercalate d.ruleStack ++ "\n"
  Excerpt.render input d.span (d.message ++ expected) ++ rules

end Diagnostic

def Token.toJson (t : Token) : Json :=
  .object <|
    [("category", .nat t.category), ("image", .string t.image), ("span", t.span.toJson)]
      ++ if t.inserted then [("inserted", .bool true)] else []

namespace Diagnostic

def Kind.title : Kind → String
  | lexical => "Lexical"
  | syntactic => "Syntactic"

def Severity.title : Severity → String
  | recoverable => "Recoverable"
  | fatalForAlternative => "FatalForAlternative"

def Recovery.toJson : Recovery → Json
  | none => .object [("action", .string "none")]
  | skippedInput bytes => .object [("action", .string "skipped_input"), ("bytes", .nat bytes)]
  | deleted => .object [("action", .string "deleted")]
  | inserted => .object [("action", .string "inserted")]
  | resynced skipped => .object [("action", .string "resynced"), ("skipped", .nat skipped)]

def toJson (d : Diagnostic) : Json :=
  .object [
    ("kind", .string d.kind.title),
    ("code", .string d.code),
    ("severity", .string d.severity.title),
    ("message", .string d.message),
    ("span", d.span.toJson),
    ("expected", .array (d.expected.map .nat)),
    ("actual", (d.actual.map (·.toJson)).getD .null),
    ("rule_stack", .array (d.ruleStack.map .string)),
    ("recovery", d.recovery.toJson)]

end Diagnostic

end PredictiveParsing
