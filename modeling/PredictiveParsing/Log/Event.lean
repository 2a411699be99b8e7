import PredictiveParsing.Json.Value
import PredictiveParsing.Log.Code
import PredictiveParsing.Text.Dictionary

/-!
# Log events

An event is a message with a level and a code, and may point at a span of the input and carry named
values. It is written as one line of text or as one JSON object.
-/

namespace PredictiveParsing.Log

/-- How urgent an event is, the most urgent level first. -/
inductive Level where
  | error | warning | info | debug
deriving DecidableEq, Inhabited

namespace Level

def rank : Level → Nat
  | error => 0
  | warning => 1
  | info => 2
  | debug => 3

/-- Whether events of the level pass a filter that is set to `threshold`. -/
def passes (l threshold : Level) : Bool := l.rank ≤ threshold.rank

def label : Level → String
  | error => "ERROR"
  | warning => "WARN"
  | info => "INFO"
  | debug => "DEBUG"

def keyword : Level → String
  | error => "error"
  | warning => "warning"
  | info => "info"
  | debug => "debug"

def title : Level → String
  | error => "Error"
  | warning => "Warning"
  | info => "Info"
  | debug => "Debug"

end Level

/-- The number of bytes after which a message is cut. -/
def messageLimit : Nat := 4096

/-- The longest beginning of a text within a number of bytes. -/
def takeBytesUpTo : Nat → List Char → List Char
  | _, [] => []
  | n, c :: cs => if c.utf8Size ≤ n then c :: takeBytesUpTo (n - c.utf8Size) cs else []

/-- A message that is too long ends in dots instead. -/
def clip (message : String) : String :=
  if byteCount message.toList ≤ messageLimit then message
  else String.ofList (takeBytesUpTo messageLimit message.toList) ++ "..."

structure Event where
  level : Level
  code : Code
  message : String
  span : Option Span
  context : Dictionary String
deriving Inhabited

namespace Event

/-- An event with its message clipped; a debug event always has the remark code. -/
def make (level : Level) (code : Code) (message : String) (context : List (String × String)) :
    Event where
  level := level
  code := if level = .debug then Code.remark else code
  message := clip message
  span := none
  context := Dictionary.ofList context

def error (code : Code) (message : String) (context : List (String × String)) : Event :=
  make .error code message context

def warning (code : Code) (message : String) (context : List (String × String)) : Event :=
  make .warning code message context

def success (code : Code) (message : String) (context : List (String × String)) : Event :=
  make .info code message context

def debug (message : String) (context : List (String × String)) : Event :=
  make .debug Code.remark message context

def isError (e : Event) : Bool := e.level == .error

def isWarning (e : Event) : Bool := e.level == .warning

def contextText (e : Event) : String :=
  String.join (e.context.map fun (k, v) => s!" {k}={v}")

def line (e : Event) : String :=
  let place :=
    match e.span with
    | none => ""
    | some s => s!" at {s.start.text}"
  s!"[{e.level.label}] {e.code} - {e.message}{place}{e.contextText}"

/-- The event as an object; only an error tells what its code means. -/
def record (e : Event) : List (String × Json) :=
  let meaning :=
    match if e.isError then e.code.entry? else none with
    | none => []
    | some entry =>
      [("recoverable", .bool entry.recoverable), ("description", .string entry.description)]
  let place := (e.span.map fun s => ("span", s.toJson)).toList
  let context :=
    if e.context.isEmpty then []
    else [("context", Json.object (e.context.map fun (k, v) => (k, .string v)))]
  [("level", .string e.level.label), ("code", .string e.code), ("message", .string e.message),
    ("category", .string e.code.category), ("severity", .string e.code.severity.text)]
    ++ meaning ++ place ++ context

def recordLine (e : Event) : String := (Json.object e.record).compact

/-- The event for a log that keeps levels and targets itself. -/
def forwarded (e : Event) : String :=
  s!"{e.level.label} descent {e.code} {e.message}{e.contextText}"

end Event

end PredictiveParsing.Log
