import PredictiveParsing.Log.Event

/-!
# Journals

A journal is the list of events of a computation, in order. A bounded journal keeps the latest ones,
and a service decides by level which events reach it.
-/

namespace PredictiveParsing.Log

abbrev Journal := List Event

/-- A computation that writes events. -/
abbrev Logged (α : Type) := StateM (Array Event) α

def emit (e : Event) : Logged Unit := modify (·.push e)

def emitAll (es : Journal) : Logged Unit := modify (· ++ es.toArray)

/-- The number of events that a journal in memory keeps. -/
def capacity : Nat := 10000

/-- Events in memory behind a filter. -/
structure Service where
  threshold : Level
  events : Array Event

namespace Service

def accepts (s : Service) (l : Level) : Bool := l.passes s.threshold

/-- Drops the oldest event where the journal is full. -/
def log (s : Service) (e : Event) : Service :=
  if s.accepts e.level then
    let kept := if s.events.size ≥ capacity then s.events.extract 1 s.events.size else s.events
    { s with events := kept.push e }
  else s

def logTimes (s : Service) (e : Event) : Nat → Service
  | 0 => s
  | n + 1 => (s.log e).logTimes e n

def countOf (s : Service) (l : Level) : Nat :=
  (s.events.filter (·.level == l)).size

def hasCode (s : Service) (c : Code) : Bool := s.events.any (·.code == c)

def clear (s : Service) : Service := { s with events := #[] }

end Service

/-- Why logging cannot start. -/
inductive InitError where
  | alreadyInitialized
  | preferencesAlreadySet
  | invalidConfiguration (reason : String)
  | missingMetadata (code : Code)

namespace InitError

def message : InitError → String
  | alreadyInitialized => "Global logger already initialized"
  | preferencesAlreadySet => "Runtime logging preferences already initialized"
  | invalidConfiguration reason => s!"Configuration validation failed: {reason}"
  | missingMetadata code => s!"Missing metadata for code: {code}"

def code (_ : InitError) : Code := Code.initializationFailure

end InitError

end PredictiveParsing.Log
