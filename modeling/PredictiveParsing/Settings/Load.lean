import PredictiveParsing.Settings.Document
import PredictiveParsing.Settings.Preferences

/-!
# Preferences from settings documents

The tables `tokenizer`, `parser` and `logging` of a document hold preferences. What a document does
not say is taken from the environment, and what it says beyond them means nothing.
-/

namespace PredictiveParsing

open Settings

/-- Why preferences cannot be read from a file. -/
inductive SettingsError where
  | unreadable (path : String) (reason : String)
  | malformed

def SettingsError.message : SettingsError → String
  | unreadable path reason => s!"Failed to read configuration file '{path}': {reason}"
  | malformed => "Invalid runtime configuration"

namespace Settings

/-- The fields of a table by name, or of an array by their order. -/
inductive Fields where
  | named (members : Members)
  | listed (items : List Value)

/-- A date stands for a table without any known field. -/
def Value.fields? : Value → Option Fields
  | .table _ ms => some (.named ms)
  | .inline ms => some (.named ms)
  | .array items => some (.listed items)
  | .tables items => some (.listed (items.reverse.map fun ms => .table .header ms))
  | .date => some (.named [])
  | _ => none

def Fields.get? (f : Fields) (key : String) (index : Nat) : Option Value :=
  match f with
  | named ms => ms.lookup key
  | listed items => items[index]?

def Fields.read {α : Type} (f : Fields) (key : String) (index : Nat) (read? : Value → Option α)
    (default : α) : Option α :=
  match f.get? key index with
  | none => some default
  | some v => read? v

def Value.bool? : Value → Option Bool
  | .boolean b => some b
  | _ => none

def Value.nat? : Value → Option Nat
  | .integer (.ofNat n) => some n
  | _ => none

def Value.isEmptyTable : Value → Bool
  | .table _ ms => ms.isEmpty
  | .inline ms => ms.isEmpty
  | .array items => items.isEmpty
  | .tables items => items.isEmpty
  | _ => false

/-- A keyword as a string, or as the only key of a table, under which there is nothing. -/
def Value.keyword? : Value → Option String
  | .string s => some s
  | .inline [(key, v)] => if v.isEmptyTable then some key else none
  | .table _ [(key, v)] => if v.isEmptyTable then some key else none
  | _ => none

def readTokenizer (default : TokenizerPreferences) (f : Fields) : Option TokenizerPreferences := do
  return {
    ensureOptimizations :=
      ← f.read "ensure_optimizations" 0 Value.bool? default.ensureOptimizations
    recovery :=
      ← f.read "recovery_mode" 1 (fun v => v.keyword?.bind LexicalRecovery.ofKeyword?)
        default.recovery
    maxTokens := ← f.read "max_tokens" 2 Value.nat? default.maxTokens }

def readParser (default : ParserPreferences) (f : Fields) : Option ParserPreferences := do
  return {
    maxLookahead := ← f.read "max_lookahead" 0 Value.nat? default.maxLookahead
    recoveryEnabled := ← f.read "recovery_enabled" 1 Value.bool? default.recoveryEnabled
    maxDiagnostics := ← f.read "max_diagnostics" 2 Value.nat? default.maxDiagnostics }

def readLogging (default : LoggingPreferences) (f : Fields) : Option LoggingPreferences := do
  return {
    structured := ← f.read "use_structured_logging" 0 Value.bool? default.structured
    console := ← f.read "enable_console_logging" 1 Value.bool? default.console
    minLevel :=
      ← f.read "min_log_level" 2 (fun v => v.keyword?.bind Log.Level.ofKeyword?) default.minLevel }

def readSection {α : Type} (ms : Members) (key : String) (read? : α → Fields → Option α)
    (default : α) : Option α :=
  match ms.lookup key with
  | none => some default
  | some v => v.fields?.bind (read? default)

end Settings

namespace Preferences

/-- The preferences that a document and the environment give. -/
def ofText (e : Environment) (text : String) : Except SettingsError Preferences :=
  let read : Option Preferences := do
    let ms ← readDocument? text
    return {
      tokenizer := ← readSection ms "tokenizer" readTokenizer e.tokenizer
      parser := ← readSection ms "parser" readParser e.parser
      logging := ← readSection ms "logging" readLogging e.logging }
  read.elim (.error .malformed) .ok

/-- The preferences of a file, given its bytes or the reason why it has none. -/
def ofFile (e : Environment) (path : String) (content : Except String ByteArray) :
    Except SettingsError Preferences :=
  match content with
  | .error reason => .error (.unreadable path reason)
  | .ok bytes =>
    match String.fromUTF8? bytes with
    | none => .error (.unreadable path "stream did not contain valid UTF-8")
    | some text => ofText e text

end Preferences

end PredictiveParsing
