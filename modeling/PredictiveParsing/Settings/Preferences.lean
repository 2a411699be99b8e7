import PredictiveParsing.Json.Value
import PredictiveParsing.Log.Journal
import PredictiveParsing.Settings.Limits

/-!
# Preferences

What can be chosen for a tokenizer, a parser and the log. Choices that are not made are taken from
environment variables, and a variable that cannot be read counts as missing.
-/

namespace PredictiveParsing

/-- How a tokenizer goes on behind text that belongs to no category. -/
inductive LexicalRecovery where
  /-- Each character is reported on its own. -/
  | singleChar
  /-- Everything up to the next token is reported at once. -/
  | skipToNextMatch
deriving DecidableEq

structure TokenizerPreferences where
  /-- A tokenizer without a dispatch table is an error. -/
  ensureOptimizations : Bool
  recovery : LexicalRecovery
  maxTokens : Nat

structure ParserPreferences where
  maxLookahead : Nat
  recoveryEnabled : Bool
  maxDiagnostics : Nat

structure LoggingPreferences where
  structured : Bool
  console : Bool
  minLevel : Log.Level

structure Preferences where
  tokenizer : TokenizerPreferences
  parser : ParserPreferences
  logging : LoggingPreferences

def clampTo (limit n : Nat) : Nat := max 1 (min n limit)

def TokenizerPreferences.tokenLimit (p : TokenizerPreferences) : Nat :=
  clampTo Limits.maxTokens p.maxTokens

def ParserPreferences.lookaheadLimit (p : ParserPreferences) : Nat :=
  clampTo Limits.maxLookahead p.maxLookahead

def ParserPreferences.diagnosticLimit (p : ParserPreferences) : Nat :=
  clampTo Limits.maxDiagnostics p.maxDiagnostics

def LexicalRecovery.keyword : LexicalRecovery → String
  | singleChar => "single_char"
  | skipToNextMatch => "skip_to_next_match"

def LexicalRecovery.ofKeyword? (s : String) : Option LexicalRecovery :=
  if s = "single_char" then some singleChar
  else if s = "skip_to_next_match" then some skipToNextMatch
  else none

/-- A text with its letters in lower case, as far as that gives ASCII letters. -/
def lowerAscii (s : String) : String :=
  s.map fun c => if c.toNat = 0x212A then 'k' else c.toLower

/-- The environment also has short names. -/
def LexicalRecovery.ofVariable? (s : String) : Option LexicalRecovery :=
  match lowerAscii s with
  | "single" => some singleChar
  | "skip" => some skipToNextMatch
  | s => ofKeyword? s

def Log.Level.ofKeyword? (s : String) : Option Log.Level :=
  match s with
  | "error" => some .error
  | "warning" => some .warning
  | "info" => some .info
  | "debug" => some .debug
  | _ => none

/-- A level by its name in any case, by a short name or by its number. -/
def Log.Level.ofText? (s : String) : Option Log.Level :=
  match lowerAscii s with
  | "0" => some .error
  | "1" => some .warning
  | "warn" => some .warning
  | "2" => some .info
  | "3" => some .debug
  | s => ofKeyword? s

def readBool? (s : String) : Option Bool :=
  if s = "true" then some true else if s = "false" then some false else none

/-- A number below `2 ^ 64` in decimal digits, with or without a plus sign. -/
def readNat? (s : String) : Option Nat :=
  let digits :=
    match s.toList with
    | '+' :: ds => ds
    | ds => ds
  if digits.isEmpty || !digits.all (·.isDigit) then none
  else
    let n := digits.foldl (fun n d => n * 10 + (d.toNat - '0'.toNat)) 0
    if n < 0x10000000000000000 then some n else none

/-- Environment variables by name. -/
abbrev Environment := List (String × String)

namespace Environment

def read {α : Type} (e : Environment) (name : String) (read? : String → Option α)
    (default : α) : α :=
  ((e.lookup name).bind read?).getD default

def tokenizer (e : Environment) : TokenizerPreferences where
  ensureOptimizations := e.read "DESCENT_TOKENIZER_ENSURE_OPTIMIZATIONS" readBool? false
  recovery := e.read "DESCENT_TOKENIZER_RECOVERY_MODE" LexicalRecovery.ofVariable? .singleChar
  maxTokens := e.read "DESCENT_TOKENIZER_MAX_TOKENS" readNat? Limits.maxTokens

def parser (e : Environment) : ParserPreferences where
  maxLookahead := e.read "DESCENT_PARSER_MAX_LOOKAHEAD" readNat? Limits.defaultLookahead
  recoveryEnabled := e.read "DESCENT_PARSER_RECOVERY_ENABLED" readBool? true
  maxDiagnostics := e.read "DESCENT_PARSER_MAX_DIAGNOSTICS" readNat? Limits.maxDiagnostics

def logging (e : Environment) : LoggingPreferences where
  structured := e.read "DESCENT_LOGGING_USE_STRUCTURED" readBool? false
  console := e.read "DESCENT_LOGGING_ENABLE_CONSOLE" readBool? false
  minLevel := e.read "DESCENT_LOGGING_MIN_LEVEL" Log.Level.ofText? .info

def preferences (e : Environment) : Preferences := ⟨e.tokenizer, e.parser, e.logging⟩

def variableNames : List String := [
  "DESCENT_TOKENIZER_ENSURE_OPTIMIZATIONS", "DESCENT_TOKENIZER_RECOVERY_MODE",
  "DESCENT_TOKENIZER_MAX_TOKENS", "DESCENT_PARSER_MAX_LOOKAHEAD",
  "DESCENT_PARSER_RECOVERY_ENABLED", "DESCENT_PARSER_MAX_DIAGNOSTICS",
  "DESCENT_LOGGING_USE_STRUCTURED", "DESCENT_LOGGING_ENABLE_CONSOLE",
  "DESCENT_LOGGING_MIN_LEVEL"]

end Environment

/-! ## Preferences as data -/

def TokenizerPreferences.toJson (p : TokenizerPreferences) : Json :=
  .object [("ensure_optimizations", .bool p.ensureOptimizations),
    ("recovery_mode", .string p.recovery.keyword), ("max_tokens", .nat p.maxTokens)]

def ParserPreferences.toJson (p : ParserPreferences) : Json :=
  .object [("max_lookahead", .nat p.maxLookahead), ("recovery_enabled", .bool p.recoveryEnabled),
    ("max_diagnostics", .nat p.maxDiagnostics)]

def LoggingPreferences.toJson (p : LoggingPreferences) : Json :=
  .object [("use_structured_logging", .bool p.structured),
    ("enable_console_logging", .bool p.console), ("min_log_level", .string p.minLevel.keyword)]

def Preferences.toJson (p : Preferences) : Json :=
  .object [("tokenizer", p.tokenizer.toJson), ("parser", p.parser.toJson),
    ("logging", p.logging.toJson)]

def LoggingPreferences.summary (p : LoggingPreferences) : String :=
  "\n".intercalate [
    "Logging Configuration:",
    s!"- Log buffer size: {Log.capacity}",
    s!"- Max message length: {Log.messageLimit}",
    s!"- Min log level: {p.minLevel.title}",
    s!"- Structured logging: {p.structured}",
    s!"- Console logging: {p.console}"]

def LoggingPreferences.diagnostics (p : LoggingPreferences) (ready : Bool) : String :=
  s!"=== Logging System Diagnostics ===\nInitialized: {ready}\n\n{p.summary}"

end PredictiveParsing
