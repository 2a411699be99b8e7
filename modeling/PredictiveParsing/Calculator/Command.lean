import PredictiveParsing.Calculator.Options
import PredictiveParsing.Calculator.Report
import PredictiveParsing.Settings.Load

/-!
# The calculator as a command

A command reads its expressions from its arguments, from a file or from its input, and prints a
report on each of them. It succeeds if all reports are clean.
-/

namespace PredictiveParsing.Calculator

/-- What a command prints and how it ends. -/
structure CommandOutput where
  exitCode : Nat
  output : String
  complaints : String

/-- How a command gets at files and at its input. -/
structure Surroundings (m : Type → Type) where
  environment : Environment
  /-- The bytes of a file, or why there are none. -/
  readFile : String → m (Except String ByteArray)
  readInput : m ByteArray

/-! ## The log -/

/-- An event as the log shows it; it was logged at no measured time. -/
def logLine (p : LoggingPreferences) (e : Log.Event) : String :=
  if p.structured then (Json.object (("timestamp", .nat 0) :: e.record)).compact else e.line

def isComplaint (e : Log.Event) : Bool := e.isError || e.isWarning

def lines (texts : List String) : String := String.join (texts.map (· ++ "\n"))

/-- The events that a log shows. Where none is chosen, those of the engine are forwarded. -/
def shownEvents (p : LoggingPreferences) (verbose : Bool) (events : List Log.Event) :
    List String × List String :=
  if p.structured || p.console then
    let ready := Log.Event.success Code.loggingReady "Global logging system initialized" []
    let shown := (ready :: events).filter (·.level.passes p.minLevel)
    let (complaints, progress) := shown.partition isComplaint
    (progress.map (logLine p), complaints.map (logLine p))
  else
    let threshold := if verbose then Log.Level.debug else Log.Level.warning
    ([], (events.filter (·.level.passes threshold)).map (·.forwarded))

/-! ## Stages -/

/-- The preferences with the settings of the command line put in. -/
def Options.apply (o : Options) (p : Preferences) : Preferences :=
  { p with
    tokenizer := { p.tokenizer with
      ensureOptimizations := p.tokenizer.ensureOptimizations || o.has .strict }
    parser := { p.parser with
      recoveryEnabled := p.parser.recoveryEnabled && !o.has .noRecovery
      maxLookahead := (o.number? .lookahead).getD p.parser.maxLookahead } }

/-- The limits, the state of the log and the decisions of a calculator. -/
def infoText (c : Calculator) (p : LoggingPreferences) : String :=
  let scan :=
    if c.engine.tokenizer.hasTable then "first-character dispatch" else "ordered scan"
  let tables := (c.engine.analysis?.map (·.tablesText)).toList
  lines ([Limits.report true, p.diagnostics true, s!"Tokenizer: {scan}"] ++ tables)

def reportText (json : Bool) (r : Calculator.Report) : String :=
  if json then r.toJson.compact ++ "\n" else r.text

variable {m : Type → Type} [Monad m]

/-- The preferences in a file, or those of the environment. -/
def loadPreferences (w : Surroundings m) :
    Option String → m (Except SettingsError Preferences)
  | none => return .ok w.environment.preferences
  | some path => return Preferences.ofFile w.environment path (← w.readFile path)

def expressionsIn (bytes : ByteArray) : Except String (List String) :=
  (expressionsOfBytes? bytes).elim (.error "stream did not contain valid UTF-8") .ok

/-- The expressions of the arguments and of the file; if there are none, those of the input. -/
def collectExpressions (w : Surroundings m) (o : Options) : m (Except String (List String)) := do
  let fromFile : Except String (List String) ←
    match o.text? .file with
    | none => pure (.ok [])
    | some path => pure ((← w.readFile path).bind expressionsIn)
  match fromFile.map (o.expressions ++ ·) with
  | .ok [] => return expressionsIn (← w.readInput)
  | collected => return collected

/-- The output of a command, with the events that it logged in front. -/
def conclude (p : LoggingPreferences) (verbose : Bool) (events : Array Log.Event)
    (exitCode : Nat) (output complaints : String) : CommandOutput :=
  let (progress, warnings) := shownEvents p verbose events.toList
  ⟨exitCode, lines progress ++ output, lines warnings ++ complaints⟩

def execute (w : Surroundings m) (o : Options) : m CommandOutput := do
  match ← loadPreferences w (o.text? .config) with
  | .error e => return ⟨2, "", s!"Error: {e.message}\n"⟩
  | .ok p =>
    let conclude := conclude p.logging (o.has .verbose)
    let (built, events) := buildLogged (o.apply p) #[]
    match built with
    | .error e => return conclude events 2 "" s!"Error: {e.message}\n"
    | .ok c =>
      if o.has .info then return conclude events 0 (infoText c p.logging) ""
      match ← collectExpressions w o with
      | .error reason => return conclude events 2 "" s!"Error: failed to read input: {reason}\n"
      | .ok inputs =>
        let (reports, events) := c.reportAllLogged inputs events
        let exitCode := if reports.all (·.isClean) then 0 else 1
        return conclude events exitCode (String.join (reports.map (reportText (o.has .json)))) ""

def Stop.output (s : Stop) : CommandOutput :=
  match s, s.fault? with
  | _, some fault => ⟨2, "", s!"error: {fault}\n"⟩
  | version, none => ⟨0, versionText, ""⟩
  | _, none => ⟨0, helpText, ""⟩

def run (w : Surroundings m) (arguments : List String) : m CommandOutput :=
  match Options.ofArguments arguments with
  | .error stop => return stop.output
  | .ok o => execute w o

end PredictiveParsing.Calculator
