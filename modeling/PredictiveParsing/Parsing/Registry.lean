import PredictiveParsing.Lookahead.Analysis
import PredictiveParsing.Parsing.Recording
import PredictiveParsing.Settings.Preferences

/-!
# Registries

A registry holds the rules for one token model, in the order of their registration, and the outcome
of their last analysis. A rule that is added or removed makes the outcome void.
-/

namespace PredictiveParsing

inductive RegistryError where
  | duplicateRule (name : String)
  | unknownRule (name : String)
  | tooManyRules
deriving DecidableEq

namespace RegistryError

def message : RegistryError → String
  | duplicateRule name => s!"Rule '{name}' is already defined"
  | unknownRule name => s!"Rule '{name}' is not defined"
  | tooManyRules => s!"Registry already holds the maximum of {Limits.maxRules} rules"

def code : RegistryError → Code
  | duplicateRule _ => Code.duplicateRule
  | unknownRule _ => Code.unknownRuleName
  | tooManyRules => Code.tooManyRules

end RegistryError

structure Registry (V : Type) where
  model : TokenModel
  preferences : ParserPreferences
  /-- The value of a rule that has failed. -/
  blank : V
  /-- The categories of which a missing token may be supplied. -/
  mayInsert : CategoryId → Bool
  rules : Array (Rule V)
  index : Std.HashMap String RuleId
  outcome : Option (Except GrammarDefect AnalyzedGrammar)

namespace Registry

variable {V : Type}

/-- A registry without rules, in which any missing token may be supplied. -/
def empty (model : TokenModel) (preferences : ParserPreferences) (blank : V) : Registry V where
  model := model
  preferences := preferences
  blank := blank
  mayInsert := fun _ => true
  rules := #[]
  index := ∅
  outcome := none

def size (r : Registry V) : Nat := r.rules.size

def isEmpty (r : Registry V) : Bool := r.size == 0

def ruleId? (r : Registry V) (name : String) : Option RuleId := r.index[name]?

def find? (r : Registry V) (name : String) : Option (RuleId × Rule V) :=
  (r.ruleId? name).bind fun id => (r.rules[id]?).map fun rule => (id, rule)

def names (r : Registry V) : List String := r.rules.toList.map (·.name)

def ruleName (r : Registry V) (id : RuleId) : String := (r.rules[id]?.map (·.name)).getD "?"

/-- The end of the input is never supplied. -/
def maySupply (r : Registry V) (c : CategoryId) : Bool := c != CategoryId.eof && r.mayInsert c

def refusal? (r : Registry V) (name : String) : Option RegistryError :=
  if r.index.contains name then some (.duplicateRule name)
  else if Limits.maxRules ≤ r.size then some .tooManyRules
  else none

/-- The registry with one more rule, which has the next free number. -/
def push (r : Registry V) (rule : Rule V) : Registry V :=
  let id := r.rules.size
  { r with rules := r.rules.push rule, index := r.index.insert rule.name id, outcome := none }

/-- Registers a rule; a registry that cannot take it stays as it is. -/
def define (r : Registry V) (rule : Rule V) : Except RegistryError RuleId × Registry V :=
  match r.refusal? rule.name with
  | some e => (.error e, r)
  | none =>
    let id := r.size
    (.ok id, r.push rule)

/-- Removes a rule; the rules behind it move up. -/
def remove (r : Registry V) (name : String) : Except RegistryError Unit × Registry V :=
  match r.ruleId? name with
  | none => (.error (.unknownRule name), r)
  | some id =>
    let rules := r.rules.eraseIdxIfInBounds id
    (.ok (), { r with
      rules := rules
      index := Grammar.numbering (rules.toList.map (·.name))
      outcome := none })

def record (r : Registry V) (rule : Rule V) : Except GrammarDefect Production :=
  match rule.body.recorded with
  | .ok phrase => .ok ⟨rule.name, phrase⟩
  | .error f => .error (.recordingFailed rule.name (f.describe r.model))

def grammar (r : Registry V) : Except GrammarDefect Grammar := do
  return Grammar.ofList (← r.rules.toList.mapM r.record)

def analyze (r : Registry V) : Except GrammarDefect AnalyzedGrammar := do
  (← r.grammar).analyze r.model r.preferences.lookaheadLimit

/-- The registry with the outcome of an analysis, that of the last one if it still counts. -/
def finalize (r : Registry V) : Registry V :=
  match r.outcome with
  | some _ => r
  | none => { r with outcome := some r.analyze }

/-- The analysis, if it still counts and went well. -/
def analysis? (r : Registry V) : Option AnalyzedGrammar :=
  match r.outcome with
  | some (.ok a) => some a
  | _ => none

def isFinalized (r : Registry V) : Bool := r.analysis?.isSome

def text (r : Registry V) : String :=
  let p := r.preferences
  String.join ["Registry \x7b rules: [", ", ".intercalate (r.names.map Quoted.text),
    "], preferences: ParserPreferences \x7b max_lookahead: ", toString p.maxLookahead,
    ", recovery_enabled: ", toString p.recoveryEnabled, ", max_diagnostics: ",
    toString p.maxDiagnostics, " \x7d, finalized: ", toString r.isFinalized, " \x7d"]

/-! ## Events -/

def defineLogged (r : Registry V) (rule : Rule V) :
    Log.Logged (Except RegistryError RuleId × Registry V) := do
  let (outcome, r) := r.define rule
  match outcome with
  | .ok id =>
    Log.emit (.debug "Rule defined" [("rule", rule.name), ("id", toString id)])
    return (.ok id, r)
  | .error (.duplicateRule name) =>
    Log.emit (.error Code.duplicateRule "Duplicate rule definition" [("rule", name)])
    return (.error (.duplicateRule name), r)
  | .error e => return (.error e, r)

/-- Registers rules in turn, up to the first that is refused. -/
def defineAllLogged (r : Registry V) :
    List (Rule V) → Log.Logged (Except RegistryError Unit × Registry V)
  | [] => return (.ok (), r)
  | rule :: rules => do
    let (outcome, r) ← r.defineLogged rule
    match outcome with
    | .error e => return (.error e, r)
    | .ok _ => r.defineAllLogged rules

def analysisEvents (r : Registry V) (outcome : Except GrammarDefect AnalyzedGrammar) :
    Log.Journal :=
  match r.grammar with
  | .error _ => []
  | .ok g =>
    let failed :=
      match outcome with
      | .ok _ => []
      | .error e => [.error e.code "Grammar analysis failed"
          [("error", e.message), ("rule", e.rule?.getD "-")]]
    g.analysisEvents r.preferences.lookaheadLimit outcome ++ failed

def finalizeLogged (r : Registry V) : Log.Logged (Registry V) := do
  let finalized := r.finalize
  match r.outcome, finalized.outcome with
  | none, some outcome => Log.emitAll (r.analysisEvents outcome)
  | _, _ => pure ()
  return finalized

end Registry

end PredictiveParsing
