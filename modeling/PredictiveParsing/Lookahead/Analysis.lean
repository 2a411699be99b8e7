import PredictiveParsing.Grammar.Defect
import PredictiveParsing.Lookahead.Decision
import PredictiveParsing.Text.Dictionary

/-!
# Analyses

The analysis of a grammar without defects holds, for each rule, what it can start with, what can
follow it and the tables of its decisions. It is all that a parser needs to know of the grammar.
-/

namespace PredictiveParsing

structure AnalyzedRule where
  name : String
  nullable : Bool
  first : CategorySet
  /-- What can follow the rule, apart from the end of the input. -/
  follow : CategorySet
  /-- By kind and index. -/
  decisions : List Decision
  /-- By category and index. -/
  sites : List Successors
  phrase : Phrase

structure AnalyzedGrammar where
  maxLookahead : Nat
  /-- In the order of the grammar. -/
  rules : Array AnalyzedRule
  ambiguities : List Ambiguity

namespace AnalyzedRule

def decision? (a : AnalyzedRule) (kind : DecisionKind) (idx : Nat) : Option Decision :=
  a.decisions.find? fun d => d.kind = kind && d.idx = idx

def site? (a : AnalyzedRule) (category : CategoryId) (idx : Nat) : Option Successors :=
  a.sites.find? fun s => s.category = category && s.idx = idx

end AnalyzedRule

namespace Grammar

/-- The decisions of a rule in the order of its phrase, with the findings on each. -/
def decisionsOf (g : Grammar) (m : TokenModel) (k : Nat) (p : Phrase) :
    List (Decision × List Finding) :=
  ((p.places []).filterMap (·.branches?)).map fun (kind, idx, branches) =>
    Decision.build g m k kind idx branches

def decisionBefore (a b : Decision) : Bool :=
  a.kind.rank < b.kind.rank || (a.kind == b.kind && a.idx ≤ b.idx)

def analyzeRule (s : RuleFacts) (m : TokenModel) (k : Nat) (p : Production) (r : RuleId) :
    AnalyzedRule × List Ambiguity :=
  let found := s.grammar.decisionsOf m k p.phrase
  let rule := {
    name := p.name
    nullable := s.nullable[r]?.getD false
    first := s.first[r]?.getD .empty
    follow := s.follow[r]?.getD .empty
    decisions := (found.map Prod.fst).mergeSort decisionBefore
    sites := s.allSuccessors p.phrase
    phrase := p.phrase }
  (rule, found.flatMap fun (d, findings) =>
    findings.map fun f => ⟨⟨p.name, d.kind, d.idx⟩, f, d.depth⟩)

/-- The analysis with at most `k` categories of lookahead, and at least one. -/
def analysisOf (s : RuleFacts) (m : TokenModel) (k : Nat) : AnalyzedGrammar :=
  let rules := s.grammar.productions.toList.zipIdx.map fun (p, r) => analyzeRule s m k p r
  ⟨k, (rules.map Prod.fst).toArray, rules.flatMap Prod.snd⟩

def analyze (g : Grammar) (m : TokenModel) (k : Nat) : Except GrammarDefect AnalyzedGrammar :=
  match g.formalDefect? m with
  | some defect => .error defect
  | none =>
    let s := RuleFacts.ofGrammar g
    match s.leftCycle? with
    | some (rule, path) => .error (.leftRecursion rule path)
    | none => .ok (analysisOf s m k)

end Grammar

def Ambiguity.event (a : Ambiguity) : Log.Event :=
  match a.finding.kind with
  | .pathLimit =>
    .warning Code.pathLimitReached "Lookahead path limit reached"
      [("decision", a.key.text), ("limit", toString Limits.maxPathsPerDecision)]
  | _ =>
    .warning Code.ambiguousDecision "Ambiguous alternatives, first declared wins"
      [("decision", a.key.text),
        ("alternatives", ", ".intercalate (a.finding.alternatives.map toString)),
        ("depth", toString a.depth)]

namespace Grammar

/-- The events of the analysis of a grammar with the given outcome. -/
def analysisEvents (g : Grammar) (k : Nat) (outcome : Except GrammarDefect AnalyzedGrammar) :
    Log.Journal :=
  let started := Log.Event.debug "Starting grammar analysis"
    [("rules", toString g.size), ("max_lookahead", toString k)]
  let graph : Unit → Log.Event := fun _ =>
    let edges := (RuleFacts.ofGrammar g).leads.foldl (fun n next => n + next.length) 0
    .debug "Left recursion graph" [("rules", toString g.size), ("edges", toString edges)]
  match outcome with
  | .ok a =>
    let decisions := a.rules.foldl (fun n r => n + r.decisions.length) 0
    [started, graph ()] ++ a.ambiguities.map (·.event)
      ++ [.success Code.analysisComplete "Grammar analysis complete"
        [("rules", toString a.rules.size), ("decisions", toString decisions),
          ("ambiguities", toString a.ambiguities.length)]]
  | .error (.leftRecursion ..) => [started, graph ()]
  | .error _ => [started]

def analyzeLogged (g : Grammar) (m : TokenModel) (k : Nat) :
    Log.Logged (Except GrammarDefect AnalyzedGrammar) := do
  let outcome := g.analyze m k
  Log.emitAll (g.analysisEvents k outcome)
  return outcome

end Grammar

namespace DecisionKey

/-- The order of the keys of a grammar: by rule, then by kind and index. -/
def before (a b : DecisionKey) : Bool :=
  a.rule < b.rule
    || (a.rule == b.rule
      && (a.kind.rank < b.kind.rank || (a.kind == b.kind && a.idx < b.idx)))

/-- Puts a value under a key; the last value put there stands. -/
def put {α : Type} (k : DecisionKey) (value : α) : List (DecisionKey × α) → List (DecisionKey × α)
  | [] => [(k, value)]
  | (l, other) :: entries =>
    if k = l then (k, value) :: entries
    else if k.before l then (k, value) :: (l, other) :: entries
    else (l, other) :: k.put value entries

end DecisionKey

namespace AnalyzedGrammar

def rule? (a : AnalyzedGrammar) (name : String) : Option AnalyzedRule :=
  a.rules.find? (·.name = name)

def isAmbiguous (a : AnalyzedGrammar) : Bool := !a.ambiguities.isEmpty

def decisions (a : AnalyzedGrammar) : List (DecisionKey × Decision) :=
  let all := a.rules.toList.flatMap fun r =>
    r.decisions.map fun d => ((⟨r.name, d.kind, d.idx⟩ : DecisionKey), d)
  all.foldl (fun entries (k, d) => k.put d entries) []

def tables (a : AnalyzedGrammar) : Dictionary Decision :=
  Dictionary.ofList (a.decisions.map fun (k, d) => (k.text, d))

end AnalyzedGrammar

/-! ## Analyses as data -/

private def nats (ns : List Nat) : Json := .array (ns.map .nat)

def Alternative.toJson (a : Alternative) : Json :=
  .object [("paths", .array (a.paths.map nats)), ("gated", .bool a.gated)]

def Decision.toJson (d : Decision) : Json :=
  .object [("kind", .string d.kind.title), ("idx", .nat d.idx), ("depth", .nat d.depth),
    ("alternatives", .array (d.alternatives.map (·.toJson))), ("ambiguous", .bool d.ambiguous)]

def Successors.toJson (s : Successors) : Json :=
  .object [("category", .nat s.category), ("idx", .nat s.idx), ("follows", nats s.follows.toList),
    ("reaches_end", .bool s.reachesEnd)]

def AnalyzedRule.toJson (r : AnalyzedRule) : Json :=
  .object [("name", .string r.name), ("nullable", .bool r.nullable),
    ("first", nats r.first.toList), ("follow", nats r.follow.toList),
    ("decisions", .array (r.decisions.map (·.toJson))),
    ("sites", .array (r.sites.map (·.toJson))), ("gast", .array r.phrase.toJson)]

def DecisionKey.toJson (k : DecisionKey) : Json :=
  .object [("rule", .string k.rule), ("kind", .string k.kind.title), ("idx", .nat k.idx)]

def Ambiguity.toJson (a : Ambiguity) : Json :=
  .object [("key", a.key.toJson), ("kind", .string a.finding.kind.keyword),
    ("alternatives", nats a.finding.alternatives), ("depth", .nat a.depth),
    ("example", nats a.finding.witness)]

namespace AnalyzedGrammar

def toJson (a : AnalyzedGrammar) : Json :=
  .object [("max_lookahead", .nat a.maxLookahead),
    ("rules", .array (a.rules.toList.map (·.toJson))),
    ("ambiguities", .array (a.ambiguities.map (·.toJson)))]

def text (a : AnalyzedGrammar) : String := a.toJson.pretty ""

def tablesText (a : AnalyzedGrammar) : String :=
  (Json.object (a.tables.map fun (k, d) => (k, d.toJson))).pretty ""

end AnalyzedGrammar

end PredictiveParsing
