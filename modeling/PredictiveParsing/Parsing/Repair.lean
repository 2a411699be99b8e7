import PredictiveParsing.Parsing.State

/-!
# Repairs

Where a token is missing or is one too many, a parse goes on as if the input were right, and reports
it. Every place in a rule is repaired at most once. Where that does not help, the rule is given up
and the parse goes on at the next token that can follow it.
-/

namespace PredictiveParsing

/-- What can be done where a token does not have the category that is wanted. -/
inductive TokenRepair where
  /-- The next token is passed over and the one behind it is taken. -/
  | delete
  /-- An empty token is supplied. -/
  | insert
deriving DecidableEq

/-- Goes forward from `cursor` to the first token at which to stop, if it is at most `left` tokens
away: the number of tokens passed over in all, and the place at the end of the search. -/
def skipTo (stop : Token → Bool) (tokens : TokenStream) :
    (left skipped cursor : Nat) → Option Nat × Nat
  | left, skipped, cursor =>
    if stop (tokens.get cursor) then (some skipped, cursor)
    else
      match left with
      | 0 => (none, cursor)
      | left + 1 => skipTo stop tokens left (skipped + 1) (cursor + 1)

namespace ParseContext

variable {V : Type} (c : ParseContext V)

/-- A token is noise if what can come behind the wanted one is no such token and the one behind it
is wanted; a token is missing if the next one can come behind it. -/
def tokenRepair? (s : ParseState) (idx : Nat) (category : CategoryId) : Option TokenRepair :=
  let rule := s.currentRule
  if !c.registry.preferences.recoveryEnabled || s.repaired.contains (.token rule category idx) then
    none
  else do
    let analysis ← c.analysis.rules[rule]?
    let site ← analysis.site? category idx
    let next := c.ahead s 1
    let follows := site.follows.toList.any (c.isA next.category)
    if !next.isEof && !follows && c.isA (c.ahead s 2).category category then return .delete
    let ends := site.reachesEnd
      && (next.isEof || analysis.follow.toList.any (c.isA next.category))
    if c.registry.maySupply category && (follows || ends) then return .insert
    none

def reportRepair (s : ParseState) (code : Code) (message : String) (expected : List CategoryId)
    (actual : Token) (recovery : Diagnostic.Recovery) : ParseState :=
  c.report s
    { Diagnostic.syntactic code message expected actual with
      severity := .recoverable
      recovery := recovery
      ruleStack := c.ruleNames s }

/-- Makes a repair; the token is the one to go on with. -/
def repairToken (idx : Nat) (category : CategoryId) (repair : TokenRepair) : Parse Token := fun s =>
  let next := c.ahead s 1
  let name := c.registry.model.name category
  let site := RepairSite.token (s.currentRule) category idx
  match repair with
  | .delete =>
    match c.advance { s with cursor := s.cursor + 1, repaired := site :: s.repaired } with
    | .ok t s =>
      .ok t (c.reportRepair s Code.mismatchedToken
        s!"Unexpected {next.text} before {name}, token deleted" [category] next .deleted)
    | .error f s => .error f s
  | .insert =>
    .ok (.placeholder category next.span.start)
      (c.reportRepair { s with repaired := site :: s.repaired } Code.mismatchedToken
        s!"Missing {name} before {next.text}, token inserted" [category] next .inserted)

/-- Passes over one token, and goes back to it if the decision at `site` cannot be made behind it.
-/
def deleteFor {α : Type} (site : RepairSite) (code : Code) (expected : List CategoryId)
    (select : ParseState → Option α) (s : ParseState) : Option α × ParseState :=
  let next := c.ahead s 1
  if !c.registry.preferences.recoveryEnabled || next.isEof || s.repaired.contains site then
    (none, s)
  else
    let before := s.cursor
    let s := { s with cursor := s.cursor + 1 }
    match select s with
    | none => (none, { s with cursor := before })
    | some a =>
      (some a, c.reportRepair { s with repaired := site :: s.repaired } code
        s!"Unexpected {next.text}, token deleted" expected next .deleted)

/-- Whether a parse can go on behind a rule with the analysis at a token. -/
def resumesAt (analysis : AnalyzedRule) (t : Token) : Bool :=
  t.isEof || analysis.follow.toList.any (c.isA t.category)

/-- Gives up a rule that failed: passes over the tokens up to one that can follow the rule, and goes
back if there is none near enough. -/
def resync (rule : RuleId) (f : Failure) : Parse V := fun s =>
  if !c.registry.preferences.recoveryEnabled || !f.isLocal then .error f s
  else
    match c.analysis.rules[rule]? with
    | none => .error f s
    | some analysis =>
      let start := s.cursor
      match skipTo (c.resumesAt analysis) c.tokens Limits.maxRecoveryScan 0 s.cursor with
      | (none, cursor) =>
        let s := { s with cursor := cursor }
        .error f { s with cursor := start }
      | (some skipped, cursor) =>
        let s := { s with cursor := cursor }
        let e := .debug "Re-synchronized after failure"
          [("rule", c.registry.ruleName rule), ("skipped", toString skipped),
            ("resume", toString s.cursor)]
        .ok c.registry.blank
          (c.report (s.note e) { c.diagnosis s f with recovery := .resynced skipped })

end ParseContext

end PredictiveParsing
