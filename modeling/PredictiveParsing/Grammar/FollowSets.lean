import PredictiveParsing.Grammar.FirstSets

/-!
# What can come behind

Behind a place of a rule come the pieces behind it, another round of every repetition around it and,
where the end of the rule can be reached, whatever can follow the rule.
-/

namespace PredictiveParsing

/-- What is known of the rules of a grammar. -/
structure RuleFacts where
  grammar : Grammar
  nullable : Array Bool
  first : Array CategorySet
  /-- What can come behind a rule where it is called, apart from the end of the input. -/
  follow : Array CategorySet

/-- What can come behind a token of a rule inside of that rule. -/
structure Successors where
  category : CategoryId
  idx : Nat
  follows : CategorySet
  /-- The rule can end right behind the token. -/
  reachesEnd : Bool

/-- A rule that calls another one, and what can come behind the call. -/
structure CallSite where
  caller : RuleId
  callee : RuleId
  follows : CategorySet
  reachesEnd : Bool

namespace Frame

def first (nullable : String → Bool) (rule : String → CategorySet) : List Frame → CategorySet
  | [] => .empty
  | .rest p :: after =>
    if p.isNullable nullable then p.first nullable rule ∪ first nullable rule after
    else p.first nullable rule
  | .again body :: after => body.first nullable rule ∪ first nullable rule after

/-- Whether nothing more has to be consumed. -/
def reachesEnd (nullable : String → Bool) : List Frame → Bool
  | [] => true
  | .rest p :: after => p.isNullable nullable && reachesEnd nullable after
  | .again _ :: after => reachesEnd nullable after

end Frame

namespace Grammar

def callSites (g : Grammar) (nullable : Array Bool) (first : Array CategorySet) : List CallSite :=
  let isNullable := g.ofRule nullable false
  g.productions.toList.zipIdx.flatMap fun (p, caller) =>
    (p.phrase.places []).filterMap fun place =>
      match place.phrase with
      | .call r _ _ => (g.ruleId? r).map fun callee =>
          ⟨caller, callee, Frame.first isNullable (g.ofRule first .empty) place.after,
            Frame.reachesEnd isNullable place.after⟩
      | _ => none

/-- A call hands what can come behind it to the rule that is called. -/
def passOn (known : Array CategorySet) (c : CallSite) : Array CategorySet :=
  let inherited := if c.reachesEnd then known[c.caller]?.getD .empty else .empty
  known.modify c.callee fun s => s ∪ c.follows ∪ inherited

def follow (g : Grammar) (calls : List CallSite) : Array CategorySet :=
  untilStable (calls.foldl passOn) (g.size * g.pieceCount + 1) (Array.replicate g.size .empty)

end Grammar

namespace RuleFacts

def ofGrammar (g : Grammar) : RuleFacts :=
  let nullable := g.nullable
  let first := g.first nullable
  ⟨g, nullable, first, g.follow (g.callSites nullable first)⟩

/-- Whether the rule with a name can consume nothing. -/
def isNullable (s : RuleFacts) (name : String) : Bool := s.grammar.ofRule s.nullable false name

def successors? (s : RuleFacts) (place : Place) : Option Successors :=
  match place.phrase with
  | .terminal c idx _ =>
    some ⟨c, idx, Frame.first s.isNullable (s.grammar.ofRule s.first .empty) place.after,
      Frame.reachesEnd s.isNullable place.after⟩
  | _ => none

/-- What can come behind each token of a phrase, by category and index. -/
def allSuccessors (s : RuleFacts) (p : Phrase) : List Successors :=
  ((p.places []).filterMap s.successors?).mergeSort fun a b =>
    a.category < b.category || (a.category == b.category && a.idx ≤ b.idx)

end RuleFacts

end PredictiveParsing
