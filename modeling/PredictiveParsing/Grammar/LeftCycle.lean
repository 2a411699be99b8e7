import PredictiveParsing.Grammar.FollowSets

/-!
# Left recursion

A rule leads to another one if it can call it before it has consumed anything. A rule that leads
back to itself would call itself forever, so a cycle of this relation is looked for, depth first and
in the order of the rules.
-/

namespace PredictiveParsing

/-- The rules that a phrase can call before it has consumed anything, in the order of the phrase. -/
def Phrase.callsInFront (nullable : String → Bool) : Phrase → List String
  | nil => []
  | terminal .. => []
  | call r _ rest => r :: if nullable r then rest.callsInFront nullable else []
  | option _ body rest => body.callsInFront nullable ++ rest.callsInFront nullable
  | repetition _ b body rest =>
    body.callsInFront nullable
      ++ if !b || body.isNullable nullable then rest.callsInFront nullable else []
  | choice _ _ body rest =>
    (List.ofFn fun k => (body k).callsInFront nullable).flatten
      ++ if (List.ofFn fun k => (body k).isNullable nullable).any id then
        rest.callsInFront nullable
      else []

namespace RuleFacts

/-- For every rule the rules that it leads to, each of them once. -/
def leads (s : RuleFacts) : Array (List RuleId) :=
  s.grammar.productions.map fun p =>
    ((p.phrase.callsInFront s.isNullable).filterMap s.grammar.ruleId?).eraseDups

end RuleFacts

namespace LeftCycle

/-- Searches below a node that was not visited before; `path` leads to the node, its end first. A
cycle is given from its first node on, without that node at its end. -/
def searchFrom (next : Array (List RuleId)) : (fuel : Nat) → (path visited : List RuleId) →
    RuleId → Except (List RuleId) (List RuleId)
  | 0, _, visited, _ => .ok visited
  | fuel + 1, path, visited, node =>
    let path := node :: path
    (next[node]?.getD []).foldlM (fun visited n =>
      if path.contains n then .error (n :: (path.takeWhile (· != n)).reverse)
      else if visited.contains n then .ok visited
      else searchFrom next fuel path visited n) (node :: visited)

def search (next : Array (List RuleId)) : Except (List RuleId) (List RuleId) :=
  (List.range next.size).foldlM (fun visited n =>
    if visited.contains n then .ok visited
    else searchFrom next (next.size + 1) [] visited n) []

end LeftCycle

namespace RuleFacts

/-- The names along a cycle of rules that lead to each other; it begins and ends with the same rule.
-/
def leftCycle? (s : RuleFacts) : Option (String × List String) :=
  match LeftCycle.search s.leads with
  | .ok _ => none
  | .error [] => none
  | .error (r :: cycle) =>
    let rule := s.grammar.ruleName r
    some (rule, rule :: cycle.map s.grammar.ruleName ++ [rule])

end RuleFacts

end PredictiveParsing
