import PredictiveParsing.Grammar.Phrase
import Std.Data.HashMap

/-!
# Grammars

A grammar is a list of rules with their phrases. Rules are numbered in the order of the list and
called by name; of several rules with one name the last is called.
-/

namespace PredictiveParsing

abbrev RuleId := Nat

/-- A rule's name and what the rule consumes. -/
structure Production where
  name : String
  phrase : Phrase
deriving Inhabited

structure Grammar where
  productions : Array Production
  index : Std.HashMap String RuleId

namespace Grammar

def numbering (names : List String) : Std.HashMap String RuleId :=
  names.zipIdx.foldl (fun index (name, i) => index.insert name i) ∅

def ofList (productions : List Production) : Grammar :=
  ⟨productions.toArray, numbering (productions.map (·.name))⟩

def size (g : Grammar) : Nat := g.productions.size

def ruleId? (g : Grammar) (name : String) : Option RuleId := g.index[name]?

def phrase? (g : Grammar) (name : String) : Option Phrase :=
  ((g.ruleId? name).bind (g.productions[·]?)).map (·.phrase)

def ruleName (g : Grammar) (r : RuleId) : String := (g.productions[r]?.map (·.name)).getD ""

def pieceCount (g : Grammar) : Nat := g.productions.foldl (fun n p => n + p.phrase.size) 0

end Grammar

end PredictiveParsing
