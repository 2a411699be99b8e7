import PredictiveParsing.Grammar.Production
import PredictiveParsing.Settings.Limits
import Std.Data.TreeSet

/-!
# Expansions

An expansion is the list of the first categories that a way through some phrases consumes, cut at a
given length. Rules are replaced by their phrases; what is optional is entered or passed over, and
no repetition is entered again. The search for all expansions gives up where there are too many.
-/

namespace PredictiveParsing

/-- Categories of tokens to come. -/
abbrev CategoryPath := List CategoryId

abbrev PathSet := Std.TreeSet CategoryPath

structure Expansion where
  path : CategoryPath
  /-- The rule ends behind the path. -/
  ended : Bool
deriving DecidableEq

namespace Expansion

/-- By path, and of equal paths first the one that goes on. -/
def order : Expansion → Expansion → Ordering := compareLex (compareOn path) (compareOn ended)

instance : Std.TransCmp order :=
  inferInstanceAs (Std.TransCmp (compareLex (compareOn path) (compareOn ended)))

instance : Std.LawfulEqCmp order where
  eq_of_compare {a b} h := by
    have hb := compareLex_eq_eq.1 h
    have hp : a.path = b.path := Std.LawfulEqCmp.eq_of_compare hb.1
    have he : a.ended = b.ended := Std.LawfulEqCmp.eq_of_compare hb.2
    cases a
    cases b
    exact congr (congrArg mk hp) he

end Expansion

abbrev ExpansionSet := Std.TreeSet Expansion Expansion.order

namespace Expansion

/-- Where several phrases are tried in turn, the first one is followed by the others from the last
on. -/
def inTurn : List Phrase → List Phrase
  | [] => []
  | p :: others => p :: others.reverse

/-- Tries several phrases in turn, telling each how many are waiting. -/
def exploreEach (explore : Nat → ExpansionSet → Phrase → Option ExpansionSet) (waiting : Nat) :
    ExpansionSet → List Phrase → Option ExpansionSet
  | found, [] => some found
  | found, p :: others =>
    (explore (waiting + others.length) found p).bind fun found =>
      exploreEach explore waiting found others

/-- Adds to `found` all expansions to `depth` categories of what lies on the stack, nearest first,
and comes behind `path`, which is reversed. Gives up if the expansions and the ways that are still
waiting are too many or the stack is too high. -/
def explore (g : Grammar) (depth : Nat) : (fuel : Nat) → (waiting : Nat) → (found : ExpansionSet) →
    (path : CategoryPath) → (stack : List Phrase) → Option ExpansionSet
  | 0, _, _, _, _ => none
  | fuel + 1, waiting, found, path, stack =>
    if found.size + waiting > Limits.maxPathsPerDecision || stack.length > Limits.maxParseDepth then
      none
    else if path.length = depth then some (found.insert ⟨path.reverse, false⟩)
    else
      match stack with
      | [] => some (found.insert ⟨path.reverse, true⟩)
      | .nil :: stack => explore g depth fuel waiting found path stack
      | .terminal c _ rest :: stack =>
        explore g depth fuel waiting found (c :: path) (rest :: stack)
      | .call r _ rest :: stack =>
        match g.phrase? r with
        | none => some (found.insert ⟨path.reverse, true⟩)
        | some p => explore g depth fuel waiting found path (p :: rest :: stack)
      | .option _ body rest :: stack =>
        (explore g depth fuel (waiting + 1) found path (rest :: stack)).bind fun found =>
          explore g depth fuel waiting found path (body :: rest :: stack)
      | .repetition _ false body rest :: stack =>
        (explore g depth fuel (waiting + 1) found path (rest :: stack)).bind fun found =>
          explore g depth fuel waiting found path (body :: rest :: stack)
      | .repetition _ true body rest :: stack =>
        explore g depth fuel waiting found path (body :: rest :: stack)
      | .choice _ _ body rest :: stack =>
        match inTurn (List.ofFn body) with
        | [] => explore g depth fuel waiting found path (rest :: stack)
        | bodies =>
          exploreEach (fun waiting found p =>
            explore g depth fuel waiting found path (p :: rest :: stack)) waiting found bodies

/-- More steps than one way through the phrases of a grammar without left recursion can take:
between two tokens no rule is entered from within itself. -/
def stepBound (g : Grammar) (depth : Nat) : Nat :=
  4 * (depth + 1) * (Limits.maxParseDepth + 1) * Nat.pow (g.pieceCount + 2) (g.size + 2)

/-- All expansions of some phrases to `depth` categories, or fewer where the rule ends. -/
def all? (g : Grammar) (depth : Nat) (stack : List Phrase) : Option ExpansionSet :=
  explore g depth (stepBound g depth) 0 ∅ [] stack

end Expansion

end PredictiveParsing
