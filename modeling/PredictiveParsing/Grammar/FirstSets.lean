import PredictiveParsing.Grammar.CategorySet
import PredictiveParsing.Grammar.Production

/-!
# What a phrase can start with

A phrase is nullable if it can consume nothing, and its first set holds the categories of the tokens
that it can consume first. What is known of the rules gives what is known of the phrases; starting
with nothing, this is repeated until no rule changes.
-/

namespace PredictiveParsing

/-- Repeats a step until it changes nothing. -/
def untilStable {α : Type} [DecidableEq α] (step : α → α) : (fuel : Nat) → α → α
  | 0, x => x
  | fuel + 1, x =>
    let y := step x
    if y = x then x else untilStable step fuel y

theorem untilStable_of_stable {α : Type} [DecidableEq α] {step : α → α} {x : α} (h : step x = x)
    (fuel : Nat) : untilStable step fuel x = x := by
  cases fuel with
  | zero => rfl
  | succ fuel => simp only [untilStable, h, if_true]

/-- The early end makes no difference. -/
theorem untilStable_eq_step (α : Type) [DecidableEq α] (step : α → α) (fuel : Nat) (x : α) :
    untilStable step (fuel + 1) x = untilStable step fuel (step x) := by
  by_cases h : step x = x
  · rw [untilStable_of_stable h, h, untilStable_of_stable h]
  · simp only [untilStable, h, if_false]

namespace Phrase

/-- Whether a phrase can consume nothing, for rules of which that is known. -/
def isNullable (rule : String → Bool) : Phrase → Bool
  | nil => true
  | terminal .. => false
  | call r _ rest => rule r && rest.isNullable rule
  | option _ _ rest => rest.isNullable rule
  | repetition _ b body rest => (!b || body.isNullable rule) && rest.isNullable rule
  | choice _ _ body rest =>
    (List.ofFn fun k => (body k).isNullable rule).any id && rest.isNullable rule

/-- The categories that a phrase can start with, for rules of which that is known. -/
def first (nullable : String → Bool) (rule : String → CategorySet) : Phrase → CategorySet
  | nil => .empty
  | terminal c _ _ => CategorySet.empty.insert c
  | call r _ rest => if nullable r then rule r ∪ rest.first nullable rule else rule r
  | option _ body rest => body.first nullable rule ∪ rest.first nullable rule
  | repetition _ b body rest =>
    if !b || body.isNullable nullable then body.first nullable rule ∪ rest.first nullable rule
    else body.first nullable rule
  | choice _ _ body rest =>
    let heads := (List.ofFn fun k => (body k).first nullable rule).foldl (· ∪ ·) .empty
    if (List.ofFn fun k => (body k).isNullable nullable).any id then
      heads ∪ rest.first nullable rule
    else heads

end Phrase

namespace Grammar

/-- What an array says about the rule with a name. -/
def ofRule {α : Type} (g : Grammar) (facts : Array α) (default : α) (name : String) : α :=
  ((g.ruleId? name).bind (facts[·]?)).getD default

def nullableStep (g : Grammar) (known : Array Bool) : Array Bool :=
  g.productions.map fun p => p.phrase.isNullable (g.ofRule known false)

/-- For every rule whether it can consume nothing. -/
def nullable (g : Grammar) : Array Bool :=
  untilStable g.nullableStep (g.size + 1) (Array.replicate g.size false)

def firstStep (g : Grammar) (nullable : Array Bool) (known : Array CategorySet) :
    Array CategorySet :=
  g.productions.map fun p =>
    p.phrase.first (g.ofRule nullable false) (g.ofRule known .empty)

/-- For every rule the categories that it can start with. -/
def first (g : Grammar) (nullable : Array Bool) : Array CategorySet :=
  untilStable (g.firstStep nullable) (g.size * g.pieceCount + 1) (Array.replicate g.size .empty)

end Grammar

end PredictiveParsing
