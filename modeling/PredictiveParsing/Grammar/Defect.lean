import PredictiveParsing.Grammar.LeftCycle
import PredictiveParsing.Token.Model

/-!
# Defects of grammars

A grammar can be used for parsing if its categories and rules exist, every piece of a rule can be
told from all others by its kind and index, and no rule is left recursive.
-/

namespace PredictiveParsing

/-- Why a grammar cannot be used. -/
inductive GrammarDefect where
  /-- An abstract category never has a token. -/
  | emptyCategory (name : String)
  | undefinedCategory (rule : String) (category : CategoryId)
  | undefinedRule (rule callee : String)
  | repeatedOccurrence (rule occurrence : String) (idx : Nat)
  | leftRecursion (rule : String) (path : List String)
  | recordingFailed (rule reason : String)
deriving DecidableEq

namespace GrammarDefect

def message : GrammarDefect → String
  | emptyCategory name =>
    s!"Token category '{name}' cannot be resolved: abstract category has no concrete descendant"
  | undefinedCategory rule category =>
    s!"Token category '{category.text}' cannot be resolved: "
      ++ s!"consumed in rule '{rule}' but not defined in the token model"
  | undefinedRule rule callee => s!"Rule '{rule}' calls undefined rule '{callee}'"
  | repeatedOccurrence rule occurrence idx =>
    s!"Rule '{rule}' uses {occurrence} with index {idx} more than once"
  | leftRecursion rule path => s!"Left recursion in rule '{rule}': " ++ " -> ".intercalate path
  | recordingFailed rule reason => s!"Recording rule '{rule}' failed: {reason}"

def code : GrammarDefect → Code
  | emptyCategory _ => Code.unresolvedHierarchy
  | undefinedCategory .. => Code.unresolvedHierarchy
  | undefinedRule .. => Code.unknownRule
  | repeatedOccurrence .. => Code.duplicateOccurrence
  | leftRecursion .. => Code.leftRecursion
  | recordingFailed .. => Code.recordingFailed

def rule? : GrammarDefect → Option String
  | emptyCategory _ => none
  | undefinedCategory .. => none
  | undefinedRule rule _ => some rule
  | repeatedOccurrence rule .. => some rule
  | leftRecursion rule _ => some rule
  | recordingFailed rule _ => some rule

end GrammarDefect

def Occurrence.text (m : TokenModel) : Occurrence → String
  | terminal c => s!"consume of {m.name c}"
  | call rule => s!"subrule call to {rule}"
  | decision kind => kind.keyword

/-- The first member that is equal to one before it or to one of `seen`. -/
def firstRepeated? {α : Type} [DecidableEq α] (seen : List α) : List α → Option α
  | [] => none
  | x :: xs => if x ∈ seen then some x else firstRepeated? (x :: seen) xs

theorem firstRepeated?_eq_none {α : Type} [DecidableEq α] {seen xs : List α} :
    firstRepeated? seen xs = none ↔ xs.Nodup ∧ ∀ x ∈ xs, x ∉ seen := by
  induction xs generalizing seen with
  | nil => simp [firstRepeated?]
  | cons x xs ih =>
    unfold firstRepeated?
    split
    · rename_i h
      simp [h]
    · rename_i h
      rw [ih]
      constructor
      · intro hr
        refine ⟨List.nodup_cons.2 ⟨fun hx => hr.2 x hx List.mem_cons_self, hr.1⟩, fun y hy => ?_⟩
        cases hy with
        | head => exact h
        | tail _ hy => exact fun hs => hr.2 y hy (List.mem_cons_of_mem x hs)
      · intro hr
        have hd := List.nodup_cons.1 hr.1
        refine ⟨hd.2, fun y hy hs => ?_⟩
        cases hs with
        | head => exact hd.1 hy
        | tail _ hs => exact hr.2 y (List.mem_cons_of_mem x hy) hs

namespace Production

def undefinedCategory? (m : TokenModel) (p : Production) : Option GrammarDefect :=
  p.phrase.occurrences.findSome? fun (o, _) =>
    match o with
    | .terminal c => if (m.get? c).isSome then none else some (.undefinedCategory p.name c)
    | _ => none

def undefinedRule? (g : Grammar) (p : Production) : Option GrammarDefect :=
  p.phrase.occurrences.findSome? fun (o, _) =>
    match o with
    | .call r => if (g.ruleId? r).isSome then none else some (.undefinedRule p.name r)
    | _ => none

/-- An occurrence that is there twice. -/
def repeatedOccurrence? (m : TokenModel) (p : Production) : Option GrammarDefect :=
  (firstRepeated? [] p.phrase.occurrences).map fun (o, idx) =>
    .repeatedOccurrence p.name (o.text m) idx

end Production

namespace Grammar

/-- The first defect that shows without looking at what the rules consume. -/
def formalDefect? (g : Grammar) (m : TokenModel) : Option GrammarDefect :=
  let rules := g.productions.toList
  (m.emptyCategory?.map fun c => GrammarDefect.emptyCategory c.name)
    |>.or (rules.findSome? fun p => p.undefinedCategory? m)
    |>.or (rules.findSome? fun p => p.undefinedRule? g)
    |>.or (rules.findSome? fun p => p.repeatedOccurrence? m)

end Grammar

end PredictiveParsing
