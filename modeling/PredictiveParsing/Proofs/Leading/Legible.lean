import PredictiveParsing.Leading.Pattern
import PredictiveParsing.Regex.Reader

/-!
# Legible sources

The scan of a pattern takes a few constructs for something else than they mean. Two of them mislead
it about where a class ends: a class in a class that begins with a colon but is not a named one, and
a hyphen behind a bracket that stands for itself. The others are misread where they are: a word
boundary such as `\<` as a literal, two hyphens behind a member of a class as a range that ends with
a hyphen, and in a negated class a named class or a property, for which the scan takes away all
characters. A source is legible when it has none of the former, and none of the latter where a match
can begin. Nothing is asked of what follows the place where the scan gives up.
-/

namespace PredictiveParsing.Leading

/-- What the members that the scan finds for a class have to be: anything, at least the members of
the class, or at most these. -/
inductive Demand where
  | free | atLeast | atMost
deriving DecidableEq

/-- Whether a hyphen behind the member `x` of a class is read well. Two hyphens are read as a range
from `x`, which has `x` itself only where `x` is not behind the hyphen in the order. -/
def legibleHyphen (d : Demand) (first : Bool) (x : Char) (rest : List Char) : Bool :=
  !(first && x = ']' && startsRange rest) &&
    match rest with
    | '-' :: '-' :: _ => d = .free || (d = .atLeast && x ≤ '-')
    | _ => true

def legibleMembers (d : Demand) : (fuel : Nat) → (first : Bool) → List Char → Bool
  | 0, _, _ => false
  | _ + 1, _, [] => true
  | fuel + 1, first, c :: cs =>
    if c = ']' && !first then true
    else if c = '[' then
      d ≠ .atMost && (Regex.asciiClass? .none cs).any fun (_, rest) =>
        legibleMembers d fuel false rest
    else if c = '\\' then
      if cs.head?.any isClassLetter then
        !(d = .atMost && (cs.head? = some 'p' || cs.head? = some 'P')) &&
          (scanEscapeSet cs).all fun (_, rest) => legibleMembers d fuel false rest
      else
        (scanEscapedChar cs).all fun (x, rest) =>
          legibleHyphen d false x rest && (scanRange .empty x rest).all fun (_, rest) =>
            legibleMembers d fuel false rest
    else
      legibleHyphen d first c cs && (scanRange .empty c cs).all fun (_, rest) =>
        legibleMembers d fuel false rest

/-- Whether a class is read well, behind its opening bracket. -/
def legibleClass (leading : Bool) : List Char → Bool
  | '^' :: cs => legibleMembers (if leading then .atMost else .free) (cs.length + 1) true cs
  | cs => legibleMembers (if leading then .atLeast else .free) (cs.length + 1) true cs

/-- An expression with its quantifier, as the scan of a branch reads them. -/
def scanPiece (fuel : Nat) (c : Char) (cs : List Char) : Option (Rest First) := do
  let (atom, rest) ← scanAtom fuel c cs
  let (zero, rest) ← scanQuantifier rest
  return (if zero then { atom with nullable := true } else atom, rest)

mutual

/-- Whether branches are read well, where `leading` says whether a match can begin in them. -/
def legibleBranches : (fuel : Nat) → (leading : Bool) → List Char → Bool
  | 0, _, _ => false
  | fuel + 1, leading, cs =>
    legibleBranch fuel leading cs &&
      match scanBranch fuel .epsilon cs with
      | some (_, '|' :: rest) => legibleBranches fuel leading rest
      | _ => true

/-- A match can begin behind a piece only where the piece can be empty. -/
def legibleBranch : (fuel : Nat) → (leading : Bool) → List Char → Bool
  | 0, _, _ => false
  | _ + 1, _, [] => true
  | fuel + 1, leading, c :: cs =>
    if c = '|' || c = ')' then true
    else
      legibleAtom fuel leading c cs && (scanPiece fuel c cs).all fun (piece, rest) =>
        legibleBranch fuel (leading && piece.nullable) rest

def legibleAtom : (fuel : Nat) → (leading : Bool) → Char → List Char → Bool
  | 0, _, _, _ => false
  | fuel + 1, leading, c, cs =>
    match c with
    | '(' => (skipGroupHead cs).all (legibleBranches fuel leading)
    | '[' => legibleClass leading cs
    | '\\' => !(leading && (cs.head? = some '<' || cs.head? = some '>'))
    | _ => true

end

/-- Whether the scan reads a source well. -/
def legible (source : List Char) : Bool := legibleBranches (3 * source.length + 3) true source

end PredictiveParsing.Leading
