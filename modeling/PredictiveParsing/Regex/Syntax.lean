import PredictiveParsing.Unicode.Blank
import PredictiveParsing.Unicode.CaseFolding
import PredictiveParsing.Unicode.Digits
import PredictiveParsing.Unicode.Letters
import PredictiveParsing.Unicode.WordCharacters

/-!
# Regular expressions

Character classes, conditions on a place in a text, and the expressions over them. A repetition
tries another round before it stops when it is greedy, and after it has tried to stop otherwise.
-/

namespace PredictiveParsing

/-- What differs between engines for regular expressions: the properties that have a name, the
letters and digits in names of groups, and how deep and how large an expression may become. -/
class Regex.Dialect where
  /-- The characters with the property of the given name, if there is such a property. -/
  property? : List Char → Option (Char → Bool)
  isAlphabetic : Char → Bool
  isAlphanumeric : Char → Bool
  depthLimit : Option Nat
  sizeLimit : Option Nat

inductive Property where
  | digit | blank | word | any
  /-- The property that the dialect has under a name. -/
  | named (name : List Char)
deriving DecidableEq

def Property.holds [Regex.Dialect] : Property → Char → Bool
  | digit, c => Unicode.isDecimalDigit c
  | blank, c => Unicode.isBlank c
  | word, c => Unicode.isWordCharacter c
  | any, _ => true
  | named name, c => (Regex.Dialect.property? name).any fun p => p c

inductive CharClass where
  | empty
  | range (first last : Char)
  | property (p : Property)
  | union (a b : CharClass)
  | intersection (a b : CharClass)
  | complement (a : CharClass)
  /-- The characters that are in the class up to case. -/
  | folded (a : CharClass)
  /-- The characters that are in the class up to the case of ASCII letters. -/
  | asciiFolded (a : CharClass)
deriving DecidableEq

namespace CharClass

def contains [Regex.Dialect] : CharClass → Char → Bool
  | empty, _ => false
  | range first last, c => first ≤ c && c ≤ last
  | property p, c => p.holds c
  | union a b, c => a.contains c || b.contains c
  | intersection a b, c => a.contains c && b.contains c
  | complement a, c => !a.contains c
  | folded a, c => (Unicode.caseVariants c).any fun d => a.contains d
  | asciiFolded a, c => a.contains c || a.contains c.toLower || a.contains c.toUpper

def single (c : Char) : CharClass := range c c

def ofRanges : List (Char × Char) → CharClass
  | [] => empty
  | (first, last) :: rs => union (range first last) (ofRanges rs)

def difference (a b : CharClass) : CharClass := intersection a (complement b)

def symmetricDifference (a b : CharClass) : CharClass := union (difference a b) (difference b a)

def negatedIf (negated : Bool) (a : CharClass) : CharClass := if negated then complement a else a

end CharClass

/-- How a place lies to the words of a text. -/
inductive WordPlace where
  | boundary | notBoundary
  | start | stop
  | startHalf | stopHalf
deriving DecidableEq

/-- Whether a place lies so, given whether there are characters of words on both sides of it. -/
def WordPlace.holds (before after : Bool) : WordPlace → Bool
  | boundary => before != after
  | notBoundary => before == after
  | start => !before && after
  | stop => before && !after
  | startHalf => !before
  | stopHalf => !after

/-- Conditions on the two characters around a place, either of which is missing at an end. -/
inductive Look where
  | textStart | textEnd
  | lineStart | lineEnd
  | lineStartReturn | lineEndReturn
  /-- Words are of ASCII characters, or of all characters with Unicode. -/
  | word (unicode : Bool) (place : WordPlace)
deriving DecidableEq

private def isWord (unicode : Bool) (c : Option Char) : Bool :=
  c.any fun c => Unicode.isWordCharacter c && (unicode || Unicode.isAscii c)

def Look.holds (before after : Option Char) : Look → Bool
  | textStart => !before.isSome
  | textEnd => !after.isSome
  | lineStart => before.all (· == '\n')
  | lineEnd => after.all (· == '\n')
  | lineStartReturn =>
    before.all (· == '\n') || (before == some '\r' && after != some '\n')
  | lineEndReturn =>
    after.all (· == '\r') || (after == some '\n' && before != some '\r')
  | word unicode place => place.holds (isWord unicode before) (isWord unicode after)

inductive Regex where
  | empty
  | chars (s : CharClass)
  | look (l : Look)
  | cat (a b : Regex)
  | alt (a b : Regex)
  /-- One round or more. -/
  | plus (greedy : Bool) (a : Regex)
  /-- Any number of rounds, none of which is empty. -/
  | again (greedy : Bool) (a : Regex)
deriving DecidableEq

namespace Regex

/-- Whether some place satisfies the expression without a character. -/
def nullable : Regex → Bool
  | empty => true
  | chars _ => false
  | look _ => true
  | cat a b => a.nullable && b.nullable
  | alt a b => a.nullable || b.nullable
  | plus _ a => a.nullable
  | again _ _ => true

/-- One after the other, where the empty expression adds nothing. -/
def andThen (a b : Regex) : Regex := if a = empty then b else if b = empty then a else cat a b

def optional (greedy : Bool) (a : Regex) : Regex := if greedy then alt a empty else alt empty a

def star (greedy : Bool) (a : Regex) : Regex :=
  if a.nullable then optional greedy (plus greedy a) else again greedy a

def times (a : Regex) (tail : Regex) : Nat → Regex
  | 0 => tail
  | n + 1 => a.andThen (times a tail n)

def atMost (greedy : Bool) (a : Regex) : Nat → Regex
  | 0 => empty
  | n + 1 => optional greedy (a.andThen (atMost greedy a n))

/-- Between `least` and `most` rounds, where no `most` means any number. -/
def repeated (greedy : Bool) (least : Nat) (most : Option Nat) (a : Regex) : Regex :=
  match most with
  | some m => a.times (atMost greedy a (m - least)) least
  | none =>
    match least with
    | 0 => star greedy a
    | n + 1 => a.times (plus greedy a) n

/-- Every match begins where the text does. -/
def startsAtTextStart : Regex → Bool
  | look l => l == .textStart
  | cat a b => a.startsAtTextStart || (a.nullable && b.startsAtTextStart)
  | alt a b => a.startsAtTextStart && b.startsAtTextStart
  | plus _ a => a.startsAtTextStart
  | _ => false

end Regex

end PredictiveParsing
