import PredictiveParsing.Unicode.CodeRanges

/-!
# Leading sets

The characters that a token may start with: exactly the ASCII ones, and whether there are any
others.
-/

namespace PredictiveParsing

structure LeadingSet where
  ascii : BitVec 128
  nonAscii : Bool
deriving DecidableEq

namespace LeadingSet

def empty : LeadingSet := ⟨0, false⟩

def all : LeadingSet := ⟨BitVec.allOnes 128, true⟩

def insert (s : LeadingSet) (c : Char) : LeadingSet :=
  if Unicode.isAscii c then { s with ascii := s.ascii ||| BitVec.twoPow 128 c.toNat }
  else { s with nonAscii := true }

/-- The bits from `first` up to, and without, `stop`. -/
def bits (first : Nat) : (stop : Nat) → BitVec 128
  | 0 => 0
  | n + 1 => if first ≤ n then bits first n ||| BitVec.twoPow 128 n else 0

/-- All characters of a range; a range that ends before it starts has none. -/
def insertRange (s : LeadingSet) (first last : Char) : LeadingSet :=
  if last < first then s
  else {
    ascii := s.ascii ||| bits first.toNat (min last.toNat 127 + 1)
    nonAscii := s.nonAscii || !Unicode.isAscii last }

def union (a b : LeadingSet) : LeadingSet := ⟨a.ascii ||| b.ascii, a.nonAscii || b.nonAscii⟩

/-- All other characters; some that are not ASCII always remain. -/
def negated (s : LeadingSet) : LeadingSet := ⟨~~~s.ascii, true⟩

def contains (s : LeadingSet) (c : Char) : Bool :=
  if Unicode.isAscii c then s.ascii.getLsbD c.toNat else s.nonAscii

def isEmpty (s : LeadingSet) : Bool := s.ascii == 0 && !s.nonAscii

def asciiCodes (s : LeadingSet) : List Nat :=
  (List.range 128).filter fun code => s.ascii.getLsbD code

def ofList (cs : List Char) : LeadingSet := cs.foldl insert empty

/-- The one member of a set that has no others and is ASCII. -/
def single? (s : LeadingSet) : Option Char :=
  match s.asciiCodes, s.nonAscii with
  | [code], false => some (Char.ofNat code)
  | _, _ => none

end LeadingSet

end PredictiveParsing
