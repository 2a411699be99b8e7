/-!
# Ranges of code points

A property of characters beyond ASCII is a table of closed ranges in ascending order.
-/

namespace PredictiveParsing.Unicode

/-- Closed ranges of code points, ascending and disjoint. -/
abbrev CodeRanges := Array (Nat × Nat)

/-- Halves the stretch `[lo, hi)` of the table until the only range that can hold `code` is left. -/
def CodeRanges.search (ranges : CodeRanges) (code : Nat) : (fuel lo hi : Nat) → Bool
  | 0, _, _ => false
  | fuel + 1, lo, hi =>
    if lo < hi then
      let middle := (lo + hi) / 2
      match ranges[middle]? with
      | none => false
      | some (first, last) =>
        if code < first then ranges.search code fuel lo middle
        else if last < code then ranges.search code fuel (middle + 1) hi
        else true
    else false

/-- Whether one of the ranges holds the code point of `c`. -/
def CodeRanges.holds (ranges : CodeRanges) (c : Char) : Bool :=
  ranges.search c.toNat ranges.size 0 ranges.size

def isAscii (c : Char) : Bool := c.toNat < 128

end PredictiveParsing.Unicode
