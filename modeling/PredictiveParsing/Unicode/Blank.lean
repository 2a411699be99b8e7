import PredictiveParsing.Unicode.CodeRanges

/-!
# White space

The characters with the property White_Space, and texts without them at their ends.
-/

namespace PredictiveParsing.Unicode

/-- White space beyond ASCII. -/
def blankRanges : CodeRanges := #[
  (0x85, 0x85), (0xA0, 0xA0), (0x1680, 0x1680), (0x2000, 0x200A), (0x2028, 0x2029),
  (0x202F, 0x202F), (0x205F, 0x205F), (0x3000, 0x3000)]

def isBlank (c : Char) : Bool :=
  if isAscii c then c == ' ' || (9 ≤ c.toNat && c.toNat ≤ 13) else blankRanges.holds c

def trimBlank (cs : List Char) : List Char :=
  (((cs.dropWhile isBlank).reverse).dropWhile isBlank).reverse

end PredictiveParsing.Unicode
