import PredictiveParsing.Token.Category

/-!
# Matchers

Matchers for text that is not described by an expression.
-/

namespace PredictiveParsing.CustomMatcher

def anyChar : CustomMatcher
  | [] => none
  | c :: _ => some c.utf8Size

def nothing : CustomMatcher := fun _ => none

/-- The same number of bytes wherever it is asked. -/
def fixed (n : Nat) : CustomMatcher := fun _ => some n

/-- One text. -/
def exactly (text : List Char) : CustomMatcher := fun rest =>
  if text.isPrefixOf rest then some (byteCount text) else none

/-- The longest run of the given characters, which may be empty. -/
def run (members : List Char) : CustomMatcher := fun rest =>
  some (byteCount (rest.takeWhile members.contains))

/-- The bytes before the first occurrence of a text. -/
def offsetOf? (text : List Char) (offset : Nat) : List Char → Option Nat
  | [] => if text.isEmpty then some offset else none
  | c :: cs =>
    if text.isPrefixOf (c :: cs) then some offset else offsetOf? text (offset + c.utf8Size) cs

/-- Everything up to the end of the first occurrence of a text. -/
def upTo (text : List Char) : CustomMatcher := fun rest =>
  (offsetOf? text 0 rest).map (· + byteCount text)

end PredictiveParsing.CustomMatcher
