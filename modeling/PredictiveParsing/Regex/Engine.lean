import PredictiveParsing.Proofs.Regex.Matches
import PredictiveParsing.Regex.Reader

/-!
# Engines

An engine turns the source of a pattern into a program, or refuses it, and a program finds a match
in a text. Models of tokens can have any engine. The standard one reads a source in a dialect with
few properties and follows the expression through the text.
-/

namespace PredictiveParsing.Regex

/-- A pattern that is ready to search. It finds a part of the text, from its first byte to the
end. -/
structure Program where
  find : List Char → Option (Nat × Nat)
  exists_of_find {text : List Char} {i j : Nat} (h : find text = some (i, j)) :
    ∃ front image rest, text = front ++ image ++ rest ∧ byteCount front = i ∧
      byteCount (front ++ image) = j

structure Engine where
  compile : List Char → Except PatternError Program

/-! ## The standard engine -/

/-- The program that follows an expression through a text. -/
def program [Dialect] (r : Regex) : Program where
  find := r.find?
  exists_of_find h :=
    let ⟨front, image, rest, htext, hi, hj, _⟩ := matches_of_find? h
    ⟨front, image, rest, htext, hi, hj⟩

@[simp] theorem program_find [Dialect] (r : Regex) (text : List Char) :
    (program r).find text = r.find? text := rfl

/-- The name of a property without case, blanks, hyphens and underscores. -/
def normalizeName (name : List Char) : List Char :=
  (name.filter fun c => !(c == ' ' || c == '-' || c == '_')).map Char.toLower

def propertyTable : List (String × (Char → Bool)) :=
  [("l", Unicode.isLetter), ("letter", Unicode.isLetter), ("gc=l", Unicode.isLetter),
    ("gc=letter", Unicode.isLetter), ("generalcategory=l", Unicode.isLetter),
    ("generalcategory=letter", Unicode.isLetter), ("nd", Unicode.isDecimalDigit),
    ("decimalnumber", Unicode.isDecimalDigit), ("digit", Unicode.isDecimalDigit),
    ("gc=nd", Unicode.isDecimalDigit), ("whitespace", Unicode.isBlank), ("wspace", Unicode.isBlank),
    ("space", Unicode.isBlank), ("any", fun _ => true), ("ascii", Unicode.isAscii)]

instance Dialect.standard : Dialect where
  property? name := propertyTable.lookup (String.ofList (normalizeName name))
  isAlphabetic := Unicode.isLetter
  isAlphanumeric := Unicode.isWordCharacter
  depthLimit := some 250
  sizeLimit := some 60000

def Engine.standard : Engine where
  compile source := (read source).map program

end PredictiveParsing.Regex
