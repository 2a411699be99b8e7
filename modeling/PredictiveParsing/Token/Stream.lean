import PredictiveParsing.Token.Category

/-!
# Tokens

A token is a stretch of the input with a category. A token stream ends with the token of the end of
the input, and reads past its end give that token again.
-/

namespace PredictiveParsing

structure Token where
  category : CategoryId
  image : String
  span : Span
  /-- Not read from the input but supplied where it was missing. -/
  inserted : Bool
deriving DecidableEq, Inhabited

namespace Token

def eof (p : Position) : Token := ⟨CategoryId.eof, "", .point p, false⟩

/-- An empty token that stands in for a missing one. -/
def placeholder (category : CategoryId) (p : Position) : Token := ⟨category, "", .point p, true⟩

def isEof (t : Token) : Bool := t.category == CategoryId.eof

def offset (t : Token) : Nat := t.span.start.offset

def length (t : Token) : Nat := t.span.length

def isEmpty (t : Token) : Bool := t.span.isEmpty

theorem category_eof (p : Position) : (eof p).category = CategoryId.eof := rfl

end Token

/-- Tokens and, behind them, the end of the input. -/
structure TokenStream where
  before : Array Token
  last : Token
  last_isEof : last.category = CategoryId.eof

namespace TokenStream

/-- The stream of some tokens, with an end behind the last one if that is not an end itself. -/
def ofArray (tokens : Array Token) : TokenStream :=
  match tokens.back? with
  | none => ⟨#[], .eof .start, rfl⟩
  | some t =>
    if h : t.category = CategoryId.eof then ⟨tokens.pop, t, h⟩
    else ⟨tokens, .eof t.span.stop, rfl⟩

def ofList (tokens : List Token) : TokenStream := ofArray tokens.toArray

def get (s : TokenStream) (i : Nat) : Token := s.before[i]?.getD s.last

/-- The index of the end of the input. -/
def endIndex (s : TokenStream) : Nat := s.before.size

def endPlace (s : TokenStream) : Position := s.last.span.start

def size (s : TokenStream) : Nat := s.before.size + 1

def isEmpty (s : TokenStream) : Bool := s.size ≤ 1

def toArray (s : TokenStream) : Array Token := s.before.push s.last

def toList (s : TokenStream) : List Token := s.toArray.toList

end TokenStream

end PredictiveParsing
