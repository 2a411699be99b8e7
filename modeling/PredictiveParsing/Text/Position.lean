/-!
# Positions and spans in a text

A position counts the bytes before it and carries a line and a column, both from one. The pair of a
carriage return and a line feed is one line break, and a carriage return on its own is one too.
-/

namespace PredictiveParsing

/-- What has been read of a text, and the text behind it. -/
abbrev Rest (α : Type) := α × List Char

/-- A place in a text. -/
structure Position where
  offset : Nat
  line : Nat
  column : Nat
deriving DecidableEq, Inhabited

namespace Position

def start : Position := ⟨0, 1, 1⟩

/-- Whether a line ends after `c` when `next` is the character behind it. -/
def breaksLine (c : Char) (next : Option Char) : Bool :=
  c == '\n' || (c == '\r' && next != some '\n')

/-- The position behind `c`, where `next` is the character that follows `c` in the text. -/
def advance (p : Position) (c : Char) (next : Option Char) : Position :=
  if breaksLine c next then ⟨p.offset + c.utf8Size, p.line + 1, 1⟩
  else ⟨p.offset + c.utf8Size, p.line, p.column + 1⟩

/-- The position behind `consumed` in a text that goes on with `rest`. -/
def behind (p : Position) : (consumed rest : List Char) → Position
  | [], _ => p
  | c :: consumed, rest => (p.advance c (consumed.head?.or rest.head?)).behind consumed rest

def text (p : Position) : String := s!"{p.line}:{p.column}"

end Position

/-- The characters of a text from `start` up to `stop`. -/
structure Span where
  start : Position
  stop : Position
deriving DecidableEq, Inhabited

/-- Moves the first `n` bytes of a text onto `taken`; `none` inside a character or past the end. -/
def splitBytesFrom? (taken : List Char) : Nat → List Char → Option (List Char × List Char)
  | n, [] => if n = 0 then some (taken.reverse, []) else none
  | n, c :: cs =>
    if n = 0 then some (taken.reverse, c :: cs)
    else if c.utf8Size ≤ n then splitBytesFrom? (c :: taken) (n - c.utf8Size) cs
    else none

/-- The first `n` bytes of a text and what follows them, if `n` falls between two characters. -/
def splitBytes? (n : Nat) (cs : List Char) : Option (List Char × List Char) :=
  splitBytesFrom? [] n cs

/-- The number of bytes that a text takes in UTF-8. -/
def byteCount (cs : List Char) : Nat :=
  cs.foldl (fun n c => n + c.utf8Size) 0

namespace Span

/-- The empty span at a position. -/
def point (p : Position) : Span := ⟨p, p⟩

/-- The span of things that stand in no text. -/
def dummy : Span := point .start

def length (s : Span) : Nat := s.stop.offset - s.start.offset

def isEmpty (s : Span) : Bool := s.start.offset == s.stop.offset

/-- The smallest span around both, compared by offset; on a tie the first one's end stands. -/
def merge (a b : Span) : Span where
  start := if a.start.offset ≤ b.start.offset then a.start else b.start
  stop := if a.stop.offset ≥ b.stop.offset then a.stop else b.stop

/-- The text under a span, empty where the span does not fall on characters of the text. -/
def slice (s : Span) (input : List Char) : List Char :=
  match splitBytes? s.start.offset input with
  | none => []
  | some (_, rest) =>
    if s.start.offset ≤ s.stop.offset then
      ((splitBytes? (s.stop.offset - s.start.offset) rest).map Prod.fst).getD []
    else []

def text (s : Span) : String :=
  if s.start.line = s.stop.line then s!"{s.start.line}:{s.start.column}-{s.stop.column}"
  else s!"{s.start.text}-{s.stop.text}"

end Span

end PredictiveParsing
