import PredictiveParsing.Text.Position

/-!
# Source excerpts

The line of a text that a message talks about, with carets under the place it means.
-/

namespace PredictiveParsing.Excerpt

/-- Cuts a text at line feeds; `line` is the line at hand and `done` the lines before it, reversed.
-/
def splitLinesFrom (done : List (List Char)) (line : List Char) : List Char → List (List Char)
  | [] => (line.reverse :: done).reverse
  | c :: cs =>
    if c = '\n' then splitLinesFrom (line.reverse :: done) [] cs
    else splitLinesFrom done (c :: line) cs

/-- The lines of a text, cut at line feeds only. -/
def splitLines (input : List Char) : List (List Char) :=
  splitLinesFrom [] [] input

def trimReturns (line : List Char) : List Char :=
  (line.reverse.dropWhile (· == '\r')).reverse

/-- The line with the given number, counted from one. -/
def line? (input : List Char) (number : Nat) : Option (List Char) :=
  if number = 0 then none else (splitLines input)[number - 1]?.map trimReturns

/-- How many carets mark a span whose first line is `line`. -/
def caretCount (line : List Char) (s : Span) : Nat :=
  let width :=
    if s.start.line = s.stop.line then s.stop.column - s.start.column
    else line.length - (s.start.column - 1)
  max width 1

private def copies (n : Nat) (c : Char) : String := String.ofList (List.replicate n c)

/-- A message, the place it is about, and the line there with carets under the span. -/
def render (input : List Char) (s : Span) (message : String) : String :=
  let head := s!"error: {message}\n  --> {s.start.text}\n"
  match line? input s.start.line with
  | none => head
  | some line =>
    let number := toString s.start.line
    let margin := copies number.length ' '
    let carets := copies (s.start.column - 1) ' ' ++ copies (caretCount line s) '^'
    head ++ s!"{margin} |\n{number} | {String.ofList line}\n{margin} | {carets}\n"

end PredictiveParsing.Excerpt
