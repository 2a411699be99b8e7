import PredictiveParsing.Token.Model

/-!
# Segments

A segment of a text is the longest match of a category, or characters that no category matches. Of
categories with equally long matches the one registered first counts, and an empty match does not
count.
-/

namespace PredictiveParsing

/-- A stretch of a text with the category that matches it, if one does. -/
structure Segment where
  category : Option Category
  text : List Char
  span : Span

namespace Segment

/-- The better of what has been found and the match of one more category. -/
def better (best : Option (Category × Nat)) (c : Category) (rest : List Char) :
    Option (Category × Nat) :=
  match c.matcher.matchLength? rest with
  | none => best
  | some n => if best.elim 0 Prod.snd < n then some (c, n) else best

/-- The longest match at the start of a text, with its number of bytes. -/
def longestMatch? (candidates : List Category) (rest : List Char) : Option (Category × Nat) :=
  candidates.foldl (fun best c => better best c rest) none

/-- The longest match at the start of a text as a segment, and the text behind it. -/
def matched? (candidates : List Category) (p : Position) (rest : List Char) :
    Option (Category × Segment × List Char) :=
  match longestMatch? candidates rest with
  | none => none
  | some (category, n) =>
    match splitBytes? n rest with
    | none => none
    | some (text, behind) =>
      some (category, ⟨some category, text, ⟨p, p.behind text behind⟩⟩, behind)

/-- Goes through a text up to a match: the characters up to there, behind those that `passed` has,
the place, and the text behind. -/
def skipUnmatched (candidates : Char → List Category) (passed : List Char) (p : Position) :
    List Char → List Char × Position × List Char
  | [] => (passed.reverse, p, [])
  | c :: cs =>
    match matched? (candidates c) p (c :: cs) with
    | some _ => (passed.reverse, p, c :: cs)
    | none => skipUnmatched candidates (c :: passed) (p.advance c cs.head?) cs

end Segment

end PredictiveParsing
