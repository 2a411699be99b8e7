import PredictiveParsing.Regex.Syntax

/-!
# Searching

The leftmost match of an expression in a text, and of the matches there the one that the expression
prefers: the first branch of an alternative that leads to a match. All ways to match are followed
side by side, in order of preference, so a search reads the text once from each place where it
starts.
-/

namespace PredictiveParsing.Regex

variable [Dialect]

/-- How an expression can go on from a place: it is matched, or a character of the class comes next
and then the rest. -/
inductive Way where
  | done
  | step (s : CharClass) (rest : Regex)
deriving DecidableEq

namespace Way

def isDone : Way → Bool
  | done => true
  | step .. => false

/-- The ways up to and without the first that is done, and whether one is. -/
def untilDone : List Way → List Way × Bool
  | [] => ([], false)
  | done :: _ => ([], true)
  | step s r :: ws => let (steps, found) := untilDone ws; (step s r :: steps, found)

/-- Only the first way that is done counts. -/
def dropRepeats : List Way → List Way
  | [] => []
  | done :: ws => done :: ws.filter fun w => !w.isDone
  | step s r :: ws => step s r :: dropRepeats ws

def followedBy (next : Regex) : List Way → List Way
  | [] => []
  | done :: ws => followedBy next ws
  | step s r :: ws => step s (r.andThen next) :: followedBy next ws

end Way

/-- The ways of an expression between two characters, in order of preference. A round of a
repetition that is empty is not followed by another. -/
def ways (before after : Option Char) : Regex → List Way
  | empty => [.done]
  | chars s => [.step s empty]
  | look l => if l.holds before after then [.done] else []
  | cat a b =>
    Way.dropRepeats <| (ways before after a).flatMap fun
      | .done => ways before after b
      | .step s r => [.step s (r.andThen b)]
  | alt a b => Way.dropRepeats (ways before after a ++ ways before after b)
  | plus greedy a =>
    (ways before after a).map fun
      | .done => .done
      | .step s r => .step s (r.andThen (again greedy a))
  | again greedy a =>
    let rounds := Way.followedBy (again greedy a) (ways before after a)
    if greedy then rounds ++ [.done] else .done :: rounds

/-- The first occurrence of each expression. -/
def dropDuplicates (rs : List Regex) : List Regex :=
  (rs.foldl (fun kept r => if kept.contains r then kept else r :: kept) []).reverse

/-- The steps of all expressions up to the first that is done, and whether one is. -/
def frontier (before after : Option Char) : List Regex → List (CharClass × Regex) × Bool
  | [] => ([], false)
  | r :: rs =>
    let (steps, found) := Way.untilDone (ways before after r)
    let moves := steps.filterMap fun
      | .done => none
      | .step s rest => some (s, rest)
    if found then (moves, true)
    else
      let (more, found) := frontier before after rs
      (moves ++ more, found)

/-- Follows all expressions through the text, and keeps in `best` where the preferred match ends. -/
def follow (before : Option Char) (rs : List Regex) (place : Nat) (best : Option Nat) :
    List Char → Option Nat
  | [] =>
    let (_, found) := frontier before none rs
    if found then some place else best
  | c :: cs =>
    let (moves, found) := frontier before (some c) rs
    let best := if found then some place else best
    match dropDuplicates (moves.filterMap fun (s, r) => if s.contains c then some r else none) with
    | [] => best
    | next => follow (some c) next (place + c.utf8Size) best cs

/-- The leftmost match, from its first byte to the end, when none begins before the place at hand.
-/
def searchFrom (r : Regex) (before : Option Char) (place : Nat) : List Char → Option (Nat × Nat)
  | [] => (follow before [r] place none []).map fun stop => (place, stop)
  | c :: cs =>
    match follow before [r] place none (c :: cs) with
    | some stop => some (place, stop)
    | none =>
      if r.startsAtTextStart then none else searchFrom r (some c) (place + c.utf8Size) cs

/-- Where the leftmost match in a text begins and ends, in bytes from the start of the text. -/
def find? (r : Regex) (text : List Char) : Option (Nat × Nat) := searchFrom r none 0 text

end PredictiveParsing.Regex
