import PredictiveParsing.Leading.Set
import PredictiveParsing.Text.Position

/-!
# Leading characters of patterns

The characters with which a match of a pattern that is not empty can start. A pattern is read only
as far as that needs; where it is not certain what a construct means the set grows or there is no
answer, so a set is never too small.
-/

namespace PredictiveParsing.Leading

/-- The leading characters of an expression, and whether it can match nothing. -/
structure First where
  set : LeadingSet
  nullable : Bool
deriving DecidableEq

namespace First

def epsilon : First := ⟨.empty, true⟩

def of (s : LeadingSet) : First := ⟨s, false⟩

def either (a b : First) : First := ⟨a.set.union b.set, a.nullable || b.nullable⟩

/-- One after the other: the second counts where the first can be empty. -/
def followedBy (a b : First) : First :=
  if a.nullable then ⟨a.set.union b.set, b.nullable⟩ else a

end First

def digitSet : LeadingSet := { LeadingSet.empty.insertRange '0' '9' with nonAscii := true }

def wordSet : LeadingSet :=
  let letters := (LeadingSet.empty.insertRange 'a' 'z').insertRange 'A' 'Z'
  { (letters.insertRange '0' '9').insert '_' with nonAscii := true }

def blankSet : LeadingSet :=
  { LeadingSet.ofList [' ', '\t', '\n', '\r', '\x0b', '\x0c'] with nonAscii := true }

/-- Everything but a line feed. -/
def dotSet : LeadingSet :=
  ⟨LeadingSet.all.ascii &&& ~~~(BitVec.twoPow 128 '\n'.toNat), true⟩

def hexValue? (c : Char) : Option Nat :=
  if c.isDigit then some (c.toNat - '0'.toNat)
  else if 'a' ≤ c && c ≤ 'f' then some (c.toNat - 'a'.toNat + 10)
  else if 'A' ≤ c && c ≤ 'F' then some (c.toNat - 'A'.toNat + 10)
  else none

/-- The value of digits to a base, below `2 ^ 32`. -/
def digitsValue? (base : Nat) (value : Nat) : List Char → Option Nat
  | [] => some value
  | c :: cs => do
    let d ← hexValue? c
    if base ≤ d then none
    else if 0x100000000 ≤ value * base + d then none
    else digitsValue? base (value * base + d) cs

/-- A code point to the base sixteen, with or without a plus sign. -/
def codePoint? (digits : List Char) : Option Char := do
  let digits :=
    match digits with
    | '+' :: ds => ds
    | ds => ds
  if digits.isEmpty then none
  else
    let code ← digitsValue? 16 0 digits
    if code.isValidChar then some (Char.ofNat code) else none

/-- The text up to a character, and what follows that character. -/
def upTo? (stop : Char) (cs : List Char) : Option (Rest (List Char)) :=
  match cs.dropWhile (· != stop) with
  | [] => none
  | _ :: rest => some (cs.takeWhile (· != stop), rest)

def scanHex : List Char → Option (Rest Char)
  | '\x7b' :: cs => do
    let (digits, rest) ← upTo? '\x7d' cs
    return (← codePoint? digits, rest)
  | a :: b :: rest => do return (← codePoint? [a, b], rest)
  | _ => none

def skipProperty : List Char → Option (List Char)
  | '\x7b' :: cs => (upTo? '\x7d' cs).map Prod.snd
  | _ :: rest => some rest
  | [] => none

/-- The characters that an escape stands for, behind its backslash. -/
def scanEscapeSet : List Char → Option (Rest LeadingSet)
  | [] => none
  | c :: cs =>
    match c with
    | 'd' => some (digitSet, cs)
    | 'w' => some (wordSet, cs)
    | 's' => some (blankSet, cs)
    | 'D' => some (digitSet.negated, cs)
    | 'W' => some (wordSet.negated, cs)
    | 'S' => some (blankSet.negated, cs)
    | 'n' => some (LeadingSet.empty.insert '\n', cs)
    | 't' => some (LeadingSet.empty.insert '\t', cs)
    | 'r' => some (LeadingSet.empty.insert '\r', cs)
    | 'f' => some (LeadingSet.empty.insert '\x0c', cs)
    | 'v' => some (LeadingSet.empty.insert '\x0b', cs)
    | 'x' => (scanHex cs).map fun (c, rest) => (LeadingSet.empty.insert c, rest)
    | 'p' => (skipProperty cs).map fun rest => (.all, rest)
    | 'P' => (skipProperty cs).map fun rest => (.all, rest)
    | c => if c.isAlphanum then none else some (LeadingSet.empty.insert c, cs)

/-- An escape outside of a class; conditions on the place match nothing. -/
def scanEscape : List Char → Option (Rest First)
  | [] => none
  | c :: cs =>
    if c = 'b' || c = 'B' || c = 'A' || c = 'z' then some (.epsilon, cs)
    else (scanEscapeSet (c :: cs)).map fun (s, rest) => (.of s, rest)

/-- Escapes that stand for several characters even inside of a class. -/
def isClassLetter (c : Char) : Bool := ['d', 'w', 's', 'D', 'W', 'S', 'p', 'P'].contains c

/-- The one character that an escape stands for, behind its backslash. -/
def scanEscapedChar (cs : List Char) : Option (Rest Char) := do
  let (s, rest) ← scanEscapeSet cs
  return (← s.single?, rest)

/-- Whether a hyphen makes a range with the character before it. -/
def startsRange : List Char → Bool
  | '-' :: ']' :: _ => false
  | '-' :: _ => true
  | _ => false

def scanRange (s : LeadingSet) (first : Char) (rest : List Char) : Option (Rest LeadingSet) :=
  if startsRange rest then
    match rest.drop 1 with
    | [] => none
    | '\\' :: more => do
      let (last, rest) ← scanEscapedChar more
      return (s.insertRange first last, rest)
    | last :: rest => some (s.insertRange first last, rest)
  else some (s.insert first, rest)

/-- The members of a class up to its closing bracket, which stands for itself in the first place. -/
def scanMembers : (fuel : Nat) → (first : Bool) → LeadingSet → List Char → Option (Rest LeadingSet)
  | 0, _, _, _ => none
  | _ + 1, _, _, [] => none
  | fuel + 1, first, s, c :: cs =>
    if c = ']' && !first then some (s, cs)
    else if c = '[' then
      match cs with
      | ':' :: _ => do
        let (_, rest) ← upTo? ']' cs
        scanMembers fuel false .all rest
      | _ => none
    else if (c = '&' || c = '-' || c = '~') && cs.head? == some c then none
    else if c = '\\' then
      match cs with
      | [] => none
      | e :: _ =>
        if isClassLetter e then do
          let (t, rest) ← scanEscapeSet cs
          scanMembers fuel false (s.union t) rest
        else do
          let (c, rest) ← scanEscapedChar cs
          let (s, rest) ← scanRange s c rest
          scanMembers fuel false s rest
    else do
      let (s, rest) ← scanRange s c cs
      scanMembers fuel false s rest

/-- A class behind its opening bracket. -/
def scanClass (cs : List Char) : Option (Rest LeadingSet) :=
  match cs with
  | '^' :: rest => (scanMembers cs.length true .empty rest).map fun (s, rest) => (s.negated, rest)
  | _ => scanMembers (cs.length + 1) true .empty cs

/-- A quantifier takes one more sign that makes it lazy or possessive. -/
def skipMode : List Char → List Char
  | '?' :: cs => cs
  | '+' :: cs => cs
  | cs => cs

/-- Whether a quantifier, if there is one, allows no round at all. -/
def scanQuantifier : List Char → Option (Rest Bool)
  | '*' :: cs => some (true, skipMode cs)
  | '?' :: cs => some (true, skipMode cs)
  | '+' :: cs => some (false, skipMode cs)
  | '\x7b' :: cs => do
    let (_, rest) ← upTo? '\x7d' cs
    let digits := cs.takeWhile (·.isDigit)
    if digits.isEmpty then none
    else
      let least ← digitsValue? 10 0 digits
      return (least == 0, skipMode rest)
  | cs => some (false, cs)

/-- What follows an opening parenthesis up to the branches of the group; options have no answer. -/
def skipGroupHead : List Char → Option (List Char)
  | '?' :: ':' :: cs => some cs
  | '?' :: 'P' :: '<' :: cs => (upTo? '>' cs).map Prod.snd
  | '?' :: '<' :: cs => (upTo? '>' cs).map Prod.snd
  | '?' :: _ => none
  | cs => some cs

mutual

/-- Branches up to the end of the text or a closing parenthesis. -/
def scanBranches : (fuel : Nat) → List Char → Option (Rest First)
  | 0, _ => none
  | fuel + 1, cs => do
    let (first, rest) ← scanBranch fuel .epsilon cs
    match rest with
    | '|' :: rest => do
      let (others, rest) ← scanBranches fuel rest
      return (first.either others, rest)
    | _ => return (first, rest)

/-- The rest of a branch, where `before` is what it starts with. -/
def scanBranch : (fuel : Nat) → First → List Char → Option (Rest First)
  | 0, _, _ => none
  | _ + 1, before, [] => some (before, [])
  | fuel + 1, before, c :: cs =>
    if c = '|' || c = ')' then some (before, c :: cs)
    else do
      let (atom, rest) ← scanAtom fuel c cs
      let (zero, rest) ← scanQuantifier rest
      let piece := if zero then { atom with nullable := true } else atom
      scanBranch fuel (before.followedBy piece) rest

def scanAtom : (fuel : Nat) → Char → List Char → Option (Rest First)
  | 0, _, _ => none
  | fuel + 1, c, cs =>
    match c with
    | '(' => do
      let (inner, rest) ← scanBranches fuel (← skipGroupHead cs)
      match rest with
      | ')' :: rest => return (inner, rest)
      | _ => none
    | '[' => (scanClass cs).map fun (s, rest) => (.of s, rest)
    | '\\' => scanEscape cs
    | '.' => some (.of dotSet, cs)
    | '^' => some (.epsilon, cs)
    | '$' => some (.epsilon, cs)
    | '*' => none
    | '+' => none
    | '?' => none
    | '\x7b' => none
    | c => some (.of (LeadingSet.empty.insert c), cs)

end

/-- The leading characters of the pattern with the given source, where they can be told. -/
def ofPattern? (source : List Char) : Option LeadingSet :=
  match scanBranches (3 * source.length + 3) source with
  | some (first, []) => some first.set
  | _ => none

end PredictiveParsing.Leading
