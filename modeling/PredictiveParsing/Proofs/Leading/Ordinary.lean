import PredictiveParsing.Leading.Pattern
import PredictiveParsing.Proofs.Leading.Patterns

/-!
# Ordinary patterns

Patterns of characters, classes, groups, quantifiers and branches, as they are written, with the
expressions in them that a match can begin with.
-/

namespace PredictiveParsing.Leading

/-! ## Characters and classes -/

/-- A character that is written on its own where it has no special meaning, or behind a
backslash. -/
structure Written (special : List Char) where
  char : Char
  escaped : Bool
  ok : if escaped then Regex.isEscapable char = true else char ∉ special

def Written.text {special : List Char} (x : Written special) : List Char :=
  if x.escaped then ['\\', x.char] else [x.char]

def classMarks : List Char := ['\\', '[', ']', '^', '-', '&', '~']

/-- A member of a class. -/
inductive Member where
  | single (x : Written classMarks)
  | range (first last : Written classMarks) (ascending : first.char ≤ last.char)

namespace Member

def text : Member → List Char
  | single x => x.text
  | range first last _ => first.text ++ '-' :: last.text

def contains : Member → Char → Bool
  | single x, c => c == x.char
  | range first last _, c => first.char ≤ c && c ≤ last.char

/-- The greatest character of a member. -/
def last : Member → Char
  | single x => x.char
  | range _ last _ => last.char

end Member

/-- What the letter of an escape stands for, in lower case. -/
inductive Kind where
  | digit | word | blank

namespace Kind

def letter : Kind → (negated : Bool) → Char
  | digit, false => 'd'
  | digit, true => 'D'
  | word, false => 'w'
  | word, true => 'W'
  | blank, false => 's'
  | blank, true => 'S'

def holds : Kind → Char → Bool
  | digit, c => Unicode.isDecimalDigit c
  | word, c => Unicode.isWordCharacter c
  | blank, c => Unicode.isBlank c

end Kind

/-- An expression for one character. -/
inductive Leaf where
  | literal (x : Written marks)
  | dot
  | kind (k : Kind) (negated : Bool)
  | members (negated : Bool) (first : Member) (others : List Member)

namespace Leaf

def text : Leaf → List Char
  | literal x => x.text
  | dot => ['.']
  | kind k negated => ['\\', k.letter negated]
  | members negated first others =>
    '[' :: (if negated then ['^'] else []) ++ (first :: others).flatMap Member.text ++ [']']

def contains : Leaf → Char → Bool
  | literal x, c => c == x.char
  | dot, c => c != '\n'
  | kind k negated, c => k.holds c != negated
  | members negated first others, c => ((first :: others).any (·.contains c)) != negated

/-- Whether the expression is for a character beyond ASCII, or may be for one. -/
def reachesBeyond : Leaf → Bool
  | literal x => !Unicode.isAscii x.char
  | dot => true
  | kind _ _ => true
  | members negated first others =>
    negated || (first :: others).any fun m => !Unicode.isAscii m.last

end Leaf

/-! ## Quantifiers -/

abbrev Count := Fin 0x100000000

def Count.text (n : Count) : List Char := Nat.toDigits 10 n

inductive Quantifier where
  | star | plus | optional
  | exactly (n : Count)
  | atLeast (n : Count)
  | between (least most : Count)
deriving DecidableEq

namespace Quantifier

def text : Quantifier → List Char
  | star => ['*']
  | plus => ['+']
  | optional => ['?']
  | exactly n => '\x7b' :: n.text ++ ['\x7d']
  | atLeast n => '\x7b' :: n.text ++ [',', '\x7d']
  | between n m => '\x7b' :: n.text ++ ',' :: m.text ++ ['\x7d']

/-- Whether no round at all is enough. -/
def allowsNone : Quantifier → Bool
  | star => true
  | plus => false
  | optional => true
  | exactly n => n.val == 0
  | atLeast n => n.val == 0
  | between n _ => n.val == 0

end Quantifier

/-- A quantifier and whether a question mark behind it makes it lazy. -/
structure Mark where
  quantifier : Quantifier
  isLazy : Bool
deriving DecidableEq

def Mark.text (m : Mark) : List Char :=
  m.quantifier.text ++ if m.isLazy then ['?'] else []

/-- Behind a quantifier that is not lazy a question mark is none on its own. -/
def Mark.MayPrecede (m next : Mark) : Prop := m.isLazy = true ∨ next.quantifier ≠ .optional

/-- No quantifier directly behind another one, but for a plus sign behind one that is not lazy. -/
def plainlyMarked : List Mark → Bool
  | [] => true
  | [_] => true
  | [m, next] => !m.isLazy && next == ⟨.plus, false⟩
  | _ => false

/-! ## Patterns -/

inductive GroupHead where
  | plain
  | unnamed
  | named (withLetter : Bool) (name : List Char) (closes : '>' ∉ name)

def GroupHead.text : GroupHead → List Char
  | plain => []
  | unnamed => ['?', ':']
  | named withLetter name _ => '?' :: (if withLetter then ['P'] else []) ++ '<' :: name ++ ['>']

inductive Level where
  | atom | branch | branches

/-- Atoms; branches, which are atoms with their quantifiers one after the other; and one branch or
more, with bars in between. -/
inductive Ordinary : Level → Type where
  | leaf (x : Leaf) : Ordinary .atom
  | group (head : GroupHead) (inner : Ordinary .branches) : Ordinary .atom
  | empty : Ordinary .branch
  | marked (a : Ordinary .atom) (ms : List Mark) (apart : ms.IsChain Mark.MayPrecede)
      (rest : Ordinary .branch) : Ordinary .branch
  | last (b : Ordinary .branch) : Ordinary .branches
  | or (b : Ordinary .branch) (others : Ordinary .branches) : Ordinary .branches

namespace Ordinary

def text : {l : Level} → Ordinary l → List Char
  | _, leaf x => x.text
  | _, group head inner => '(' :: head.text ++ inner.text ++ [')']
  | _, empty => []
  | _, marked a ms _ rest => a.text ++ ms.flatMap Mark.text ++ rest.text
  | _, last b => b.text
  | _, or b others => b.text ++ '|' :: others.text

/-- Whether the structure of the pattern lets it match nothing. -/
def nullable : {l : Level} → Ordinary l → Bool
  | _, leaf _ => false
  | _, group _ inner => inner.nullable
  | _, empty => true
  | _, marked a ms _ rest => (a.nullable || ms.any (·.quantifier.allowsNone)) && rest.nullable
  | _, last b => b.nullable
  | _, or b others => b.nullable || others.nullable

/-- The expression is one that the pattern can begin with: some branch has it behind nothing but
parts that can match nothing. -/
def Leads (x : Leaf) : {l : Level} → Ordinary l → Prop
  | _, leaf y => x = y
  | _, group _ inner => inner.Leads x
  | _, empty => False
  | _, marked a ms _ rest =>
    a.Leads x ∨ ((a.nullable || ms.any (·.quantifier.allowsNone)) = true ∧ rest.Leads x)
  | _, last b => b.Leads x
  | _, or b others => b.Leads x ∨ others.Leads x

/-- No atom has quantifiers that the scan of a pattern does not know. -/
def Settled : {l : Level} → Ordinary l → Prop
  | _, leaf _ => True
  | _, group _ inner => inner.Settled
  | _, empty => True
  | _, marked a ms _ rest => a.Settled ∧ plainlyMarked ms = true ∧ rest.Settled
  | _, last b => b.Settled
  | _, or b others => b.Settled ∧ others.Settled

end Ordinary

end PredictiveParsing.Leading
