import PredictiveParsing.Regex.Syntax
import PredictiveParsing.Text.Position

/-!
# Reading regular expressions

A pattern is read from left to right; the groups that are open are kept on a stack. Letters in front
of a group's colon, or on their own in parentheses, switch options on and off up to the end of the
group around them. What is read is the syntax of one dialect.
-/

namespace PredictiveParsing.Regex

variable [Dialect]

inductive PatternError where
  | unclosedGroup
  | unopenedGroup
  | badGroupName
  | lookAround
  | badOption
  | nothingToRepeat
  | badCount
  | badEscape
  | unknownProperty
  | unclosedClass
  | badRange
  | tooDeep
  | tooLarge
deriving DecidableEq

structure Options where
  ignoreCase : Bool
  multiLine : Bool
  dotAll : Bool
  swapGreed : Bool
  returns : Bool
  verbose : Bool
  unicode : Bool

def Options.none : Options := ⟨false, false, false, false, false, false, true⟩

/-- The class with all that is in it up to case, where case is to be ignored. -/
def Options.fold (o : Options) (s : CharClass) : CharClass :=
  if o.ignoreCase then (if o.unicode then .folded s else .asciiFolded s) else s

/-- The characters with a property, which are ASCII characters without Unicode. -/
def Options.property (o : Options) (p : Property) : CharClass :=
  if o.unicode then .property p else .intersection (.property p) (.range '\x00' '\x7f')

/-- Drops white space, and comments from a number sign to the end of its line. -/
def skipVerbose : (inComment : Bool) → List Char → List Char
  | _, [] => []
  | true, c :: cs => skipVerbose (c != '\n') cs
  | false, c :: cs =>
    if Unicode.isBlank c then skipVerbose false cs
    else if c = '#' then skipVerbose true cs
    else c :: cs

/-- Where white space means nothing, the text without it at its start. -/
def skip (o : Options) (cs : List Char) : List Char :=
  if o.verbose then skipVerbose false cs else cs

/-! ## Escapes -/

/-- What an escape stands for. -/
inductive Escape where
  | literal (c : Char)
  | class (s : CharClass)
  | look (l : Look)

def metaCharacters : List Char :=
  ['\\', '.', '+', '*', '?', '(', ')', '|', '[', ']', '\x7b', '\x7d', '^', '$', '#', '&', '-', '~']

/-- Whether a backslash in front of the character only takes its meaning away. -/
def isEscapable (c : Char) : Bool :=
  metaCharacters.contains c
    || (Unicode.isAscii c && !c.isAlphanum && c != '<' && c != '>')

def hexValue? (c : Char) : Option Nat :=
  if c.isDigit then some (c.toNat - '0'.toNat)
  else if 'a' ≤ c && c ≤ 'f' then some (c.toNat - 'a'.toNat + 10)
  else if 'A' ≤ c && c ≤ 'F' then some (c.toNat - 'A'.toNat + 10)
  else none

/-- The character with a code point, which is no half of a surrogate pair. -/
def charOfCode? (code : Nat) : Option Char :=
  if code.isValidChar then some (Char.ofNat code) else none

def readHexDigits (o : Options) (value : Nat) : Nat → List Char → Except PatternError (Rest Char)
  | 0, cs =>
    match charOfCode? value with
    | some c => .ok (c, cs)
    | none => .error .badEscape
  | _ + 1, [] => .error .badEscape
  | n + 1, c :: cs =>
    match hexValue? c with
    | some d => readHexDigits o (value * 16 + d) n (skip o cs)
    | none => .error .badEscape

def readBracedHex (o : Options) (value digits : Nat) :
    (fuel : Nat) → List Char → Except PatternError (Rest Char)
  | 0, _ => .error .badEscape
  | _ + 1, [] => .error .badEscape
  | fuel + 1, c :: cs =>
    if c = '\x7d' then
      if digits = 0 then .error .badEscape
      else
        match charOfCode? value with
        | some c => .ok (c, skip o cs)
        | none => .error .badEscape
    else
      match hexValue? c with
      | some d => readBracedHex o (value * 16 + d) (digits + 1) fuel (skip o cs)
      | none => .error .badEscape

def readHex (o : Options) (digits : Nat) (cs : List Char) : Except PatternError (Rest Char) :=
  match skip o cs with
  | [] => .error .badEscape
  | '\x7b' :: rest => readBracedHex o 0 0 rest.length (skip o rest)
  | rest => readHexDigits o 0 digits rest

/-- The name with an equals sign for the first sign of inequality, and whether there is one. -/
def withoutInequality : List Char → List Char × Bool
  | [] => ([], false)
  | '!' :: '=' :: cs => ('=' :: cs, true)
  | c :: cs => let (cs, unequal) := withoutInequality cs; (c :: cs, unequal)

/-- The class of the property with a name, which there is with Unicode only. -/
def Options.propertyClass? (o : Options) (negated : Bool) (name : List Char) : Option CharClass :=
  let (name, unequal) := withoutInequality name
  if o.unicode && (Dialect.property? name).isSome then
    some (.negatedIf (negated != unequal) (o.fold (.property (.named name))))
  else .none

/-- The text up to a closing brace, and what follows the brace. -/
def readBraced (o : Options) (name : List Char) :
    (fuel : Nat) → List Char → Except PatternError (Rest (List Char))
  | 0, _ => .error .badEscape
  | _ + 1, [] => .error .badEscape
  | fuel + 1, c :: cs =>
    if c = '\x7d' then .ok (name.reverse, cs) else readBraced o (c :: name) fuel (skip o cs)

def readProperty (o : Options) (negated : Bool) (cs : List Char) :
    Except PatternError (Rest CharClass) := do
  let (name, rest) ←
    match skip o cs with
    | [] => .error .badEscape
    | '\x7b' :: rest => readBraced o [] rest.length (skip o rest)
    | '\\' :: _ => .error .unknownProperty
    | c :: rest => .ok ([c], skip o rest)
  match o.propertyClass? negated name with
  | none => .error .unknownProperty
  | some s => .ok (s, rest)

def wordBoundaryNames : List (String × WordPlace) :=
  [("start", .start), ("end", .stop), ("start-half", .startHalf), ("end-half", .stopHalf)]

def isBoundaryLetter (c : Char) : Bool := c.isAlpha || c == '-'

/-- A word boundary may name its kind in braces; braces with anything but a letter or a hyphen first
are a count. -/
def readBoundary (o : Options) (cs : List Char) : Except PatternError (Rest Look) :=
  match cs with
  | '\x7b' :: rest =>
    match skip o rest with
    | [] => .error .badEscape
    | c :: more =>
      if isBoundaryLetter c then
        let name := (c :: more).takeWhile isBoundaryLetter
        match (c :: more).dropWhile isBoundaryLetter with
        | '\x7d' :: after =>
          match wordBoundaryNames.lookup (String.ofList name) with
          | some place => .ok (.word o.unicode place, after)
          | none => .error .badEscape
        | _ => .error .badEscape
      else .ok (.word o.unicode .boundary, cs)
  | _ => .ok (.word o.unicode .boundary, cs)

def specialEscapes (o : Options) : List (Char × Escape) :=
  [('a', .literal '\x07'), ('f', .literal '\x0c'), ('t', .literal '\t'), ('n', .literal '\n'),
    ('r', .literal '\r'), ('v', .literal '\x0b'), ('A', .look .textStart), ('z', .look .textEnd),
    ('B', .look (.word o.unicode .notBoundary)), ('<', .look (.word o.unicode .start)),
    ('>', .look (.word o.unicode .stop)),
    ('d', .class (o.property .digit)), ('D', .class (.complement (o.property .digit))),
    ('s', .class (o.property .blank)), ('S', .class (.complement (o.property .blank))),
    ('w', .class (o.property .word)), ('W', .class (.complement (o.property .word)))]

def readEscape (o : Options) : List Char → Except PatternError (Rest Escape)
  | [] => .error .badEscape
  | c :: cs =>
    if c = 'x' then (readHex o 2 cs).map fun (c, rest) => (.literal c, rest)
    else if c = 'u' then (readHex o 4 cs).map fun (c, rest) => (.literal c, rest)
    else if c = 'U' then (readHex o 8 cs).map fun (c, rest) => (.literal c, rest)
    else if c = 'p' then (readProperty o false cs).map fun (s, rest) => (.class s, rest)
    else if c = 'P' then (readProperty o true cs).map fun (s, rest) => (.class s, rest)
    else if c = 'b' then (readBoundary o cs).map fun (l, rest) => (.look l, rest)
    else if isEscapable c then .ok (.literal c, cs)
    else
      match (specialEscapes o).lookup c with
      | some e => .ok (e, cs)
      | none => .error .badEscape

/-! ## Classes -/

inductive ClassOperation where
  | intersection | difference | symmetricDifference

def ClassOperation.apply : ClassOperation → CharClass → CharClass → CharClass
  | intersection => .intersection
  | difference => .difference
  | symmetricDifference => .symmetricDifference

def asciiClasses : List (String × List (Char × Char)) :=
  [("alnum", [('0', '9'), ('A', 'Z'), ('a', 'z')]), ("alpha", [('A', 'Z'), ('a', 'z')]),
    ("ascii", [('\x00', '\x7f')]), ("blank", [('\t', '\t'), (' ', ' ')]),
    ("cntrl", [('\x00', '\x1f'), ('\x7f', '\x7f')]), ("digit", [('0', '9')]),
    ("graph", [('!', '~')]), ("lower", [('a', 'z')]), ("print", [(' ', '~')]),
    ("punct", [('!', '/'), (':', '@'), ('[', '\x60'), ('\x7b', '~')]),
    ("space", [('\t', '\r'), (' ', ' ')]), ("upper", [('A', 'Z')]),
    ("word", [('0', '9'), ('A', 'Z'), ('_', '_'), ('a', 'z')]),
    ("xdigit", [('0', '9'), ('A', 'F'), ('a', 'f')])]

/-- A named class such as `[:alpha:]`, behind its first bracket; `none` where there is none. -/
def asciiClass? (o : Options) : List Char → Option (CharClass × List Char)
  | ':' :: cs =>
    let (negated, cs) :=
      match cs with
      | '^' :: rest => (true, rest)
      | _ => (false, cs)
    let name := String.ofList (cs.takeWhile (· != ':'))
    match cs.dropWhile (· != ':'), asciiClasses.lookup name with
    | ':' :: ']' :: rest, some ranges =>
      some (.negatedIf negated (o.fold (.ofRanges ranges)), rest)
    | _, _ => none
  | _ => none

def readMember (o : Options) : List Char → Except PatternError (Rest Escape)
  | [] => .error .unclosedClass
  | '\\' :: cs => readEscape o cs
  | c :: cs => .ok (.literal c, cs)

/-- Whether a hyphen behind a member starts a range: not before a bracket or another hyphen. -/
def startsRange (o : Options) : List Char → Bool
  | '-' :: cs =>
    match skip o cs with
    | ']' :: _ => false
    | '-' :: _ => false
    | _ => true
  | _ => false

def readRange (o : Options) (cs : List Char) : Except PatternError (Rest CharClass) := do
  let (first, rest) ← readMember o cs
  let rest := skip o rest
  if rest.isEmpty then .error .unclosedClass
  else if startsRange o rest then
    let rest := skip o (rest.drop 1)
    if rest.isEmpty then .error .unclosedClass
    else
      let (last, rest) ← readMember o rest
      match first, last with
      | .literal a, .literal b => if a ≤ b then .ok (.range a b, rest) else .error .badRange
      | _, _ => .error .badRange
  else
    match first with
    | .literal c => .ok (.single c, rest)
    | .class s => .ok (s, rest)
    | .look _ => .error .badEscape

/-- The hyphens, or the bracket, that stand for themselves at the start of a class. -/
def readOpening (o : Options) (members : CharClass) :
    (fuel : Nat) → List Char → CharClass × List Char
  | 0, cs => (members, cs)
  | fuel + 1, cs =>
    match cs with
    | '-' :: rest => readOpening o (.union members (.single '-')) fuel (skip o rest)
    | ']' :: rest =>
      if members = .empty then (.single ']', skip o rest) else (members, cs)
    | _ => (members, cs)

/-- The operand on the left, if any, with the members read since. -/
def combine (o : Options) (left : Option (ClassOperation × CharClass)) (members : CharClass) :
    CharClass :=
  match left with
  | none => members
  | some (op, a) => op.apply (o.fold a) (o.fold members)

mutual

/-- A class behind its opening bracket, with how deep classes nest in it. -/
def readClass (o : Options) :
    (fuel : Nat) → List Char → Except PatternError (Rest (CharClass × Nat))
  | 0, _ => .error .unclosedClass
  | fuel + 1, cs => do
    let cs := skip o cs
    let (negated, cs) :=
      match cs with
      | '^' :: rest => (true, skip o rest)
      | _ => (false, cs)
    let (members, cs) := readOpening o .empty cs.length cs
    let ((s, depth), rest) ← readMembers o fuel none members 0 cs
    .ok ((.negatedIf negated (o.fold s), depth + 1), rest)

/-- The rest of a class: members, classes within it and operations, up to its bracket. -/
def readMembers (o : Options) :
    (fuel : Nat) → Option (ClassOperation × CharClass) → CharClass → Nat → List Char →
      Except PatternError (Rest (CharClass × Nat))
  | 0, _, _, _, _ => .error .unclosedClass
  | fuel + 1, left, members, depth, cs =>
    match skip o cs with
    | [] => .error .unclosedClass
    | ']' :: rest => .ok ((combine o left members, depth), rest)
    | '[' :: rest =>
      match asciiClass? o rest with
      | some (s, rest) => readMembers o fuel left (.union members s) depth rest
      | none => do
        let ((s, inner), rest) ← readClass o fuel rest
        readMembers o fuel left (.union members s) (max depth inner) rest
    | '&' :: '&' :: rest =>
      readMembers o fuel (some (.intersection, combine o left members)) .empty depth rest
    | '-' :: '-' :: rest =>
      readMembers o fuel (some (.difference, combine o left members)) .empty depth rest
    | '~' :: '~' :: rest =>
      readMembers o fuel (some (.symmetricDifference, combine o left members)) .empty depth rest
    | cs => do
      let (s, rest) ← readRange o cs
      readMembers o fuel left (.union members s) depth rest

end

/-! ## Counts, options and group names -/

def dropBlank (cs : List Char) : List Char := cs.dropWhile Unicode.isBlank

/-- The digits at the start of a text, between which a verbose pattern may have blanks. -/
def readDigits (o : Options) (value digits : Nat) : (fuel : Nat) → List Char → Nat × Nat × List Char
  | 0, cs => (value, digits, cs)
  | _ + 1, [] => (value, digits, [])
  | fuel + 1, c :: cs =>
    if c.isDigit then
      readDigits o (value * 10 + (c.toNat - '0'.toNat)) (digits + 1) fuel (skip o cs)
    else (value, digits, c :: cs)

/-- A number of rounds below `2 ^ 32`; `none` where there is no digit. -/
def readCount (o : Options) (cs : List Char) : Except PatternError (Rest (Option Nat)) :=
  let (value, digits, rest) := readDigits o 0 0 cs.length (dropBlank cs)
  let rest := dropBlank rest
  if digits = 0 then .ok (none, rest)
  else if value < 0x100000000 then .ok (some value, rest)
  else .error .badCount

/-- The bounds of a counted repetition, behind its opening brace and up to its closing one. -/
def readBounds (o : Options) (cs : List Char) : Except PatternError (Rest (Nat × Option Nat)) := do
  let cs := skip o cs
  if cs.isEmpty then .error .badCount
  else
    let (least, rest) ← readCount o cs
    let ((bounds : Option (Nat × Option Nat)), rest) ←
      match rest with
      | ',' :: rest =>
        match skip o rest with
        | '\x7d' :: more => .ok (least.map fun n => (n, none), '\x7d' :: more)
        | rest => do
          let (most, rest) ← readCount o rest
          match least, most with
          | some n, some m => .ok (some (n, some m), rest)
          | _, _ => .error .badCount
      | rest => .ok (least.map fun n => (n, some n), rest)
    match bounds, rest with
    | some (n, m), '\x7d' :: rest =>
      if m.all (n ≤ ·) then .ok ((n, m), skip o rest) else .error .badCount
    | _, _ => .error .badCount

/-- The letters in front of a group's colon or parenthesis, as they are written. -/
def readOptionLetters (letters : List Char) : List Char → Except PatternError (Rest (List Char))
  | [] => .error .badOption
  | c :: cs =>
    if c = ':' || c = ')' then .ok (letters.reverse, c :: cs)
    else readOptionLetters (c :: letters) cs

/-- Whether a list of option letters is well formed: no letter twice, at most one hyphen, and that
not at the end. -/
def optionLettersOk (letters : List Char) : Bool :=
  letters.Nodup && letters.all (fun c => "imsURux-".toList.contains c)
    && letters.getLast? != some '-'

def Options.set (o : Options) (on : Bool) : Char → Options
  | 'i' => { o with ignoreCase := on }
  | 'm' => { o with multiLine := on }
  | 's' => { o with dotAll := on }
  | 'U' => { o with swapGreed := on }
  | 'R' => { o with returns := on }
  | 'x' => { o with verbose := on }
  | 'u' => { o with unicode := on }
  | _ => o

/-- Letters in front of the hyphen switch on, letters behind it switch off. -/
def Options.change (o : Options) (letters : List Char) : Options :=
  let on := letters.takeWhile (· != '-')
  let off := (letters.dropWhile (· != '-')).drop 1
  off.foldl (fun o c => o.set false c) (on.foldl (fun o c => o.set true c) o)

def isNameStart (c : Char) : Bool := c == '_' || Dialect.isAlphabetic c

def isNamePart (c : Char) : Bool :=
  Dialect.isAlphanumeric c || ['_', '.', '[', ']'].contains c

def readGroupName (cs : List Char) : Except PatternError (Rest (List Char)) :=
  match cs.dropWhile (· != '>') with
  | [] => .error .badGroupName
  | _ :: rest =>
    let name := cs.takeWhile (· != '>')
    match name with
    | [] => .error .badGroupName
    | c :: more =>
      if isNameStart c && more.all isNamePart then .ok (name, rest) else .error .badGroupName

/-! ## Expressions -/

def exceeds (limit : Option Nat) (n : Nat) : Bool := limit.any fun most => most < n

/-- An expression that has been read, with its depth and its size; a change of options is one on
which no repetition can act. -/
structure Piece where
  regex : Regex
  depth : Nat
  size : Nat
  repeatable : Bool

/-- A group that is open: its branches, the pieces of the branch at hand, both reversed, and the
options outside of it. -/
structure Opened where
  branches : List Piece
  pieces : List Piece
  outside : Options

structure Reading where
  rest : List Char
  options : Options
  branches : List Piece
  pieces : List Piece
  opened : List Opened
  names : List (List Char)

private def maxDepth (ps : List Piece) : Nat := ps.foldl (fun d p => max d p.depth) 0

private def totalSize (ps : List Piece) : Nat := ps.foldl (fun n p => n + p.size) 1

def Piece.sequence (reversed : List Piece) : Piece :=
  match reversed with
  | [p] => { p with repeatable := true }
  | ps => {
    regex := ps.foldl (fun r p => p.regex.andThen r) .empty
    depth := if ps.isEmpty then 0 else maxDepth ps + 1
    size := totalSize ps
    repeatable := true }

/-- Branches, the first of which is preferred. -/
def Piece.alternatives (last : Piece) (reversed : List Piece) : Piece :=
  match reversed with
  | [] => last
  | ps => {
    regex := ps.foldl (fun r p => .alt p.regex r) last.regex
    depth := maxDepth (last :: ps) + 1
    size := totalSize (last :: ps)
    repeatable := true }

def Reading.close (r : Reading) : Piece := Piece.alternatives (Piece.sequence r.pieces) r.branches

def Reading.push (r : Reading) (p : Piece) (rest : List Char) : Reading :=
  { r with rest := rest, pieces := p :: r.pieces }

def Reading.pushRegex (r : Reading) (x : Regex) (rest : List Char) : Reading :=
  r.push ⟨x, 0, 1, true⟩ rest

/-- Replaces the last piece by its repetition. -/
def Reading.repeatLast (r : Reading) (greedy : Bool) (least : Nat) (most : Option Nat)
    (rest : List Char) : Except PatternError Reading :=
  match r.pieces with
  | [] => .error .nothingToRepeat
  | p :: ps =>
    let size := p.size * max 1 (most.getD (least + 1))
    if !p.repeatable then .error .nothingToRepeat
    else if exceeds Dialect.sizeLimit size then .error .tooLarge
    else
      let greedy := greedy != r.options.swapGreed
      .ok { r with
        rest := rest
        pieces := ⟨p.regex.repeated greedy least most, p.depth + 1, size, true⟩ :: ps }

/-- A question mark behind a repetition makes it lazy. -/
def readGreed : List Char → Bool × List Char
  | '?' :: cs => (false, cs)
  | cs => (true, cs)

def Reading.openGroup (r : Reading) (inside : Options) (rest : List Char) : Reading :=
  { r with
    rest := rest
    options := inside
    branches := []
    pieces := []
    opened := ⟨r.branches, r.pieces, r.options⟩ :: r.opened }

def Reading.openNamed (r : Reading) (cs : List Char) : Except PatternError Reading := do
  let (name, rest) ← readGroupName cs
  if r.names.contains name then .error .badGroupName
  else .ok ({ r with names := name :: r.names }.openGroup r.options rest)

def Reading.readGroup (r : Reading) (cs : List Char) : Except PatternError Reading :=
  match skip r.options cs with
  | '?' :: '=' :: _ => .error .lookAround
  | '?' :: '!' :: _ => .error .lookAround
  | '?' :: '<' :: '=' :: _ => .error .lookAround
  | '?' :: '<' :: '!' :: _ => .error .lookAround
  | '?' :: 'P' :: '<' :: rest => r.openNamed rest
  | '?' :: '<' :: rest => r.openNamed rest
  | '?' :: rest => do
    let (letters, rest) ← readOptionLetters [] rest
    if !optionLettersOk letters then .error .badOption
    else
      let inside := r.options.change letters
      match rest with
      | ')' :: rest =>
        if letters.isEmpty then .error .nothingToRepeat
        else .ok ({ r with options := inside }.push ⟨.empty, 0, 0, false⟩ rest)
      | _ => .ok (r.openGroup inside (rest.drop 1))
  | rest => .ok (r.openGroup r.options rest)

def Reading.closeGroup (r : Reading) (rest : List Char) : Except PatternError Reading :=
  match r.opened with
  | [] => .error .unopenedGroup
  | o :: opened =>
    let p := r.close
    let group : Piece := { p with depth := p.depth + 1 }
    .ok {
      rest := rest
      options := o.outside
      branches := o.branches
      pieces := group :: o.pieces
      opened := opened
      names := r.names }

def literalRegex (o : Options) (c : Char) : Regex :=
  .chars (o.fold (.single c))

def dotRegex (o : Options) : Regex :=
  if o.dotAll then .chars (.property .any)
  else if o.returns then .chars (.complement (.union (.single '\r') (.single '\n')))
  else .chars (.complement (.single '\n'))

def startRegex (o : Options) : Regex :=
  .look (if !o.multiLine then .textStart else if o.returns then .lineStartReturn else .lineStart)

def endRegex (o : Options) : Regex :=
  .look (if !o.multiLine then .textEnd else if o.returns then .lineEndReturn else .lineEnd)

/-- Reads one character of the pattern, or the construct that starts with it. -/
def Reading.step (r : Reading) (c : Char) (cs : List Char) : Except PatternError Reading :=
  match c with
  | '(' => r.readGroup cs
  | ')' => r.closeGroup cs
  | '|' =>
    .ok { r with rest := cs, branches := Piece.sequence r.pieces :: r.branches, pieces := [] }
  | '[' => do
    let ((s, depth), rest) ← readClass r.options (2 * cs.length + 2) cs
    .ok (r.push ⟨.chars s, depth, 1, true⟩ rest)
  | '?' => let (greedy, rest) := readGreed cs; r.repeatLast greedy 0 (some 1) rest
  | '*' => let (greedy, rest) := readGreed cs; r.repeatLast greedy 0 none rest
  | '+' => let (greedy, rest) := readGreed cs; r.repeatLast greedy 1 none rest
  | '\x7b' =>
    if r.pieces.head?.any (·.repeatable) then do
      let ((least, most), rest) ← readBounds r.options cs
      let (greedy, rest) := readGreed rest
      r.repeatLast greedy least most rest
    else .error .nothingToRepeat
  | '\\' => do
    let (e, rest) ← readEscape r.options cs
    match e with
    | .literal c => .ok (r.pushRegex (literalRegex r.options c) rest)
    | .class s => .ok (r.pushRegex (.chars s) rest)
    | .look l => .ok (r.pushRegex (.look l) rest)
  | '.' => .ok (r.pushRegex (dotRegex r.options) cs)
  | '^' => .ok (r.pushRegex (startRegex r.options) cs)
  | '$' => .ok (r.pushRegex (endRegex r.options) cs)
  | c => .ok (r.pushRegex (literalRegex r.options c) cs)

/-- Reads to the end of the pattern; every step leaves less of it. -/
def Reading.run : (fuel : Nat) → Reading → Except PatternError Piece
  | fuel, r =>
    match skip r.options r.rest with
    | [] => if r.opened.isEmpty then .ok r.close else .error .unclosedGroup
    | c :: cs =>
      match fuel with
      | 0 => .error .unclosedGroup
      | fuel + 1 => do (← r.step c cs).run fuel

/-- The expression that a pattern stands for. -/
def read (source : List Char) : Except PatternError Regex := do
  let p ← Reading.run source.length ⟨source, Options.none, [], [], [], []⟩
  if exceeds Dialect.depthLimit p.depth then .error .tooDeep
  else if exceeds Dialect.sizeLimit p.size then .error .tooLarge
  else .ok p.regex

end PredictiveParsing.Regex
