import PredictiveParsing.Text.Position

/-!
# Settings documents

A settings document gives values to dotted keys, alone or under the header of a table. Each key can
be given a value once and each table can be opened once; a table that is written on one line, or
whose keys are given with dots, cannot be opened again.
-/

namespace PredictiveParsing.Settings

/-- How a table came about: as a step on the way to another, under a header of its own, or by a dot
in a key. -/
inductive Origin where
  | passing | header | dotted
deriving DecidableEq

inductive Value where
  | string (s : String)
  | integer (n : Int)
  | float
  | boolean (b : Bool)
  | date
  | array (items : List Value)
  | inline (members : List (String × Value))
  | table (origin : Origin) (members : List (String × Value))
  /-- The tables under headers in double brackets, the last one first. -/
  | tables (items : List (List (String × Value)))
deriving Inhabited

abbrev Members := List (String × Value)

def Members.replace (ms : Members) (key : String) (v : Value) : Members :=
  if (ms.lookup key).isSome then ms.map fun (k, w) => if k = key then (k, v) else (k, w)
  else ms ++ [(key, v)]

/-- Changes the members at the end of a path, where tables that are missing are created. A dotted
key goes through no table that has a header. -/
def Members.within (dotted : Bool) (change : Members → Option Members) :
    List String → Members → Option Members
  | [], ms => change ms
  | key :: path, ms => do
    let v ←
      match ms.lookup key with
      | none => do
        let inner ← within dotted change path []
        pure (.table (if dotted then .dotted else .passing) inner)
      | some (.table origin inner) =>
        if dotted && origin == .header then none
        else pure (.table origin (← within dotted change path inner))
      | some (.tables (inner :: others)) => do
        pure (.tables ((← within dotted change path inner) :: others))
      | some _ => none
    return ms.replace key v

def Members.add (key : String) (v : Value) (ms : Members) : Option Members :=
  if (ms.lookup key).isSome then none else some (ms ++ [(key, v)])

/-- Gives a value to a key with dots. The table that it goes into has been made by dots; those
before it have no header. -/
def Members.assign (v : Value) : List String → Members → Option Members
  | [], _ => none
  | [key], ms => ms.add key v
  | key :: path, ms => do
    let v ←
      match ms.lookup key with
      | none => pure (.table .dotted (← Members.assign v path []))
      | some (.table .dotted inner) => pure (.table .dotted (← Members.assign v path inner))
      | some (.table .passing inner) =>
        if path.length = 1 then none else pure (.table .passing (← Members.assign v path inner))
      | some _ => none
    return ms.replace key v

def Members.openTable (key : String) (ms : Members) : Option Members :=
  match ms.lookup key with
  | none => some (ms ++ [(key, .table .header [])])
  | some (.table .passing inner) => some (ms.replace key (.table .header inner))
  | some _ => none

/-- Opens one more table of several with one header. -/
def Members.openNext (key : String) (ms : Members) : Option Members :=
  match ms.lookup key with
  | none => some (ms ++ [(key, .tables [[]])])
  | some (.tables items) => some (ms.replace key (.tables ([] :: items)))
  | some _ => none

/-! ## Characters -/

def isBareKeyChar (c : Char) : Bool := c.isAlphanum || c == '_' || c == '-'

def isControl (c : Char) : Bool := (c.toNat < 32 && c != '\t') || c.toNat == 127

def dropSpaces (cs : List Char) : List Char := cs.dropWhile fun c => c == ' ' || c == '\t'

/-- The text behind a line break, if the text starts with one. -/
def afterNewline? : List Char → Option (List Char)
  | '\n' :: cs => some cs
  | '\r' :: '\n' :: cs => some cs
  | _ => none

/-- The text behind a comment, if the text starts with one, which holds no controls. -/
def dropComment (cs : List Char) : Option (List Char) :=
  match cs with
  | '#' :: rest =>
    let (text, rest) := rest.span fun c => !isControl c
    let _ := text
    match rest with
    | [] => some []
    | '\n' :: _ => some rest
    | '\r' :: '\n' :: _ => some rest
    | _ => none
  | _ => some cs

def dropFiller : (fuel : Nat) → List Char → Option (List Char)
  | 0, cs => some cs
  | fuel + 1, cs => do
    let cs ← dropComment (dropSpaces cs)
    match afterNewline? cs with
    | some rest => dropFiller fuel rest
    | none => some cs

/-- The rest of a line must be blank, up to a comment. -/
def endLine (cs : List Char) : Option (List Char) := do
  let cs ← dropComment (dropSpaces cs)
  match cs with
  | [] => some []
  | _ => afterNewline? cs

/-! ## Strings and keys -/

def hexValue? (c : Char) : Option Nat :=
  if c.isDigit then some (c.toNat - '0'.toNat)
  else if 'a' ≤ c && c ≤ 'f' then some (c.toNat - 'a'.toNat + 10)
  else if 'A' ≤ c && c ≤ 'F' then some (c.toNat - 'A'.toNat + 10)
  else none

def readCodePoint (value : Nat) : (digits : Nat) → List Char → Option (Rest Char)
  | 0, cs => if value.isValidChar then some (Char.ofNat value, cs) else none
  | _ + 1, [] => none
  | n + 1, c :: cs => do readCodePoint (value * 16 + (← hexValue? c)) n cs

def readEscape : List Char → Option (Rest Char)
  | 'b' :: cs => some ('\x08', cs)
  | 't' :: cs => some ('\t', cs)
  | 'n' :: cs => some ('\n', cs)
  | 'f' :: cs => some ('\x0c', cs)
  | 'r' :: cs => some ('\r', cs)
  | '"' :: cs => some ('"', cs)
  | '\\' :: cs => some ('\\', cs)
  | 'u' :: cs => readCodePoint 0 4 cs
  | 'U' :: cs => readCodePoint 0 8 cs
  | _ => none

def readBasic : (fuel : Nat) → List Char → List Char → Option (Rest String)
  | 0, _, _ => none
  | _ + 1, _, [] => none
  | fuel + 1, text, c :: cs =>
    if c = '"' then some (String.ofList text.reverse, cs)
    else if c = '\\' then do
      let (c, rest) ← readEscape cs
      readBasic fuel (c :: text) rest
    else if isControl c then none
    else readBasic fuel (c :: text) cs

def readLiteral (text : List Char) : List Char → Option (Rest String)
  | [] => none
  | c :: cs =>
    if c = '\'' then some (String.ofList text.reverse, cs)
    else if isControl c then none
    else readLiteral (c :: text) cs

/-- The quotes at the end of a string over several lines: up to two of them belong to the string. -/
def closeQuotes? (quote : Char) (cs : List Char) : Option (Nat × List Char) :=
  let n := min (cs.takeWhile (· == quote)).length 5
  if 3 ≤ n then some (n - 3, cs.drop n) else none

/-- Skips the blanks and line breaks behind a backslash at the end of a line. -/
def dropContinuation (cs : List Char) : Option (List Char) := do
  let rest ← afterNewline? (dropSpaces cs)
  return rest.dropWhile fun c => c == ' ' || c == '\t' || c == '\n' || c == '\r'

/-- A string over several lines, with escapes where its quotes are double. -/
def readLong (quote : Char) : (fuel : Nat) → List Char → List Char → Option (Rest String)
  | 0, _, _ => none
  | _ + 1, _, [] => none
  | fuel + 1, text, c :: cs =>
    match if c = quote then closeQuotes? quote (c :: cs) else none with
    | some (extra, rest) =>
      some (String.ofList (text.reverse ++ List.replicate extra quote), rest)
    | none =>
      if c = '\\' && quote = '"' then
        match dropContinuation cs with
        | some rest => readLong quote fuel text rest
        | none => do
          let (c, rest) ← readEscape cs
          readLong quote fuel (c :: text) rest
      else
        match afterNewline? (c :: cs) with
        | some rest => readLong quote fuel ('\n' :: text) rest
        | none => if isControl c then none else readLong quote fuel (c :: text) cs

/-- A line break right behind the opening quotes does not count. -/
def dropFirstBreak (cs : List Char) : List Char := (afterNewline? cs).getD cs

/-- A string of any kind, with `long` ones over several lines. -/
def readString? (long : Bool) (cs : List Char) : Option (Rest String) :=
  match cs with
  | '"' :: '"' :: '"' :: rest =>
    if long then readLong '"' (rest.length + 1) [] (dropFirstBreak rest) else none
  | '\'' :: '\'' :: '\'' :: rest =>
    if long then readLong '\'' (rest.length + 1) [] (dropFirstBreak rest) else none
  | '"' :: rest => readBasic (rest.length + 1) [] rest
  | '\'' :: rest => readLiteral [] rest
  | _ => none

def readKeyPart (cs : List Char) : Option (Rest String) :=
  match cs with
  | '"' :: _ => readString? false cs
  | '\'' :: _ => readString? false cs
  | _ =>
    let (name, rest) := cs.span isBareKeyChar
    if name.isEmpty then none else some (String.ofList name, rest)

/-- A key with its dots, which may have blanks around them. -/
def readKey : (fuel : Nat) → List Char → Option (Rest (List String))
  | 0, _ => none
  | fuel + 1, cs => do
    let (part, rest) ← readKeyPart (dropSpaces cs)
    match dropSpaces rest with
    | '.' :: rest => do
      let (parts, rest) ← readKey fuel rest
      return (part :: parts, rest)
    | rest => return ([part], rest)

/-! ## Numbers and dates -/

def digitsOk (isDigit : Char → Bool) : List Char → Bool
  | [] => false
  | [c] => isDigit c
  | c :: '_' :: cs => isDigit c && digitsOk isDigit cs
  | c :: cs => isDigit c && digitsOk isDigit cs

def digitsValue (base : Nat) (cs : List Char) : Nat :=
  (cs.filter (· != '_')).foldl (fun n c => n * base + (hexValue? c).getD 0) 0

def inRange (n : Int) : Bool := -0x8000000000000000 ≤ n && n < 0x8000000000000000

private def integerIf (ok : Bool) (n : Int) : Option Value :=
  if ok && inRange n then some (.integer n) else none

/-- A whole part has no zero in front of other digits. -/
def wholeOk (cs : List Char) : Bool :=
  digitsOk Char.isDigit cs && (cs.head? != some '0' || cs.length == 1)

def dropSign : List Char → List Char
  | '+' :: cs => cs
  | '-' :: cs => cs
  | cs => cs

def floatOk (cs : List Char) : Bool :=
  let body := dropSign cs
  let (mantissa, exponent) := body.span fun c => c != 'e' && c != 'E'
  let (whole, fraction) := mantissa.span (· != '.')
  let fractionOk := fraction.isEmpty || digitsOk Char.isDigit (fraction.drop 1)
  let exponentOk := exponent.isEmpty || digitsOk Char.isDigit (dropSign (exponent.drop 1))
  wholeOk whole && fractionOk && exponentOk && !(fraction.isEmpty && exponent.isEmpty)

def number? (cs : List Char) : Option Value :=
  match cs with
  | '0' :: 'x' :: ds => integerIf (digitsOk (fun c => (hexValue? c).isSome) ds) (digitsValue 16 ds)
  | '0' :: 'o' :: ds => integerIf (digitsOk (fun c => '0' ≤ c && c ≤ '7') ds) (digitsValue 8 ds)
  | '0' :: 'b' :: ds => integerIf (digitsOk (fun c => c == '0' || c == '1') ds) (digitsValue 2 ds)
  | _ =>
    let body := dropSign cs
    if wholeOk body then
      let n := digitsValue 10 body
      integerIf true (if cs.head? == some '-' then -(n : Int) else n)
    else if body == "inf".toList || body == "nan".toList || floatOk cs then some .float
    else none

private def two? (lo hi : Nat) (a b : Char) : Bool :=
  a.isDigit && b.isDigit && lo ≤ digitsValue 10 [a, b] && digitsValue 10 [a, b] ≤ hi

def timeZoneOk : List Char → Bool
  | [] => true
  | [z] => z == 'Z' || z == 'z'
  | [s, a, b, ':', c, d] => (s == '+' || s == '-') && two? 0 23 a b && two? 0 59 c d
  | _ => false

/-- A time of day; `rest` says what may follow it. -/
def timeOk (rest : List Char → Bool) : List Char → Bool
  | a :: b :: ':' :: c :: d :: ':' :: e :: f :: more =>
    two? 0 23 a b && two? 0 59 c d && two? 0 60 e f &&
      match more with
      | '.' :: fraction =>
        let (digits, more) := fraction.span Char.isDigit
        !digits.isEmpty && rest more
      | _ => rest more
  | _ => false

def daysIn (year month : Nat) : Nat :=
  if month = 2 then
    if year % 4 = 0 && (year % 100 != 0 || year % 400 = 0) then 29 else 28
  else if month = 4 || month = 6 || month = 9 || month = 11 then 30
  else 31

/-- A date, a time, or a date and a time with or without a zone. -/
def dateOk : List Char → Bool
  | y1 :: y2 :: y3 :: y4 :: '-' :: m1 :: m2 :: '-' :: d1 :: d2 :: more =>
    let year := digitsValue 10 [y1, y2, y3, y4]
    let month := digitsValue 10 [m1, m2]
    [y1, y2, y3, y4].all Char.isDigit && two? 1 12 m1 m2 && two? 1 (daysIn year month) d1 d2 &&
      match more with
      | [] => true
      | t :: time => (t == 'T' || t == 't' || t == ' ') && timeOk timeZoneOk time
  | cs => timeOk List.isEmpty cs

private def isScalarChar (c : Char) : Bool :=
  c.isAlphanum || c == '_' || c == '-' || c == '+' || c == '.' || c == ':'

/-- A word, a number or a date; a date may have a blank before its time. -/
def readScalar (cs : List Char) : Option (Rest Value) :=
  let (word, rest) := cs.span isScalarChar
  let (long, after) :=
    match rest with
    | ' ' :: more =>
      let (time, after) := more.span isScalarChar
      (word ++ ' ' :: time, after)
    | _ => (word, rest)
  if word = "true".toList then some (.boolean true, rest)
  else if word = "false".toList then some (.boolean false, rest)
  else
    match number? word with
    | some v => some (v, rest)
    | none =>
      if dateOk long && long.length != word.length then some (.date, after)
      else if dateOk word then some (.date, rest)
      else none

/-! ## Values and lines -/

mutual

def readValue : (fuel : Nat) → List Char → Option (Rest Value)
  | 0, _ => none
  | fuel + 1, cs =>
    match cs with
    | '[' :: rest => readItems fuel [] rest
    | '\x7b' :: rest =>
      match dropSpaces rest with
      | '\x7d' :: rest => some (.inline [], rest)
      | rest => readMembers fuel [] rest
    | '"' :: _ => (readString? true cs).map fun (s, rest) => (.string s, rest)
    | '\'' :: _ => (readString? true cs).map fun (s, rest) => (.string s, rest)
    | _ => readScalar cs

/-- The items of an array up to its bracket, with a comma behind the last one or without. -/
def readItems : (fuel : Nat) → List Value → List Char → Option (Rest Value)
  | 0, _, _ => none
  | fuel + 1, items, cs => do
    match ← dropFiller cs.length cs with
    | ']' :: rest => return (.array items.reverse, rest)
    | cs => do
      let (v, rest) ← readValue fuel cs
      match ← dropFiller rest.length rest with
      | ',' :: rest => readItems fuel (v :: items) rest
      | ']' :: rest => return (.array (v :: items).reverse, rest)
      | _ => none

def readMembers : (fuel : Nat) → Members → List Char → Option (Rest Value)
  | 0, _, _ => none
  | fuel + 1, ms, cs => do
    let (key, rest) ← readKey (cs.length + 1) cs
    match rest with
    | '=' :: rest => do
      let (v, rest) ← readValue fuel (dropSpaces rest)
      let ms ← Members.assign v key ms
      match dropSpaces rest with
      | ',' :: rest => readMembers fuel ms rest
      | '\x7d' :: rest => return (.inline ms, rest)
      | _ => none
    | _ => none

end

/-- A document that is being read: what it holds and the table whose keys are being given. -/
structure Draft where
  root : Members
  path : List String

def Draft.header (d : Draft) (path : List String)
    (open? : String → Members → Option Members) : Option Draft := do
  let key ← path.getLast?
  let root ← Members.within false (open? key) path.dropLast d.root
  return ⟨root, path⟩

def Draft.assign (d : Draft) (key : List String) (v : Value) : Option Draft := do
  let root ← Members.within false (Members.assign v key) d.path d.root
  return ⟨root, d.path⟩

def Draft.readLine (d : Draft) (cs : List Char) : Option (Rest Draft) := do
  match cs with
  | '[' :: '[' :: rest => do
    let (path, rest) ← readKey (rest.length + 1) rest
    match rest with
    | ']' :: ']' :: rest => return (← d.header path Members.openNext, ← endLine rest)
    | _ => none
  | '[' :: rest => do
    let (path, rest) ← readKey (rest.length + 1) rest
    match rest with
    | ']' :: rest => return (← d.header path Members.openTable, ← endLine rest)
    | _ => none
  | _ => do
    let (key, rest) ← readKey (cs.length + 1) cs
    match rest with
    | '=' :: rest => do
      let (v, rest) ← readValue (2 * rest.length + 2) (dropSpaces rest)
      return (← d.assign key v, ← endLine rest)
    | _ => none

def Draft.readLines : (fuel : Nat) → Draft → List Char → Option Members
  | fuel, d, cs => do
    match ← dropFiller cs.length cs with
    | [] => return d.root
    | cs =>
      match fuel with
      | 0 => none
      | fuel + 1 => do
        let (d, rest) ← d.readLine cs
        d.readLines fuel rest

/-- A mark in front of a text that says how the text is encoded. -/
def dropByteOrderMark : List Char → List Char
  | '\ufeff' :: cs => cs
  | cs => cs

/-- The top-level table of a document, if the text is one. -/
def readDocument? (text : String) : Option Members :=
  let cs := dropByteOrderMark text.toList
  Draft.readLines (cs.length + 1) ⟨[], []⟩ cs

end PredictiveParsing.Settings
