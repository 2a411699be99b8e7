import PredictiveParsing.Text.Position
import PredictiveParsing.Text.Quoted
import PredictiveParsing.Decimal.Layout

/-!
# Structured output

Values with named parts, written as JSON on one line or indented. The parts of an object keep the
order in which they are given.
-/

namespace PredictiveParsing

inductive Json where
  | null
  | bool (b : Bool)
  | nat (n : Nat)
  | float (x : Float)
  | string (s : String)
  | array (items : List Json)
  | object (members : List (String × Json))
deriving Inhabited

namespace Json

def ofOption {α : Type} (f : α → Json) : Option α → Json
  | none => null
  | some a => f a

/-- Controls are escaped, by a letter where they have one; everything else stands as it is. -/
def encodeChar (c : Char) : List Char :=
  if c = '"' then ['\\', '"']
  else if c = '\\' then ['\\', '\\']
  else if c = '\n' then ['\\', 'n']
  else if c = '\r' then ['\\', 'r']
  else if c = '\t' then ['\\', 't']
  else if c = '\x08' then ['\\', 'b']
  else if c = '\x0c' then ['\\', 'f']
  else if c.toNat < 32 then
    ['\\', 'u', '0', '0', Quoted.hexDigit (c.toNat / 16), Quoted.hexDigit (c.toNat % 16)]
  else [c]

def quote (s : String) : String := String.ofList ('"' :: (s.toList.flatMap encodeChar ++ ['"']))

mutual

def compact : Json → String
  | null => "null"
  | bool b => if b then "true" else "false"
  | nat n => toString n
  | float x => Decimal.Layout.data.render x
  | string s => quote s
  | array items => "[" ++ ",".intercalate (compactItems items) ++ "]"
  | object members => "\x7b" ++ ",".intercalate (compactMembers members) ++ "\x7d"

def compactItems : List Json → List String
  | [] => []
  | v :: vs => compact v :: compactItems vs

def compactMembers : List (String × Json) → List String
  | [] => []
  | (k, v) :: ms => (quote k ++ ":" ++ compact v) :: compactMembers ms

end

/-- Lines between brackets, two more blanks in than the brackets; nothing between them if empty. -/
def block (opening closing indent : String) (lines : List String) : String :=
  match lines with
  | [] => opening ++ closing
  | _ :: _ =>
    opening ++ "\n" ++ ",\n".intercalate (lines.map fun l => indent ++ "  " ++ l) ++ "\n" ++ indent
      ++ closing

mutual

/-- The value over several lines, the first of which is not indented. -/
def pretty (indent : String) : Json → String
  | array items => block "[" "]" indent (prettyItems (indent ++ "  ") items)
  | object members => block "\x7b" "\x7d" indent (prettyMembers (indent ++ "  ") members)
  | null => compact null
  | bool b => compact (bool b)
  | nat n => compact (nat n)
  | float x => compact (float x)
  | string s => compact (string s)

def prettyItems (indent : String) : List Json → List String
  | [] => []
  | v :: vs => pretty indent v :: prettyItems indent vs

def prettyMembers (indent : String) : List (String × Json) → List String
  | [] => []
  | (k, v) :: ms => (quote k ++ ": " ++ pretty indent v) :: prettyMembers indent ms

end

end Json

def Position.toJson (p : Position) : Json :=
  .object [("offset", .nat p.offset), ("line", .nat p.line), ("column", .nat p.column)]

def Span.toJson (s : Span) : Json :=
  .object [("start", s.start.toJson), ("end", s.stop.toJson)]

end PredictiveParsing
