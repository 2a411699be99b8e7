import PredictiveParsing.Json.Value
import PredictiveParsing.Regex.Engine
import PredictiveParsing.Text.Position
import PredictiveParsing.Text.Quoted

/-!
# Token categories

A category is a class of tokens with a name, a pattern that recognizes its text, an optional parent
and a group that says where its tokens go.
-/

namespace PredictiveParsing

/-- Categories are numbered in the order of their registration. -/
abbrev CategoryId := Nat

/-- The end of the input, which is a category of every model. -/
def CategoryId.eof : CategoryId := 0

def CategoryId.text (c : CategoryId) : String := s!"#{c}"

/-- A matcher that is given the rest of the input and answers with a number of bytes. -/
abbrev CustomMatcher := List Char → Option Nat

/-- How a category recognizes text. -/
inductive Pattern where
  | regex (source : String)
  | literal (text : String)
  | custom (matcher : CustomMatcher)
  /-- Recognizes nothing; for categories that stand for their descendants. -/
  | abstract

namespace Pattern

def isAbstract : Pattern → Bool
  | abstract => true
  | _ => false

def text : Pattern → String
  | regex source => s!"Regex({Quoted.text source})"
  | literal l => s!"Literal({Quoted.text l})"
  | custom _ => "Custom(..)"
  | abstract => "Abstract"

end Pattern

/-- Where the tokens of a category go: to the parser, nowhere, or into a collection with a name. -/
inductive Group where
  | normal
  | skipped
  | named (name : String)
deriving DecidableEq

def Group.text : Group → String
  | normal => "Normal"
  | skipped => "Skipped"
  | named name => s!"Named({Quoted.text name})"

/-- A pattern that is ready to match. -/
inductive Matcher where
  | regex (program : Regex.Program)
  | literal (text : List Char)
  | custom (matcher : CustomMatcher)
  | never

/-- Why a pattern cannot be used. -/
inductive PatternFault where
  | regex (cause : Regex.PatternError)
  | emptyLiteral
deriving DecidableEq

/-- The source of an expression that is tied to the start of the text. -/
def anchored (source : String) : List Char := "^(?:".toList ++ source.toList ++ [')']

def Pattern.matcher (engine : Regex.Engine) : Pattern → Except PatternFault Matcher
  | regex source =>
    match engine.compile (anchored source) with
    | .ok program => .ok (.regex program)
    | .error cause => .error (.regex cause)
  | literal text => if text = "" then .error .emptyLiteral else .ok (.literal text.toList)
  | custom m => .ok (.custom m)
  | abstract => .ok .never

/-- The number of bytes that match at the start of a text; a length inside of a character is none.
-/
def Matcher.matchLength? (m : Matcher) (rest : List Char) : Option Nat :=
  match m with
  | regex program => (program.find rest).map Prod.snd
  | literal text => if text.isPrefixOf rest then some (byteCount text) else none
  | custom f => (f rest).filter fun n => (splitBytes? n rest).isSome
  | never => none

structure Category where
  id : CategoryId
  name : String
  parent : Option CategoryId
  pattern : Pattern
  matcher : Matcher
  group : Group
  /-- The characters that tokens start with, where these have been declared. -/
  leading : Option (List Char)

namespace Category

/-- Whether the category recognizes text of its own. -/
def isConcrete (c : Category) : Bool := c.id != CategoryId.eof && !c.pattern.isAbstract

private def parentText : Option CategoryId → String
  | none => "None"
  | some p => s!"Some(CategoryId({p}))"

def text (c : Category) : String :=
  String.join ["TokenCategory \x7b id: CategoryId(", toString c.id, "), name: ",
    Quoted.text c.name, ", parent: ", parentText c.parent, ", pattern: ", c.pattern.text,
    ", group: ", c.group.text, " \x7d"]

end Category

def Group.toJson : Group → Json
  | normal => .string "Normal"
  | skipped => .string "Skipped"
  | named name => .object [("Named", .string name)]

def Category.toJson (c : Category) : Json :=
  .object [("id", .nat c.id), ("name", .string c.name), ("parent", .ofOption .nat c.parent),
    ("pattern", .string c.pattern.text), ("group", c.group.toJson),
    ("leading", .ofOption (.string ∘ String.ofList) c.leading), ("concrete", .bool c.isConcrete)]

end PredictiveParsing
