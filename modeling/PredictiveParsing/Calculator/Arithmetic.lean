import PredictiveParsing.Decimal.Nearest
import PredictiveParsing.Engine

/-!
# Arithmetic

Sums of products of numbers and parenthesized expressions, evaluated while they are parsed. Products
bind more tightly than sums, and operators of one kind apply from left to right.
-/

namespace PredictiveParsing.Calculator

/-- The token categories of arithmetic. -/
inductive Symbol where
  | whiteSpace
  /-- Any operator of a sum. -/
  | additionOperator
  | plus
  | minus
  /-- Any operator of a product. -/
  | multiplicationOperator
  | times
  | divide
  | opening
  | closing
  | number
deriving DecidableEq

namespace Symbol

def all : List Symbol :=
  [whiteSpace, additionOperator, plus, minus, multiplicationOperator, times, divide, opening,
    closing, number]

/-- The category as a model knows it that has been given the symbols first. -/
def id : Symbol → CategoryId
  | whiteSpace => 1
  | additionOperator => 2
  | plus => 3
  | minus => 4
  | multiplicationOperator => 5
  | times => 6
  | divide => 7
  | opening => 8
  | closing => 9
  | number => 10

def name : Symbol → String
  | whiteSpace => "WhiteSpace"
  | additionOperator => "AdditionOperator"
  | plus => "Plus"
  | minus => "Minus"
  | multiplicationOperator => "MultiplicationOperator"
  | times => "Multi"
  | divide => "Div"
  | opening => "LParen"
  | closing => "RParen"
  | number => "NumberLiteral"

def parent? : Symbol → Option Symbol
  | plus => some additionOperator
  | minus => some additionOperator
  | times => some multiplicationOperator
  | divide => some multiplicationOperator
  | _ => none

def pattern : Symbol → Pattern
  | whiteSpace => .regex "\\s+"
  | additionOperator => .abstract
  | plus => .literal "+"
  | minus => .literal "-"
  | multiplicationOperator => .abstract
  | times => .literal "*"
  | divide => .literal "/"
  | opening => .literal "("
  | closing => .literal ")"
  | number => .regex "[1-9]\\d*|0"

def group : Symbol → Group
  | whiteSpace => .skipped
  | _ => .normal

end Symbol

def vocabularyLogged (m : TokenModel) : Log.Logged TokenModel :=
  Symbol.all.foldlM (fun m s => do
    let (_, m) ← m.defineLogged s.name (s.parent?.map (·.id)) s.pattern s.group
    return m) m

def tokenModel : TokenModel := (vocabularyLogged .empty #[]).1

/-- The value of a number; one with digits of another script has none. -/
def literalValue (image : String) : Float :=
  if image.toList.all (·.isDigit) then Decimal.nearest (Decimal.ofDigits image.toList) else 0.0

/-! ## Rules -/

/-- One operator and the operand behind it, applied to what stands before them. -/
def applyRound (apply : CategoryId → Float → Float → Float) (left : Float) : Yield Float → Float
  | .items [.token op, .value right] => apply op.category left right
  | _ => left

/-- The operators between operands, applied from left to right. -/
def applyRounds (apply : CategoryId → Float → Float → Float) : List (Yield Float) → Float
  | [.value first, .items rounds] => rounds.foldl (applyRound apply) first
  | _ => 0.0

def addOrSubtract (op : CategoryId) (a b : Float) : Float :=
  if op = Symbol.plus.id then a + b else a - b

def multiplyOrDivide (op : CategoryId) (a b : Float) : Float :=
  if op = Symbol.times.id then a * b else a / b

def chain (operator : Symbol) (operand : String) : Body Float :=
  .subrule 1 operand <|
    .repetition 1 false (.consume 1 operator.id (.subrule 2 operand .done)) .done

/-- The alternatives of an operand: an expression in parentheses, or a number. -/
def operands : Fin 2 → Body Float
  | 0 => .subrule 1 "parenthesisExpression" .done
  | 1 => .consume 1 Symbol.number.id .done

def startRule : String := "expression"

def expression : Rule Float where
  name := startRule
  body := .subrule 1 "additionExpression" .done
  value
    | [.value v] => v
    | _ => 0.0

def additionExpression : Rule Float where
  name := "additionExpression"
  body := chain .additionOperator "multiplicationExpression"
  value := applyRounds addOrSubtract

def multiplicationExpression : Rule Float where
  name := "multiplicationExpression"
  body := chain .multiplicationOperator "atomicExpression"
  value := applyRounds multiplyOrDivide

def atomicExpression : Rule Float where
  name := "atomicExpression"
  body := .choice 1 (some "a number or parenthesis expression") (fun _ => none) operands .done
  value
    | [.chosen _ [.value v]] => v
    | [.chosen _ [.token t]] => literalValue t.image
    | _ => 0.0

def parenthesisExpression : Rule Float where
  name := "parenthesisExpression"
  body := .consume 1 Symbol.opening.id <| .subrule 1 startRule <| .consume 1 Symbol.closing.id .done
  value
    | [_, .value v, _] => v
    | _ => 0.0

def rules : List (Rule Float) :=
  [expression, additionExpression, multiplicationExpression, atomicExpression,
    parenthesisExpression]

/-- Adds the rules to a registry. A missing number is never made up, as there are too many of them.
-/
def defineRulesLogged (r : Registry Float) :
    Log.Logged (Except RegistryError Unit × Registry Float) := do
  let (outcome, r) ← r.defineAllLogged rules
  match outcome with
  | .error e => return (.error e, r)
  | .ok _ => return (.ok (), { r with mayInsert := (· != Symbol.number.id) })

end Calculator

/-! ## Calculators -/

inductive CalculatorError where
  | model (cause : ModelError)
  | rules (cause : RegistryError)
  | engine (cause : EngineError)

namespace CalculatorError

def message : CalculatorError → String
  | model cause => s!"Token model error: {cause.message}"
  | rules cause => s!"Rule registration failed: {cause.message}"
  | engine cause => s!"Engine setup failed: {cause.message}"

def code : CalculatorError → Code
  | model cause => cause.code
  | rules cause => cause.code
  | engine cause => cause.code

end CalculatorError

structure Calculator where
  engine : Engine Float

namespace Calculator

/-- A calculator over a model that starts with the symbols and may know further categories. -/
def ofModelLogged (m : TokenModel) (t : TokenizerPreferences) (p : ParserPreferences) :
    Log.Logged (Except CalculatorError Calculator) := do
  match ← Tokenizer.buildLogged m t with
  | .error e => return .error (.engine (.tokenizer e))
  | .ok tokenizer =>
    let (outcome, r) ← defineRulesLogged (.empty m p 0.0)
    match outcome with
    | .error e => return .error (.rules e)
    | .ok _ =>
      match ← Engine.buildLogged tokenizer r with
      | .error e => return .error (.engine e)
      | .ok engine => return .ok ⟨engine⟩

def buildLogged (p : Preferences) : Log.Logged (Except CalculatorError Calculator) := do
  ofModelLogged (← vocabularyLogged .empty) p.tokenizer p.parser

def build (p : Preferences) : Except CalculatorError Calculator := (buildLogged p #[]).1

def evaluateLogged (c : Calculator) (text : List Char) :
    Log.Logged (Except EngineError (EngineResult Float)) :=
  c.engine.parseLogged startRule text

def evaluate (c : Calculator) (text : List Char) : Except EngineError (EngineResult Float) :=
  c.engine.parse startRule text

end Calculator

end PredictiveParsing
