import PredictiveParsing.Log.Journal
import PredictiveParsing.Token.Category
import Std.Data.HashMap

/-!
# Token models

A model holds the categories of a language in the order of their registration and the hierarchy that
their parents form. Every category keeps its lineage: itself, its parent, and so on upwards.
-/

namespace PredictiveParsing

/-- What is wrong with a parent. -/
inductive HierarchyFault where
  | unknownParent (id : CategoryId)
  | eofParent
  | tooManyCategories
  | ownAncestor (parent : String)

inductive ModelError where
  | duplicateCategory (name : String)
  | invalidHierarchy (name : String) (fault : HierarchyFault)
  | invalidPattern (name : String) (fault : PatternFault)
  | abstractWithoutDescendant (name : String)
  | unknownCategory (id : CategoryId)

def HierarchyFault.message : HierarchyFault → String
  | unknownParent id => s!"unknown parent category {id.text}"
  | eofParent => "EOF cannot be a parent category"
  | tooManyCategories => "too many token categories"
  | ownAncestor parent => s!"parent '{parent}' would make the category its own ancestor"

def PatternFault.message : PatternFault → String
  | regex _ => "not a regular expression"
  | emptyLiteral => "literal pattern cannot be empty"

namespace ModelError

def message : ModelError → String
  | duplicateCategory name => s!"Token category '{name}' is already defined"
  | invalidHierarchy name fault =>
    s!"Invalid hierarchy for token category '{name}': {fault.message}"
  | invalidPattern name fault =>
    s!"Invalid pattern for token category '{name}': {fault.message}"
  | abstractWithoutDescendant name =>
    s!"Abstract token category '{name}' has no concrete descendant"
  | unknownCategory id => s!"Unknown token category {id.text}"

def code : ModelError → Code
  | duplicateCategory _ => Code.duplicateCategory
  | invalidHierarchy .. => Code.invalidHierarchy
  | invalidPattern .. => Code.invalidPattern
  | abstractWithoutDescendant _ => Code.abstractWithoutDescendant
  | unknownCategory _ => Code.invalidHierarchy

end ModelError

structure TokenModel where
  /-- Compiles the patterns of the categories. -/
  engine : Regex.Engine
  /-- Tells models apart that were set up one after another, even if they are alike. -/
  tag : Nat
  categories : Array Category
  byName : Std.HashMap String CategoryId
  lineages : Array (List CategoryId)

namespace TokenModel

def eofName : String := "EOF"

def eofCategory : Category where
  id := CategoryId.eof
  name := eofName
  parent := none
  pattern := .abstract
  matcher := .never
  group := .normal
  leading := none

/-- The model with an engine and a tag that knows the end of the input only. -/
def new (engine : Regex.Engine) (tag : Nat) : TokenModel where
  engine := engine
  tag := tag
  categories := #[eofCategory]
  byName := Std.HashMap.emptyWithCapacity.insert eofName CategoryId.eof
  lineages := #[[CategoryId.eof]]

def tagged (tag : Nat) : TokenModel := new .standard tag

def empty : TokenModel := tagged 0

def size (m : TokenModel) : Nat := m.categories.size

def isEmpty (m : TokenModel) : Bool := m.size ≤ 1

def get? (m : TokenModel) (id : CategoryId) : Option Category := m.categories[id]?

def lookup? (m : TokenModel) (name : String) : Option CategoryId := m.byName[name]?

def name (m : TokenModel) (id : CategoryId) : String :=
  ((m.get? id).map (·.name)).getD "<unknown>"

def describe (m : TokenModel) (ids : List CategoryId) : String :=
  ", ".intercalate (ids.map m.name)

def lineage (m : TokenModel) (id : CategoryId) : List CategoryId := m.lineages[id]?.getD []

/-- A category is itself and whatever its ancestors are. -/
def isA (m : TokenModel) (actual expected : CategoryId) : Bool :=
  (m.lineage actual).contains expected

def overlaps (m : TokenModel) (a b : CategoryId) : Bool := m.isA a b || m.isA b a

/-- The categories that recognize text, in the order of their registration. -/
def concrete (m : TokenModel) : List Category := m.categories.toList.filter (·.isConcrete)

/-- Whether a category can have the given parent, as far as that can be told without the category.
-/
def vetParent (m : TokenModel) (parent : CategoryId) : Except HierarchyFault Unit :=
  if m.size ≤ parent then .error (.unknownParent parent)
  else if parent = CategoryId.eof then .error .eofParent
  else .ok ()

def capacity : Nat := 65536

def checkedParent (m : TokenModel) (name : String) : Option CategoryId → Except ModelError Unit
  | none => .ok ()
  | some p => (m.vetParent p).mapError (.invalidHierarchy name)

/-- The matcher of a category that can be registered. -/
def accept (m : TokenModel) (name : String) (parent : Option CategoryId) (pattern : Pattern) :
    Except ModelError Matcher := do
  if m.byName.contains name then throw (.duplicateCategory name)
  m.checkedParent name parent
  if capacity ≤ m.size then throw (.invalidHierarchy name .tooManyCategories)
  (pattern.matcher m.engine).mapError (.invalidPattern name)

/-- The model with one more category, which has the next free number. -/
def push (m : TokenModel) (name : String) (parent : Option CategoryId) (pattern : Pattern)
    (matcher : Matcher) (group : Group) : TokenModel :=
  let id := m.size
  let chain := id :: (parent.map m.lineage).getD []
  { m with
    categories := m.categories.push ⟨id, name, parent, pattern, matcher, group, none⟩
    byName := m.byName.insert name id
    lineages := m.lineages.push chain }

/-- Registers a category; a model that cannot take it stays as it is. -/
def define (m : TokenModel) (name : String) (parent : Option CategoryId) (pattern : Pattern)
    (group : Group) : Except ModelError CategoryId × TokenModel :=
  match m.accept name parent pattern with
  | .error e => (.error e, m)
  | .ok matcher =>
    let id := m.size
    (.ok id, m.push name parent pattern matcher group)

/-- Adds ancestors to a lineage until there is no parent or it is there already. -/
def extendLineage (parentOf : CategoryId → Option CategoryId) (chain : List CategoryId) :
    (fuel : Nat) → Option CategoryId → List CategoryId
  | _, none => chain
  | 0, some _ => chain
  | fuel + 1, some p =>
    if chain.contains p then chain else extendLineage parentOf (chain ++ [p]) fuel (parentOf p)

def parentOf (categories : Array Category) (id : CategoryId) : Option CategoryId :=
  categories[id]?.bind (·.parent)

/-- The lineages that the parents of the categories give rise to. -/
def lineagesOf (categories : Array Category) : Array (List CategoryId) :=
  categories.map fun c =>
    extendLineage (parentOf categories) [c.id] categories.size c.parent

/-- Why a category cannot have another parent, if it cannot. -/
def acceptParent (m : TokenModel) (id : CategoryId) (parent : Option CategoryId) :
    Except ModelError Unit :=
  match m.get? id with
  | none => .error (.unknownCategory id)
  | some c => do
    m.checkedParent c.name parent
    match parent with
    | none => return
    | some p =>
      if p = id || m.isA p id then
        throw (.invalidHierarchy c.name (.ownAncestor (m.name p)))

/-- Gives a category another parent, or none. -/
def setParent (m : TokenModel) (id : CategoryId) (parent : Option CategoryId) :
    Except ModelError Unit × TokenModel :=
  match m.acceptParent id parent with
  | .error e => (.error e, m)
  | .ok _ =>
    let categories := m.categories.modify id fun c => { c with parent := parent }
    (.ok (), { m with categories := categories, lineages := lineagesOf categories })

/-- Declares the characters that the tokens of a category start with. -/
def setLeading (m : TokenModel) (id : CategoryId) (chars : List Char) :
    Except ModelError Unit × TokenModel :=
  if id < m.size then
    let categories := m.categories.modify id fun c => { c with leading := some chars }
    (.ok (), { m with categories := categories })
  else (.error (.unknownCategory id), m)

/-- Whether some concrete category is a descendant of the given one. -/
def hasConcreteDescendant (m : TokenModel) (id : CategoryId) : Bool :=
  m.concrete.any fun c => m.isA c.id id

/-- The first category, other than the end of the input, that can never have a token. -/
def emptyCategory? (m : TokenModel) : Option Category :=
  (m.categories.toList.drop 1).find? fun c => c.pattern.isAbstract && !m.hasConcreteDescendant c.id

/-- Whether every category can have tokens. -/
def validate (m : TokenModel) : Except ModelError Unit :=
  match m.emptyCategory? with
  | none => .ok ()
  | some c => .error (.abstractWithoutDescendant c.name)

def definedEvent (m : TokenModel) (name : String) (id : CategoryId) (parent : Option CategoryId) :
    Log.Event :=
  .debug "Token category defined"
    [("name", name), ("id", id.text), ("parent", (parent.map m.name).getD "")]

def defineLogged (m : TokenModel) (name : String) (parent : Option CategoryId) (pattern : Pattern)
    (group : Group) : Log.Logged (Except ModelError CategoryId × TokenModel) := do
  let (outcome, m) := m.define name parent pattern group
  match outcome with
  | .error e => return (.error e, m)
  | .ok id =>
    Log.emit (m.definedEvent name id parent)
    return (.ok id, m)

end TokenModel

end PredictiveParsing
