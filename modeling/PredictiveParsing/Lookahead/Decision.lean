import PredictiveParsing.Grammar.CategorySet
import PredictiveParsing.Lookahead.Expansion
import PredictiveParsing.Token.Model

/-!
# Decisions

A decision table tells for each alternative of a piece by which categories of tokens it is
recognized. Paths start with one category, and only those that could belong to two alternatives
grow, up to a limit. What is still shared there, or cannot be explored, makes the decision
ambiguous; then the first of the alternatives in question counts.
-/

namespace PredictiveParsing

/-- How an alternative is recognized. -/
structure Alternative where
  paths : List CategoryPath
  gated : Bool

structure Decision where
  kind : DecisionKind
  idx : Nat
  /-- The greatest number of categories that was looked at. -/
  depth : Nat
  /-- Two for a piece that is entered or passed over: to enter it and to go on behind it. -/
  alternatives : List Alternative
  ambiguous : Bool

/-- A decision by the name of its rule. -/
structure DecisionKey where
  rule : String
  kind : DecisionKind
  idx : Nat
deriving DecidableEq

def DecisionKey.text (k : DecisionKey) : String := s!"{k.rule}.{k.kind.keyword}#{k.idx}"

inductive Finding.Kind where
  /-- Two alternatives have the same path. -/
  | collision
  /-- A path of an earlier alternative begins a path of a later one. -/
  | shadowing
  /-- There were too many paths. -/
  | pathLimit
deriving DecidableEq

def Finding.Kind.keyword : Finding.Kind → String
  | collision => "collision"
  | shadowing => "prefix"
  | pathLimit => "path_limit"

/-- Why a decision is ambiguous, and between which of its alternatives. -/
structure Finding where
  kind : Finding.Kind
  alternatives : List Nat
  /-- The first path that showed it. -/
  witness : CategoryPath

/-- Findings of one kind are kept as one. -/
def Finding.note (f : Finding) : List Finding → List Finding
  | [] => [{ f with alternatives := joined [] }]
  | g :: fs =>
    if g.kind = f.kind then { g with alternatives := joined g.alternatives } :: fs
    else g :: f.note fs
where
  /-- The alternatives of the finding, with others that are ascending. -/
  joined (others : List Nat) : List Nat :=
    f.alternatives.foldl (fun s i => insertAscending i s) others

structure Ambiguity where
  key : DecisionKey
  finding : Finding
  depth : Nat

/-- A way to go on: the phrases to come, nearest first. -/
structure Branch where
  stack : List Phrase
  gated : Bool

namespace Place

/-- The phrases behind the first piece, without further rounds of repetitions. -/
def continuation (place : Place) : List Phrase :=
  place.after.filterMap fun
    | .rest p => some p
    | .again _ => none

/-- The kind and index of the decision at a place, and the ways to go on. -/
def branches? (place : Place) : Option (DecisionKind × Nat × List Branch) :=
  let behind := place.continuation
  match place.phrase with
  | .option idx body _ => some (.option, idx, [⟨body :: behind, false⟩, ⟨behind, false⟩])
  | .repetition idx b body _ =>
    some (.ofRepetition b, idx, [⟨body :: behind, false⟩, ⟨behind, false⟩])
  | .choice idx gated body _ =>
    some (.or, idx, List.ofFn fun k => ⟨body k :: behind, gated k⟩)
  | _ => none

end Place

/-- The paths of an alternative while they grow. -/
structure Growth where
  branch : Branch
  settled : PathSet
  active : PathSet

/-- What two expansions of different alternatives have to do with each other. -/
inductive Clash where
  /-- Both go on and have to grow. -/
  | undecided (other : Nat)
  | found (kind : Finding.Kind) (other : Nat) (witness : CategoryPath)

namespace TokenModel

/-- Whether two paths can match the same tokens, as far as both reach. -/
def compatible (m : TokenModel) (p q : CategoryPath) : Bool :=
  (p.zip q).all fun (a, b) => m.overlaps a b

/-- The clash of an expansion of alternative `i` with one of alternative `j`. -/
def clash? (m : TokenModel) (i j : Nat) (e f : Expansion) : Option Clash :=
  if !m.compatible e.path f.path then none
  else if e.ended then
    if f.ended && e.path.length == f.path.length && i < j then some (.found .collision j e.path)
    else if e.path.length < f.path.length && i < j then some (.found .shadowing j f.path)
    else none
  else if f.ended then none
  else some (.undecided j)

end TokenModel

namespace Clash

def isUndecided : Clash → Bool
  | undecided _ => true
  | found .. => false

def finding? (i : Nat) : Clash → Option Finding
  | undecided _ => none
  | found kind j witness => some ⟨kind, [i, j], witness⟩

/-- What is found where the paths cannot grow any more: the first later alternative to clash with.
-/
def lastFinding? (i : Nat) (path : CategoryPath) (clashes : List Clash) : Option Finding :=
  clashes.findSome? fun
    | undecided j => if i < j then some ⟨.collision, [i, j], path⟩ else none
    | found .. => none

end Clash

/-- The paths of all alternatives and what has been found about them. -/
structure Table where
  growths : List Growth
  findings : List Finding

/-- One alternative with its expansions in a round. -/
structure Row where
  gated : Bool
  expansions : List Expansion

namespace Growth

/-- The expansions to `depth` categories of the paths that are to grow. -/
def row? (g : Grammar) (depth : Nat) (b : Growth) : Option Row :=
  if b.active.isEmpty then some ⟨b.branch.gated, []⟩
  else (Expansion.all? g depth b.branch.stack).map fun found =>
    ⟨b.branch.gated, found.toList.filter fun e =>
      depth ≤ e.path.length + 1 && b.active.contains (e.path.take (depth - 1))⟩

/-- Keeps the paths as they are. -/
def giveUp (b : Growth) : Growth :=
  { b with settled := b.active.foldl (fun s p => s.insert p) b.settled, active := ∅ }

/-- Settles the paths without an undecided clash, and in the last round all of them. -/
def sortOut (last : Bool) (verdicts : List (Expansion × List Clash)) (b : Growth) : Growth :=
  let (held, free) := verdicts.partition fun (_, clashes) => clashes.any (·.isUndecided) && !last
  { b with
    settled := free.foldl (fun s (e, _) => s.insert e.path) b.settled
    active := held.foldl (fun s (e, _) => s.insert e.path) ∅ }

end Growth

/-- The clashes of an expansion of alternative `i` with those of all others. -/
def Row.clashes (m : TokenModel) (rows : List (Row × Nat)) (i : Nat) (e : Expansion) : List Clash :=
  rows.flatMap fun (row, j) =>
    if j = i || row.gated then [] else row.expansions.filterMap (m.clash? i j e)

/-- For every expansion of an alternative its clashes; a gated one has none. -/
def Row.verdicts (m : TokenModel) (rows : List (Row × Nat)) (row : Row) (i : Nat) :
    List (Expansion × List Clash) :=
  row.expansions.map fun e => (e, if row.gated then [] else clashes m rows i e)

namespace Table

def start (branches : List Branch) : Table :=
  ⟨branches.map fun b => ⟨b, ∅, Std.TreeSet.empty.insert []⟩, []⟩

def isSettled (t : Table) : Bool := t.growths.all (·.active.isEmpty)

/-- The alternatives that still have paths to grow. -/
def unsettled (t : Table) : List Nat :=
  (t.growths.zipIdx.filter fun (b, _) => !b.active.isEmpty).map Prod.snd

/-- What the verdicts on the expansions of alternative `i` amount to. -/
def findingsOf (last : Bool) (i : Nat) (verdicts : List (Expansion × List Clash)) : List Finding :=
  verdicts.flatMap fun (e, clashes) =>
    clashes.filterMap (·.finding? i)
      ++ if last then (Clash.lastFinding? i e.path clashes).toList else []

/-- Lets the active paths grow to `depth` categories. -/
def round (g : Grammar) (m : TokenModel) (depth : Nat) (last : Bool) (t : Table) : Table :=
  match t.growths.mapM (·.row? g depth) with
  | none => ⟨t.growths.map (·.giveUp), Finding.note ⟨.pathLimit, t.unsettled, []⟩ t.findings⟩
  | some rows =>
    let rows := rows.zipIdx
    let verdicts := rows.map fun (row, i) => row.verdicts m rows i
    let found := (verdicts.zipIdx.map fun (v, i) => findingsOf last i v).flatten
    ⟨List.zipWith (Growth.sortOut last) verdicts t.growths,
      found.foldl (fun fs f => f.note fs) t.findings⟩

/-- Rounds up to `left` more than one, and the depth that was reached. -/
def rounds (g : Grammar) (m : TokenModel) : (left : Nat) → (depth : Nat) → Table → Nat × Table
  | 0, depth, t => (depth, t.round g m depth true)
  | left + 1, depth, t =>
    let t := t.round g m depth false
    if t.isSettled then (depth, t) else rounds g m left (depth + 1) t

end Table

namespace Decision

/-- The table of a decision with at most `k` categories on a path, and its findings. -/
def build (g : Grammar) (m : TokenModel) (k : Nat) (kind : DecisionKind) (idx : Nat)
    (branches : List Branch) : Decision × List Finding :=
  let (depth, t) := (Table.start branches).rounds g m (k - 1) 1
  let alternatives := t.growths.map fun b => ⟨b.settled.toList, b.branch.gated⟩
  (⟨kind, idx, depth, alternatives, !t.findings.isEmpty⟩, t.findings)

/-- The categories that any of the alternatives can start with. -/
def startCategories (alternatives : List Alternative) : List CategoryId :=
  (CategorySet.ofList (alternatives.flatMap fun a => a.paths.filterMap (·.head?))).toList

end Decision

end PredictiveParsing
