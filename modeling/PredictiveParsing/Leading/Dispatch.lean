import PredictiveParsing.Leading.Pattern
import PredictiveParsing.Token.Model

/-!
# Dispatch on the first character

A table from the first character of the rest of the input to the categories that can match there, in
the order of their registration. All characters beyond ASCII share one entry.
-/

namespace PredictiveParsing

/-- The characters that tokens of a category start with: the declared ones, or else those of its
pattern, where they can be told. -/
def Category.leadingSet? (c : Category) : Option LeadingSet :=
  match c.leading with
  | some chars => some (.ofList chars)
  | none =>
    match c.pattern with
    | .literal text => text.toList.head?.map fun ch => LeadingSet.empty.insert ch
    | .regex source => Leading.ofPattern? source.toList
    | .custom _ => none
    | .abstract => none

structure DispatchTable where
  buckets : Array (Array CategoryId)

namespace DispatchTable

/-- The entry of all characters beyond ASCII. -/
def sharedBucket : Nat := 128

def bucketOf (c : Char) : Nat := if Unicode.isAscii c then c.toNat else sharedBucket

def empty : DispatchTable := ⟨Array.replicate (sharedBucket + 1) #[]⟩

def push (t : DispatchTable) (id : CategoryId) (bucket : Nat) : DispatchTable :=
  ⟨t.buckets.modify bucket (·.push id)⟩

/-- Enters a category under all its leading characters. -/
def enter (t : DispatchTable) (id : CategoryId) (s : LeadingSet) : DispatchTable :=
  let t := s.asciiCodes.foldl (fun t code => t.push id code) t
  if s.nonAscii then t.push id sharedBucket else t

/-- The table of a model, or the names of the categories that cannot be entered. -/
def build (m : TokenModel) : Except (List String) DispatchTable :=
  let sets := m.concrete.map fun c => (c, c.leadingSet?)
  let unknown := sets.filterMap fun (c, s) => if s.isSome then none else some c.name
  if unknown.isEmpty then
    .ok <| sets.foldl (fun t (c, s) => t.enter c.id (s.getD .empty)) empty
  else .error unknown

/-- The categories that can match where the input goes on with `c`. -/
def candidates (t : DispatchTable) (c : Char) : List CategoryId :=
  (t.buckets[bucketOf c]?.getD #[]).toList

end DispatchTable

end PredictiveParsing
