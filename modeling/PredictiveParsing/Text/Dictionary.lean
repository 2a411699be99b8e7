/-!
# Dictionaries

Values under text keys, kept in ascending order of their keys.
-/

namespace PredictiveParsing

abbrev Dictionary (α : Type) := List (String × α)

namespace Dictionary

variable {α : Type}

def get? (d : Dictionary α) (key : String) : Option α := List.lookup key d

/-- Puts `change` of the value that stands under the key, if any, in its place. -/
def alter (key : String) (change : Option α → α) : Dictionary α → Dictionary α
  | [] => [(key, change none)]
  | (k, v) :: rest =>
    if key = k then (k, change (some v)) :: rest
    else if key < k then (key, change none) :: (k, v) :: rest
    else (k, v) :: alter key change rest

/-- The last value put under a key stands. -/
def put (d : Dictionary α) (key : String) (value : α) : Dictionary α :=
  d.alter key fun _ => value

def ofList (entries : List (String × α)) : Dictionary α :=
  entries.foldl (fun d (k, v) => d.put k v) []

end Dictionary

end PredictiveParsing
