import PredictiveParsing.Json.Value
import PredictiveParsing.Token.Category

/-!
# Phrases

A phrase says what a rule consumes, piece by piece: tokens, other rules, optional and repeated
phrases, and choices between phrases. Every piece carries the index that its author gave it, which
keeps equal pieces of one rule apart.
-/

namespace PredictiveParsing

/-- Pieces in a row; every piece holds the ones behind it. -/
inductive Phrase where
  | nil
  | terminal (category : CategoryId) (idx : Nat) (rest : Phrase)
  | call (rule : String) (idx : Nat) (rest : Phrase)
  | option (idx : Nat) (body rest : Phrase)
  | repetition (idx : Nat) (atLeastOne : Bool) (body rest : Phrase)
  | choice {n : Nat} (idx : Nat) (gated : Fin n → Bool) (body : Fin n → Phrase) (rest : Phrase)
deriving Inhabited

/-- The pieces at which a parser has to look ahead. -/
inductive DecisionKind where
  | option | many | atLeastOne | or
deriving DecidableEq

namespace DecisionKind

/-- Decisions of a rule are listed by kind, in this order. -/
def rank : DecisionKind → Nat
  | option => 0
  | many => 1
  | atLeastOne => 2
  | or => 3

def keyword : DecisionKind → String
  | option => "option"
  | many => "many"
  | atLeastOne => "at_least_one"
  | or => "or"

def title : DecisionKind → String
  | option => "Option"
  | many => "Many"
  | atLeastOne => "AtLeastOne"
  | or => "Or"

def ofRepetition (atLeastOne : Bool) : DecisionKind := if atLeastOne then .atLeastOne else .many

end DecisionKind

/-- What a piece is, without its index and its parts. -/
inductive Occurrence where
  | terminal (category : CategoryId)
  | call (rule : String)
  | decision (kind : DecisionKind)
deriving DecidableEq

/-- Something that comes next when a part of a phrase is done. -/
inductive Frame where
  /-- The pieces behind a piece. -/
  | rest (p : Phrase)
  /-- Another round of a repetition. -/
  | again (body : Phrase)

/-- A phrase inside of a rule, with all that comes behind its first piece, the nearest first. -/
structure Place where
  phrase : Phrase
  after : List Frame

namespace Phrase

def append : Phrase → Phrase → Phrase
  | nil, q => q
  | terminal c i rest, q => terminal c i (rest.append q)
  | call r i rest, q => call r i (rest.append q)
  | option i body rest, q => option i body (rest.append q)
  | repetition i b body rest, q => repetition i b body (rest.append q)
  | choice i gated body rest, q => choice i gated body (rest.append q)

instance : Append Phrase := ⟨append⟩

theorem append_nil (p : Phrase) : p ++ nil = p := by
  change p.append nil = p
  induction p with
  | nil => rfl
  | terminal c i rest ih => rw [append, ih]
  | call r i rest ih => rw [append, ih]
  | option i body rest _ ih => rw [append, ih]
  | repetition i b body rest _ ih => rw [append, ih]
  | choice i gated body rest _ ih => rw [append, ih]

theorem append_assoc (p q r : Phrase) : p ++ q ++ r = p ++ (q ++ r) := by
  change (p.append q).append r = p.append (q.append r)
  induction p with
  | nil => rfl
  | terminal c i rest ih => rw [append, append, append, ih]
  | call s i rest ih => rw [append, append, append, ih]
  | option i body rest _ ih => rw [append, append, append, ih]
  | repetition i b body rest _ ih => rw [append, append, append, ih]
  | choice i gated body rest _ ih => rw [append, append, append, ih]

/-- The number of pieces, those inside of others included. -/
def size : Phrase → Nat
  | nil => 0
  | terminal _ _ rest => rest.size + 1
  | call _ _ rest => rest.size + 1
  | option _ body rest => body.size + rest.size + 1
  | repetition _ _ body rest => body.size + rest.size + 1
  | choice _ _ body rest => (List.ofFn fun k => (body k).size).foldr (· + ·) 0 + rest.size + 1

/-- All pieces with their indices, each one before its parts. -/
def occurrences : Phrase → List (Occurrence × Nat)
  | nil => []
  | terminal c i rest => (.terminal c, i) :: rest.occurrences
  | call r i rest => (.call r, i) :: rest.occurrences
  | option i body rest => (.decision .option, i) :: (body.occurrences ++ rest.occurrences)
  | repetition i b body rest =>
    (.decision (.ofRepetition b), i) :: (body.occurrences ++ rest.occurrences)
  | choice i _ body rest =>
    (.decision .or, i) :: ((List.ofFn fun k => (body k).occurrences).flatten ++ rest.occurrences)

/-- All places of a phrase that is followed by `after`, each piece before its parts. -/
def places (after : List Frame) : Phrase → List Place
  | nil => []
  | p@(terminal _ _ rest) => ⟨p, .rest rest :: after⟩ :: rest.places after
  | p@(call _ _ rest) => ⟨p, .rest rest :: after⟩ :: rest.places after
  | p@(option _ body rest) =>
    ⟨p, .rest rest :: after⟩ :: (body.places (.rest rest :: after) ++ rest.places after)
  | p@(repetition _ _ body rest) =>
    ⟨p, .rest rest :: after⟩
      :: (body.places (.again body :: .rest rest :: after) ++ rest.places after)
  | p@(choice _ _ body rest) =>
    ⟨p, .rest rest :: after⟩
      :: ((List.ofFn fun k => (body k).places (.rest rest :: after)).flatten ++ rest.places after)

private def node (title : String) (members : List (String × Json)) : Json :=
  .object (("node", .string title) :: members)

def toJson : Phrase → List Json
  | nil => []
  | terminal c i rest => node "terminal" [("category", .nat c), ("idx", .nat i)] :: rest.toJson
  | call r i rest => node "non_terminal" [("rule", .string r), ("idx", .nat i)] :: rest.toJson
  | option i body rest =>
    node "option" [("idx", .nat i), ("body", .array body.toJson)] :: rest.toJson
  | repetition i b body rest =>
    node "repetition" [("idx", .nat i), ("at_least_one", .bool b), ("body", .array body.toJson)]
      :: rest.toJson
  | choice i gated body rest =>
    let alternatives := List.ofFn fun k =>
      Json.object [("gated", .bool (gated k)), ("body", .array (body k).toJson)]
    node "alternation" [("idx", .nat i), ("alternatives", .array alternatives)] :: rest.toJson

end Phrase

end PredictiveParsing
