import PredictiveParsing.Proofs.Outcome
import PredictiveParsing.Regex.Engine

/-!
# The laws of engines

What the documentation of an engine promises: the syntax of the patterns that it compiles, and what
it means that a pattern matches. It is silent on which of several matches is found. The standard
engine keeps these promises.
-/

namespace PredictiveParsing.Regex

structure Engine.Laws [Dialect] (engine : Engine) : Prop where
  /-- A source that is compiled is written in the syntax of the dialect. -/
  exists_read {source : List Char} {program : Program} (h : engine.compile source = .ok program) :
    ∃ e, read source = .ok e
  /-- What is found in a text is a match of the expression that the source stands for. -/
  matches_of_find {source : List Char} {program : Program} {e : Regex} {text : List Char}
    {i j : Nat} (h : engine.compile source = .ok program) (he : read source = .ok e)
    (hfind : program.find text = some (i, j)) :
    ∃ front image rest, text = front ++ image ++ rest ∧ byteCount front = i ∧
      byteCount (front ++ image) = j ∧ e.Matches front.getLast? image rest

theorem Engine.compile_standard {source : List Char} {r : Regex} (h : read source = .ok r) :
    Engine.standard.compile source = .ok (program r) :=
  congrArg (Except.map program) h

theorem Engine.standard_laws : Engine.standard.Laws where
  exists_read h :=
    let ⟨e, he, _⟩ := Outcome.map_eq_ok.mp h
    ⟨e, he⟩
  matches_of_find h he hfind := by
    obtain ⟨e', he', rfl⟩ := Outcome.map_eq_ok.mp h
    obtain rfl := Except.ok.inj (he.symm.trans he')
    exact matches_of_find? hfind

end PredictiveParsing.Regex
