import PredictiveParsing.Proofs.Lexing.LongestMatch
import PredictiveParsing.Proofs.Regex.Anchoring
import PredictiveParsing.Proofs.Regex.Laws
import PredictiveParsing.Proofs.Regex.Starts

/-!
# Matches of regular expressions

A category with a regular expression matches where the lexer is, and what it matches is a match of
the expression on its own: the group around the expression and the condition in front of it say no
more than that. Only a pattern that closes that group itself escapes from the condition.
-/

namespace PredictiveParsing

/-- The model with one category, which has a regular expression. -/
def regexModel (source : String) : TokenModel :=
  (TokenModel.empty.define "Token" none (.regex source) .normal).2

theorem built_regexModel (source : String) : (regexModel source).Built :=
  .define _ _ _ _ (.tagged 0)

theorem exists_mem_regexModel {source : String} {text : List Char} {pos len : Nat}
    (h : (regexModel source).concrete.map (fun k => (k.pattern, k.matchAt? text pos)) =
      [(.regex source, some len)]) :
    ∃ k ∈ (regexModel source).categories, k.pattern = .regex source ∧
      k.matchAt? text pos = some len := by
  obtain ⟨k, hconcrete, hk⟩ := List.map_eq_singleton_iff.mp h
  have hmem : k ∈ (regexModel source).concrete := by
    rw [hconcrete]
    exact List.mem_singleton_self k
  obtain ⟨hpattern, hmatch⟩ := Prod.mk.inj hk
  exact ⟨k, Array.mem_toList_iff.mp (List.mem_filter.mp hmem).1, hpattern, hmatch⟩

theorem laws_regexModel (source : String) : (regexModel source).engine.Laws := by
  rw [regexModel, TokenModel.engine_define]
  exact Regex.Engine.standard_laws

/-- A pattern that closes the group and opens another one: what is behind the bar is found
anywhere. -/
def breakout : String := "a)|(?:b"

/-- What the pattern becomes behind the condition that it escapes from. -/
def breakoutRegex : Regex :=
  .alt (.cat (.look .textStart) (.chars (.single 'a'))) (.chars (.single 'b'))

theorem read_breakout : Regex.read breakout.toList = .error .unopenedGroup ∧
    Regex.read (anchored breakout) = .ok breakoutRegex := by
  constructor <;> cbv

private theorem length_of_matches_breakout {before : Option Char} {xs rest : List Char}
    (h : breakoutRegex.Matches before xs rest) : xs.length = 1 := by
  cases h with
  | left h =>
    cases h with
    | cat ha hb =>
      cases ha
      cases hb
      rfl
  | right h =>
    cases h
    rfl

/-- The match ends where the `b` does, although not even the pattern in its group matches the text
up to there. -/
theorem matchAt?_breakout : ∃ k ∈ (regexModel breakout).categories,
    k.pattern = .regex breakout ∧ k.matchAt? "xb".toList 0 = some 2 ∧
      ∀ r, Regex.read (anchored breakout) = .ok r → ¬r.Matches none "xb".toList [] := by
  have hmatch : (regexModel breakout).concrete.map (fun k =>
      (k.pattern, k.matchAt? "xb".toList 0)) = [(.regex breakout, some 2)] := by cbv
  obtain ⟨k, hk, hpattern, hmatch⟩ := exists_mem_regexModel hmatch
  refine ⟨k, hk, hpattern, hmatch, fun r hread h => ?_⟩
  obtain rfl := Except.ok.inj (read_breakout.2.symm.trans hread)
  exact absurd (length_of_matches_breakout h) (by decide)

end PredictiveParsing
