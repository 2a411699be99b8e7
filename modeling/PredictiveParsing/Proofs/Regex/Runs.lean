import PredictiveParsing.Proofs.Text.Places
import PredictiveParsing.Regex.Search

/-!
# Runs of characters

An expression that is tied to the start of a text and repeats a class of characters as often as it
can matches the run of such characters there.
-/

namespace PredictiveParsing.Regex

variable [Dialect] {s t : CharClass} {before : Option Char} {place : Nat} {best : Option Nat}
  {c : Char} {cs : List Char}

/-- A match that can only begin where the text does is followed from there. -/
theorem find?_eq_follow {r : Regex} (h : r.startsAtTextStart = true) (text : List Char) :
    r.find? text = (follow none [r] 0 none text).map fun stop => (0, stop) := by
  cases text with
  | nil => rfl
  | cons c cs =>
    rw [find?, searchFrom]
    cases follow none [r] 0 none (c :: cs) with
    | none => simp [h]
    | some stop => rfl

omit [Dialect] in
theorem dropDuplicates_singleton (r : Regex) : dropDuplicates [r] = [r] := rfl

private theorem follow_empty : follow before [empty] place best cs = some place := by
  cases cs <;> rfl

/-- A greedy repetition goes through the whole run. -/
theorem follow_again : follow before [again true (chars s)] place best cs =
    some (place + byteCount (cs.takeWhile s.contains)) := by
  induction cs generalizing before place best with
  | nil => rfl
  | cons c cs ih =>
    have hfrontier : frontier before (some c) [again true (chars s)]
        = ([(s, again true (chars s))], true) := rfl
    simp only [follow, hfrontier, List.takeWhile_cons]
    cases hc : s.contains c with
    | false => simp [hc, dropDuplicates, byteCount_nil]
    | true =>
      simp only [hc, List.filterMap_cons, List.filterMap_nil, if_true, dropDuplicates_singleton]
      rw [ih, byteCount_cons, Nat.add_assoc]

/-- At least one character of a class, and as many as there are. -/
def run (s : CharClass) : Regex := cat (look .textStart) (plus true (chars s))

theorem find?_run (text : List Char) : (run s).find? text =
    if text.takeWhile s.contains = [] then none
    else some (0, byteCount (text.takeWhile s.contains)) := by
  rw [find?_eq_follow rfl]
  cases text with
  | nil => rfl
  | cons c cs =>
    have hfrontier : frontier none (some c) [run s] = ([(s, again true (chars s))], false) := rfl
    simp only [follow, hfrontier, List.takeWhile_cons]
    cases hc : s.contains c with
    | false => simp [hc, dropDuplicates]
    | true =>
      simp only [hc, List.filterMap_cons, List.filterMap_nil, if_true, dropDuplicates_singleton]
      rw [follow_again, byteCount_cons, Nat.zero_add, if_neg (List.cons_ne_nil _ _),
        Option.map_some]

/-- A character of `s` and all of `t` behind it, or one character of `z`. -/
def headedRun (s t z : CharClass) : Regex :=
  cat (look .textStart) (alt (cat (chars s) (again true (chars t))) (chars z))

theorem find?_headedRun {z : CharClass} (hz : s.contains c = true → z.contains c = false) :
    (headedRun s t z).find? (c :: cs) =
      if s.contains c = true then some (0, byteCount (c :: cs.takeWhile t.contains))
      else if z.contains c = true then some (0, c.utf8Size) else none := by
  have hfrontier : frontier none (some c) [headedRun s t z]
      = ([(s, again true (chars t)), (z, empty)], false) := rfl
  rw [find?_eq_follow rfl]
  simp only [follow, hfrontier, List.filterMap_cons, List.filterMap_nil]
  cases hs : s.contains c with
  | true =>
    simp only [hz hs, if_true, Bool.false_eq_true, if_false]
    simp only [dropDuplicates_singleton, follow_again, byteCount_cons, Nat.zero_add,
      Option.map_some]
  | false =>
    cases hzc : z.contains c with
    | true =>
      simp only [if_true, Bool.false_eq_true, if_false]
      simp only [dropDuplicates_singleton, follow_empty, Nat.zero_add, Option.map_some]
    | false => simp [dropDuplicates]

end PredictiveParsing.Regex
