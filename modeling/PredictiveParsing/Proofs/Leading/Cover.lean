import PredictiveParsing.Leading.Pattern
import PredictiveParsing.Proofs.Leading.Set
import PredictiveParsing.Proofs.Regex.Starts
import PredictiveParsing.Regex.Reader

/-!
# Covers of expressions

What the scan of a pattern keeps of an expression covers it when it has all first characters of the
expression and tells where the expression can be empty. Each way to build an expression keeps this.
-/

namespace PredictiveParsing.Leading

open Regex (Piece)

variable [Regex.Dialect]

/-- A first set on the safe side of an expression. -/
structure First.Covers (x : First) (e : Regex) : Prop where
  contains : ∀ c, e.Starts c → x.set.contains c = true
  nullable : e.nullable = true → x.nullable = true

namespace First.Covers

variable {x y : First} {e f : Regex}

theorem empty : First.epsilon.Covers .empty where
  contains := fun _ h => h.elim
  nullable := fun _ => rfl

theorem look (l : Look) : First.epsilon.Covers (.look l) where
  contains := fun _ h => h.elim
  nullable := fun _ => rfl

theorem chars {s : LeadingSet} {k : CharClass}
    (h : ∀ c, k.contains c = true → s.contains c = true) : (First.of s).Covers (.chars k) where
  contains := h
  nullable := fun h => by cases h

theorem followedBy (hx : x.Covers e) (hy : y.Covers f) :
    (x.followedBy y).Covers (e.andThen f) := by
  rw [First.followedBy]
  split
  · constructor
    · intro c hc
      rw [LeadingSet.contains_union, Bool.or_eq_true]
      rcases Regex.starts_andThen.mp hc with hc | ⟨_, hc⟩
      · exact .inl (hx.contains c hc)
      · exact .inr (hy.contains c hc)
    · intro hn
      rw [Regex.nullable_andThen, Bool.and_eq_true] at hn
      exact hy.nullable hn.2
  · rename_i hnull
    have hne : ¬ e.nullable = true := fun h => hnull (hx.nullable h)
    constructor
    · intro c hc
      rcases Regex.starts_andThen.mp hc with hc | ⟨hn, _⟩
      · exact hx.contains c hc
      · exact absurd hn hne
    · intro hn
      rw [Regex.nullable_andThen, Bool.and_eq_true] at hn
      exact absurd hn.1 hne

theorem alt (hx : x.Covers e) (hy : x.Covers f) : x.Covers (.alt e f) where
  contains := by
    intro c hc
    rcases hc with hc | hc
    · exact hx.contains c hc
    · exact hy.contains c hc
  nullable := by
    intro hn
    rw [Regex.nullable, Bool.or_eq_true] at hn
    rcases hn with hn | hn
    · exact hx.nullable hn
    · exact hy.nullable hn

theorem either_left (h : x.Covers e) : (x.either y).Covers e where
  contains := fun c hc => by
    rw [First.either, LeadingSet.contains_union, h.contains c hc, Bool.true_or]
  nullable := fun hn => by rw [First.either, h.nullable hn, Bool.true_or]

theorem either_right (h : y.Covers e) : (x.either y).Covers e where
  contains := fun c hc => by
    rw [First.either, LeadingSet.contains_union, h.contains c hc, Bool.or_true]
  nullable := fun hn => by rw [First.either, h.nullable hn, Bool.or_true]

/-- A repetition is covered by what covers one round, as long as it may be empty where it needs no
round. -/
theorem repeated (h : x.Covers e) {zero greedy : Bool} {least : Nat} {most : Option Nat}
    (hzero : least = 0 → zero = true) :
    (if zero then { x with nullable := true } else x).Covers (e.repeated greedy least most) where
  contains := by
    intro c hc
    have hset := h.contains c (Regex.starts_of_repeated hc)
    split <;> exact hset
  nullable := by
    intro hn
    cases zero with
    | true => rfl
    | false =>
      rcases Regex.nullable_of_repeated hn with hn | hn
      · cases hzero hn
      · exact h.nullable hn

theorem repeated_succ (h : x.Covers e) {greedy : Bool} {n : Nat} {most : Option Nat} :
    x.Covers (e.repeated greedy (n + 1) most) where
  contains := fun c hc => h.contains c (Regex.starts_of_repeated hc)
  nullable := fun hn =>
    h.nullable ((Regex.nullable_of_repeated hn).resolve_left (Nat.succ_ne_zero n))

end First.Covers

/-! ## Pieces -/

omit [Regex.Dialect] in
theorem regex_sequence (ps : List Piece) :
    (Piece.sequence ps).regex = ps.foldl (fun r p => p.regex.andThen r) .empty := by
  match ps with
  | [] => rfl
  | [p] =>
    rw [List.foldl_cons, List.foldl_nil, Regex.andThen]
    split
    · rename_i h
      simpa [Piece.sequence] using h
    · rfl
  | p :: q :: ps => rfl

omit [Regex.Dialect] in
theorem nullable_foldl_andThen (ps : List Piece) (e : Regex) :
    (ps.foldl (fun r p => p.regex.andThen r) e).nullable =
      ((Piece.sequence ps).regex.nullable && e.nullable) := by
  rw [regex_sequence]
  induction ps generalizing e with
  | nil => simp [Regex.nullable]
  | cons p ps ih =>
    rw [List.foldl_cons, List.foldl_cons, ih (p.regex.andThen e), ih (p.regex.andThen .empty),
      Regex.nullable_andThen, Regex.nullable_andThen]
    simp [Regex.nullable, Bool.and_assoc]

private theorem starts_foldl_andThen {c : Char} (ps : List Piece) (e : Regex) :
    (ps.foldl (fun r p => p.regex.andThen r) e).Starts c ↔
      (Piece.sequence ps).regex.Starts c ∨
        ((Piece.sequence ps).regex.nullable = true ∧ e.Starts c) := by
  rw [regex_sequence]
  induction ps generalizing e with
  | nil => simp [Regex.Starts, Regex.nullable]
  | cons p ps ih =>
    rw [List.foldl_cons, List.foldl_cons, ih (p.regex.andThen e), ih (p.regex.andThen .empty),
      nullable_foldl_andThen ps (p.regex.andThen .empty), regex_sequence, Regex.starts_andThen,
      Regex.starts_andThen, Regex.nullable_andThen]
    simp only [Regex.Starts, Regex.nullable, and_false, or_false, Bool.and_true, Bool.and_eq_true]
    constructor
    · rintro (h | ⟨hn, h | ⟨hp, h⟩⟩)
      · exact .inl (.inl h)
      · exact .inl (.inr ⟨hn, h⟩)
      · exact .inr ⟨⟨hn, hp⟩, h⟩
    · rintro ((h | ⟨hn, h⟩) | ⟨⟨hn, hp⟩, h⟩)
      · exact .inl h
      · exact .inr ⟨hn, .inl h⟩
      · exact .inr ⟨hn, .inr ⟨hp, h⟩⟩

/-- One more piece behind the others of a branch. -/
theorem First.Covers.sequence_cons {x y : First} {p : Piece} {ps : List Piece}
    (hx : x.Covers (Piece.sequence ps).regex) (hy : y.Covers p.regex) :
    (x.followedBy y).Covers (Piece.sequence (p :: ps)).regex := by
  have hboth := hx.followedBy hy
  rw [regex_sequence, List.foldl_cons]
  constructor
  · intro c hc
    rw [starts_foldl_andThen, Regex.starts_andThen] at hc
    refine hboth.contains c (Regex.starts_andThen.mpr ?_)
    simpa [Regex.Starts] using hc
  · intro hn
    apply hboth.nullable
    rw [nullable_foldl_andThen, Regex.nullable_andThen] at hn
    simpa [Regex.nullable_andThen, Regex.nullable] using hn

/-- What covers all branches covers the alternatives between them. -/
theorem First.Covers.alternatives {x : First} {last : Piece} {branches : List Piece}
    (hlast : x.Covers last.regex) (hbranches : ∀ p ∈ branches, x.Covers p.regex) :
    x.Covers (Piece.alternatives last branches).regex := by
  have hfold : ∀ (ps : List Piece) (e : Regex), x.Covers e → (∀ p ∈ ps, x.Covers p.regex) →
      x.Covers (ps.foldl (fun r p => .alt p.regex r) e) := by
    intro ps
    induction ps with
    | nil => exact fun e he _ => he
    | cons p ps ih =>
      intro e he hps
      have hp := hps p List.mem_cons_self
      exact ih _ (hp.alt he) fun q hq => hps q (List.mem_cons_of_mem _ hq)
  cases branches with
  | nil => exact hlast
  | cons p ps => exact hfold (p :: ps) _ hlast hbranches

end PredictiveParsing.Leading
