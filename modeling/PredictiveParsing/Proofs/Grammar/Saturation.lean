import Mathlib.Algebra.BigOperators.Group.Finset.Basic
import Mathlib.Algebra.Order.BigOperators.Group.Finset
import Mathlib.Data.List.Perm.Subperm
import Mathlib.Data.List.OfFn
import PredictiveParsing.Grammar.FollowSets
import PredictiveParsing.Proofs.Grammar.Derivation

/-!
# Facts about rules are saturated

What is known of the rules of a grammar is found by steps that only add to it. There is only so much
to add, so the steps come to an end where another one adds nothing, well within the number of steps
that are made.
-/

namespace PredictiveParsing

/-! ## Steps that come to an end -/

private theorem untilStable_stable {α : Type} [DecidableEq α] {step : α → α} {inv : α → Prop}
    (rank : α → Nat) {bound : Nat} (hinv : ∀ x, inv x → inv (step x))
    (hrank : ∀ x, inv x → step x ≠ x → rank x < rank (step x))
    (hbound : ∀ x, inv x → rank x ≤ bound) {fuel : Nat} {x : α} (hx : inv x)
    (hf : bound < rank x + fuel) :
    inv (untilStable step fuel x) ∧ step (untilStable step fuel x) = untilStable step fuel x := by
  induction fuel generalizing x with
  | zero => exact absurd (hbound x hx) (by omega)
  | succ fuel ih =>
    by_cases h : step x = x
    · rw [untilStable_of_stable h]
      exact ⟨hx, h⟩
    · have hlt := hrank x hx h
      rw [untilStable_eq_step]
      exact ih (hinv x hx) (by omega)

/-- Arrays of which no entry can grow beyond a bound. -/
theorem untilStable_stable_of_grows {α : Type} [DecidableEq α] {step : Array α → Array α}
    (inv : Array α → Prop) (weight : α → Nat) (n bound : Nat) (hsize : ∀ x, inv x → x.size = n)
    (hinv : ∀ x, inv x → inv (step x))
    (hgrows : ∀ x, inv x → ∀ (i : Nat) (a b : α), x[i]? = some a → (step x)[i]? = some b →
      a = b ∨ weight a < weight b)
    (hbound : ∀ x, inv x → ∀ a ∈ x, weight a ≤ bound) {x : Array α} (hx : inv x) {fuel : Nat}
    (hf : n * bound < fuel) :
    inv (untilStable step fuel x) ∧ step (untilStable step fuel x) = untilStable step fuel x := by
  let rank (x : Array α) : Nat := ∑ i ∈ Finset.range n, (x[i]?.map weight).getD 0
  have hle : ∀ x, inv x → rank x ≤ n * bound := by
    intro x hx
    have h := Finset.sum_le_card_nsmul (Finset.range n) (fun i => (x[i]?.map weight).getD 0) bound
      fun i hi => by
        have hlt : i < x.size := hsize x hx ▸ Finset.mem_range.1 hi
        simpa [Array.getElem?_eq_getElem hlt] using hbound x hx _ (Array.getElem_mem hlt)
    simpa using h
  refine untilStable_stable rank hinv (fun x hx hne => ?_) hle hx (by omega)
  have hx' := hsize x hx
  have hy' := hsize _ (hinv x hx)
  have hentry : ∀ i, i < n → ∃ a b, x[i]? = some a ∧ (step x)[i]? = some b
      ∧ (a = b ∨ weight a < weight b) := by
    intro i hi
    have ha := Array.getElem?_eq_getElem (show i < x.size by omega)
    have hb := Array.getElem?_eq_getElem (show i < (step x).size by omega)
    exact ⟨_, _, ha, hb, hgrows x hx i _ _ ha hb⟩
  refine Finset.sum_lt_sum (fun i hi => ?_) ?_
  · obtain ⟨a, b, ha, hb, h⟩ := hentry i (Finset.mem_range.1 hi)
    simp only [ha, hb, Option.map_some, Option.getD_some]
    rcases h with rfl | h
    · exact le_rfl
    · exact le_of_lt h
  · by_contra hno
    refine hne (Array.ext_getElem? fun i => ?_)
    rcases Nat.lt_or_ge i n with hi | hi
    · obtain ⟨a, b, ha, hb, rfl | h⟩ := hentry i hi
      · rw [ha, hb]
      · exact absurd ⟨i, Finset.mem_range.2 hi, by simpa [ha, hb] using h⟩ hno
    · rw [Array.getElem?_eq_none (by omega), Array.getElem?_eq_none (by omega)]

/-! ## Sets that grow -/

namespace CategorySet

instance : HasSubset CategorySet := ⟨fun s t => ∀ c ∈ s, c ∈ t⟩

theorem not_mem_empty (c : CategoryId) : c ∉ empty := List.not_mem_nil

theorem nodup (s : CategorySet) : s.toList.Nodup := s.ascending.imp Nat.ne_of_lt

private theorem length_le {s : CategorySet} {cs : List CategoryId} (h : ∀ c ∈ s, c ∈ cs) :
    s.toList.length ≤ cs.length := (s.nodup.subperm h).length_le

theorem eq_or_length_lt {s t : CategorySet} (h : s ⊆ t) :
    s = t ∨ s.toList.length < t.toList.length := by
  have hp := s.nodup.subperm h
  rcases Nat.lt_or_eq_of_le hp.length_le with hlt | heq
  · exact .inr hlt
  · left
    have hperm := hp.perm_of_length_le heq.ge
    obtain ⟨xs, hs⟩ := s
    obtain ⟨ys, ht⟩ := t
    obtain rfl : xs = ys := hperm.eq_of_pairwise
      (fun a b _ _ hab hba => absurd hab (Nat.lt_asymm hba)) hs ht
    rfl

private theorem mem_foldl_union {ss : List CategorySet} {s : CategorySet} {c : CategoryId} :
    c ∈ ss.foldl (· ∪ ·) s ↔ c ∈ s ∨ ∃ t ∈ ss, c ∈ t := by
  induction ss generalizing s with
  | nil => simp
  | cons t ss ih =>
    simp only [List.foldl_cons, ih, mem_union, List.mem_cons, exists_eq_or_imp, or_assoc]

end CategorySet

namespace Phrase

theorem any_ofFn {n : Nat} {f : Fin n → Bool} : (List.ofFn f).any id = true ↔ ∃ k, f k = true := by
  simp

private theorem isNullable_mono {f f' : String → Bool} (h : ∀ name, f name = true → f' name = true)
    {p : Phrase} (hp : p.isNullable f = true) : p.isNullable f' = true := by
  induction p with
  | nil => rfl
  | terminal c i rest ih => cases hp
  | call r i rest ih =>
    simp only [isNullable, Bool.and_eq_true] at hp ⊢
    exact ⟨h r hp.1, ih hp.2⟩
  | option i body rest ihb ih => exact ih hp
  | repetition i b body rest ihb ih =>
    simp only [isNullable, Bool.and_eq_true, Bool.or_eq_true] at hp ⊢
    exact ⟨hp.1.imp_right ihb, ih hp.2⟩
  | choice i gated body rest ihb ih =>
    simp only [isNullable, Bool.and_eq_true, any_ofFn] at hp ⊢
    exact ⟨hp.1.imp fun k hk => ihb k hk, ih hp.2⟩

section

variable {nullable : String → Bool} {rule : String → CategorySet} {c d : CategoryId} {i : Nat}
  {body rest : Phrase}

theorem mem_first_terminal : c ∈ (terminal d i rest).first nullable rule ↔ c = d :=
  CategorySet.mem_insert.trans (or_iff_left (CategorySet.not_mem_empty c))

theorem mem_first_call {r : String} : c ∈ (call r i rest).first nullable rule ↔
    c ∈ rule r ∨ (nullable r = true ∧ c ∈ rest.first nullable rule) := by
  simp only [first]
  split
  · rename_i h
    rw [CategorySet.mem_union, and_iff_right h]
  · rename_i h
    rw [or_iff_left fun hc => h hc.1]

theorem mem_first_option : c ∈ (option i body rest).first nullable rule ↔
    c ∈ body.first nullable rule ∨ c ∈ rest.first nullable rule := CategorySet.mem_union

theorem mem_first_repetition {b : Bool} : c ∈ (repetition i b body rest).first nullable rule ↔
    c ∈ body.first nullable rule
      ∨ ((b = false ∨ body.isNullable nullable = true) ∧ c ∈ rest.first nullable rule) := by
  simp only [first]
  split
  · rename_i h
    rw [CategorySet.mem_union, and_iff_right (by simpa using h)]
  · rename_i h
    rw [or_iff_left fun hc => h (by simpa using hc.1)]

theorem mem_first_choice {n : Nat} {gated : Fin n → Bool} {body : Fin n → Phrase} :
    c ∈ (choice i gated body rest).first nullable rule ↔
      (∃ k, c ∈ (body k).first nullable rule)
        ∨ ((∃ k, (body k).isNullable nullable = true) ∧ c ∈ rest.first nullable rule) := by
  have hheads : c ∈ (List.ofFn fun k => (body k).first nullable rule).foldl (· ∪ ·) .empty ↔
      ∃ k, c ∈ (body k).first nullable rule := by
    simp [CategorySet.mem_foldl_union, CategorySet.not_mem_empty]
  simp only [first]
  split
  · rename_i h
    rw [CategorySet.mem_union, hheads, and_iff_right (any_ofFn.1 h)]
  · rename_i h
    rw [hheads, or_iff_left fun hc => h (any_ofFn.2 hc.1)]

end

private theorem first_mono {nullable : String → Bool} {f f' : String → CategorySet}
    (h : ∀ name, f name ⊆ f' name) {p : Phrase} {c : CategoryId} (hc : c ∈ p.first nullable f) :
    c ∈ p.first nullable f' := by
  induction p with
  | nil => exact hc
  | terminal d i rest ih => exact hc
  | call r i rest ih =>
    rw [mem_first_call] at hc ⊢
    exact hc.imp (h r c) (And.imp_right ih)
  | option i body rest ihb ih =>
    rw [mem_first_option] at hc ⊢
    exact hc.imp ihb ih
  | repetition i b body rest ihb ih =>
    rw [mem_first_repetition] at hc ⊢
    exact hc.imp ihb (And.imp_right ih)
  | choice i gated body rest ihb ih =>
    rw [mem_first_choice] at hc ⊢
    exact hc.imp (Exists.imp fun k => ihb k) (And.imp_right ih)

/-- What a phrase starts with is a token of its own or starts a rule. -/
theorem consumes_of_mem_first {nullable : String → Bool} {f : String → CategorySet} {p : Phrase}
    {c : CategoryId} (hc : c ∈ p.first nullable f) : p.Consumes c ∨ ∃ name, c ∈ f name := by
  induction p with
  | nil => exact absurd hc (CategorySet.not_mem_empty c)
  | terminal d i rest ih => exact .inl (consumes_terminal.2 (.inl (mem_first_terminal.1 hc)))
  | call r i rest ih =>
    rcases mem_first_call.1 hc with hc | ⟨-, hc⟩
    · exact .inr ⟨r, hc⟩
    · exact (ih hc).imp_left consumes_call.2
  | option i body rest ihb ih =>
    rcases mem_first_option.1 hc with hc | hc
    · exact (ihb hc).imp_left fun h => consumes_option.2 (.inl h)
    · exact (ih hc).imp_left fun h => consumes_option.2 (.inr h)
  | repetition i b body rest ihb ih =>
    rcases mem_first_repetition.1 hc with hc | ⟨-, hc⟩
    · exact (ihb hc).imp_left fun h => consumes_repetition.2 (.inl h)
    · exact (ih hc).imp_left fun h => consumes_repetition.2 (.inr h)
  | choice i gated body rest ihb ih =>
    rcases mem_first_choice.1 hc with ⟨k, hc⟩ | ⟨-, hc⟩
    · exact (ihb k hc).imp_left fun h => consumes_choice.2 (.inl ⟨k, h⟩)
    · exact (ih hc).imp_left fun h => consumes_choice.2 (.inr h)

private theorem length_occurrences (p : Phrase) : p.occurrences.length = p.size := by
  induction p with
  | nil => rfl
  | terminal c i rest ih => simp [occurrences, size, ih]
  | call r i rest ih => simp [occurrences, size, ih]
  | option i body rest ihb ih => simp [occurrences, size, ihb, ih]
  | repetition i b body rest ihb ih => simp [occurrences, size, ihb, ih]
  | choice i gated body rest ihb ih =>
    simp [occurrences, size, ihb, ih, List.length_flatten, List.map_ofFn, Function.comp_def,
      List.sum_eq_foldr]

end Phrase

namespace Grammar

variable {g : Grammar}

def consumed (g : Grammar) : List CategoryId :=
  g.productions.toList.flatMap fun p => p.phrase.occurrences.filterMap fun
    | (.terminal c, _) => some c
    | _ => none

private theorem length_consumed_le (g : Grammar) : g.consumed.length ≤ g.pieceCount := by
  have hsum : ∀ (ps : List Production) (n : Nat),
      n + (ps.flatMap fun p => p.phrase.occurrences.filterMap fun
        | (.terminal c, _) => some c
        | _ => none : List CategoryId).length ≤ ps.foldl (fun n p => n + p.phrase.size) n := by
    intro ps
    induction ps with
    | nil => exact fun n => le_rfl
    | cons p ps ih =>
      intro n
      refine le_trans ?_ (ih (n + p.phrase.size))
      rw [List.flatMap_cons, List.length_append, ← Phrase.length_occurrences, ← Nat.add_assoc]
      exact Nat.add_le_add_right (Nat.add_le_add_left (List.length_filterMap_le _ _) n) _
  have h := hsum g.productions.toList 0
  rwa [Nat.zero_add, Array.foldl_toList] at h

theorem mem_consumed {p : Production} (hp : p ∈ g.productions) {c : CategoryId}
    (hc : p.phrase.Consumes c) : c ∈ g.consumed := by
  obtain ⟨idx, hc⟩ := hc
  exact List.mem_flatMap.2 ⟨p, Array.mem_toList_iff.2 hp, List.mem_filterMap.2 ⟨_, hc, rfl⟩⟩

theorem exists_of_phrase? {name : String} {p : Phrase} (h : g.phrase? name = some p) :
    ∃ i q, g.ruleId? name = some i ∧ g.productions[i]? = some q ∧ q.phrase = p := by
  simp only [phrase?, Option.map_eq_some_iff, Option.bind_eq_some_iff] at h
  obtain ⟨q, ⟨i, hi, hq⟩, hp⟩ := h
  exact ⟨i, q, hi, hq, hp⟩

theorem phrase?_of_ruleId {name : String} {i : RuleId} {p : Production}
    (hi : g.ruleId? name = some i) (hp : g.productions[i]? = some p) :
    g.phrase? name = some p.phrase := by
  simp [phrase?, hi, hp]

theorem ofRule_eq {α : Type} {facts : Array α} {default a : α} {name : String} {i : RuleId}
    (hi : g.ruleId? name = some i) (ha : facts[i]? = some a) : g.ofRule facts default name = a := by
  simp [ofRule, hi, ha]

/-- What holds between all entries of two arrays holds between what they say about a rule. -/
theorem ofRule_rel {α : Type} {R : α → α → Prop} {x y : Array α} {default : α}
    (hs : x.size = y.size) (hd : R default default)
    (h : ∀ (i : Nat) (a b : α), x[i]? = some a → y[i]? = some b → R a b) (name : String) :
    R (g.ofRule x default name) (g.ofRule y default name) := by
  simp only [ofRule]
  cases g.ruleId? name with
  | none => exact hd
  | some i =>
    by_cases hi : i < x.size
    · simpa [Array.getElem?_eq_getElem hi, Array.getElem?_eq_getElem (hs ▸ hi : i < y.size)] using
        h i _ _ (Array.getElem?_eq_getElem hi) (Array.getElem?_eq_getElem (hs ▸ hi))
    · simpa [Array.getElem?_eq_none (Nat.le_of_not_lt hi),
        Array.getElem?_eq_none (hs ▸ Nat.le_of_not_lt hi : y.size ≤ i)] using hd

/-- What the steps towards the nullable rules keep. -/
structure NullableGrows (g : Grammar) (x : Array Bool) : Prop where
  size : x.size = g.size
  grows (i : Nat) (a b : Bool) : x[i]? = some a → (g.nullableStep x)[i]? = some b →
    a = true → b = true

private theorem size_nullableStep (x : Array Bool) :
    (g.nullableStep x).size = g.size := Array.size_map

theorem NullableGrows.start : g.NullableGrows (Array.replicate g.size false) where
  size := Array.size_replicate
  grows i a b ha _ hat := by
    rw [Array.getElem?_replicate] at ha
    split at ha <;> simp_all

theorem NullableGrows.step {x : Array Bool} (hx : g.NullableGrows x) :
    g.NullableGrows (g.nullableStep x) where
  size := size_nullableStep x
  grows i a b ha hb hat := by
    simp only [nullableStep, Array.getElem?_map, Option.map_eq_some_iff] at ha hb
    obtain ⟨p, hp, rfl⟩ := ha
    obtain ⟨q, hq, rfl⟩ := hb
    obtain rfl : p = q := Option.some.inj (hp.symm.trans hq)
    refine Phrase.isNullable_mono ?_ hat
    exact ofRule_rel (R := fun a b => a = true → b = true)
      (hx.size.trans (size_nullableStep x).symm) id hx.grows

/-- Another step finds no more nullable rules. -/
theorem nullableStep_nullable : g.nullableStep g.nullable = g.nullable := by
  refine (untilStable_stable_of_grows g.NullableGrows Bool.toNat g.size 1 (fun _ hx => hx.size)
    (fun _ hx => hx.step) ?_ (fun _ _ a _ => Bool.toNat_le a) .start (by omega)).2
  intro x hx i a b ha hb
  have hab := hx.grows i a b ha hb
  cases a <;> cases b <;> simp_all

/-- Sets of categories of the rules have no more members than the rules have pieces. -/
theorem length_le_pieceCount {s : CategorySet} (h : ∀ c ∈ s, c ∈ g.consumed) :
    s.toList.length ≤ g.pieceCount :=
  (CategorySet.length_le h).trans g.length_consumed_le

/-- What the steps towards the first sets keep. -/
structure FirstGrows (g : Grammar) (nullable : Array Bool) (x : Array CategorySet) : Prop where
  size : x.size = g.size
  consumed : ∀ s ∈ x, ∀ c ∈ s, c ∈ g.consumed
  grows (i : Nat) (s t : CategorySet) : x[i]? = some s →
    (g.firstStep nullable x)[i]? = some t → s ⊆ t

theorem mem_of_mem_replicate {n : Nat} {s : CategorySet} {c : CategoryId}
    (hs : s ∈ Array.replicate n CategorySet.empty) : c ∉ s := by
  rw [(Array.mem_replicate.1 hs).2]
  exact CategorySet.not_mem_empty c

theorem mem_ofRule {x : Array CategorySet} {name : String} {c : CategoryId}
    (h : c ∈ g.ofRule x .empty name) :
    ∃ i s, g.ruleId? name = some i ∧ x[i]? = some s ∧ c ∈ s := by
  rw [ofRule] at h
  cases hs : (g.ruleId? name).bind (x[·]?) with
  | none =>
    rw [hs] at h
    exact absurd h (CategorySet.not_mem_empty c)
  | some s =>
    obtain ⟨i, hid, hi⟩ := Option.bind_eq_some_iff.1 hs
    exact ⟨i, s, hid, hi, by simpa [hs] using h⟩

private theorem size_firstStep (nullable : Array Bool) (x : Array CategorySet) :
    (g.firstStep nullable x).size = g.size := Array.size_map

theorem FirstGrows.start {nullable : Array Bool} :
    g.FirstGrows nullable (Array.replicate g.size .empty) where
  size := Array.size_replicate
  consumed _ hs _ hc := absurd hc (mem_of_mem_replicate hs)
  grows _ _ _ hs _ _ hc := absurd hc (mem_of_mem_replicate (Array.mem_of_getElem? hs))

theorem FirstGrows.step {nullable : Array Bool} {x : Array CategorySet}
    (hx : g.FirstGrows nullable x) : g.FirstGrows nullable (g.firstStep nullable x) where
  size := size_firstStep nullable x
  consumed s hs c hc := by
    obtain ⟨p, hp, rfl⟩ := Array.mem_map.1 hs
    rcases Phrase.consumes_of_mem_first hc with hc | ⟨name, hc⟩
    · exact mem_consumed hp hc
    · obtain ⟨i, s, -, hs, hc⟩ := mem_ofRule hc
      exact hx.consumed s (Array.mem_of_getElem? hs) c hc
  grows i s t hs ht := by
    simp only [firstStep, Array.getElem?_map, Option.map_eq_some_iff] at hs ht
    obtain ⟨p, hp, rfl⟩ := hs
    obtain ⟨q, hq, rfl⟩ := ht
    obtain rfl : p = q := Option.some.inj (hp.symm.trans hq)
    intro c hc
    exact Phrase.first_mono (ofRule_rel (R := (· ⊆ ·)) (hx.size.trans (size_firstStep _ x).symm)
      (fun c hc => hc) hx.grows) hc

/-- Another step adds nothing to the first sets. -/
theorem firstStep_first (nullable : Array Bool) : g.FirstGrows nullable (g.first nullable)
    ∧ g.firstStep nullable (g.first nullable) = g.first nullable :=
  untilStable_stable_of_grows (g.FirstGrows nullable) (fun s => s.toList.length) g.size g.pieceCount
    (fun _ hx => hx.size) (fun _ hx => hx.step)
    (fun _ hx i s t hs ht => CategorySet.eq_or_length_lt (hx.grows i s t hs ht))
    (fun _ hx s hs => length_le_pieceCount (hx.consumed s hs)) .start (Nat.lt_succ_self _)

end Grammar

end PredictiveParsing
