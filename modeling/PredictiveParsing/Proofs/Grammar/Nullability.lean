import PredictiveParsing.Proofs.Grammar.Following

/-!
# Nullable phrases

The phrases that count as nullable are exactly those that derive nothing.
-/

namespace PredictiveParsing

/-- What every step keeps holds in the end. -/
theorem untilStable_of_forall {α : Type} [DecidableEq α] {step : α → α} (inv : α → Prop)
    (h : ∀ x, inv x → inv (step x)) {fuel : Nat} {x : α} (hx : inv x) :
    inv (untilStable step fuel x) := by
  induction fuel generalizing x with
  | zero => exact hx
  | succ fuel ih =>
    rw [untilStable_eq_step]
    exact ih (h x hx)

namespace Phrase

variable {g : Grammar} {p : Phrase}

/-- Nothing has to be consumed for the phrase. -/
def Vanishes (g : Grammar) (p : Phrase) : Prop := ∃ d, p.Derives g d []

namespace Vanishes

variable {i : Nat} {body rest : Phrase}

theorem nil : Phrase.nil.Vanishes g := ⟨0, .nil⟩

theorem call {r : String} (hp : g.phrase? r = some p) (hv : p.Vanishes g) (hw : rest.Vanishes g) :
    (Phrase.call r i rest).Vanishes g := by
  obtain ⟨d, hv⟩ := hv
  obtain ⟨e, hw⟩ := hw
  exact ⟨max d e + 1, .call hp (hv.mono (Nat.le_max_left d e))
    (hw.mono (Nat.le_succ_of_le (Nat.le_max_right d e)))⟩

theorem option (hw : rest.Vanishes g) : (Phrase.option i body rest).Vanishes g := by
  obtain ⟨d, hw⟩ := hw
  exact ⟨d, .skip hw⟩

theorem repetition {b : Bool} (hb : b = false ∨ body.Vanishes g) (hw : rest.Vanishes g) :
    (Phrase.repetition i b body rest).Vanishes g := by
  obtain ⟨e, hw⟩ := hw
  rcases hb with rfl | ⟨d, hv⟩
  · have hall : ∀ v ∈ ([] : List (List CategoryId)), body.Derives g e v := nofun
    exact ⟨e, .repetition (b := false) nofun hall hw⟩
  · have hall : ∀ v ∈ [[]], body.Derives g (max d e) v :=
      List.forall_mem_singleton.mpr (hv.mono (Nat.le_max_left d e))
    exact ⟨max d e, .repetition (fun _ => List.cons_ne_nil [] []) hall
      (hw.mono (Nat.le_max_right d e))⟩

theorem choice {n : Nat} {gated : Fin n → Bool} {body : Fin n → Phrase} (k : Fin n)
    (hv : (body k).Vanishes g) (hw : rest.Vanishes g) :
    (Phrase.choice i gated body rest).Vanishes g := by
  obtain ⟨d, hv⟩ := hv
  obtain ⟨e, hw⟩ := hw
  exact ⟨max d e, .choice k (hv.mono (Nat.le_max_left d e)) (hw.mono (Nat.le_max_right d e))⟩

end Vanishes

theorem vanishes_of_isNullable {f : String → Bool}
    (hf : ∀ r, f r = true → ∃ p, g.phrase? r = some p ∧ p.Vanishes g)
    (h : p.isNullable f = true) : p.Vanishes g := by
  induction p with
  | nil => exact .nil
  | terminal c i rest ih => cases h
  | call r i rest ih =>
    rw [isNullable, Bool.and_eq_true] at h
    obtain ⟨p, hp, hv⟩ := hf r h.1
    exact .call hp hv (ih h.2)
  | option i body rest ihb ih => exact .option (ih h)
  | repetition i b body rest ihb ih =>
    rw [isNullable, Bool.and_eq_true, Bool.or_eq_true, Bool.not_eq_true'] at h
    exact .repetition (h.1.imp_right ihb) (ih h.2)
  | choice i gated body rest ihb ih =>
    rw [isNullable, Bool.and_eq_true, any_ofFn] at h
    obtain ⟨⟨k, hk⟩, hrest⟩ := h
    exact .choice k (ihb k hk) (ih hrest)

theorem Derives.isNullable_of_eq_nil {d : Nat} {w : List CategoryId} (h : p.Derives g d w)
    (hw : w = []) : p.isNullable (RuleFacts.ofGrammar g).isNullable = true := by
  induction h with
  | nil => rfl
  | terminal _ _ => cases hw
  | call hp _ _ ihv ihw =>
    obtain ⟨hv, hw⟩ := List.append_eq_nil_iff.mp hw
    rw [isNullable, RuleFacts.isNullable_eq hp, ihv hv, ihw hw]
    rfl
  | skip _ ih => exact ih hw
  | take _ _ _ ihw => exact ihw (List.append_eq_nil_iff.mp hw).2
  | @repetition d i b body rest w vs hn hv _ ihv ihw =>
    obtain ⟨hvs, hw⟩ := List.append_eq_nil_iff.mp hw
    rw [isNullable, ihw hw, Bool.and_true]
    rcases eq_false_or_nil_mem hn hvs with rfl | hnil
    · rfl
    · rw [ihv [] hnil rfl, Bool.or_true]
  | choice k _ _ ihv ihw =>
    obtain ⟨hv, hw⟩ := List.append_eq_nil_iff.mp hw
    rw [isNullable, ihw hw, any_ofFn.mpr ⟨k, ihv hv⟩]
    rfl

end Phrase

namespace RuleFacts

variable {g : Grammar}

private theorem vanishes_of_nullable {i : RuleId} (h : g.nullable[i]? = some true) :
    ∃ p, g.productions[i]? = some p ∧ p.phrase.Vanishes g := by
  let Known (known : Array Bool) : Prop := ∀ i : RuleId,
    known[i]? = some true → ∃ p, g.productions[i]? = some p ∧ p.phrase.Vanishes g
  refine untilStable_of_forall Known (fun known hknown i hi => ?_) (fun i hi => ?_) i h
  · rw [Grammar.nullableStep, Array.getElem?_map, Option.map_eq_some_iff] at hi
    obtain ⟨p, hp, hn⟩ := hi
    refine ⟨p, hp, Phrase.vanishes_of_isNullable (fun r hr => ?_) hn⟩
    cases hid : g.ruleId? r with
    | none => simp [Grammar.ofRule, hid] at hr
    | some j =>
      obtain ⟨q, hq, hv⟩ := hknown j (by simpa [Grammar.ofRule, hid, Option.getD_eq_iff] using hr)
      exact ⟨q.phrase, Grammar.phrase?_of_ruleId hid hq, hv⟩
  · rw [Array.getElem?_replicate] at hi
    split at hi <;> cases hi

/-- A rule counts as nullable if and only if its phrase derives nothing. -/
theorem isNullable_iff_vanishes {name : String} : (ofGrammar g).isNullable name = true ↔
    ∃ p, g.phrase? name = some p ∧ p.Vanishes g := by
  constructor
  · intro h
    cases hid : g.ruleId? name with
    | none => simp [isNullable, Grammar.ofRule, ofGrammar, hid] at h
    | some i =>
      have hi : g.nullable[i]? = some true := by
        simpa [isNullable, Grammar.ofRule, ofGrammar, hid, Option.getD_eq_iff] using h
      obtain ⟨p, hp, hv⟩ := vanishes_of_nullable hi
      exact ⟨p.phrase, Grammar.phrase?_of_ruleId hid hp, hv⟩
  · rintro ⟨p, hp, d, h⟩
    rw [isNullable_eq hp]
    exact h.isNullable_of_eq_nil rfl

end RuleFacts

theorem Phrase.isNullable_iff_vanishes {g : Grammar} {p : Phrase} :
    p.isNullable (RuleFacts.ofGrammar g).isNullable = true ↔ p.Vanishes g :=
  ⟨vanishes_of_isNullable fun _ => RuleFacts.isNullable_iff_vanishes.mp,
    fun ⟨_, h⟩ => h.isNullable_of_eq_nil rfl⟩

end PredictiveParsing
