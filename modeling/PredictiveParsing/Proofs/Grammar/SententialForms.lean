import PredictiveParsing.Proofs.Grammar.Nullability

/-!
# Sentential forms

What a phrase derives when only some of its calls are replaced by what the called rules derive.
-/

namespace PredictiveParsing

/-- A token of a category, or a call that stands as it is. -/
inductive Symbol where
  | token (category : CategoryId)
  | call (rule : String)

namespace Phrase

/-- The sentential forms of a phrase. -/
inductive Yields (g : Grammar) : Phrase → List Symbol → Prop
  | nil : Yields g .nil []
  | terminal {c i rest w} (hw : Yields g rest w) : Yields g (.terminal c i rest) (.token c :: w)
  | keep {r i rest w} (hw : Yields g rest w) : Yields g (.call r i rest) (.call r :: w)
  | expand {r i rest p v w} (hp : g.phrase? r = some p) (hv : Yields g p v)
      (hw : Yields g rest w) : Yields g (.call r i rest) (v ++ w)
  | skip {i body rest w} (hw : Yields g rest w) : Yields g (.option i body rest) w
  | take {i body rest v w} (hv : Yields g body v) (hw : Yields g rest w) :
      Yields g (.option i body rest) (v ++ w)
  | repetition {i b body rest w} {vs : List (List Symbol)} (hn : b = true → vs ≠ [])
      (hv : ∀ v ∈ vs, Yields g body v) (hw : Yields g rest w) :
      Yields g (.repetition i b body rest) (vs.flatten ++ w)
  | choice {n i rest v w} {gated : Fin n → Bool} {body : Fin n → Phrase} (k : Fin n)
      (hv : Yields g (body k) v) (hw : Yields g rest w) :
      Yields g (.choice i gated body rest) (v ++ w)

variable {g : Grammar} {p : Phrase}

theorem Yields.noRound {i : Nat} {body rest : Phrase} {w : List Symbol} (hw : rest.Yields g w) :
    (Phrase.repetition i false body rest).Yields g w := by
  have hall : ∀ v ∈ ([] : List (List Symbol)), body.Yields g v := nofun
  exact .repetition (b := false) nofun hall hw

theorem Yields.oneRound {i : Nat} {b : Bool} {body rest : Phrase} {v w : List Symbol}
    (hv : body.Yields g v) (hw : rest.Yields g w) :
    (Phrase.repetition i b body rest).Yields g (v ++ w) := by
  have hall : ∀ u ∈ [v], body.Yields g u := List.forall_mem_singleton.mpr hv
  simpa using Yields.repetition (i := i) (b := b) (fun _ => List.cons_ne_nil v []) hall hw

/-- With all calls replaced there are only tokens. -/
theorem Derives.yields {d : Nat} {w : List CategoryId} (h : p.Derives g d w) :
    p.Yields g (w.map .token) := by
  induction h with
  | nil => exact .nil
  | terminal _ ih => exact .terminal ih
  | call hp _ _ ihv ihw =>
    rw [List.map_append]
    exact .expand hp ihv ihw
  | skip _ ih => exact .skip ih
  | take _ _ ihv ihw =>
    rw [List.map_append]
    exact .take ihv ihw
  | repetition hn _ _ ihv ihw =>
    rw [List.map_append, List.map_flatten]
    refine .repetition (by simpa using hn) (fun v hv => ?_) ihw
    obtain ⟨u, hu, rfl⟩ := List.mem_map.mp hv
    exact ihv u hu
  | choice k _ _ ihv ihw =>
    rw [List.map_append]
    exact .choice k ihv ihw

theorem Vanishes.yields (h : p.Vanishes g) : p.Yields g [] := by
  obtain ⟨_, h⟩ := h
  exact h.yields

/-- Where the form is empty nothing has to be consumed. -/
theorem Yields.vanishes {w : List Symbol} (h : p.Yields g w) (hw : w = []) : p.Vanishes g := by
  induction h with
  | nil => exact .nil
  | terminal _ _ => cases hw
  | keep _ _ => cases hw
  | expand hp _ _ ihv ihw =>
    obtain ⟨hv, hw⟩ := List.append_eq_nil_iff.mp hw
    exact .call hp (ihv hv) (ihw hw)
  | skip _ ih => exact .option (ih hw)
  | take _ _ _ ihw => exact .option (ihw (List.append_eq_nil_iff.mp hw).2)
  | @repetition i b body rest w vs hn _ _ ihv ihw =>
    obtain ⟨hvs, hw⟩ := List.append_eq_nil_iff.mp hw
    exact .repetition ((eq_false_or_nil_mem hn hvs).imp_right fun hv => ihv [] hv rfl) (ihw hw)
  | choice k _ _ ihv ihw =>
    obtain ⟨hv, hw⟩ := List.append_eq_nil_iff.mp hw
    exact .choice k (ihv hv) (ihw hw)

/-- A phrase whose choices have branches has a sentential form. -/
theorem exists_yields (hp : p.HasBranches) : ∃ w, p.Yields g w := by
  induction p with
  | nil => exact ⟨[], .nil⟩
  | terminal c i rest ih =>
    obtain ⟨w, hw⟩ := ih hp
    exact ⟨_, .terminal hw⟩
  | call r i rest ih =>
    obtain ⟨w, hw⟩ := ih hp
    exact ⟨_, .keep hw⟩
  | option i body rest _ ih =>
    obtain ⟨w, hw⟩ := ih hp.2
    exact ⟨w, .skip hw⟩
  | repetition i b body rest ihb ih =>
    obtain ⟨v, hv⟩ := ihb hp.1
    obtain ⟨w, hw⟩ := ih hp.2
    exact ⟨_, .oneRound hv hw⟩
  | @choice n i gated body rest ihb ih =>
    obtain ⟨v, hv⟩ := ihb ⟨0, Nat.pos_of_ne_zero hp.1.1⟩ (hp.1.2 _)
    obtain ⟨w, hw⟩ := ih hp.2
    exact ⟨_, .choice _ hv hw⟩

end Phrase

end PredictiveParsing
