import PredictiveParsing.Proofs.Grammar.Following
import PredictiveParsing.Proofs.Lookahead.Analysis
import PredictiveParsing.Proofs.Lookahead.Clashes
import PredictiveParsing.Proofs.Lookahead.Expansion
import PredictiveParsing.Proofs.Token.Hierarchy

/-!
# Tokens that match two paths

The hierarchy of the categories is a forest, so two categories overlap if and only if a token can
belong to both of them. Hence two paths are compatible if and only if some tokens match both, as far
as both reach.
-/

namespace PredictiveParsing

namespace TokenModel

variable {m : TokenModel} {tokens p q : CategoryPath}

/-- Tokens of the categories match the path, one by one. -/
def Matches (m : TokenModel) (tokens path : CategoryPath) : Prop :=
  List.Forall₂ (fun t c => m.isA t c = true) tokens path

/-- Some tokens of categories that the model has match both paths. -/
def Meet (m : TokenModel) (p q : CategoryPath) : Prop :=
  ∃ tokens, (∀ t ∈ tokens, t < m.size) ∧ m.Matches tokens p ∧ m.Matches tokens q

theorem WellFormed.lt_size_of_matches (hm : m.WellFormed) (h : m.Matches tokens p) :
    ∀ t ∈ tokens, t < m.size := by
  induction h with
  | nil => simp
  | cons ht _ ih => exact List.forall_mem_cons.mpr ⟨hm.lt_size_of_isA ht, ih⟩

/-- Paths of one length are compatible if and only if some tokens match both. -/
theorem WellFormed.meet_iff (hm : m.WellFormed) (hp : ∀ c ∈ p, c < m.size)
    (hq : ∀ c ∈ q, c < m.size) (hlen : q.length = p.length) :
    m.Meet p q ↔ m.compatible p q = true := by
  induction p generalizing q with
  | nil =>
    obtain rfl : q = [] := List.length_eq_zero_iff.mp hlen
    exact ⟨fun _ => rfl, fun _ => ⟨[], by simp, .nil, .nil⟩⟩
  | cons c p ih =>
    cases q with
    | nil => cases hlen
    | cons d q =>
      obtain ⟨hc, hp⟩ := List.forall_mem_cons.mp hp
      obtain ⟨hd, hq⟩ := List.forall_mem_cons.mp hq
      have ih := ih hp hq (Nat.succ.inj hlen)
      have hcons : m.compatible (c :: p) (d :: q) = true ↔
          m.overlaps c d = true ∧ m.compatible p q = true := by
        simp [compatible]
      rw [hcons, ← ih]
      constructor
      · rintro ⟨tokens, ht, hc', hd'⟩
        cases hc' with
        | @cons t _ tokens _ htc hc' =>
          obtain ⟨htd, hd'⟩ := List.forall₂_cons.mp hd'
          exact ⟨hm.overlaps_of_isA htc htd, tokens, (List.forall_mem_cons.mp ht).2, hc', hd'⟩
      · rintro ⟨hov, tokens, ht, hp', hq'⟩
        obtain ⟨t, hlt, htc, htd⟩ := hm.exists_isA_of_overlaps hc hd hov
        exact ⟨t :: tokens, List.forall_mem_cons.mpr ⟨hlt, ht⟩, .cons htc hp', .cons htd hq'⟩

end TokenModel

/-! ## The categories on the ways of a rule -/

private theorem Expands.forall_mem {g : Grammar} {P : CategoryId → Prop} {stack : List Phrase}
    {w : CategoryPath} {e : Bool} (h : Expands g stack w e)
    (hg : ∀ name p, g.phrase? name = some p → ∀ c, p.Consumes c → P c)
    (hs : ∀ p ∈ stack, ∀ c, p.Consumes c → P c) : ∀ c ∈ w, P c := by
  have hP := Phrase.Hereditary.consumes P
  induction h with
  | cut => simp
  | done => simp
  | nil _ ih => exact ih (List.forall_mem_cons.mp hs).2
  | terminal _ ih =>
    obtain ⟨hp, hs⟩ := List.forall_mem_cons.mp hs
    exact List.forall_mem_cons.mpr ⟨hp _ (Phrase.consumes_terminal.mpr (.inl rfl)),
      ih (List.forall_mem_cons.mpr ⟨hP.terminal hp, hs⟩)⟩
  | call hq _ ih =>
    obtain ⟨hp, hs⟩ := List.forall_mem_cons.mp hs
    exact ih (List.forall_mem_cons.mpr ⟨hg _ _ hq, List.forall_mem_cons.mpr ⟨hP.call hp, hs⟩⟩)
  | undefined _ => simp
  | skip _ ih =>
    obtain ⟨hp, hs⟩ := List.forall_mem_cons.mp hs
    exact ih (List.forall_mem_cons.mpr ⟨(hP.option hp).2, hs⟩)
  | take _ ih =>
    obtain ⟨hp, hs⟩ := List.forall_mem_cons.mp hs
    exact ih (List.forall_mem_cons.mpr ⟨(hP.option hp).1,
      List.forall_mem_cons.mpr ⟨(hP.option hp).2, hs⟩⟩)
  | pass _ ih =>
    obtain ⟨hp, hs⟩ := List.forall_mem_cons.mp hs
    exact ih (List.forall_mem_cons.mpr ⟨(hP.repetition hp).2, hs⟩)
  | enter _ ih =>
    obtain ⟨hp, hs⟩ := List.forall_mem_cons.mp hs
    exact ih (List.forall_mem_cons.mpr ⟨(hP.repetition hp).1,
      List.forall_mem_cons.mpr ⟨(hP.repetition hp).2, hs⟩⟩)
  | choose k _ ih =>
    obtain ⟨hp, hs⟩ := List.forall_mem_cons.mp hs
    exact ih (List.forall_mem_cons.mpr ⟨(hP.choice hp).1 k,
      List.forall_mem_cons.mpr ⟨(hP.choice hp).2, hs⟩⟩)
  | none _ ih =>
    obtain ⟨hp, hs⟩ := List.forall_mem_cons.mp hs
    exact ih (List.forall_mem_cons.mpr ⟨(hP.choice hp).2, hs⟩)

/-- What holds of a rule and then of everything in it holds of the ways to go on at its
decisions. -/
theorem Phrase.Hereditary.of_branches? {P : Phrase → Prop} (hP : Hereditary P) {p : Phrase}
    (hp : P p) {place : Place} (hplace : place ∈ p.places []) {kind : DecisionKind} {idx : Nat}
    {branches : List Branch} (hb : place.branches? = some (kind, idx, branches)) :
    ∀ b ∈ branches, ∀ q ∈ b.stack, P q := by
  obtain ⟨hphrase, hafter⟩ := hP.of_mem_places hplace hp (by simp)
  obtain ⟨phrase, after⟩ := place
  have hbehind : ∀ q ∈ Place.continuation ⟨phrase, after⟩, P q := by
    intro q hq
    obtain ⟨f, hf, hfq⟩ := List.mem_filterMap.mp hq
    cases f with
    | rest r => exact Option.some.inj hfq ▸ hafter _ hf
    | again body => cases hfq
  cases phrase with
  | nil => cases hb
  | terminal c i rest => cases hb
  | call r i rest => cases hb
  | option i body rest =>
    cases hb
    exact List.forall_mem_cons.mpr ⟨List.forall_mem_cons.mpr ⟨(hP.option hphrase).1, hbehind⟩,
      List.forall_mem_singleton.mpr hbehind⟩
  | repetition i b body rest =>
    cases hb
    exact List.forall_mem_cons.mpr ⟨List.forall_mem_cons.mpr ⟨(hP.repetition hphrase).1, hbehind⟩,
      List.forall_mem_singleton.mpr hbehind⟩
  | choice i gated body rest =>
    cases hb
    simpa [List.mem_ofFn] using fun k => ⟨(hP.choice hphrase).1 k, hbehind⟩

namespace Grammar

variable {g : Grammar} {m : TokenModel}

private theorem lt_size_of_formalDefect? (h : g.formalDefect? m = none) {p : Production}
    (hp : p ∈ g.productions) {c : CategoryId} (hc : p.phrase.Consumes c) : c < m.size := by
  obtain ⟨idx, hc⟩ := hc
  simp only [formalDefect?, Option.or_eq_none_iff, List.findSome?_eq_none_iff] at h
  have hr := h.1.1.2 p (Array.mem_toList_iff.mpr hp)
  simp only [Production.undefinedCategory?, List.findSome?_eq_none_iff] at hr
  have hn := hr _ hc
  by_contra hlt
  have hget : m.get? c = none := Array.getElem?_eq_none (Nat.le_of_not_lt hlt)
  simp [hget] at hn

/-- The categories that the alternatives of a decision consume are those of the model. -/
theorem lt_size_of_expands {k : Nat} {a : AnalyzedGrammar} (h : g.analyze m k = .ok a) {r : RuleId}
    {p : Production} (hp : g.productions[r]? = some p) {place : Place}
    (hplace : place ∈ p.phrase.places []) {kind : DecisionKind} {idx : Nat} {branches : List Branch}
    (hb : place.branches? = some (kind, idx, branches)) {b : Branch} (hmem : b ∈ branches)
    {w : CategoryPath} {e : Bool} (hw : Expands g b.stack w e) : ∀ c ∈ w, c < m.size := by
  have hdefect := (analyze_eq_ok h).1
  refine hw.forall_mem (fun name q hq c hc => ?_) ?_
  · obtain ⟨i, production, -, hi, rfl⟩ := exists_of_phrase? hq
    exact lt_size_of_formalDefect? hdefect (Array.mem_of_getElem? hi) hc
  · refine (Phrase.Hereditary.consumes (· < m.size)).of_branches? ?_ hplace hb b hmem
    exact fun c hc => lt_size_of_formalDefect? hdefect (Array.mem_of_getElem? hp) hc

end Grammar

end PredictiveParsing
