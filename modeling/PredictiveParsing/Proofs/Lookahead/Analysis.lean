import Mathlib.Data.List.Nodup
import PredictiveParsing.Lookahead.Analysis
import PredictiveParsing.Proofs.Outcome

/-!
# What an analysis holds

The analysis of a grammar without defects has, for every decision of every rule, the table that was
built for its place, and reports everything that was found when it was built.
-/

namespace PredictiveParsing

namespace Phrase

def head? : Phrase → Option (Occurrence × Nat)
  | nil => none
  | terminal c i _ => some (.terminal c, i)
  | call r i _ => some (.call r, i)
  | option i _ _ => some (.decision .option, i)
  | repetition i b _ _ => some (.decision (.ofRepetition b), i)
  | choice i _ _ _ => some (.decision .or, i)

/-- The places of a phrase are those of its pieces. -/
theorem map_head?_places (after : List Frame) (p : Phrase) :
    (p.places after).map (·.phrase.head?) = p.occurrences.map some := by
  induction p generalizing after with
  | nil => rfl
  | terminal c i rest ih =>
    simp only [places, occurrences, List.map_cons, ih]
    rfl
  | call r i rest ih =>
    simp only [places, occurrences, List.map_cons, ih]
    rfl
  | option i body rest ihb ih =>
    simp only [places, occurrences, List.map_cons, List.map_append, ihb, ih]
    rfl
  | repetition i b body rest ihb ih =>
    simp only [places, occurrences, List.map_cons, List.map_append, ihb, ih]
    rfl
  | choice i gated body rest ihb ih =>
    simp only [places, occurrences, List.map_cons, List.map_append, List.map_flatten, List.map_ofFn,
      Function.comp_def, ihb, ih]
    rfl

/-- Places with the same kind of piece and index are one place. -/
theorem eq_of_head?_eq {p : Phrase} {after : List Frame} (hp : p.occurrences.Nodup)
    {x y : Place} (hx : x ∈ p.places after) (hy : y ∈ p.places after)
    (h : x.phrase.head? = y.phrase.head?) : x = y := by
  have hn : ((p.places after).map (·.phrase.head?)).Nodup := by
    rw [map_head?_places]
    exact hp.map fun _ _ h => Option.some.inj h
  exact List.inj_on_of_nodup_map hn hx hy h

end Phrase

theorem Place.head?_of_branches? {place : Place} {kind : DecisionKind} {idx : Nat}
    {branches : List Branch} (h : place.branches? = some (kind, idx, branches)) :
    place.phrase.head? = some (.decision kind, idx) := by
  obtain ⟨phrase, after⟩ := place
  cases phrase <;> cases h <;> rfl

namespace Grammar

variable {g : Grammar} {m : TokenModel} {k : Nat} {a : AnalyzedGrammar}

theorem analyze_eq_ok (h : g.analyze m k = .ok a) :
    g.formalDefect? m = none ∧ a = analysisOf (.ofGrammar g) m k := by
  rw [analyze] at h
  split at h
  · cases h
  · rename_i hd
    simp only at h
    split at h
    · cases h
    · exact ⟨hd, (Except.ok.inj h).symm⟩

theorem leftCycle?_of_analyze (h : g.analyze m k = .ok a) :
    (RuleFacts.ofGrammar g).leftCycle? = none := by
  rw [analyze] at h
  split at h
  · cases h
  · simp only at h
    split at h
    · cases h
    · assumption

theorem nodup_of_formalDefect? (h : g.formalDefect? m = none) {p : Production}
    (hp : p ∈ g.productions) : p.phrase.occurrences.Nodup := by
  simp only [formalDefect?, Option.or_eq_none_iff, List.findSome?_eq_none_iff] at h
  have hr := h.2 p (Array.mem_toList_iff.2 hp)
  rw [Production.repeatedOccurrence?, Option.map_eq_none_iff, firstRepeated?_eq_none] at hr
  exact hr.1

/-- Without a defect every rule that is called exists. -/
theorem exists_ruleId?_of_formalDefect? (h : g.formalDefect? m = none) {p : Production}
    (hp : p ∈ g.productions) {name : String} {idx : Nat}
    (hc : (Occurrence.call name, idx) ∈ p.phrase.occurrences) : ∃ i, g.ruleId? name = some i := by
  simp only [formalDefect?, Option.or_eq_none_iff, List.findSome?_eq_none_iff] at h
  have hr := h.1.2 p (Array.mem_toList_iff.2 hp)
  simp only [Production.undefinedRule?, List.findSome?_eq_none_iff] at hr
  have hn := hr _ hc
  exact Option.ne_none_iff_exists'.mp (by simpa using hn)

theorem getElem?_rules (h : g.analyze m k = .ok a) {r : RuleId} {p : Production}
    (hp : g.productions[r]? = some p) :
    a.rules[r]? = some (analyzeRule (.ofGrammar g) m k p r).1 := by
  obtain ⟨-, rfl⟩ := analyze_eq_ok h
  have hg : (RuleFacts.ofGrammar g).grammar = g := rfl
  simp [analysisOf, hg, List.getElem?_zipIdx, hp]

/-- The table of a decision is found by its kind and index. -/
theorem decision?_of_mem_places (h : g.analyze m k = .ok a) {r : RuleId} {p : Production}
    (hp : g.productions[r]? = some p) {place : Place} (hplace : place ∈ p.phrase.places [])
    {kind : DecisionKind} {idx : Nat} {branches : List Branch}
    (hb : place.branches? = some (kind, idx, branches)) :
    (a.rules[r]?.bind (·.decision? kind idx))
      = some (Decision.build g m k kind idx branches).1 := by
  have hn := nodup_of_formalDefect? (analyze_eq_ok h).1 (Array.mem_of_getElem? hp)
  rw [getElem?_rules h hp, Option.bind_some]
  have hall : ∀ {d : Decision},
      d ∈ ((g.decisionsOf m k p.phrase).map Prod.fst).mergeSort decisionBefore ↔
        ∃ x ∈ p.phrase.places [], ∃ y, x.branches? = some y
          ∧ (Decision.build g m k y.1 y.2.1 y.2.2).1 = d := by
    intro d
    simp only [List.mem_mergeSort, decisionsOf, List.map_map, List.mem_map, List.mem_filterMap]
    constructor
    · rintro ⟨y, ⟨x, hx, hy⟩, rfl⟩
      exact ⟨x, hx, y, hy, rfl⟩
    · rintro ⟨x, hx, y, hy, rfl⟩
      exact ⟨y, ⟨x, hx, hy⟩, rfl⟩
  change List.find? _ (((g.decisionsOf m k p.phrase).map Prod.fst).mergeSort decisionBefore) = _
  cases hf : List.find? (fun d : Decision => d.kind = kind && d.idx = idx)
      (((g.decisionsOf m k p.phrase).map Prod.fst).mergeSort decisionBefore) with
  | none =>
    have hno := List.find?_eq_none.1 hf _ (hall.2 ⟨place, hplace, _, hb, rfl⟩)
    simp [Decision.build] at hno
  | some d =>
    obtain ⟨x, hx, ⟨kind', idx', branches'⟩, hy, rfl⟩ := hall.1 (List.mem_of_find?_eq_some hf)
    have hkey := List.find?_some hf
    rw [Bool.and_eq_true] at hkey
    obtain rfl : kind' = kind := of_decide_eq_true hkey.1
    obtain rfl : idx' = idx := of_decide_eq_true hkey.2
    have hxy : x = place := Phrase.eq_of_head?_eq hn hx hplace <| by
      rw [Place.head?_of_branches? hy, Place.head?_of_branches? hb]
    subst hxy
    obtain rfl : branches' = branches := by simpa using hy.symm.trans hb
    rfl

theorem mem_ambiguities (h : g.analyze m k = .ok a) {r : RuleId} {p : Production}
    (hp : g.productions[r]? = some p) {place : Place} (hplace : place ∈ p.phrase.places [])
    {kind : DecisionKind} {idx : Nat} {branches : List Branch}
    (hb : place.branches? = some (kind, idx, branches)) {f : Finding}
    (hf : f ∈ (Decision.build g m k kind idx branches).2) :
    ∃ x ∈ a.ambiguities, x.key = ⟨p.name, kind, idx⟩ ∧ x.finding = f := by
  obtain ⟨-, rfl⟩ := analyze_eq_ok h
  have hd : Decision.build g m k kind idx branches ∈ g.decisionsOf m k p.phrase :=
    List.mem_map.2 ⟨_, List.mem_filterMap.2 ⟨place, hplace, hb⟩, rfl⟩
  have hr : (p, r) ∈ g.productions.toList.zipIdx := by
    rw [List.mem_zipIdx_iff_getElem?, Array.getElem?_toList]
    exact hp
  refine ⟨⟨⟨p.name, kind, idx⟩, f, (Decision.build g m k kind idx branches).1.depth⟩, ?_, rfl, rfl⟩
  refine List.mem_flatMap.2 ⟨_, List.mem_map.2 ⟨(p, r), hr, rfl⟩, ?_⟩
  exact List.mem_flatMap.2 ⟨_, hd, List.mem_map.2 ⟨f, hf, rfl⟩⟩

/-- Whatever is reported was found when a table was built. -/
theorem exists_of_mem_ambiguities (h : g.analyze m k = .ok a) {x : Ambiguity}
    (hx : x ∈ a.ambiguities) : ∃ (r : RuleId) (p : Production) (place : Place) (kind : DecisionKind)
      (idx : Nat) (branches : List Branch), g.productions[r]? = some p
        ∧ place ∈ p.phrase.places [] ∧ place.branches? = some (kind, idx, branches)
        ∧ x.key = ⟨p.name, kind, idx⟩ ∧ x.finding ∈ (Decision.build g m k kind idx branches).2 := by
  obtain ⟨-, rfl⟩ := analyze_eq_ok h
  obtain ⟨_, hrule, hx⟩ := List.mem_flatMap.1 hx
  obtain ⟨⟨p, r⟩, hr, rfl⟩ := List.mem_map.1 hrule
  obtain ⟨_, hd, hx⟩ := List.mem_flatMap.1 hx
  obtain ⟨⟨kind, idx, branches⟩, hb, rfl⟩ := List.mem_map.1 hd
  obtain ⟨place, hplace, hb⟩ := List.mem_filterMap.1 hb
  obtain ⟨f, hf, rfl⟩ := List.mem_map.1 hx
  rw [List.mem_zipIdx_iff_getElem?, Array.getElem?_toList] at hr
  exact ⟨r, p, place, kind, idx, branches, hr, hplace, hb, rfl, hf⟩

/-- Where the names of the rules differ a decision has its key for itself. -/
theorem branches?_of_key_eq (h : g.analyze m k = .ok a)
    (hnames : (g.productions.toList.map (·.name)).Nodup) {r s : RuleId} {p q : Production}
    (hp : g.productions[r]? = some p) (hq : g.productions[s]? = some q) {x y : Place}
    (hx : x ∈ p.phrase.places []) (hy : y ∈ q.phrase.places []) {kind kind' : DecisionKind}
    {idx idx' : Nat} {branches branches' : List Branch}
    (hb : x.branches? = some (kind, idx, branches))
    (hb' : y.branches? = some (kind', idx', branches'))
    (hkey : (⟨p.name, kind, idx⟩ : DecisionKey) = ⟨q.name, kind', idx'⟩) :
    branches = branches' := by
  obtain ⟨hname, rfl, rfl⟩ := DecisionKey.mk.inj hkey
  obtain rfl : p = q := List.inj_on_of_nodup_map hnames
    (Array.mem_toList_iff.2 (Array.mem_of_getElem? hp))
    (Array.mem_toList_iff.2 (Array.mem_of_getElem? hq)) hname
  have hxy : x = y := Phrase.eq_of_head?_eq
    (nodup_of_formalDefect? (analyze_eq_ok h).1 (Array.mem_of_getElem? hp)) hx hy <| by
      rw [Place.head?_of_branches? hb, Place.head?_of_branches? hb']
  subst hxy
  simpa using hb.symm.trans hb'

end Grammar

end PredictiveParsing
