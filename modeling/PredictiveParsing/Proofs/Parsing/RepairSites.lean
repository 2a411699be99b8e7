import Mathlib.Algebra.GroupWithZero.Nat
import PredictiveParsing.Proofs.Parsing.RecordedCalls
import PredictiveParsing.Proofs.Parsing.Repairs

/-!
# Every site is repaired at most once

A repair takes up a site, which stands for a piece of a recorded rule. No site is taken up twice in
a parse, so there are no more repairs than such pieces, however long the input is.
-/

namespace PredictiveParsing

/-! ## Sites -/

/-- A token was deleted or supplied. -/
def Diagnostic.isInPlace (d : Diagnostic) : Bool :=
  d.recovery = .deleted || d.recovery = .inserted

theorem Diagnostic.isInPlace_iff {d : Diagnostic} :
    d.isInPlace = true ↔ d.recovery = .deleted ∨ d.recovery = .inserted := by
  simp [isInPlace]

/-- The site of the repairs at a piece of a rule, if any can be made there. -/
def Occurrence.repairSite? (rule : RuleId) (idx : Nat) : Occurrence → Option RepairSite
  | .terminal category => some (.token rule category idx)
  | .decision .atLeastOne => some (.decision rule .atLeastOne idx)
  | .decision .or => some (.decision rule .or idx)
  | _ => none

/-- Whether repairs can be made at a piece: at a token, at a choice, and at what has to be there at
least once. -/
def Occurrence.isRepairable : Occurrence → Bool
  | .terminal _ => true
  | .decision .atLeastOne => true
  | .decision .or => true
  | _ => false

namespace Grammar

/-- The sites of all pieces at which repairs can be made. -/
def repairSites (g : Grammar) : List RepairSite :=
  g.productions.toList.zipIdx.flatMap fun (p, rule) =>
    p.phrase.occurrences.filterMap fun (x, idx) => x.repairSite? rule idx

def repairPoints (g : Grammar) : Nat :=
  (g.productions.toList.map fun p => p.phrase.occurrences.countP (·.1.isRepairable)).sum

variable {g : Grammar} {m : TokenModel} {k : Nat} {a : AnalyzedGrammar}

private theorem length_repairSites (g : Grammar) : g.repairSites.length = g.repairPoints := by
  have hcount : ∀ (p : Production) (rule : RuleId), (p.phrase.occurrences.filterMap
      fun (x, idx) => x.repairSite? rule idx).length
        = p.phrase.occurrences.countP (·.1.isRepairable) := by
    intro p rule
    rw [List.length_filterMap_eq_countP]
    refine List.countP_congr fun x _ => ?_
    obtain ⟨⟨_⟩ | ⟨_⟩ | ⟨⟨⟩⟩, idx⟩ := x <;> rfl
  have hnumbered := List.zipIdx_map_fst 0 g.productions.toList
  rw [repairSites, List.length_flatMap, repairPoints, ← hnumbered, List.map_map, hnumbered]
  simp only [hcount, Function.comp_def]

private theorem mem_repairSites {rule : RuleId} {p : Production}
    (hp : g.productions[rule]? = some p) {x : Occurrence} {idx : Nat}
    (hx : (x, idx) ∈ p.phrase.occurrences) {site : RepairSite}
    (hsite : x.repairSite? rule idx = some site) : site ∈ g.repairSites := by
  refine List.mem_flatMap.mpr ⟨(p, rule), ?_, List.mem_filterMap.mpr ⟨(x, idx), hx, hsite⟩⟩
  rw [List.mem_zipIdx_iff_getElem?, Array.getElem?_toList]
  exact hp

theorem exists_production (h : g.analyze m k = .ok a) {r : RuleId} {rule : AnalyzedRule}
    (hrule : a.rules[r]? = some rule) :
    ∃ p, g.productions[r]? = some p ∧ rule = (analyzeRule (.ofGrammar g) m k p r).1 := by
  cases hp : g.productions[r]? with
  | some p =>
    rw [getElem?_rules h hp] at hrule
    exact ⟨p, rfl, (Option.some.inj hrule).symm⟩
  | none =>
    obtain ⟨-, rfl⟩ := analyze_eq_ok h
    have hg : (RuleFacts.ofGrammar g).grammar = g := rfl
    simp [analysisOf, hg, List.getElem?_zipIdx, hp] at hrule

private theorem mem_occurrences_of_site? (h : g.analyze m k = .ok a) {r : RuleId}
    {rule : AnalyzedRule} (hrule : a.rules[r]? = some rule) {category : CategoryId} {idx : Nat}
    {x : Successors} (hx : rule.site? category idx = some x) :
    ∃ p, g.productions[r]? = some p ∧ (.terminal category, idx) ∈ p.phrase.occurrences := by
  obtain ⟨p, hp, rfl⟩ := exists_production h hrule
  refine ⟨p, hp, ?_⟩
  have hkey := List.find?_some hx
  rw [Bool.and_eq_true] at hkey
  have hmem : x ∈ (RuleFacts.ofGrammar g).allSuccessors p.phrase := List.mem_of_find?_eq_some hx
  rw [RuleFacts.allSuccessors, List.mem_mergeSort] at hmem
  obtain ⟨⟨phrase, after⟩, hplace, hsucc⟩ := List.mem_filterMap.mp hmem
  cases phrase with
  | terminal c i rest =>
    obtain rfl := Option.some.inj hsucc
    obtain rfl : c = category := of_decide_eq_true hkey.1
    obtain rfl : i = idx := of_decide_eq_true hkey.2
    exact Phrase.mem_occurrences_of_mem_places hplace rfl
  | _ => cases hsucc

private theorem mem_occurrences_of_decision? (h : g.analyze m k = .ok a) {r : RuleId}
    {rule : AnalyzedRule} (hrule : a.rules[r]? = some rule) {kind : DecisionKind} {idx : Nat}
    {d : Decision} (hd : rule.decision? kind idx = some d) :
    ∃ p, g.productions[r]? = some p ∧ (.decision kind, idx) ∈ p.phrase.occurrences := by
  obtain ⟨p, hp, rfl⟩ := exists_production h hrule
  refine ⟨p, hp, ?_⟩
  have hkey := List.find?_some hd
  rw [Bool.and_eq_true] at hkey
  have hmem : d ∈ ((g.decisionsOf m k p.phrase).map Prod.fst).mergeSort decisionBefore :=
    List.mem_of_find?_eq_some hd
  rw [List.mem_mergeSort] at hmem
  obtain ⟨_, hfound, rfl⟩ := List.mem_map.mp hmem
  obtain ⟨⟨kind', idx', branches⟩, hplaces, rfl⟩ := List.mem_map.mp hfound
  obtain ⟨place, hplace, hb⟩ := List.mem_filterMap.mp hplaces
  obtain rfl : kind' = kind := of_decide_eq_true hkey.1
  obtain rfl : idx' = idx := of_decide_eq_true hkey.2
  exact Phrase.mem_occurrences_of_mem_places hplace (Place.head?_of_branches? hb)

end Grammar

/-! ## Repairs of deeds -/

private theorem ParseState.Reported.length_eq {cap : Nat} {s t : ParseState}
    {xs ys : List Diagnostic} (h : s.Reported cap xs t) (h' : s.Reported cap ys t) :
    xs.length = ys.length := by
  have hkept := congrArg List.length (h.kept.symm.trans h'.kept)
  have hsuppressed := h.suppressed.symm.trans h'.suppressed
  simp only [List.length_append, List.length_take] at hkept
  omega

namespace ParseContext

variable {V : Type} (c : ParseContext V)

def Records : RepairSite → Prop
  | .token rule category idx =>
    ∃ a x, c.analysis.rules[rule]? = some a ∧ a.site? category idx = some x
  | .decision rule kind idx => (kind = .atLeastOne ∨ kind = .or)
    ∧ ∃ a d, c.analysis.rules[rule]? = some a ∧ a.decision? kind idx = some d

variable {c}

private theorem Records.mem_repairSites {site : RepairSite} (h : c.Records site) {g : Grammar}
    {m : TokenModel} {k : Nat} (ha : g.analyze m k = .ok c.analysis) : site ∈ g.repairSites := by
  cases site with
  | token rule category idx =>
    obtain ⟨a, x, hrule, hx⟩ := h
    obtain ⟨p, hp, hmem⟩ := Grammar.mem_occurrences_of_site? ha hrule hx
    exact Grammar.mem_repairSites hp hmem rfl
  | decision rule kind idx =>
    obtain ⟨hkind, a, d, hrule, hd⟩ := h
    obtain ⟨p, hp, hmem⟩ := Grammar.mem_occurrences_of_decision? ha hrule hd
    rcases hkind with rfl | rfl
    · exact Grammar.mem_repairSites hp hmem rfl
    · exact Grammar.mem_repairSites hp hmem rfl

variable {s : ParseState}

theorem records_of_decision? {kind : DecisionKind} (hkind : kind = .atLeastOne ∨ kind = .or)
    {idx : Nat} {d : Decision} (h : c.decision? s kind idx = some d) :
    c.Records (.decision s.currentRule kind idx) := by
  obtain ⟨a, ha, hd⟩ := Option.bind_eq_some_iff.mp h
  exact ⟨hkind, a, d, ha, hd⟩

end ParseContext

namespace Parse

variable {α β : Type} {x : Parse α} {s t : ParseState}

theorem after_bind_of_ok {f : α → Parse β} {a : α} (h : x s = .ok a t) :
    (x >>= f).after s = (f a).after t := by
  simp only [after, Bind.bind, EStateM.bind, h]

theorem after_bind_of_error {f : α → Parse β} {e : Failure} (h : x s = .error e t) :
    (x >>= f).after s = t := by
  simp only [after, Bind.bind, EStateM.bind, h, stateOf]

end Parse

namespace Body

variable {V : Type}

/-- The site of the repairs that the first step of a body can make itself. -/
def repairSite? (rule : RuleId) : Body V → Option RepairSite
  | consume idx category _ => some (.token rule category idx)
  | repetition idx true _ _ => some (.decision rule .atLeastOne idx)
  | choice idx _ _ _ _ => some (.decision rule .or idx)
  | _ => none

private theorem repairSite?_seeing (ds : Array Diagnostic) (body : Body V) (rule : RuleId) :
    (body.seeing ds).repairSite? rule = body.repairSite? rule := by
  cases body <;> rfl

variable (c : ParseContext V)

/-- What the first step of a body does in a state: it repairs nothing and reports nothing, or it
makes one repair at its site. A decision is repaired by a deletion. -/
inductive Mending (body : Body V) (s : ParseState) : ParseState → Prop
  | steady {t : ParseState} (repaired : t.repaired = s.repaired)
      (diagnostics : t.diagnostics = s.diagnostics) (suppressed : t.suppressed = s.suppressed) :
      Mending body s t
  | repair {site : RepairSite} {x : Diagnostic} {t : ParseState}
      (here : body.repairSite? s.currentRule = some site) (recorded : c.Records site)
      (repairs : c.Repairs s site x t) (inPlace : x.isInPlace = true)
      (deletes : ∀ rule kind idx, site = .decision rule kind idx → x.recovery = .deleted) :
      Mending body s t

variable {c} {s : ParseState}

open Parse ParseContext Deed

private theorem mending_consume (s : ParseState) (idx : Nat) (category : CategoryId)
    (rest : Body V) :
    (consume idx category rest).Mending c s (((consume idx category rest).opening c).after s) := by
  rw [opening, after_discard, Parse.after, consume_eq]
  split
  · obtain ⟨t, ht, hrepaired, -, hdiagnostics, hsuppressed, -⟩ := c.advance_spec s
    rw [ht]
    exact .steady hrepaired hdiagnostics hsuppressed
  · have hmends := mendsTo_mend? (c := c) s idx category
    generalize hmended : c.mend? s idx category = mended at hmends
    have hrecorded : ∀ p, mended = some p → c.Records (.token s.currentRule category idx) := by
      rintro p rfl
      obtain ⟨repair, hrepair, -⟩ := Option.bind_eq_some_iff.mp hmended
      exact (c.tokenRepair?_eq_some hrepair).2.2.1
    cases hmends with
    | refuse => exact .steady rfl rfl rfl
    | delete repairs recovery inner wanted takes =>
      refine .repair rfl (hrecorded _ rfl) repairs (Diagnostic.isInPlace_iff.mpr (.inl recovery)) ?_
      intro rule kind idx h
      cases h
    | insert repairs recovery stays =>
      refine .repair rfl (hrecorded _ rfl) repairs (Diagnostic.isInPlace_iff.mpr (.inr recovery)) ?_
      intro rule kind idx h
      cases h

/-- A decision that is made by the first step of a body. -/
theorem mending_of_decidesTo {α : Type} {body : Body V} {kind : DecisionKind} {idx : Nat}
    {holds : ParseState → α → Prop} {result : EStateM.Result Failure ParseState α}
    (h : c.DecidesTo s (.decision s.currentRule kind idx) holds result)
    (hsite : body.repairSite? s.currentRule = some (.decision s.currentRule kind idx))
    (hrecorded : c.Records (.decision s.currentRule kind idx)) :
    body.Mending c s (stateOf result) := by
  cases h with
  | here h => exact .steady rfl rfl rfl
  | behind passes h =>
    exact .repair hsite hrecorded passes.toRepairs
      (Diagnostic.isInPlace_iff.mpr (.inl passes.recovery)) fun _ _ _ _ => passes.recovery
  | fail f actual => exact .steady rfl rfl rfl

private theorem mending_repetition (s : ParseState) (idx : Nat) (body rest : Body V) :
    (repetition idx true body rest).Mending c s
      (((repetition idx true body rest).opening c).after s) := by
  rw [opening, after_discard, entrance]
  rcases looks_decision (c := c) .atLeastOne idx s with ⟨d, hd, -⟩ | ⟨f, hf, -⟩
  · rw [after_bind_of_ok hd, after_bind_pure]
    exact mending_of_decidesTo (enterOnce_decidesTo s idx d) rfl
      (records_of_decision? (.inl rfl) (decision_eq_ok hd).2)
  · rw [after_bind_of_error hf]
    exact .steady rfl rfl rfl

private theorem mending_choice {n : Nat} (s : ParseState) (idx : Nat) (expecting : Option String)
    (gate : Fin n → Option Gate) (body : Fin n → Body V) (rest : Body V) :
    (choice idx expecting gate body rest).Mending c s
      (((choice idx expecting gate body rest).opening c).after s) := by
  rw [opening, after_discard, selection]
  rcases looks_choiceDecision (c := c) idx n s with ⟨d, hd, -⟩ | ⟨f, hf, -⟩
  · rw [after_bind_of_ok hd]
    exact mending_of_decidesTo (choose_decidesTo s idx expecting gate d) rfl
      (records_of_decision? (.inr rfl) (choiceDecision_eq_ok hd).2.1)
  · rw [after_bind_of_error hf]
    exact .steady rfl rfl rfl

private theorem mending_of_looks {α : Type} {body : Body V} {x : Parse α} (h : Looks x)
    (s : ParseState) : body.Mending c s (x.after s) := by
  rcases h s with ⟨a, ha, -⟩ | ⟨f, hf, -⟩
  · rw [after_eq_of_ok ha]
    exact .steady rfl rfl rfl
  · rw [after_eq_of_error hf]
    exact .steady rfl rfl rfl

private theorem mending_opening (body : Body V) (s : ParseState) :
    body.Mending c s ((body.opening c).after s) := by
  cases body with
  | consume idx category rest => exact mending_consume s idx category rest
  | choice idx expecting gate body rest => exact mending_choice s idx expecting gate body rest
  | repetition idx atLeastOne body rest =>
    cases atLeastOne with
    | true => exact mending_repetition s idx body rest
    | false =>
      rw [opening, after_discard]
      exact mending_of_looks (looks_decision .many idx) s
  | option idx body rest =>
    rw [opening, after_discard]
    exact mending_of_looks (looks_decision .option idx) s
  | subrule idx name rest => exact mending_of_looks (looks_resolve name) s
  | fail phase cause rest =>
    simp only [opening, Parse.after]
    split <;> exact .steady rfl rfl rfl
  | _ => exact .steady rfl rfl rfl

end Body

namespace Deed

variable {V : Type} (c : ParseContext V)

/-- The site that a deed repairs: that of its step, if it reports a repair. -/
def repaired? (d : Deed V) : Option RepairSite :=
  if (d.reports c).any (·.isInPlace) then
    match d.act with
    | .step body => body.repairSite? d.state.currentRule
    | _ => none
  else none

/-- A deed makes the repair that it reports, at a site where none was made before. -/
structure RepairsOnce (d : Deed V) : Prop where
  repaired : (d.after c).repaired = (d.repaired? c).toList ++ d.state.repaired
  fresh : ∀ site, d.repaired? c = some site → site ∉ d.state.repaired ∧ c.Records site
  counted : (d.reports c).countP (·.isInPlace) = (d.repaired? c).toList.length
  deletes : ∀ rule kind idx, d.repaired? c = some (.decision rule kind idx) →
    ∃ x, d.reports c = [x] ∧ x.recovery = .deleted

variable {c} {d : Deed V}

open ParseContext Parse

theorem RepairsOnce.of_steady (hrepaired : (d.after c).repaired = d.state.repaired)
    (hreports : ∀ x ∈ d.reports c, x.isInPlace = false) : d.RepairsOnce c := by
  have hany : (d.reports c).any (·.isInPlace) = false := by
    rw [List.any_eq_false]
    exact fun x hx => by simp [hreports x hx]
  have hnone : d.repaired? c = none := by rw [repaired?, hany]; rfl
  exact {
    repaired := by rw [hnone]; exact hrepaired
    fresh := fun site h => by rw [hnone] at h; cases h
    counted := by
      rw [hnone, List.countP_eq_zero.mpr fun x hx => by simp [hreports x hx]]
      rfl
    deletes := fun rule kind idx h => by rw [hnone] at h; cases h }

private theorem reports_of_mending {s : ParseState} {body : Body V} {t : ParseState}
    (h : (body.seeing s.diagnostics).Mending c s.cleared t)
    (ht : ((body.seeing s.diagnostics).opening c).after s.cleared = t) :
    reports c ⟨s, .step body⟩ = []
      ∨ ∃ x, reports c ⟨s, .step body⟩ = [x] ∧ x.isInPlace = true
        ∧ ∀ rule kind idx, body.repairSite? s.currentRule = some (.decision rule kind idx) →
          x.recovery = .deleted := by
  subst ht
  have hreports : reports c ⟨s, .step body⟩
      = (((body.seeing s.diagnostics).opening c).after s.cleared).diagnostics.toList := rfl
  cases h with
  | steady repaired diagnostics suppressed =>
    rw [hreports, diagnostics]
    exact .inl rfl
  | @repair site x t here recorded repairs inPlace deletes =>
    have hroom := diagnosticLimit_pos c.registry.preferences
    rw [Body.repairSite?_seeing] at here
    refine .inr ⟨x, ?_, inPlace, fun rule kind idx h => deletes rule kind idx ?_⟩
    · rw [hreports, repairs.reported.kept]
      exact List.take_of_length_le hroom
    · exact Option.some.inj (here.symm.trans h)

private theorem repairsOnce_step (s : ParseState) (body : Body V)
    (hi : s.cursor ≤ c.tokens.endIndex) : RepairsOnce c ⟨s, .step body⟩ := by
  -- The step is looked at twice: where it is taken, and where nothing has been reported, which is
  -- what its reports are told from. It reports as much in both, so it repairs in both or in none.
  have hreported := (effect (c := c) ⟨s, .step body⟩ hi).reported
  have hreports :=
    reports_of_mending ((body.seeing s.diagnostics).mending_opening (c := c) s.cleared) rfl
  have hmending := body.mending_opening (c := c) s
  generalize ht : (body.opening c).after s = t at hmending
  have hafter : Deed.after c ⟨s, .step body⟩ = t := ht
  rw [hafter] at hreported
  cases hmending with
  | steady repaired diagnostics suppressed =>
    have hnil := List.length_eq_zero_iff.mp (hreported.length_eq (.nothing diagnostics suppressed))
    exact .of_steady (by rw [hafter, repaired]) (by simp [hnil])
  | @repair site _ _ here recorded repairs inPlace deletes =>
    have hone := hreported.length_eq repairs.reported
    rcases hreports with hnil | ⟨x, hx, hinPlace, hdeletes⟩
    · simp [hnil] at hone
    · have hsome : repaired? c ⟨s, .step body⟩ = some site := by
        simp [repaired?, hx, hinPlace, here]
      exact {
        repaired := by rw [hsome, hafter, repairs.repaired]; rfl
        fresh := fun site' h => by
          obtain rfl := Option.some.inj (hsome.symm.trans h)
          exact ⟨repairs.fresh, recorded⟩
        counted := by simp [hsome, hx, hinPlace]
        deletes := fun rule kind idx h =>
          ⟨x, hx, hdeletes rule kind idx (here.trans (hsome.symm.trans h))⟩ }

private theorem repaired_settle (s : ParseState) (id : RuleId) (f : Failure) :
    (stateOf (c.settle id f s)).repaired = s.repaired := by
  rw [settle_eq]
  split
  · exact repaired_report s _
  · split
    · exact repaired_report _ _
    · rfl

private theorem repaired_reportRest (s : ParseState) : (c.reportRest s).repaired = s.repaired := by
  rw [reportRest]
  split
  · rfl
  · exact repaired_report s _

private theorem isInPlace_of_does {xs : List Diagnostic} {t : Option Token} {j : Nat}
    (h : d.Does c xs t j) (hact : ∀ body, d.act ≠ .step body) : ∀ x ∈ xs, x.isInPlace = false := by
  cases h with
  | goOn => exact fun x hx => nomatch hx
  | delete x step =>
    obtain ⟨body, hbody⟩ := step
    exact absurd hbody (hact body)
  | insert x step =>
    obtain ⟨body, hbody⟩ := step
    exact absurd hbody (hact body)
  | resync x act inner on n recovery =>
    exact List.forall_mem_singleton.mpr (by simp [Diagnostic.isInPlace, recovery])
  | giveUp => exact List.forall_mem_singleton.mpr rfl
  | leftOver x act code expected recovery =>
    exact List.forall_mem_singleton.mpr (by simp [Diagnostic.isInPlace, recovery])

theorem repairsOnce (d : Deed V) (hi : d.state.cursor ≤ c.tokens.endIndex) : d.RepairsOnce c := by
  have hquiet := isInPlace_of_does (d.effect (c := c) hi).does
  obtain ⟨s, act⟩ := d
  cases act with
  | step body => exact repairsOnce_step s body hi
  | enter id => exact .of_steady rfl (hquiet nofun)
  | leave => exact .of_steady rfl (hquiet nofun)
  | settle id f => exact .of_steady (repaired_settle s id f) (hquiet nofun)
  | finish => exact .of_steady (repaired_reportRest s) (hquiet nofun)

end Deed

/-! ## Repairs of a parse -/

namespace ParseContext

variable {V : Type} {c : ParseContext V}

private theorem repairs_of_leads {s u : ParseState} {deeds : List (Deed V)} (h : c.Leads s deeds u)
    (hi : s.cursor ≤ c.tokens.endIndex) (hn : s.repaired.Nodup) :
    u.repaired = (deeds.filterMap (·.repaired? c)).reverse ++ s.repaired ∧ u.repaired.Nodup
      ∧ (∀ site ∈ deeds.filterMap (·.repaired? c), c.Records site)
      ∧ ∀ d ∈ deeds, d.RepairsOnce c := by
  induction deeds generalizing s with
  | nil =>
    obtain rfl : s = u := h
    exact ⟨rfl, hn, by simp, by simp⟩
  | cons d deeds ih =>
    obtain ⟨rfl, hrest⟩ := h
    have hd := d.repairsOnce hi
    have hn' : (d.after c).repaired.Nodup := by
      rw [hd.repaired]
      cases hsite : d.repaired? c with
      | none => exact hn
      | some site => exact List.nodup_cons.mpr ⟨(hd.fresh site hsite).1, hn⟩
    obtain ⟨hrepaired, hnodup, hrecorded, hall⟩ :=
      ih hrest ((d.effect hi).usedUp.le_endIndex hi) hn'
    refine ⟨?_, hnodup, ?_, List.forall_mem_cons.mpr ⟨hd, hall⟩⟩
    · rw [hrepaired, hd.repaired, List.filterMap_cons]
      cases d.repaired? c <;> simp
    · rw [List.filterMap_cons]
      cases hsite : d.repaired? c with
      | none => exact hrecorded
      | some site => exact List.forall_mem_cons.mpr ⟨(hd.fresh site hsite).2, hrecorded⟩

private theorem countP_reports {deeds : List (Deed V)} (h : ∀ d ∈ deeds, d.RepairsOnce c) :
    (deeds.flatMap (·.reports c)).countP (·.isInPlace)
      = (deeds.filterMap (·.repaired? c)).length := by
  induction deeds with
  | nil => rfl
  | cons d deeds ih =>
    obtain ⟨hd, hall⟩ := List.forall_mem_cons.mp h
    rw [List.flatMap_cons, List.countP_append, hd.counted, ih hall, List.filterMap_cons]
    cases d.repaired? c with
    | none => exact Nat.zero_add _
    | some site => exact Nat.add_comm _ _

end ParseContext

namespace Session

variable {V : Type}

open Registry ParseContext

/-- However many tokens there are, a parse over rules that have been analyzed makes one repair at
most at every site, a deletion where it is that of a decision. So it reports no more tokens as
deleted or supplied than there are tokens, choices and repetitions with at least one round in what
was recorded of the rules. -/
theorem repairs_within_rules {s : Session V} (hr : s.context.registry.Built)
    (ho : s.context.registry.outcome = some (.ok s.context.analysis)) {start : String} {id : RuleId}
    {rule : Rule V} (h : s.context.registry.find? start = some (id, rule)) :
    ∃ g out t u, s.context.registry.grammar = .ok g ∧ s.invoke start = (.ok out, t)
      ∧ s.context.Leads (s.context.startState rule s.state) (s.deeds start) u
      ∧ out.syntactic = u.diagnostics.toList
      ∧ (∀ d ∈ s.deeds start, d.RepairsOnce s.context)
      ∧ ((s.deeds start).filterMap (·.repaired? s.context)).Nodup
      ∧ (∀ site ∈ (s.deeds start).filterMap (·.repaired? s.context), site ∈ g.repairSites)
      ∧ out.syntactic.countP (·.isInPlace)
        ≤ ((s.deeds start).filterMap (·.repaired? s.context)).length
      ∧ out.syntactic.countP (·.isInPlace) ≤ g.repairPoints := by
  obtain ⟨g, hg, ha⟩ := hr.exists_grammar ho
  obtain ⟨out, t, u, hinvoke, hleads, hkept, -, -⟩ := exists_leads h
  obtain ⟨hrepaired, hnodup, hrecorded, hall⟩ :=
    repairs_of_leads hleads (Nat.zero_le _) List.nodup_nil
  obtain ⟨-, hreported⟩ := usedUp_of_leads hleads (Nat.zero_le _)
  have hsites : u.repaired = ((s.deeds start).filterMap (·.repaired? s.context)).reverse :=
    hrepaired.trans (List.append_nil _)
  rw [hsites, List.nodup_reverse] at hnodup
  have hmem : ∀ site ∈ (s.deeds start).filterMap (·.repaired? s.context), site ∈ g.repairSites :=
    fun site hsite => (hrecorded site hsite).mem_repairSites ha
  have hreturned : out.syntactic.countP (·.isInPlace)
      ≤ ((s.deeds start).filterMap (·.repaired? s.context)).length := by
    rw [← countP_reports hall, hkept.trans hreported.kept]
    exact (List.take_sublist _ _).countP_le
  have hbound : ((s.deeds start).filterMap (·.repaired? s.context)).length ≤ g.repairPoints :=
    g.length_repairSites ▸ (List.subperm_of_subset hnodup hmem).length_le
  exact ⟨g, out, t, u, hg, hinvoke, hleads, hkept, hall, hnodup, hmem, hreturned,
    hreturned.trans hbound⟩

set_option maxRecDepth 4000 in
/-- One of the two tokens of the rules is repaired. -/
theorem repairs_within_rules_noisySession : itemList.Built
    ∧ itemList.outcome = some (.ok itemAnalysis)
    ∧ ∃ g out t, itemList.grammar = .ok g ∧ noisySession.invoke "list" = (.ok out, t)
      ∧ out.syntactic.countP (·.isInPlace) = 1 ∧ g.repairPoints = 2
      ∧ out.syntactic.countP (·.isInPlace) ≤ g.repairPoints := by
  have hr : noisySession.context.registry.Built := finalized_itemList.built
  have ho : noisySession.context.registry.outcome = some (.ok noisySession.context.analysis) :=
    finalized_itemList.analyzed
  obtain ⟨g, out, t, u, hg, hinvoke, -, -, -, -, -, -, hbound⟩ :=
    repairs_within_rules hr ho find?_itemList
  have hout : (noisySession.invoke "list").1.toOption.map (·.syntactic.countP (·.isInPlace))
      = some 1 := by cbv
  have hpoints : itemList.grammar.toOption.map (·.repairPoints) = some 2 := by cbv
  change itemList.grammar = .ok g at hg
  rw [hinvoke] at hout
  rw [hg] at hpoints
  exact ⟨hr, ho, g, out, t, hg, hinvoke, Option.some.inj hout, Option.some.inj hpoints, hbound⟩

end Session

end PredictiveParsing
