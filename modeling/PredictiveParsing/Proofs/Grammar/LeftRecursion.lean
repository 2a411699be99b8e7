import PredictiveParsing.Proofs.Grammar.CycleSearch
import PredictiveParsing.Proofs.Grammar.Naming
import PredictiveParsing.Proofs.Grammar.SententialForms

/-!
# Left recursion

A rule is left recursive if it derives a sentential form that begins with the rule itself. The first
call of such a form is reached along calls with nothing to consume in front of them, so a rule is
left recursive if and only if it lies on a cycle of such calls, and the search finds one of these.
-/

namespace PredictiveParsing

namespace Phrase

variable {g : Grammar} {p q : Phrase} {r s : String}

/-- The phrase has a call of the rule with nothing to consume in front of it. -/
inductive CallsFirst (g : Grammar) : Phrase → String → Prop
  | call {r i rest} : CallsFirst g (.call r i rest) r
  | behindCall {r i rest p s} (hp : g.phrase? r = some p) (hn : p.Vanishes g)
      (h : CallsFirst g rest s) : CallsFirst g (.call r i rest) s
  | inOption {i body rest s} (h : CallsFirst g body s) : CallsFirst g (.option i body rest) s
  | behindOption {i body rest s} (h : CallsFirst g rest s) : CallsFirst g (.option i body rest) s
  | inRepetition {i b body rest s} (h : CallsFirst g body s) :
      CallsFirst g (.repetition i b body rest) s
  | behindRepetition {i b body rest s} (hn : b = false ∨ body.Vanishes g)
      (h : CallsFirst g rest s) : CallsFirst g (.repetition i b body rest) s
  | inChoice {n i rest s} {gated : Fin n → Bool} {body : Fin n → Phrase} (k : Fin n)
      (h : CallsFirst g (body k) s) : CallsFirst g (.choice i gated body rest) s
  | behindChoice {n i rest s} {gated : Fin n → Bool} {body : Fin n → Phrase} (k : Fin n)
      (hn : (body k).Vanishes g) (h : CallsFirst g rest s) :
      CallsFirst g (.choice i gated body rest) s

theorem mem_callsInFront :
    s ∈ p.callsInFront (RuleFacts.ofGrammar g).isNullable ↔ p.CallsFirst g s := by
  constructor
  · intro h
    induction p with
    | nil => cases h
    | terminal c i rest ih => cases h
    | call r i rest ih =>
      rw [callsInFront, List.mem_cons] at h
      rcases h with rfl | h
      · exact .call
      · split at h
        · rename_i hn
          obtain ⟨p, hp, hv⟩ := RuleFacts.isNullable_iff_vanishes.mp hn
          exact .behindCall hp hv (ih h)
        · cases h
    | option i body rest ihb ih =>
      rw [callsInFront, List.mem_append] at h
      exact h.elim (fun h => .inOption (ihb h)) fun h => .behindOption (ih h)
    | repetition i b body rest ihb ih =>
      rw [callsInFront, List.mem_append] at h
      rcases h with h | h
      · exact .inRepetition (ihb h)
      · split at h
        · rename_i hn
          rw [Bool.or_eq_true, Bool.not_eq_true', isNullable_iff_vanishes] at hn
          exact .behindRepetition hn (ih h)
        · cases h
    | choice i gated body rest ihb ih =>
      rw [callsInFront, List.mem_append] at h
      rcases h with h | h
      · obtain ⟨_, hl, h⟩ := List.mem_flatten.mp h
        obtain ⟨k, rfl⟩ := List.mem_ofFn.mp hl
        exact .inChoice k (ihb k h)
      · split at h
        · rename_i hn
          obtain ⟨k, hk⟩ := any_ofFn.mp hn
          exact .behindChoice k (isNullable_iff_vanishes.mp hk) (ih h)
        · cases h
  · intro h
    induction h with
    | call => exact List.mem_cons_self
    | behindCall hp hn _ ih =>
      rw [callsInFront, if_pos (RuleFacts.isNullable_iff_vanishes.mpr ⟨_, hp, hn⟩)]
      exact List.mem_cons_of_mem _ ih
    | inOption _ ih => exact List.mem_append_left _ ih
    | behindOption _ ih => exact List.mem_append_right _ ih
    | inRepetition _ ih => exact List.mem_append_left _ ih
    | behindRepetition hn _ ih =>
      rw [callsInFront, if_pos (by simpa [isNullable_iff_vanishes] using hn)]
      exact List.mem_append_right _ ih
    | inChoice k _ ih =>
      exact List.mem_append_left _ (List.mem_flatten.mpr ⟨_, List.mem_ofFn.mpr ⟨k, rfl⟩, ih⟩)
    | behindChoice k hn _ ih =>
      rw [callsInFront, if_pos (any_ofFn.mpr ⟨k, isNullable_iff_vanishes.mpr hn⟩)]
      exact List.mem_append_right _ ih

private theorem CallsFirst.exists_yields_append (h : p.CallsFirst g s) (hp : p.HasBranches)
    {front : List Symbol} (hfront : front = [.call s] ∨
      ∃ q, g.phrase? s = some q ∧ q.Yields g front) : ∃ w, p.Yields g (front ++ w) := by
  induction h with
  | @call r i rest =>
    obtain ⟨w, hw⟩ := exists_yields (p := rest) hp
    rcases hfront with rfl | ⟨q, hq, hv⟩
    · exact ⟨w, .keep hw⟩
    · exact ⟨w, .expand hq hv hw⟩
  | behindCall hq hn _ ih =>
    obtain ⟨w, hw⟩ := ih hp hfront
    exact ⟨w, by simpa using Yields.expand hq hn.yields hw⟩
  | inOption _ ih =>
    obtain ⟨v, hv⟩ := ih hp.1 hfront
    obtain ⟨w, hw⟩ := exists_yields hp.2
    exact ⟨v ++ w, by simpa using Yields.take hv hw⟩
  | behindOption _ ih =>
    obtain ⟨w, hw⟩ := ih hp.2 hfront
    exact ⟨w, .skip hw⟩
  | @inRepetition i b body rest s _ ih =>
    obtain ⟨v, hv⟩ := ih hp.1 hfront
    obtain ⟨w, hw⟩ := exists_yields hp.2
    exact ⟨v ++ w, by simpa using Yields.oneRound hv hw⟩
  | @behindRepetition i b body rest s hn _ ih =>
    obtain ⟨w, hw⟩ := ih hp.2 hfront
    rcases hn with rfl | hn
    · exact ⟨w, .noRound hw⟩
    · exact ⟨w, by simpa using Yields.oneRound hn.yields hw⟩
  | inChoice k _ ih =>
    obtain ⟨v, hv⟩ := ih (hp.1.2 k) hfront
    obtain ⟨w, hw⟩ := exists_yields hp.2
    exact ⟨v ++ w, by simpa using Yields.choice k hv hw⟩
  | behindChoice k hn _ ih =>
    obtain ⟨w, hw⟩ := ih hp.2 hfront
    exact ⟨w, by simpa using Yields.choice k hn.yields hw⟩

end Phrase

namespace Grammar

variable {g : Grammar} {p q : Phrase} {r s : String}

/-- The one rule has a call of the other with nothing to consume in front of it. -/
def Leads (g : Grammar) (r s : String) : Prop :=
  ∃ p q, g.phrase? r = some p ∧ p.CallsFirst g s ∧ g.phrase? s = some q

/-- The rule derives a sentential form that begins with the rule itself. -/
def LeftRecursive (g : Grammar) (r : String) : Prop :=
  ∃ p w, g.phrase? r = some p ∧ p.Yields g (.call r :: w)

/-- A first call of the phrase leads to the rule. -/
def LeadsFrom (g : Grammar) (p : Phrase) (s : String) : Prop :=
  ∃ r q, p.CallsFirst g r ∧ g.phrase? r = some q ∧ Relation.ReflTransGen g.Leads r s

theorem LeadsFrom.mono (h : g.LeadsFrom p s) (hc : ∀ r, p.CallsFirst g r → q.CallsFirst g r) :
    g.LeadsFrom q s := by
  obtain ⟨r, t, hr, ht, hs⟩ := h
  exact ⟨r, t, hc r hr, ht, hs⟩

private theorem leadsFrom_of_yields {u w : List Symbol} (hs : g.phrase? s = some q)
    (h : p.Yields g u) (hu : u = .call s :: w) : g.LeadsFrom p s := by
  induction h generalizing w with
  | nil => cases hu
  | terminal _ _ => cases hu
  | keep _ _ =>
    cases hu
    exact ⟨s, q, .call, hs, .refl⟩
  | @expand r i rest p v w' hp hv _ ihv ihw =>
    rcases List.append_eq_cons_iff.mp hu with ⟨rfl, hw⟩ | ⟨v', hv', -⟩
    · exact (ihw hw).mono fun _ => .behindCall hp (hv.vanishes rfl)
    · obtain ⟨t, q', ht, hq', hts⟩ := ihv hv'
      exact ⟨r, p, .call, hp, .head ⟨p, q', hp, ht, hq'⟩ hts⟩
  | skip _ ih => exact (ih hu).mono fun _ => .behindOption
  | take _ _ ihv ihw =>
    rcases List.append_eq_cons_iff.mp hu with ⟨rfl, hw⟩ | ⟨v', hv', -⟩
    · exact (ihw hw).mono fun _ => .behindOption
    · exact (ihv hv').mono fun _ => .inOption
  | @repetition i b body rest w' vs hn hv hw ihv ihw =>
    rcases List.append_eq_cons_iff.mp hu with ⟨hvs, hw'⟩ | ⟨v', hvs, -⟩
    · have hempty := (Phrase.eq_false_or_nil_mem hn hvs).imp_right fun hnil =>
        (hv [] hnil).vanishes rfl
      exact (ihw hw').mono fun _ => .behindRepetition hempty
    · obtain ⟨earlier, u, later, heq, -, -⟩ := List.flatten_eq_cons_iff.mp hvs
      exact (ihv (.call s :: u) (by simp [heq]) rfl).mono fun _ => .inRepetition
  | choice k hv _ ihv ihw =>
    rcases List.append_eq_cons_iff.mp hu with ⟨rfl, hw⟩ | ⟨v', hv', -⟩
    · exact (ihw hw).mono fun _ => .behindChoice k (hv.vanishes rfl)
    · exact (ihv hv').mono fun _ => .inChoice k

private theorem exists_yields_of_leads (hb : ∀ name p, g.phrase? name = some p → p.HasBranches)
    (h : Relation.TransGen g.Leads r s) :
    ∃ p w, g.phrase? r = some p ∧ p.Yields g (.call s :: w) := by
  induction h using Relation.TransGen.head_induction_on with
  | single h =>
    obtain ⟨p, q, hp, hc, -⟩ := h
    obtain ⟨w, hw⟩ := hc.exists_yields_append (hb _ p hp) (.inl rfl)
    exact ⟨p, w, hp, hw⟩
  | head h _ ih =>
    obtain ⟨p, q, hp, hc, hq⟩ := h
    obtain ⟨q', v, hq', hv⟩ := ih
    obtain ⟨w, hw⟩ := hc.exists_yields_append (hb _ p hp) (.inr ⟨q', hq', hv⟩)
    exact ⟨p, v ++ w, hp, hw⟩

/-- A rule is left recursive if and only if first calls lead from it back to it. -/
theorem leftRecursive_iff (hb : ∀ name p, g.phrase? name = some p → p.HasBranches) :
    g.LeftRecursive r ↔ Relation.TransGen g.Leads r r := by
  constructor
  · rintro ⟨p, w, hp, hw⟩
    obtain ⟨t, q, ht, hq, htr⟩ := leadsFrom_of_yields hp hw rfl
    exact .head' ⟨p, q, hp, ht, hq⟩ htr
  · exact exists_yields_of_leads hb

/-! ## Rules by their numbers -/

variable {rules : List Production} {i j : RuleId}

/-- The edges that are searched are the first calls of the rules. -/
theorem edge_leads_iff : LeftCycle.Edge (RuleFacts.ofGrammar g).leads i j ↔
    ∃ p name, g.productions[i]? = some p ∧ p.phrase.CallsFirst g name
      ∧ g.ruleId? name = some j := by
  rw [LeftCycle.Edge, RuleFacts.leads, Array.getElem?_map]
  change _ ∈ (Option.map _ g.productions[i]?).getD [] ↔ _
  cases hp : g.productions[i]? with
  | none => simp
  | some p =>
    simp only [Option.map_some, Option.getD_some, List.mem_eraseDups, List.mem_filterMap,
      Phrase.mem_callsInFront, Option.some.injEq, exists_and_left, exists_eq_left']
    rfl

theorem closed_leads : LeftCycle.Closed (RuleFacts.ofGrammar (ofList rules)).leads := by
  intro i j h
  obtain ⟨p, name, -, -, hj⟩ := edge_leads_iff.mp h
  obtain ⟨q, hq, -⟩ := name_of_ruleId? hj
  have hlt := (List.getElem?_eq_some_iff.mp hq).1
  change j < (Array.map _ (ofList rules).productions).size
  simpa [ofList] using hlt

theorem ruleId?_of_edge (h : LeftCycle.Edge (RuleFacts.ofGrammar (ofList rules)).leads i j) :
    (ofList rules).ruleId? ((ofList rules).ruleName j) = some j := by
  obtain ⟨p, name, -, -, hj⟩ := edge_leads_iff.mp h
  rwa [ruleName_of_ruleId? hj]

private theorem leads_of_edge (hi : (ofList rules).ruleId? r = some i)
    (h : LeftCycle.Edge (RuleFacts.ofGrammar (ofList rules)).leads i j) :
    (ofList rules).Leads r ((ofList rules).ruleName j) := by
  obtain ⟨p, name, hp, hc, hj⟩ := edge_leads_iff.mp h
  obtain ⟨p', hp', hphrase⟩ := phrase?_of_ruleId? hi
  obtain rfl : p = p' := by simpa [ofList, hp'] using hp.symm
  obtain ⟨q, -, hq⟩ := phrase?_of_ruleId? hj
  rw [ruleName_of_ruleId? hj]
  exact ⟨_, _, hphrase, hc, hq⟩

private theorem ruleId?_of_mem_walk {walk : List RuleId}
    (h : (i :: walk).IsChain (LeftCycle.Edge (RuleFacts.ofGrammar (ofList rules)).leads)) :
    ∀ x ∈ walk, (ofList rules).ruleId? ((ofList rules).ruleName x) = some x := by
  induction walk generalizing i with
  | nil => simp
  | cons j walk ih =>
    obtain ⟨hij, hwalk⟩ := List.isChain_cons_cons.mp h
    exact List.forall_mem_cons.mpr ⟨ruleId?_of_edge hij, ih hwalk⟩

private theorem isChain_leads {walk : List RuleId} (hi : (ofList rules).ruleId? r = some i)
    (h : (i :: walk).IsChain (LeftCycle.Edge (RuleFacts.ofGrammar (ofList rules)).leads)) :
    (r :: walk.map (ofList rules).ruleName).IsChain (ofList rules).Leads := by
  induction walk generalizing r i with
  | nil => exact List.isChain_singleton _
  | cons j walk ih =>
    obtain ⟨hij, hwalk⟩ := List.isChain_cons_cons.mp h
    exact List.isChain_cons_cons.mpr ⟨leads_of_edge hi hij, ih (ruleId?_of_edge hij) hwalk⟩

theorem transGen_edge (h : Relation.TransGen g.Leads r s) :
    ∃ i j, g.ruleId? r = some i ∧ g.ruleId? s = some j
      ∧ Relation.TransGen (LeftCycle.Edge (RuleFacts.ofGrammar g).leads) i j := by
  have hedge : ∀ {r s : String}, g.Leads r s → ∃ i j, g.ruleId? r = some i ∧ g.ruleId? s = some j
      ∧ LeftCycle.Edge (RuleFacts.ofGrammar g).leads i j := by
    rintro r s ⟨p, q, hp, hc, hq⟩
    obtain ⟨i, production, hi, hproduction, rfl⟩ := exists_of_phrase? hp
    obtain ⟨j, -, hj, -, -⟩ := exists_of_phrase? hq
    exact ⟨i, j, hi, hj, edge_leads_iff.mpr ⟨production, s, hproduction, hc, hj⟩⟩
  induction h with
  | single h =>
    obtain ⟨i, j, hi, hj, h⟩ := hedge h
    exact ⟨i, j, hi, hj, .single h⟩
  | tail _ h ih =>
    obtain ⟨i, j, hi, hj, hij⟩ := ih
    obtain ⟨j', k, hj', hk, hjk⟩ := hedge h
    obtain rfl : j = j' := Option.some.inj (hj.symm.trans hj')
    exact ⟨i, k, hi, hk, .tail hij hjk⟩

/-- What is reported is a cycle of first calls. -/
theorem isChain_of_leftCycle? {path : List String}
    (h : (RuleFacts.ofGrammar (ofList rules)).leftCycle? = some (r, path)) :
    ∃ others, path = r :: (others ++ [r]) ∧ (r :: others).Nodup
      ∧ path.IsChain (ofList rules).Leads := by
  rw [RuleFacts.leftCycle?] at h
  split at h
  · cases h
  · cases h
  · rename_i first others hsearch
    obtain ⟨hnodup, hwalk⟩ := LeftCycle.isCycle_of_search closed_leads hsearch
    change some ((ofList rules).ruleName first, _) = _ at h
    obtain ⟨rfl, rfl⟩ := Prod.mk.inj (Option.some.inj h)
    -- every rule of the cycle is called, so that its name stands for it
    have hnumbers : ∀ x ∈ first :: others,
        (ofList rules).ruleId? ((ofList rules).ruleName x) = some x := fun x hx =>
      ruleId?_of_mem_walk hwalk x (by simpa [or_comm] using hx)
    have hfirst := hnumbers first List.mem_cons_self
    refine ⟨others.map (ofList rules).ruleName, rfl, ?_, ?_⟩
    · rw [← List.map_cons]
      refine hnodup.map_on fun x hx y hy hxy => ?_
      exact Option.some.inj ((hnumbers x hx).symm.trans (hxy ▸ hnumbers y hy))
    · have hchain := isChain_leads hfirst hwalk
      rwa [List.map_append, List.map_singleton] at hchain

theorem transGen_of_isChain {others : List String} (h : (r :: (others ++ [s])).IsChain g.Leads) :
    Relation.TransGen g.Leads r s := by
  induction others generalizing r with
  | nil => exact .single (List.isChain_cons_cons.mp h).1
  | cons t others ih =>
    obtain ⟨hrt, h⟩ := List.isChain_cons_cons.mp h
    exact .head hrt (ih h)

/-- The search reports a cycle if and only if there is a left recursive rule, and what it reports is
a cycle of calls with nothing to consume in front of them. -/
theorem leftCycle?_exact (hb : ∀ p ∈ rules, p.phrase.HasBranches) :
    ((RuleFacts.ofGrammar (ofList rules)).leftCycle?.isSome = true ↔
        ∃ rule, (ofList rules).LeftRecursive rule)
      ∧ ∀ rule path, (RuleFacts.ofGrammar (ofList rules)).leftCycle? = some (rule, path) →
        ∃ others, path = rule :: (others ++ [rule]) ∧ (rule :: others).Nodup
          ∧ path.IsChain (ofList rules).Leads := by
  have hphrases : ∀ name p, (ofList rules).phrase? name = some p → p.HasBranches := by
    intro name p hp
    obtain ⟨i, q, -, hq, rfl⟩ := exists_of_phrase? hp
    exact hb q (by simpa [ofList] using Array.mem_of_getElem? hq)
  refine ⟨⟨fun h => ?_, ?_⟩, fun rule path => isChain_of_leftCycle?⟩
  · obtain ⟨⟨rule, path⟩, h⟩ := Option.isSome_iff_exists.mp h
    obtain ⟨others, rfl, -, hchain⟩ := isChain_of_leftCycle? h
    exact ⟨rule, (leftRecursive_iff hphrases).mpr (transGen_of_isChain hchain)⟩
  · rintro ⟨rule, h⟩
    obtain ⟨i, j, hi, hj, hcycle⟩ := transGen_edge ((leftRecursive_iff hphrases).mp h)
    obtain rfl : i = j := Option.some.inj (hi.symm.trans hj)
    rw [RuleFacts.leftCycle?]
    cases hsearch : LeftCycle.search (RuleFacts.ofGrammar (ofList rules)).leads with
    | ok visited =>
      exact absurd hcycle (LeftCycle.ends_of_search closed_leads hsearch i).not_transGen
    | error cycle =>
      cases cycle with
      | nil => exact (LeftCycle.isCycle_of_search closed_leads hsearch).elim
      | cons first others => rfl

def prefixBranch (k : Fin 2) : Phrase :=
  if k.val = 0 then .option 1 (.terminal 1 1 .nil) .nil else .terminal 2 1 .nil

/-- Two rules that call each other behind something that can be left out. -/
def mutualRules : List Production :=
  [⟨"sum", .option 1 (.terminal 1 1 .nil) (.call "term" 1 (.terminal 2 1 .nil))⟩,
    ⟨"term", .call "sign" 1 (.repetition 1 true (.call "sum" 1 .nil) .nil)⟩,
    ⟨"sign", .choice 1 (fun _ => false) prefixBranch .nil⟩]

private theorem leftCycle?_mutualRules : (RuleFacts.ofGrammar (ofList mutualRules)).leftCycle? =
    some ("sum", ["sum", "term", "sum"]) := by cbv

theorem leftCycle?_exact_mutualRules : (∀ p ∈ mutualRules, p.phrase.HasBranches)
    ∧ (∃ rule, (ofList mutualRules).LeftRecursive rule)
    ∧ ["sum", "term", "sum"].IsChain (ofList mutualRules).Leads := by
  have hb : ∀ p ∈ mutualRules, p.phrase.HasBranches := by
    simp [mutualRules, Phrase.HasBranches, prefixBranch, Fin.forall_fin_two]
  obtain ⟨hiff, hcycle⟩ := leftCycle?_exact hb
  obtain ⟨others, -, -, hchain⟩ := hcycle _ _ leftCycle?_mutualRules
  exact ⟨hb, hiff.mp (by rw [leftCycle?_mutualRules]; rfl), hchain⟩

end Grammar

end PredictiveParsing
