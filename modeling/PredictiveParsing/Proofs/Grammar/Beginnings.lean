import PredictiveParsing.Proofs.Grammar.Naming
import PredictiveParsing.Proofs.Grammar.SententialForms

/-!
# How sentential forms begin

The first set of a phrase holds exactly the categories of the tokens that its sentential forms begin
with, as the nullable phrases are exactly those that derive nothing. Both searches for these facts
come to rest within their bounds.
-/

namespace PredictiveParsing

namespace Phrase

variable {g : Grammar} {p : Phrase} {c : CategoryId}

/-- A sentential form of the phrase begins with a token of the category. -/
def BeginsWith (g : Grammar) (p : Phrase) (c : CategoryId) : Prop :=
  ∃ w, p.Yields g (.token c :: w)

namespace BeginsWith

variable {i : Nat} {body rest : Phrase}

theorem terminal (hp : rest.HasBranches) : (Phrase.terminal c i rest).BeginsWith g c := by
  obtain ⟨w, hw⟩ := exists_yields hp
  exact ⟨w, .terminal hw⟩

theorem inCall {r : String} {q : Phrase} (hq : g.phrase? r = some q) (h : q.BeginsWith g c)
    (hp : rest.HasBranches) : (Phrase.call r i rest).BeginsWith g c := by
  obtain ⟨v, hv⟩ := h
  obtain ⟨w, hw⟩ := exists_yields hp
  exact ⟨v ++ w, .expand hq hv hw⟩

theorem behindCall {r : String} {q : Phrase} (hq : g.phrase? r = some q) (hn : q.Vanishes g)
    (h : rest.BeginsWith g c) : (Phrase.call r i rest).BeginsWith g c := by
  obtain ⟨w, hw⟩ := h
  exact ⟨w, by simpa using Yields.expand hq hn.yields hw⟩

theorem inOption (h : body.BeginsWith g c) (hp : rest.HasBranches) :
    (Phrase.option i body rest).BeginsWith g c := by
  obtain ⟨v, hv⟩ := h
  obtain ⟨w, hw⟩ := exists_yields hp
  exact ⟨v ++ w, .take hv hw⟩

theorem behindOption (h : rest.BeginsWith g c) : (Phrase.option i body rest).BeginsWith g c := by
  obtain ⟨w, hw⟩ := h
  exact ⟨w, .skip hw⟩

theorem inRepetition {b : Bool} (h : body.BeginsWith g c) (hp : rest.HasBranches) :
    (Phrase.repetition i b body rest).BeginsWith g c := by
  obtain ⟨v, hv⟩ := h
  obtain ⟨w, hw⟩ := exists_yields hp
  exact ⟨v ++ w, .oneRound hv hw⟩

theorem behindRepetition {b : Bool} (hn : b = false ∨ body.Vanishes g) (h : rest.BeginsWith g c) :
    (Phrase.repetition i b body rest).BeginsWith g c := by
  obtain ⟨w, hw⟩ := h
  rcases hn with rfl | hn
  · exact ⟨w, .noRound hw⟩
  · exact ⟨w, by simpa using Yields.oneRound hn.yields hw⟩

theorem inChoice {n : Nat} {gated : Fin n → Bool} {body : Fin n → Phrase} (k : Fin n)
    (h : (body k).BeginsWith g c) (hp : rest.HasBranches) :
    (Phrase.choice i gated body rest).BeginsWith g c := by
  obtain ⟨v, hv⟩ := h
  obtain ⟨w, hw⟩ := exists_yields hp
  exact ⟨v ++ w, .choice k hv hw⟩

theorem behindChoice {n : Nat} {gated : Fin n → Bool} {body : Fin n → Phrase} (k : Fin n)
    (hn : (body k).Vanishes g) (h : rest.BeginsWith g c) :
    (Phrase.choice i gated body rest).BeginsWith g c := by
  obtain ⟨w, hw⟩ := h
  exact ⟨w, by simpa using Yields.choice k hn.yields hw⟩

end BeginsWith

/-- What is in the first set of a phrase begins one of its forms if that holds for the rules. -/
theorem beginsWith_of_mem_first {f : String → CategorySet}
    (hf : ∀ r c, c ∈ f r → ∃ q, g.phrase? r = some q ∧ q.BeginsWith g c) (hp : p.HasBranches)
    (h : c ∈ p.first (RuleFacts.ofGrammar g).isNullable f) : p.BeginsWith g c := by
  induction p with
  | nil => exact absurd h (CategorySet.not_mem_empty c)
  | terminal d i rest ih =>
    obtain rfl := mem_first_terminal.mp h
    exact .terminal hp
  | call r i rest ih =>
    rcases mem_first_call.mp h with h | ⟨hn, h⟩
    · obtain ⟨q, hq, hc⟩ := hf r c h
      exact .inCall hq hc hp
    · obtain ⟨q, hq, hv⟩ := RuleFacts.isNullable_iff_vanishes.mp hn
      exact .behindCall hq hv (ih hp h)
  | option i body rest ihb ih =>
    rcases mem_first_option.mp h with h | h
    · exact .inOption (ihb hp.1 h) hp.2
    · exact .behindOption (ih hp.2 h)
  | repetition i b body rest ihb ih =>
    rcases mem_first_repetition.mp h with h | ⟨hn, h⟩
    · exact .inRepetition (ihb hp.1 h) hp.2
    · exact .behindRepetition (hn.imp_right isNullable_iff_vanishes.mp) (ih hp.2 h)
  | choice i gated body rest ihb ih =>
    rcases mem_first_choice.mp h with ⟨k, h⟩ | ⟨⟨k, hn⟩, h⟩
    · exact .inChoice k (ihb k (hp.1.2 k) h) hp.2
    · exact .behindChoice k (isNullable_iff_vanishes.mp hn) (ih hp.2 h)

/-- What a form begins with is in the first set. -/
theorem Yields.mem_first {u w : List Symbol} (h : p.Yields g u) (hu : u = .token c :: w) :
    c ∈ p.first (RuleFacts.ofGrammar g).isNullable (RuleFacts.ofGrammar g).firstOf := by
  induction h generalizing w with
  | nil => cases hu
  | terminal _ _ =>
    cases hu
    exact mem_first_terminal.mpr rfl
  | keep _ _ => cases hu
  | expand hq hv _ ihv ihw =>
    rw [mem_first_call, RuleFacts.firstOf_eq hq, RuleFacts.isNullable_eq hq,
      isNullable_iff_vanishes]
    rcases List.append_eq_cons_iff.mp hu with ⟨rfl, hw⟩ | ⟨v', hv', -⟩
    · exact .inr ⟨hv.vanishes rfl, ihw hw⟩
    · exact .inl (ihv hv')
  | skip _ ih => exact mem_first_option.mpr (.inr (ih hu))
  | take _ _ ihv ihw =>
    rw [mem_first_option]
    rcases List.append_eq_cons_iff.mp hu with ⟨rfl, hw⟩ | ⟨v', hv', -⟩
    · exact .inr (ihw hw)
    · exact .inl (ihv hv')
  | @repetition i b body rest w' vs hn hv _ ihv ihw =>
    rw [mem_first_repetition, isNullable_iff_vanishes]
    rcases List.append_eq_cons_iff.mp hu with ⟨hvs, hw⟩ | ⟨v', hvs, -⟩
    · have hempty := (eq_false_or_nil_mem hn hvs).imp_right fun hnil => (hv [] hnil).vanishes rfl
      exact .inr ⟨hempty, ihw hw⟩
    · -- the first round that is not empty begins the form
      obtain ⟨earlier, u', later, heq, -, -⟩ := List.flatten_eq_cons_iff.mp hvs
      exact .inl (ihv (.token c :: u') (by simp [heq]) rfl)
  | choice k hv _ ihv ihw =>
    rw [mem_first_choice]
    rcases List.append_eq_cons_iff.mp hu with ⟨rfl, hw⟩ | ⟨v', hv', -⟩
    · exact .inr ⟨⟨k, isNullable_iff_vanishes.mpr (hv.vanishes rfl)⟩, ihw hw⟩
    · exact .inl ⟨k, ihv hv'⟩

end Phrase

namespace RuleFacts

variable {g : Grammar} {c : CategoryId}

private theorem beginsWith_of_mem_first (hb : ∀ p ∈ g.productions, p.phrase.HasBranches)
    {i : RuleId} {s : CategorySet} (h : (g.first g.nullable)[i]? = some s) (hc : c ∈ s) :
    ∃ p, g.productions[i]? = some p ∧ p.phrase.BeginsWith g c := by
  let Known (known : Array CategorySet) : Prop := ∀ (i : RuleId) s c,
    known[i]? = some s → c ∈ s → ∃ p, g.productions[i]? = some p ∧ p.phrase.BeginsWith g c
  refine untilStable_of_forall Known (fun known hknown i s c hs hc => ?_) (fun i s c hs hc => ?_)
    i s c h hc
  · rw [Grammar.firstStep, Array.getElem?_map, Option.map_eq_some_iff] at hs
    obtain ⟨p, hp, rfl⟩ := hs
    have hpb := hb p (Array.mem_of_getElem? hp)
    refine ⟨p, hp, Phrase.beginsWith_of_mem_first (fun r c hr => ?_) hpb hc⟩
    obtain ⟨j, t, hid, hj, hct⟩ := Grammar.mem_ofRule hr
    obtain ⟨q, hq, hbegins⟩ := hknown j t c hj hct
    exact ⟨q.phrase, Grammar.phrase?_of_ruleId hid hq, hbegins⟩
  · exact absurd hc (Grammar.mem_of_mem_replicate (Array.mem_of_getElem? hs))

private theorem beginsWith_of_mem_firstOf (hb : ∀ p ∈ g.productions, p.phrase.HasBranches)
    {name : String} (h : c ∈ (ofGrammar g).firstOf name) :
    ∃ p, g.phrase? name = some p ∧ p.BeginsWith g c := by
  obtain ⟨i, s, hid, hs, hc⟩ := Grammar.mem_ofRule h
  obtain ⟨p, hp, hbegins⟩ := beginsWith_of_mem_first hb hs hc
  exact ⟨p.phrase, Grammar.phrase?_of_ruleId hid hp, hbegins⟩

end RuleFacts

namespace Phrase

variable {g : Grammar} {p : Phrase} {c : CategoryId}

theorem mem_first_iff_beginsWith (hb : ∀ p ∈ g.productions, p.phrase.HasBranches)
    (hp : p.HasBranches) :
    c ∈ p.first (RuleFacts.ofGrammar g).isNullable (RuleFacts.ofGrammar g).firstOf ↔
      p.BeginsWith g c :=
  ⟨beginsWith_of_mem_first (fun _ _ => RuleFacts.beginsWith_of_mem_firstOf hb) hp,
    fun ⟨_, h⟩ => h.mem_first rfl⟩

end Phrase

namespace Grammar

variable {rules : List Production}

theorem mem_productions_ofList {p : Production} : p ∈ (ofList rules).productions ↔ p ∈ rules := by
  simp [ofList]

/-- Both searches end where another step finds nothing, and then a rule is nullable if and only if
it derives nothing, and a category is in its first set if and only if it derives a sentential form
that begins with a token of the category. -/
theorem nullable_and_first_exact (hb : ∀ p ∈ rules, p.phrase.HasBranches) :
    let g := ofList rules
    let facts := RuleFacts.ofGrammar g
    (g.nullableStep facts.nullable = facts.nullable
        ∧ g.firstStep facts.nullable facts.first = facts.first)
      ∧ ∀ (i : RuleId) (p : Production), rules[i]? = some p → ∃ nullable first,
        facts.nullable[i]? = some nullable ∧ facts.first[i]? = some first
        ∧ (nullable = true ↔ ∃ d, p.phrase.Derives g d [])
        ∧ ∀ c, c ∈ first ↔ ∃ w, p.phrase.Yields g (.token c :: w) := by
  intro g facts
  have hnullable : g.nullableStep facts.nullable = facts.nullable := nullableStep_nullable
  have hfirst : g.firstStep facts.nullable facts.first = facts.first :=
    (firstStep_first g.nullable).2
  refine ⟨⟨hnullable, hfirst⟩, fun i p hp => ?_⟩
  have hproduction : g.productions[i]? = some p := by simpa [g, ofList] using hp
  have hbranches : ∀ q ∈ g.productions, q.phrase.HasBranches := fun q hq =>
    hb q (mem_productions_ofList.mp hq)
  -- what comes to rest says of a rule what it says of the phrase of the rule
  refine ⟨p.phrase.isNullable facts.isNullable, p.phrase.first facts.isNullable facts.firstOf,
    ?_, ?_, Phrase.isNullable_iff_vanishes, fun c => ?_⟩
  · rw [← hnullable, nullableStep, Array.getElem?_map, hproduction]
    rfl
  · rw [← hfirst, firstStep, Array.getElem?_map, hproduction]
    rfl
  · exact Phrase.mem_first_iff_beginsWith hbranches (hb p (List.mem_of_getElem? hp))

/-- A sum of terms with a sign or without one. The rule of sums can call itself first. -/
def signedSums : List Production :=
  [⟨"sum", .option 1 (.call "sum" 1 (.terminal 1 1 .nil)) (.call "term" 1 .nil)⟩,
    ⟨"term", .call "sign" 1 (.repetition 1 true (.terminal 2 1 .nil) .nil)⟩,
    ⟨"sign", .option 1 (.terminal 3 1 .nil) .nil⟩]

set_option maxRecDepth 4000 in
private theorem first_signedSums :
    (RuleFacts.ofGrammar (ofList signedSums)).first.map (·.toList) = #[[2, 3], [2, 3], [3]] := by
  cbv

private theorem nullable_signedSums :
    (RuleFacts.ofGrammar (ofList signedSums)).nullable = #[false, false, true] := by cbv

/-- Sums begin with a sign or with a number, and no other token, and a sign can be left out. -/
theorem nullable_and_first_exact_signedSums : (∀ p ∈ signedSums, p.phrase.HasBranches)
    ∧ (∀ c, (∃ w, (Phrase.option 1 (.call "sum" 1 (.terminal 1 1 .nil))
        (.call "term" 1 .nil)).Yields (ofList signedSums) (.token c :: w)) ↔ c = 2 ∨ c = 3)
    ∧ ∃ d, (Phrase.option 1 (.terminal 3 1 .nil) .nil).Derives (ofList signedSums) d [] := by
  have hb : ∀ p ∈ signedSums, p.phrase.HasBranches := by simp [signedSums, Phrase.HasBranches]
  obtain ⟨-, hexact⟩ := nullable_and_first_exact hb
  refine ⟨hb, fun c => ?_, ?_⟩
  · obtain ⟨nullable, first, -, hfirst, -, hmem⟩ := hexact 0 _ rfl
    have hlist : first.toList = [2, 3] := by
      have h := congrArg (·[0]?) first_signedSums
      simpa [hfirst] using h
    rw [← hmem c]
    change c ∈ first.toList ↔ _
    simp [hlist]
  · obtain ⟨nullable, first, hnullable, -, hderives, -⟩ := hexact 2 _ rfl
    have htrue : some true = some nullable := by
      rw [← hnullable, nullable_signedSums]
      rfl
    exact hderives.mp (Option.some.inj htrue).symm

end Grammar

end PredictiveParsing
