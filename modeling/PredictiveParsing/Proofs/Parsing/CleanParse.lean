import Mathlib.Tactic
import PredictiveParsing.Proofs.Parsing.Readings

/-!
# Parses without diagnostics

Every repair and every rule that is given up leaves a diagnostic, so a parse without diagnostics has
taken each token for a category that the rules allow at its place.
-/

namespace PredictiveParsing

/-- Whenever the part leaves no diagnostic there was none before, and the tokens in between spell
categories of the kind `L`. -/
def Parse.Clean {V α : Type} (c : ParseContext V) (x : Parse α) (L : List CategoryId → Prop) :
    Prop :=
  ∀ s a s', x s = .ok a s' → s'.diagnostics = #[] →
    s.diagnostics = #[] ∧ ∃ w, L w ∧ c.Spells s.cursor w s'.cursor

namespace Parse.Clean

variable {V α : Type} {c : ParseContext V} {L : List CategoryId → Prop}

/-- The tokens belong, one by one, to the categories of a list of the kind `L`. -/
def Belong (c : ParseContext V) (L : List CategoryId → Prop) (ts : List Token) : Prop :=
  ∃ w, L w ∧ List.Forall₂ (fun t x => c.isA t.category x = true) ts w

theorem iff_reads {x : Parse α} : Clean c x L ↔ Reads c x fun _ ts => Belong c L ts := by
  constructor
  · intro h s a s' hx hd
    obtain ⟨hd, w, hw, hs⟩ := h s a s' hx hd
    obtain ⟨ts, hts, hall⟩ := ParseContext.spells_iff_holds.1 hs
    exact ⟨hd, ts, ⟨w, hw, hall⟩, hts⟩
  · intro h s a s' hx hd
    obtain ⟨hd, ts, ⟨w, hw, hall⟩, hts⟩ := h s a s' hx hd
    exact ⟨hd, w, hw, ParseContext.spells_iff_holds.2 ⟨ts, hts, hall⟩⟩

theorem of_reads {x : Parse α} {R : α → List Token → Prop} (h : Reads c x R)
    (hw : ∀ a ts, R a ts → Belong c L ts) : Clean c x L :=
  iff_reads.2 (h.mono hw)

/-- A part that takes nothing. -/
theorem of_nothing {x : Parse α} (h : Reads c x fun _ ts => ts = []) : Clean c x (· = []) :=
  of_reads h fun _ _ hts => ⟨[], rfl, hts ▸ .nil⟩

theorem get : Clean c (MonadState.get : Parse ParseState) (· = []) := of_nothing .get

theorem map {β : Type} {x : Parse α} {f : α → β} (hx : Clean c x L) : Clean c (f <$> x) L :=
  of_reads ((iff_reads.1 hx).map f) fun _ _ ⟨_, _, h⟩ => h

end Parse.Clean

namespace ParseContext

variable {V : Type} {c : ParseContext V}

open Parse

theorem clean_consume (idx : Nat) {category : CategoryId}
    (he : c.isA CategoryId.eof category = false) :
    Clean c (c.consume idx category) (· = [category]) :=
  .of_reads (reads_consume idx he) fun _ _ h => ⟨_, rfl, h.1 ▸ .cons h.2 .nil⟩

theorem clean_decision (kind : DecisionKind) (idx : Nat) :
    Clean c (c.decision kind idx) (· = []) := .of_nothing (reads_decision kind idx)

theorem clean_choiceDecision (idx n : Nat) : Clean c (c.choiceDecision idx n) (· = []) :=
  .of_nothing (reads_choiceDecision idx n)

theorem clean_enterOnce (idx : Nat) (d : Decision) : Clean c (c.enterOnce idx d) (· = []) :=
  .of_nothing (reads_enterOnce idx d)

theorem clean_choose {n : Nat} (idx : Nat) (expecting : Option String) (gate : Fin n → Option Gate)
    (d : Decision) : Clean c (c.choose idx expecting gate d) (· = []) :=
  .of_nothing (reads_choose idx expecting gate d)

/-- Lists that belong to lists of the kind `L` belong together to those one after the other. -/
theorem belong_flatten {L : List CategoryId → Prop} {tss : List (List Token)}
    (h : ∀ ts ∈ tss, Clean.Belong c L ts) : Clean.Belong c
      (fun w => ∃ vs : List (List CategoryId), (∀ v ∈ vs, L v) ∧ w = vs.flatten ∧
        (tss ≠ [] → vs ≠ [])) tss.flatten := by
  induction tss with
  | nil => exact ⟨[], ⟨[], by simp, rfl, fun h => absurd rfl h⟩, .nil⟩
  | cons ts tss ih =>
    rw [List.forall_mem_cons] at h
    obtain ⟨v, hv, hts⟩ := h.1
    obtain ⟨_, ⟨vs, hvs, rfl, -⟩, htss⟩ := ih h.2
    exact ⟨_, ⟨v :: vs, List.forall_mem_cons.2 ⟨hv, hvs⟩, rfl, by simp⟩,
      List.rel_append hts htss⟩

/-- The rounds of a repetition spell one list of the kind `L` after the other. -/
theorem clean_rounds {α : Type} (d : Decision) {part : Parse α} {L : List CategoryId → Prop}
    (hx : Clean c part L) : Clean c (c.rounds d part)
      fun w => ∃ vs : List (List CategoryId), (∀ v ∈ vs, L v) ∧ w = vs.flatten := by
  refine .of_reads (reads_rounds d (Clean.iff_reads.1 hx)) fun as ts hts => ?_
  obtain ⟨rounds, hrounds, -, rfl⟩ := hts
  obtain ⟨w, ⟨vs, hvs, rfl, -⟩, hall⟩ := belong_flatten (List.forall_mem_map.2 hrounds)
  exact ⟨_, ⟨vs, hvs, rfl⟩, hall⟩

end ParseContext

/-- What a body reads belongs to categories that its phrase derives. -/
theorem Body.Reads.derives {V : Type} {c : ParseContext V} {g : Grammar} {d : Nat}
    {call : String → List Token → V → Prop} {body : Body V} {ts : List Token} {ys : List (Yield V)}
    (hcall : ∀ name ts v, call name ts v → Parse.Clean.Belong c
      (fun w => ∃ e p, g.phrase? name = some p ∧ e < d ∧ p.Derives g e w) ts)
    (h : body.Reads c.isA call ts ys) : Parse.Clean.Belong c (body.phrase.Derives g d) ts := by
  induction h with
  | done => exact ⟨[], .nil, .nil⟩
  | consume ht _ ih =>
    obtain ⟨w, hw, hall⟩ := ih
    exact ⟨_, .terminal hw, .cons ht hall⟩
  | subrule hv _ ih =>
    obtain ⟨u, ⟨e, p, hname, hlt, hu⟩, hus⟩ := hcall _ _ _ hv
    obtain ⟨w, hw, hall⟩ := ih
    obtain ⟨d, rfl⟩ : ∃ d', d = d' + 1 := ⟨d - 1, by omega⟩
    exact ⟨_, .call hname (hu.mono (Nat.le_of_lt_succ hlt)) hw, List.rel_append hus hall⟩
  | skip _ ih =>
    obtain ⟨w, hw, hall⟩ := ih
    exact ⟨w, .skip hw, hall⟩
  | take _ _ ihb ih =>
    obtain ⟨u, hu, hus⟩ := ihb
    obtain ⟨w, hw, hall⟩ := ih
    exact ⟨_, .take hu hw, List.rel_append hus hall⟩
  | @repetition idx b body rest ts ys rounds hne _ _ ihb ih =>
    obtain ⟨_, ⟨vs, hvs, rfl, hsome⟩, hrounds⟩ := ParseContext.belong_flatten
      (List.forall_mem_map.2 ihb)
    obtain ⟨w, hw, hall⟩ := ih
    exact ⟨_, .repetition (fun hb => hsome (by simpa using hne hb)) hvs hw,
      List.rel_append hrounds hall⟩
  | choice k _ _ ihb ih =>
    obtain ⟨u, hu, hus⟩ := ihb
    obtain ⟨w, hw, hall⟩ := ih
    exact ⟨_, .choice k hu hw, List.rel_append hus hall⟩

theorem Body.clean_run {V : Type} {c : ParseContext V} {g : Grammar} {d : Nat}
    {call : RuleId → Rule V → Parse V}
    (heof : ∀ x, c.isA CategoryId.eof x = true → x = CategoryId.eof)
    (hcall : ∀ name, Parse.Clean c (c.callNamed call name) fun w =>
      ∃ e p, g.phrase? name = some p ∧ e < d ∧ p.Derives g e w)
    {body : Body V} (hp : body.isPlain = true) (he : ¬body.phrase.Consumes CategoryId.eof) :
    Parse.Clean c (body.run c call) (body.phrase.Derives g d) :=
  .of_reads (reads_run heof (fun name => Parse.Clean.iff_reads.1 (hcall name)) hp he)
    fun _ _ h => h.derives fun _ _ _ hts => hts

namespace ParseContext

variable {V : Type} {c : ParseContext V} {a : AnalyzedGrammar}

open Parse

/-- What a rule reads belongs to categories that it derives. -/
theorem belong_of_reads (hr : c.registry.Finalized a) {depth : Nat} {name : String}
    {ts : List Token} {v : V} (h : c.registry.Reads depth name ts v) : Clean.Belong c
      (fun w => ∃ e p, (Grammar.ofList c.registry.productions).phrase? name = some p ∧ e < depth
        ∧ p.Derives (.ofList c.registry.productions) e w) ts := by
  induction depth generalizing name ts v with
  | zero => exact h.elim
  | succ depth ih =>
    obtain ⟨id, rule, ys, hrule, hbody, -⟩ := h
    have hphrase := hr.built.wellFormed.phrase?_eq_some.2 ⟨id, rule, hrule, rfl⟩
    obtain ⟨w, hw, hall⟩ := Body.Reads.derives (c := c) (fun _ _ _ hv => ih hv) hbody
    exact ⟨w, ⟨depth, _, hphrase, Nat.lt_succ_self depth, hw⟩, hall⟩

theorem clean_call (hr : c.registry.Finalized a) (he : c.registry.EofApart) (left : Nat)
    (name : String) :
    Clean c (c.callNamed (c.callRule left) name) fun w =>
      ∃ e p, (Grammar.ofList c.registry.productions).phrase? name = some p ∧ e < left
        ∧ p.Derives (.ofList c.registry.productions) e w :=
  .of_reads (reads_call hr he left name) fun _ _ h => belong_of_reads hr h

/-- A parse of all tokens that leaves no diagnostic spells what the start rule derives. -/
theorem spells_of_parseAll (hr : c.registry.Finalized a) (he : c.registry.EofApart)
    (ht : ∀ t ∈ c.tokens.before, t.category ≠ CategoryId.eof) {start : String} {id : RuleId}
    {rule : Rule V} (hf : c.registry.find? start = some (id, rule)) {s : ParseState}
    (h : (c.parseAll id rule s).2.diagnostics = #[]) :
    ∃ w, (Grammar.ofList c.registry.productions).Derives Limits.maxParseDepth start w
      ∧ c.Spells 0 w c.tokens.endIndex := by
  obtain ⟨w, ⟨e, p, hp, hlt, hw⟩, hall⟩ := belong_of_reads hr (reads_of_parseAll hr he ht hf h)
  exact ⟨w, ⟨p, e, hp, hlt, hw⟩, (spells_endIndex_iff (Nat.zero_le _)).2 hall⟩

end ParseContext

namespace Session

variable {V : Type}

/-- The tokens of a parse without diagnostics belong, one by one, to categories that the start rule
derives. -/
theorem derives_of_clean {r : Registry V} {a : AnalyzedGrammar} (hr : r.Finalized a)
    (he : r.EofApart) {tokens : TokenStream}
    (ht : ∀ t ∈ tokens.before, t.category ≠ CategoryId.eof) {s s' : Session V}
    (hs : s.context = ⟨r, a, tokens⟩) {start : String} {out : ParseResult V}
    (h : s.invoke start = (.ok out, s')) (hc : out.syntactic = []) :
    ∃ g w, r.grammar = .ok g ∧ g.Derives Limits.maxParseDepth start w ∧
      List.Forall₂ (fun t x => r.model.isA t.category x = true) tokens.before.toList w := by
  obtain ⟨g, hg, -⟩ := hr.exists_grammar
  obtain ⟨rfl, -⟩ := Registry.grammar_eq hr.plain hg
  cases hf : r.find? start with
  | none => simp [invoke, hs, hf] at h
  | some found =>
    obtain ⟨id, rule⟩ := found
    have hout : (s.context.parseAll id rule s.state).2.diagnostics = #[] := by
      simp only [invoke, hs, hf] at h
      obtain rfl := Except.ok.inj (Prod.mk.inj h).1
      simpa [hs] using hc
    rw [hs] at hout
    obtain ⟨w, hw, hsp⟩ := ParseContext.spells_of_parseAll hr he ht hf hout
    have hm := (ParseContext.spells_endIndex_iff (Nat.zero_le _)).1 hsp
    exact ⟨_, w, hg, hw, hm⟩

set_option maxRecDepth 4000 in
open Registry in
/-- Two items with a comma between them. -/
theorem derives_of_clean_itemList :
    ∃ g w, itemList.grammar = .ok g ∧ g.Derives Limits.maxParseDepth "list" w ∧
      List.Forall₂ (fun t x => itemList.model.isA t.category x = true)
        itemTokens.before.toList w := by
  have ht : ∀ t ∈ itemTokens.before, t.category ≠ CategoryId.eof := by decide
  have h : (invoke ⟨⟨itemList, itemAnalysis, itemTokens⟩, [], .start⟩ "list").1
      = .ok ⟨(), [], [], 0⟩ := by cbv
  exact derives_of_clean finalized_itemList eofApart_itemList ht rfl (Prod.ext h rfl) rfl

open Registry in
def itemSession : Session Unit := ⟨⟨itemList, itemAnalysis, itemTokens⟩, [], .start⟩

end Session

end PredictiveParsing
