import Mathlib.Data.List.OfFn
import PredictiveParsing.Parsing.Registry
import PredictiveParsing.Proofs.Grammar.Derivation
import PredictiveParsing.Proofs.Grammar.Naming
import PredictiveParsing.Proofs.Token.Hierarchy

/-!
# Registries as they are built

However rules were registered and removed, a registry finds every rule by its name, and an outcome
that it holds is that of its own rules. What is recorded for a body that leaves failures to its rule
is the tree of its calls, which is the phrase of a plain body.
-/

namespace PredictiveParsing

namespace Recording

/-- A recording that, when it goes well, adds the pieces of a phrase to the frame at hand. A choice
without branches never goes well. -/
def Adds (part : Recording) (p : Phrase) : Prop :=
  ∀ r r', part r = (.ok (), r') → r' = ⟨r.current ++ p, r.outer⟩ ∧ p.HasBranches

theorem firstFailure?_eq_none {results : List (Except Failure Unit × Phrase)} :
    firstFailure? results = none ↔ ∀ x ∈ results, x.1 = .ok () := by
  rw [firstFailure?, List.findSome?_eq_none_iff]
  refine forall₂_congr fun x _ => ?_
  obtain ⟨⟨f⟩ | ⟨⟩, p⟩ := x <;> simp

theorem andThen_eq_ok {failure : Option Failure} {rest : Recording} {r r' : Recorder} :
    andThen failure rest r = (.ok (), r') ↔ failure = none ∧ rest r = (.ok (), r') := by
  cases failure <;> simp [andThen]

theorem Adds.nested_eq {part : Recording} {p : Phrase} (hp : part.Adds p) {r : Recorder}
    (h : (nested part r).1 = .ok ()) : nested part r = (.ok (), p, r) ∧ p.HasBranches := by
  obtain ⟨result, r', hr⟩ : ∃ result r', part r.enter = (result, r') := ⟨_, _, rfl⟩
  have hn : nested part r = (result, r'.leave) := by simp only [nested, hr]
  obtain rfl : result = .ok () := by simpa [hn] using h
  obtain ⟨rfl, hb⟩ := hp _ _ hr
  exact ⟨hn, hb⟩

private theorem each_eq {parts : List Recording} {ps : List Phrase}
    (hp : List.Forall₂ Adds parts ps) {r : Recorder} (h : ∀ x ∈ (each parts r).1, x.1 = .ok ()) :
    ((each parts r).1.map Prod.snd, (each parts r).2) = (ps, r) ∧ ∀ p ∈ ps, p.HasBranches := by
  induction hp with
  | nil => exact ⟨rfl, by simp⟩
  | @cons part p parts ps hp _ ih =>
    simp only [each, List.forall_mem_cons] at h
    obtain ⟨hn, hb⟩ := hp.nested_eq h.1
    rw [hn] at h
    obtain ⟨he, hbs⟩ := ih h.2
    refine ⟨?_, List.forall_mem_cons.2 ⟨hb, hbs⟩⟩
    simp only [each, hn, List.map_cons]
    rw [Prod.mk.injEq] at he ⊢
    exact ⟨congrArg (p :: ·) he.1, he.2⟩

end Recording

/-- A failure for a cause that has to do with the rules and not with the input. -/
def Failure.Cause.isInternal : Failure.Cause → Bool
  | unknownRule _ => true
  | unrecorded .. => true
  | _ => false

theorem Phrase.HasBranches.append {p q : Phrase} (hp : p.HasBranches) (hq : q.HasBranches) :
    (p ++ q).HasBranches := by
  induction p with
  | nil => exact hq
  | terminal c i rest ih => exact ih hp
  | call r i rest ih => exact ih hp
  | option i body rest _ ih => exact ⟨hp.1, ih hp.2⟩
  | repetition i b body rest _ ih => exact ⟨hp.1, ih hp.2⟩
  | choice i gated body rest _ ih => exact ⟨hp.1, ih hp.2⟩

namespace Body

variable {V : Type}

/-- Whether a body leaves every failure to its rule. It may fail of its own accord, but not as if
there were something wrong with the rules. -/
def propagates : Body V → Bool
  | done => true
  | consume _ _ rest => rest.propagates
  | subrule _ _ rest => rest.propagates
  | option _ body rest => body.propagates && rest.propagates
  | repetition _ _ body rest => body.propagates && rest.propagates
  | choice _ _ _ body rest => (List.ofFn fun k => (body k).propagates).all id && rest.propagates
  | action _ rest => rest.propagates
  | observe _ rest => rest.propagates
  | fail _ cause rest => !cause.isInternal && rest.propagates
  | during _ body rest => body.propagates && rest.propagates
  | attempt _ _ => false

/-- What a body calls for when it is recorded, or when it is run. -/
def tree (recording : Bool) : Body V → Phrase
  | done => .nil
  | consume idx c rest => .terminal c idx (rest.tree recording)
  | subrule idx r rest => .call r idx (rest.tree recording)
  | option idx body rest => .option idx (body.tree recording) (rest.tree recording)
  | repetition idx b body rest => .repetition idx b (body.tree recording) (rest.tree recording)
  | choice idx _ gate body rest =>
    .choice idx (fun k => (gate k).isSome) (fun k => (body k).tree recording) (rest.tree recording)
  | action _ rest => rest.tree recording
  | observe _ rest => rest.tree recording
  | fail _ _ rest => rest.tree recording
  | during phase body rest =>
    if phase.covers recording then body.tree recording ++ rest.tree recording
    else rest.tree recording
  | attempt body rest => body.tree recording ++ rest.tree recording

/-- The body calls for the same when it is recorded and when it is run, and leaves every failure to
its rule. -/
structure Uniform (body : Body V) : Prop where
  tree_eq : body.tree true = body.tree false
  propagates : body.propagates = true

/-- Plain bodies call for all that they consist of. -/
theorem propagates_of_isPlain {body : Body V} (h : body.isPlain = true) :
    body.propagates = true ∧ ∀ recording, body.tree recording = body.phrase := by
  induction body with
  | done => exact ⟨rfl, fun _ => rfl⟩
  | consume idx c rest ih =>
    exact ⟨(ih h).1, fun recording => congrArg (Phrase.terminal c idx) ((ih h).2 recording)⟩
  | subrule idx r rest ih =>
    exact ⟨(ih h).1, fun recording => congrArg (Phrase.call r idx) ((ih h).2 recording)⟩
  | option idx body rest ihb ih =>
    rw [isPlain, Bool.and_eq_true] at h
    simp only [propagates, tree, phrase, ihb h.1, ih h.2, Bool.and_self, implies_true, and_self]
  | repetition idx b body rest ihb ih =>
    rw [isPlain, Bool.and_eq_true] at h
    simp only [propagates, tree, phrase, ihb h.1, ih h.2, Bool.and_self, implies_true, and_self]
  | choice idx expecting gate body rest ihb ih =>
    simp only [isPlain, Bool.and_eq_true, List.all_eq_true, List.forall_mem_ofFn_iff, id] at h
    simp only [propagates, tree, phrase, Bool.and_eq_true, List.all_eq_true,
      List.forall_mem_ofFn_iff, id, fun k => ihb k (h.1 k), ih h.2, implies_true, and_self]
  | action | observe | fail | during | attempt => cases h

private theorem uniform_of_isPlain {body : Body V} (h : body.isPlain = true) : body.Uniform := by
  obtain ⟨hp, htree⟩ := propagates_of_isPlain h
  exact ⟨(htree true).trans (htree false).symm, hp⟩

open Recording

theorem adds_push {piece q : Phrase} {rest : Recording} (h : rest.Adds q) {r r' : Recorder}
    (hr : rest (r.push piece) = (.ok (), r')) :
    r' = ⟨r.current ++ (piece ++ q), r.outer⟩ ∧ q.HasBranches := by
  obtain ⟨rfl, hb⟩ := h _ _ hr
  exact ⟨congrArg (Recorder.mk · r.outer) (Phrase.append_assoc ..), hb⟩

private theorem adds_nested (piece : Phrase → Phrase) {part rest : Recording} {p q : Phrase}
    (hp : part.Adds p) (hq : rest.Adds q) {r r' : Recorder}
    (h : andThen (firstFailure? [((nested part r).1, (nested part r).2.1)]) rest
      ((nested part r).2.2.push (piece (nested part r).2.1)) = (.ok (), r')) :
    r' = ⟨r.current ++ (piece p ++ q), r.outer⟩ ∧ p.HasBranches ∧ q.HasBranches := by
  obtain ⟨hf, h⟩ := andThen_eq_ok.1 h
  rw [firstFailure?_eq_none, List.forall_mem_singleton] at hf
  obtain ⟨hn, hb⟩ := hp.nested_eq hf
  rw [hn] at h
  obtain ⟨he, hr⟩ := adds_push hq h
  exact ⟨he, hb, hr⟩

private theorem adds_tree {body : Body V} (hu : body.propagates = true) :
    body.record.Adds (body.tree true) := by
  induction body with
  | done =>
    intro r r' h
    obtain rfl : r = r' := (Prod.mk.inj h).2
    exact ⟨congrArg (Recorder.mk · r.outer) (Phrase.append_nil r.current).symm, trivial⟩
  | consume idx c rest ih => exact fun r r' h => adds_push (ih hu) h
  | subrule idx name rest ih => exact fun r r' h => adds_push (ih hu) h
  | option idx body rest ihb ih =>
    simp only [propagates, Bool.and_eq_true] at hu
    exact fun r r' h => adds_nested (.option idx · .nil) (ihb hu.1) (ih hu.2) h
  | repetition idx b body rest ihb ih =>
    simp only [propagates, Bool.and_eq_true] at hu
    exact fun r r' h => adds_nested (.repetition idx b · .nil) (ihb hu.1) (ih hu.2) h
  | @choice n idx expecting gate body rest ihb ih =>
    simp only [propagates, Bool.and_eq_true, List.all_eq_true, List.forall_mem_ofFn_iff, id] at hu
    intro r r' h
    simp only [record] at h
    obtain ⟨hf, h⟩ := andThen_eq_ok.1 h
    split at hf
    · cases hf
    · rw [firstFailure?_eq_none] at hf
      have hparts : List.Forall₂ Adds (List.ofFn fun k => (body k).record)
          (List.ofFn fun k => (body k).tree true) := by
        rw [List.forall₂_iff_get]
        simp only [List.length_ofFn, List.get_ofFn, true_and]
        exact fun k hk _ => ihb ⟨k, hk⟩ (hu.1 ⟨k, hk⟩)
      obtain ⟨he, hb⟩ := each_eq hparts hf
      rw [Prod.mk.injEq] at he
      rw [he.1, he.2] at h
      have hk : (fun k : Fin n => (List.ofFn fun k => (body k).tree true).toArray[k.val]?.getD .nil)
          = fun k => (body k).tree true := by
        funext k
        simp
      rw [hk] at h
      obtain ⟨hr, hbr⟩ := adds_push (ih hu.2) h
      exact ⟨hr, ⟨‹_›, List.forall_mem_ofFn_iff.1 hb⟩, hbr⟩
  | action value rest ih => exact ih hu
  | observe value rest ih => exact ih hu
  | fail phase cause rest ih =>
    rw [propagates, Bool.and_eq_true] at hu
    exact fun r r' h => ih hu.2 r r' (andThen_eq_ok.1 h).2
  | during phase body rest ihb ih =>
    rw [propagates, Bool.and_eq_true] at hu
    intro r r' h
    simp only [record] at h
    rw [tree]
    split at h
    · obtain ⟨hf, h⟩ := andThen_eq_ok.1 h
      rw [firstFailure?_eq_none, List.forall_mem_singleton] at hf
      obtain ⟨hr, hbody⟩ := ihb hu.1 r (body.record r).2 (Prod.ext hf rfl)
      obtain ⟨rfl, hbranches⟩ := ih hu.2 _ _ h
      rw [if_pos ‹_›, hr]
      exact ⟨congrArg (Recorder.mk · r.outer) (Phrase.append_assoc ..), hbody.append hbranches⟩
    · rw [if_neg ‹_›]
      exact ih hu.2 r r' h
  | attempt body rest ihb ih => cases hu

/-- In the tree that is recorded every choice has a branch. -/
theorem recorded_eq {body : Body V} (hu : body.propagates = true) {p : Phrase}
    (h : body.recorded = .ok p) : p = body.tree true ∧ p.HasBranches := by
  unfold recorded at h
  obtain ⟨result, r, hr⟩ : ∃ result r, body.record .empty = (result, r) := ⟨_, _, rfl⟩
  rw [hr] at h
  cases result with
  | error f => cases h
  | ok _ =>
    obtain ⟨rfl, hb⟩ := adds_tree hu _ _ hr
    obtain rfl : body.tree true = p := Except.ok.inj h
    exact ⟨rfl, hb⟩

end Body

/-- What a plain rule stands for. -/
def Rule.production {V : Type} (rule : Rule V) : Production := ⟨rule.name, rule.body.phrase⟩

/-- What a rule is recorded as. -/
def Rule.recording {V : Type} (rule : Rule V) : Production := ⟨rule.name, rule.body.tree true⟩

namespace Registry

variable {V : Type}

/-- The registries that the operations on registries lead to. -/
inductive Built : Registry V → Prop
  | empty {m : TokenModel} (hm : m.Built) (preferences : ParserPreferences) (blank : V) :
      Built (.empty m preferences blank)
  | policy {r : Registry V} (mayInsert : CategoryId → Bool) (h : Built r) :
      Built { r with mayInsert := mayInsert }
  | define {r : Registry V} (rule : Rule V) (h : Built r) : Built (r.define rule).2
  | remove {r : Registry V} (name : String) (h : Built r) : Built (r.remove name).2
  | finalize {r : Registry V} (h : Built r) : Built r.finalize

/-- What every operation on registries keeps. -/
structure WellFormed (r : Registry V) : Prop where
  model : r.model.WellFormed
  names_nodup : r.names.Nodup
  index_iff (name : String) (i : RuleId) : r.index[name]? = some i ↔ r.names[i]? = some name
  outcome : ∀ o, r.outcome = some o → o = r.analyze

namespace WellFormed

variable {r : Registry V}

theorem empty {m : TokenModel} (hm : m.WellFormed) (preferences : ParserPreferences) (blank : V) :
    (Registry.empty m preferences blank).WellFormed where
  model := hm
  names_nodup := List.nodup_nil
  index_iff name i := by simp [Registry.empty, names]
  outcome := nofun

theorem push (hr : r.WellFormed) {rule : Rule V} (hn : r.index[rule.name]? = none) :
    (r.push rule).WellFormed := by
  have hnew : rule.name ∉ r.names := fun hm => by
    obtain ⟨i, hi⟩ := List.getElem?_of_mem hm
    exact absurd ((hr.index_iff _ i).2 hi) (by simp [hn])
  have hs : (r.push rule).names = r.names ++ [rule.name] := by simp [names, Registry.push]
  refine ⟨hr.model, ?_, fun name i => ?_, nofun⟩
  · rw [hs]
    exact List.nodup_append.2 ⟨hr.names_nodup, by simp, by
      rintro a ha b hb rfl
      exact hnew (List.mem_singleton.1 hb ▸ ha)⟩
  · have hi : (r.push rule).names[i]?
        = if i = r.rules.size then some rule.name else r.names[i]? := by
      simp only [names, Registry.push, List.getElem?_map, Array.getElem?_toList,
        Array.getElem?_push]
      split <;> rfl
    rw [hi]
    change (r.index.insert rule.name r.rules.size)[name]? = some i ↔ _
    rw [Std.HashMap.getElem?_insert]
    by_cases he : rule.name = name
    · subst he
      have hno : r.names[i]? ≠ some rule.name := fun h => hnew (List.mem_of_getElem? h)
      by_cases hl : i = r.rules.size
      · simp [hl]
      · simp [hl, hno, Ne.symm hl]
    · by_cases hl : i = r.rules.size
      · have hno : r.names[i]? = none := by simp [names, hl]
        rw [if_neg (by simpa using he), if_pos hl, hr.index_iff, hno]
        simp [he]
      · rw [if_neg (by simpa using he), if_neg hl, hr.index_iff]

/-- A rule is taken if its name is a new one and there is room for it. -/
theorem refusal?_eq_none (hr : r.WellFormed) {name : String} :
    r.refusal? name = none ↔ name ∉ r.names ∧ r.size < Limits.maxRules := by
  have hindex : r.index.contains name = true ↔ name ∈ r.names := by
    rw [Std.HashMap.contains_eq_isSome_getElem?, Option.isSome_iff_exists, List.mem_iff_getElem?]
    exact exists_congr fun i => hr.index_iff name i
  rw [← hindex, refusal?]
  split
  · rename_i hused
    exact iff_of_false nofun fun h => h.1 hused
  · rename_i hnew
    split
    · rename_i hfull
      exact iff_of_false nofun fun h => Nat.not_le_of_lt h.2 hfull
    · rename_i hroom
      exact iff_of_true rfl ⟨hnew, Nat.lt_of_not_le hroom⟩

theorem define (hr : r.WellFormed) (rule : Rule V) : (r.define rule).2.WellFormed := by
  unfold Registry.define
  cases h : r.refusal? rule.name with
  | some e => exact hr
  | none =>
    refine hr.push ?_
    unfold refusal? at h
    split at h
    · cases h
    · simpa [Std.HashMap.contains_eq_isSome_getElem?] using ‹¬_›

theorem remove (hr : r.WellFormed) (name : String) : (r.remove name).2.WellFormed := by
  unfold Registry.remove
  cases h : r.ruleId? name with
  | none => exact hr
  | some id =>
    have hs : ((r.rules.eraseIdxIfInBounds id).toList.map (·.name)).Sublist r.names := by
      unfold Array.eraseIdxIfInBounds
      split
      · simpa [names] using (List.eraseIdx_sublist r.rules.toList id).map (·.name)
      · exact List.Sublist.refl _
    have hd := hr.names_nodup.sublist hs
    exact ⟨hr.model, hd, fun _ _ => Grammar.getElem?_numbering hd, nofun⟩

theorem finalize (hr : r.WellFormed) : r.finalize.WellFormed := by
  unfold Registry.finalize
  cases h : r.outcome with
  | some o => exact hr
  | none =>
    exact ⟨hr.model, hr.names_nodup, hr.index_iff, fun o ho => (Option.some.inj ho).symm⟩

end WellFormed

theorem Built.wellFormed {r : Registry V} (h : r.Built) : r.WellFormed := by
  induction h with
  | empty hm preferences blank => exact .empty hm.wellFormed preferences blank
  | policy mayInsert _ ih => exact ⟨ih.model, ih.names_nodup, ih.index_iff, ih.outcome⟩
  | define rule _ ih => exact ih.define rule
  | remove name _ ih => exact ih.remove name
  | finalize _ ih => exact ih.finalize

/-- A registry with plain rules only that has been analyzed and has no defect. -/
structure Finalized (r : Registry V) (a : AnalyzedGrammar) : Prop where
  built : r.Built
  plain : ∀ rule ∈ r.rules, rule.body.isPlain = true
  analyzed : r.outcome = some (.ok a)

/-- A registry with uniform rules only that has been analyzed and has no defect. -/
structure Uniform (r : Registry V) (a : AnalyzedGrammar) : Prop where
  built : r.Built
  uniform : ∀ rule ∈ r.rules, rule.body.Uniform
  analyzed : r.outcome = some (.ok a)

/-- The end of the input is no token of a rule and belongs to no other category. -/
structure EofApart (r : Registry V) : Prop where
  not_consumed : ∀ rule ∈ r.rules, ¬rule.body.phrase.Consumes CategoryId.eof
  no_parent : TokenModel.parentOf r.model.categories CategoryId.eof = none

def productions (r : Registry V) : List Production := r.rules.toList.map Rule.production

def recordings (r : Registry V) : List Production := r.rules.toList.map Rule.recording

private theorem record_eq {r : Registry V} {rule : Rule V} (hu : rule.body.propagates = true)
    {p : Production} (h : r.record rule = .ok p) :
    p = rule.recording ∧ (rule.body.tree true).HasBranches := by
  unfold record at h
  cases hb : rule.body.recorded with
  | error f => rw [hb] at h; cases h
  | ok phrase =>
    rw [hb] at h
    obtain ⟨rfl, hh⟩ := Body.recorded_eq hu hb
    exact ⟨(Except.ok.inj h).symm, hh⟩

private theorem records_eq {r : Registry V} {rules : List (Rule V)} {ps : List Production}
    (hu : ∀ rule ∈ rules, rule.body.propagates = true)
    (h : List.Forall₂ (fun rule p => r.record rule = .ok p) rules ps) :
    ps = rules.map Rule.recording ∧ ∀ rule ∈ rules, (rule.body.tree true).HasBranches := by
  induction h with
  | nil => exact ⟨rfl, by simp⟩
  | cons h _ ih =>
    rw [List.forall_mem_cons] at hu
    obtain ⟨rfl, hb⟩ := record_eq hu.1 h
    obtain ⟨rfl, hbs⟩ := ih hu.2
    exact ⟨rfl, List.forall_mem_cons.2 ⟨hb, hbs⟩⟩

theorem grammar_eq_recordings {r : Registry V}
    (hu : ∀ rule ∈ r.rules, rule.body.propagates = true) {g : Grammar} (h : r.grammar = .ok g) :
    g = .ofList r.recordings ∧ ∀ rule ∈ r.rules, (rule.body.tree true).HasBranches := by
  obtain ⟨ps, hps, hg⟩ := Outcome.bind_eq_ok.1 h
  obtain rfl : Grammar.ofList ps = g := Except.ok.inj hg
  have hall := Outcome.mapM_eq_ok.1 hps
  obtain ⟨rfl, hb⟩ := records_eq (fun rule hrule => hu rule (Array.mem_toList_iff.1 hrule)) hall
  exact ⟨rfl, fun rule hrule => hb rule (Array.mem_toList_iff.2 hrule)⟩

theorem grammar_eq {r : Registry V} (hp : ∀ rule ∈ r.rules, rule.body.isPlain = true) {g : Grammar}
    (h : r.grammar = .ok g) :
    g = .ofList r.productions ∧ ∀ rule ∈ r.rules, rule.body.phrase.HasBranches := by
  have htree := fun rule hrule => Body.propagates_of_isPlain (hp rule hrule)
  obtain ⟨rfl, hb⟩ := grammar_eq_recordings (fun rule hrule => (htree rule hrule).1) h
  have heq : r.recordings = r.productions := List.map_congr_left fun rule hrule =>
    congrArg (Production.mk rule.name) ((htree rule (Array.mem_toList_iff.1 hrule)).2 true)
  exact ⟨heq ▸ rfl, fun rule hrule => (htree rule hrule).2 true ▸ hb rule hrule⟩

variable {r : Registry V} {a : AnalyzedGrammar}

/-- An analysis depends on the model, the rules and the depth of lookahead only. -/
theorem analyze_congr {r' : Registry V} (hmodel : r'.model = r.model) (hrules : r'.rules = r.rules)
    (hlookahead : r'.preferences.maxLookahead = r.preferences.maxLookahead) :
    r'.analyze = r.analyze := by
  have hrecord : r'.record = r.record := by
    funext rule
    rw [record, record, hmodel]
  rw [analyze, analyze, grammar, grammar, hrules, hrecord, hmodel,
    ParserPreferences.lookaheadLimit, ParserPreferences.lookaheadLimit, hlookahead]

/-- An analysis that went well is that of what was recorded for the rules. -/
theorem Built.exists_grammar (hr : r.Built) (ho : r.outcome = some (.ok a)) :
    ∃ g, r.grammar = .ok g ∧ g.analyze r.model r.preferences.lookaheadLimit = .ok a :=
  Outcome.bind_eq_ok.1 (hr.wellFormed.outcome _ ho).symm

theorem Finalized.exists_grammar (hr : r.Finalized a) :
    ∃ g, r.grammar = .ok g ∧ g.analyze r.model r.preferences.lookaheadLimit = .ok a :=
  hr.built.exists_grammar hr.analyzed

theorem Finalized.uniform (hr : r.Finalized a) : r.Uniform a :=
  ⟨hr.built, fun rule hrule => Body.uniform_of_isPlain (hr.plain rule hrule), hr.analyzed⟩

/-- The analysis of uniform rules is that of what is recorded for them. -/
theorem Uniform.analyze_recordings (hr : r.Uniform a) : r.grammar = .ok (.ofList r.recordings)
    ∧ (Grammar.ofList r.recordings).analyze r.model r.preferences.lookaheadLimit = .ok a := by
  obtain ⟨g, hg, ha⟩ := hr.built.exists_grammar hr.analyzed
  obtain ⟨rfl, -⟩ := grammar_eq_recordings (fun rule hrule => (hr.uniform rule hrule).propagates) hg
  exact ⟨hg, ha⟩

theorem WellFormed.find?_eq_some (hr : r.WellFormed) {name : String} {id : RuleId} {rule : Rule V} :
    r.find? name = some (id, rule) ↔ r.rules[id]? = some rule ∧ rule.name = name := by
  have hi : r.names[id]? = (r.rules[id]?).map (·.name) := by simp [names]
  simp only [find?, ruleId?, Option.bind_eq_some_iff, Option.map_eq_some_iff, Prod.mk.injEq,
    hr.index_iff]
  constructor
  · rintro ⟨i, hn, rule', hrule, rfl, rfl⟩
    rw [hi, hrule] at hn
    exact ⟨hrule, Option.some.inj hn⟩
  · rintro ⟨hrule, rfl⟩
    exact ⟨id, by rw [hi, hrule]; rfl, rule, hrule, rfl, rfl⟩

theorem getElem?_productions (i : Nat) :
    (Grammar.ofList r.productions).productions[i]? = (r.rules[i]?).map Rule.production := by
  simp [Grammar.ofList, productions]

/-- The grammar of plain rules numbers them as the registry does. -/
theorem WellFormed.ruleId?_eq_some (hr : r.WellFormed) {name : String} {i : RuleId} :
    (Grammar.ofList r.productions).ruleId? name = some i ↔
      ∃ rule, r.rules[i]? = some rule ∧ rule.name = name := by
  have hn : r.productions.map (·.name) = r.names := by simp [productions, Rule.production, names]
  unfold Grammar.ruleId? Grammar.ofList
  rw [hn, Grammar.getElem?_numbering hr.names_nodup]
  simp [names]

theorem WellFormed.phrase?_eq_some (hr : r.WellFormed) {name : String} {p : Phrase} :
    (Grammar.ofList r.productions).phrase? name = some p ↔
      ∃ id rule, r.find? name = some (id, rule) ∧ rule.body.phrase = p := by
  simp only [Grammar.phrase?, Option.map_eq_some_iff, Option.bind_eq_some_iff, hr.ruleId?_eq_some,
    getElem?_productions, hr.find?_eq_some]
  constructor
  · rintro ⟨_, ⟨i, ⟨rule, hi, hname⟩, rule', hrule, rfl⟩, rfl⟩
    obtain rfl : rule = rule' := Option.some.inj (hi.symm.trans hrule)
    exact ⟨i, rule, ⟨hrule, hname⟩, rfl⟩
  · rintro ⟨i, rule, ⟨hrule, hname⟩, rfl⟩
    exact ⟨_, ⟨i, ⟨rule, hrule, hname⟩, rule, hrule, rfl⟩, rfl⟩

/-! ## An example -/

def listRule : Rule Unit where
  name := "list"
  body := .subrule 1 "item" (.repetition 1 false (.consume 1 2 (.subrule 2 "item" .done)) .done)
  value _ := ()

def itemRule : Rule Unit where
  name := "item"
  body := .consume 1 1 .done
  value _ := ()

def itemModel : TokenModel :=
  ((TokenModel.empty.define "item" none (.literal "x") .normal).2.define
    "comma" none (.literal ",") .normal).2

def itemList : Registry Unit :=
  (((Registry.empty itemModel ⟨4, true, 100⟩ ()).define listRule).2.define itemRule).2.finalize

def itemAnalysis : AnalyzedGrammar := itemList.analysis?.getD ⟨0, #[], []⟩

def itemTokens : TokenStream :=
  ⟨#[.placeholder 1 .start, .placeholder 2 .start, .placeholder 1 .start], .eof .start,
    Token.category_eof .start⟩

set_option maxRecDepth 4000 in
theorem rules_itemList : itemList.rules = #[listRule, itemRule] := by cbv

set_option maxRecDepth 4000 in
theorem finalized_itemList : itemList.Finalized itemAnalysis where
  built := .finalize (.define _ (.define _ (.empty
    (.define _ _ _ _ (.define _ _ _ _ (.tagged 0))) _ _)))
  plain := by simp [rules_itemList, listRule, itemRule, Body.isPlain]
  analyzed := by cbv

set_option maxRecDepth 4000 in
theorem eofApart_itemList : itemList.EofApart where
  not_consumed := by
    simp [rules_itemList, listRule, itemRule, Body.phrase, Phrase.Consumes, Phrase.occurrences,
      CategoryId.eof]
  no_parent := by cbv

end Registry

end PredictiveParsing
