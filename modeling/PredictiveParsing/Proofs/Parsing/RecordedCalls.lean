import PredictiveParsing.Proofs.Grammar.Successions
import PredictiveParsing.Proofs.Lookahead.Coverage
import PredictiveParsing.Proofs.Parsing.Causes
import PredictiveParsing.Proofs.Parsing.Invariants
import PredictiveParsing.Proofs.Parsing.ReportOrder

/-!
# Recorded and executed calls

A call for a token, a rule or a decision has a place in what was recorded for its rule. Where rules
are uniform, every call of a parse finds what the analysis made of that very place, and no failure
has to do with the rules.
-/

namespace PredictiveParsing

namespace Body

variable {V : Type}

/-- Whether the first step of a body calls for a token, a rule or a decision. -/
def isCall : Body V → Bool
  | consume .. => true
  | subrule .. => true
  | option .. => true
  | repetition .. => true
  | choice .. => true
  | _ => false

/-- The calls of a body that is run, each with its place in the tree, if the pieces `behind` and
then `after` come behind the body. A call is given by the body that begins with it. -/
def calls : Body V → (behind : Phrase) → (after : List Frame) → List (Body V × Place)
  | done, _, _ => []
  | body@(consume _ _ rest), behind, after =>
    (body, ⟨body.tree false ++ behind, .rest (rest.tree false ++ behind) :: after⟩) ::
      rest.calls behind after
  | body@(subrule _ _ rest), behind, after =>
    (body, ⟨body.tree false ++ behind, .rest (rest.tree false ++ behind) :: after⟩) ::
      rest.calls behind after
  | whole@(option _ body rest), behind, after =>
    let here := .rest (rest.tree false ++ behind) :: after
    (whole, ⟨whole.tree false ++ behind, here⟩) :: (body.calls .nil here ++ rest.calls behind after)
  | whole@(repetition _ _ body rest), behind, after =>
    let here := .rest (rest.tree false ++ behind) :: after
    (whole, ⟨whole.tree false ++ behind, here⟩)
      :: (body.calls .nil (.again (body.tree false) :: here) ++ rest.calls behind after)
  | whole@(choice _ _ _ body rest), behind, after =>
    let here := .rest (rest.tree false ++ behind) :: after
    (whole, ⟨whole.tree false ++ behind, here⟩)
      :: ((List.ofFn fun k => (body k).calls .nil here).flatten ++ rest.calls behind after)
  | action _ rest, behind, after => rest.calls behind after
  | observe _ rest, behind, after => rest.calls behind after
  | fail _ _ rest, behind, after => rest.calls behind after
  | during phase body rest, behind, after =>
    if phase.covers false then
      body.calls (rest.tree false ++ behind) after ++ rest.calls behind after
    else rest.calls behind after
  | attempt body rest, behind, after =>
    body.calls (rest.tree false ++ behind) after ++ rest.calls behind after

private theorem map_snd_calls (body : Body V) (behind : Phrase) (after : List Frame) :
    (body.calls behind after).map Prod.snd ++ behind.places after
      = (body.tree false ++ behind).places after := by
  have hpart {b : Body V} {after : List Frame}
      (h : (b.calls .nil after).map Prod.snd ++ Phrase.nil.places after
        = (b.tree false ++ .nil).places after) :
      (b.calls .nil after).map Prod.snd = (b.tree false).places after := by
    rwa [Phrase.append_nil, Phrase.places, List.append_nil] at h
  induction body generalizing behind after with
  | done => rfl
  | consume idx c rest ih => exact congrArg (List.cons _) (ih behind after)
  | subrule idx r rest ih => exact congrArg (List.cons _) (ih behind after)
  | option idx body rest ihb ih =>
    simp only [calls, List.map_cons, List.map_append, List.cons_append, List.append_assoc, ih,
      hpart (ihb _ _)]
    rfl
  | repetition idx b body rest ihb ih =>
    simp only [calls, List.map_cons, List.map_append, List.cons_append, List.append_assoc, ih,
      hpart (ihb _ _)]
    rfl
  | choice idx expecting gate body rest ihb ih =>
    have hbranches := fun k => hpart (ihb k .nil (.rest (rest.tree false ++ behind) :: after))
    simp only [calls, List.map_cons, List.map_append, List.cons_append, List.append_assoc, ih,
      List.map_flatten, List.map_ofFn, Function.comp_def, hbranches]
    rfl
  | action value rest ih => exact ih behind after
  | observe value rest ih => exact ih behind after
  | fail phase cause rest ih => exact ih behind after
  | during phase body rest ihb ih =>
    rw [calls, tree]
    split
    · rw [List.map_append, List.append_assoc, ih, ihb, Phrase.append_assoc]
    · exact ih behind after
  | attempt body rest ihb ih =>
    rw [calls, List.map_append, List.append_assoc, ih, ihb, tree, Phrase.append_assoc]

private theorem mem_places_of_mem_calls {body b : Body V} {place : Place}
    (h : (b, place) ∈ body.calls .nil []) : place ∈ (body.tree false).places [] := by
  have hplaces := body.map_snd_calls .nil []
  rw [Phrase.append_nil, Phrase.places, List.append_nil] at hplaces
  exact hplaces ▸ List.mem_map_of_mem h

private theorem exists_calls_subset {body b : Body V} (hb : b ∈ body.parts) (behind : Phrase)
    (after : List Frame) :
    ∃ behind' after', b.calls behind' after' ⊆ body.calls behind after := by
  cases body with
  | done => cases hb
  | consume idx c rest =>
    obtain rfl := List.mem_singleton.mp hb
    exact ⟨behind, after, List.subset_cons_self ..⟩
  | subrule idx r rest =>
    obtain rfl := List.mem_singleton.mp hb
    exact ⟨behind, after, List.subset_cons_self ..⟩
  | option idx body rest =>
    obtain rfl | rfl := List.mem_pair.mp hb
    · exact ⟨_, _, List.subset_cons_of_subset _ (List.subset_append_left ..)⟩
    · exact ⟨_, _, List.subset_cons_of_subset _ (List.subset_append_right ..)⟩
  | repetition idx atLeastOne body rest =>
    obtain rfl | rfl := List.mem_pair.mp hb
    · exact ⟨_, _, List.subset_cons_of_subset _ (List.subset_append_left ..)⟩
    · exact ⟨_, _, List.subset_cons_of_subset _ (List.subset_append_right ..)⟩
  | choice idx expecting gate body rest =>
    obtain rfl | hb := List.mem_cons.mp hb
    · exact ⟨_, _, List.subset_cons_of_subset _ (List.subset_append_right ..)⟩
    · obtain ⟨k, rfl⟩ := List.mem_ofFn.mp hb
      refine ⟨.nil, .rest (rest.tree false ++ behind) :: after, List.subset_cons_of_subset _ ?_⟩
      exact fun x hx => List.mem_append_left _
        (List.mem_flatten.mpr ⟨_, List.mem_ofFn.mpr ⟨k, rfl⟩, hx⟩)
  | action value rest =>
    obtain rfl := List.mem_singleton.mp hb
    exact ⟨behind, after, List.Subset.refl _⟩
  | observe value rest =>
    obtain rfl := List.mem_singleton.mp hb
    exact ⟨behind, after, List.Subset.refl _⟩
  | fail phase cause rest =>
    obtain rfl := List.mem_singleton.mp hb
    exact ⟨behind, after, List.Subset.refl _⟩
  | during phase body rest =>
    rw [parts] at hb
    rw [calls]
    split at hb
    · rw [if_pos ‹_›]
      obtain rfl | rfl := List.mem_pair.mp hb
      · exact ⟨_, _, List.subset_append_left ..⟩
      · exact ⟨_, _, List.subset_append_right ..⟩
    · rw [if_neg ‹_›]
      obtain rfl := List.mem_singleton.mp hb
      exact ⟨_, _, List.Subset.refl _⟩
  | attempt body rest =>
    obtain rfl | rfl := List.mem_pair.mp hb
    · exact ⟨_, _, List.subset_append_left ..⟩
    · exact ⟨_, _, List.subset_append_right ..⟩

private theorem propagates_of_mem_parts {body b : Body V} (h : body.propagates = true)
    (hb : b ∈ body.parts) : b.propagates = true := by
  cases body with
  | done => cases hb
  | consume | subrule | action | observe => exact List.mem_singleton.mp hb ▸ h
  | option idx body rest =>
    rw [propagates, Bool.and_eq_true] at h
    obtain rfl | rfl := List.mem_pair.mp hb
    · exact h.1
    · exact h.2
  | repetition idx atLeastOne body rest =>
    rw [propagates, Bool.and_eq_true] at h
    obtain rfl | rfl := List.mem_pair.mp hb
    · exact h.1
    · exact h.2
  | choice idx expecting gate body rest =>
    rw [propagates, Bool.and_eq_true, List.all_eq_true, List.forall_mem_ofFn_iff] at h
    obtain rfl | hb := List.mem_cons.mp hb
    · exact h.2
    · obtain ⟨k, rfl⟩ := List.mem_ofFn.mp hb
      exact h.1 k
  | fail phase cause rest =>
    rw [propagates, Bool.and_eq_true] at h
    exact List.mem_singleton.mp hb ▸ h.2
  | during phase body rest =>
    rw [propagates, Bool.and_eq_true] at h
    rw [parts] at hb
    split at hb
    · obtain rfl | rfl := List.mem_pair.mp hb
      · exact h.1
      · exact h.2
    · exact List.mem_singleton.mp hb ▸ h.2
  | attempt body rest => cases h

private theorem exists_mem_calls {body : Body V} (h : body.isCall = true) (behind : Phrase)
    (after : List Frame) : ∃ place, (body, place) ∈ body.calls behind after := by
  cases body with
  | consume | subrule | option | repetition | choice => exact ⟨_, List.mem_cons_self⟩
  | _ => cases h

private theorem exists_behind_of_mem_calls {body b : Body V} {behind : Phrase} {after : List Frame}
    {place : Place} (h : (b, place) ∈ body.calls behind after) :
    ∃ behind', place.phrase = b.tree false ++ behind' := by
  induction body generalizing behind after with
  | done => cases h
  | consume idx c rest ih =>
    obtain h | h := List.mem_cons.mp h
    · obtain ⟨rfl, rfl⟩ := Prod.mk.inj h
      exact ⟨behind, rfl⟩
    · exact ih h
  | subrule idx r rest ih =>
    obtain h | h := List.mem_cons.mp h
    · obtain ⟨rfl, rfl⟩ := Prod.mk.inj h
      exact ⟨behind, rfl⟩
    · exact ih h
  | option idx body rest ihb ih =>
    obtain h | h := List.mem_cons.mp h
    · obtain ⟨rfl, rfl⟩ := Prod.mk.inj h
      exact ⟨behind, rfl⟩
    · exact (List.mem_append.mp h).elim ihb ih
  | repetition idx b body rest ihb ih =>
    obtain h | h := List.mem_cons.mp h
    · obtain ⟨rfl, rfl⟩ := Prod.mk.inj h
      exact ⟨behind, rfl⟩
    · exact (List.mem_append.mp h).elim ihb ih
  | choice idx expecting gate body rest ihb ih =>
    obtain h | h := List.mem_cons.mp h
    · obtain ⟨rfl, rfl⟩ := Prod.mk.inj h
      exact ⟨behind, rfl⟩
    · obtain h | h := List.mem_append.mp h
      · obtain ⟨calls, hcalls, h⟩ := List.mem_flatten.mp h
        obtain ⟨k, rfl⟩ := List.mem_ofFn.mp hcalls
        exact ihb k h
      · exact ih h
  | action value rest ih => exact ih h
  | observe value rest ih => exact ih h
  | fail phase cause rest ih => exact ih h
  | during phase body rest ihb ih =>
    rw [calls] at h
    split at h
    · exact (List.mem_append.mp h).elim ihb ih
    · exact ih h
  | attempt body rest ihb ih => exact (List.mem_append.mp h).elim ihb ih

end Body

/-! ## What calls find -/

namespace ParseContext

variable {V : Type}

/-- The current rule has a decision with a kind, an index and a number of alternatives, and it is
the one that was built for a place. -/
def FindsDecision (c : ParseContext V) (g : Grammar) (s : ParseState) (place : Place)
    (kind : DecisionKind) (idx alternatives : Nat) : Prop :=
  ∃ branches d, place.branches? = some (kind, idx, branches)
    ∧ d = (Decision.build g c.registry.model c.registry.preferences.lookaheadLimit kind idx
      branches).1
    ∧ c.decision? s kind idx = some d ∧ d.alternatives.length = alternatives

/-- The first step of a body finds what was made of a place. -/
def Finds (c : ParseContext V) (g : Grammar) (s : ParseState) (place : Place) : Body V → Prop
  | .consume idx category _ => ∃ a site, c.analysis.rules[s.currentRule]? = some a
    ∧ (RuleFacts.ofGrammar g).successors? place = some site ∧ a.site? category idx = some site
  | .subrule _ name _ => ∃ id rule, c.registry.find? name = some (id, rule)
  | .option idx _ _ => c.FindsDecision g s place .option idx 2
  | .repetition idx b _ _ => c.FindsDecision g s place (.ofRepetition b) idx 2
  | .choice (n := n) idx _ _ _ _ => c.FindsDecision g s place .or idx n
  | _ => True

end ParseContext

theorem Phrase.mem_occurrences_of_mem_places {p : Phrase} {after : List Frame} {place : Place}
    (h : place ∈ p.places after) {x : Occurrence × Nat} (hx : place.phrase.head? = some x) :
    x ∈ p.occurrences := by
  have hhead := List.mem_map_of_mem (f := (·.phrase.head?)) h
  rw [map_head?_places, hx] at hhead
  exact (List.mem_map_of_injective (Option.some_injective _)).mp hhead

namespace Grammar

variable {g : Grammar} {m : TokenModel} {k : Nat} {a : AnalyzedGrammar}

private theorem site?_of_mem_places (h : g.analyze m k = .ok a) {r : RuleId} {p : Production}
    (hp : g.productions[r]? = some p) {place : Place} (hplace : place ∈ p.phrase.places [])
    {site : Successors} (hsite : (RuleFacts.ofGrammar g).successors? place = some site) :
    (a.rules[r]?.bind (·.site? site.category site.idx)) = some site := by
  have hn := nodup_of_formalDefect? (analyze_eq_ok h).1 (Array.mem_of_getElem? hp)
  obtain ⟨phrase, after⟩ := place
  cases phrase with
  | terminal c idx rest =>
    obtain rfl := Option.some.inj hsite
    have hmem := Phrase.mem_occurrences_of_mem_places hplace rfl
    obtain ⟨only, honly⟩ := Phrase.exists_filter_places [] (List.count_eq_one_of_mem hn hmem)
    have hfilter : ⟨.terminal c idx rest, after⟩ ∈ (p.phrase.places []).filter
        (·.phrase.head? == some (.terminal c, idx)) :=
      List.mem_filter.mpr ⟨hplace, beq_self_eq_true _⟩
    obtain rfl := List.mem_singleton.mp (honly ▸ hfilter)
    have hsites := (RuleFacts.ofGrammar g).filter_allSuccessors honly
    rw [getElem?_rules h hp, Option.bind_some]
    have hkey : (fun x : Successors => (x.category == c && x.idx == idx))
        = fun x => x.category = c && x.idx = idx := rfl
    change List.find? _ ((RuleFacts.ofGrammar g).allSuccessors p.phrase) = _
    rw [← List.head?_filter, ← hkey, hsites]
    rfl
  | _ => cases hsite

end Grammar

namespace ParseContext

variable {V : Type} {c : ParseContext V} {s : ParseState}

theorem getElem?_recordings {r : Registry V} {id : RuleId} {rule : Rule V}
    (h : r.rules[id]? = some rule) :
    (Grammar.ofList r.recordings).productions[id]? = some rule.recording := by
  simp [Grammar.ofList, Registry.recordings, h]

/-- The calls of a rule have their places in what was recorded for it. -/
theorem mem_places_recording (hr : c.registry.Uniform c.analysis) {id : RuleId} {rule : Rule V}
    (hrule : c.registry.rules[id]? = some rule) {body : Body V} {place : Place}
    (h : (body, place) ∈ rule.body.calls .nil []) : place ∈ rule.recording.phrase.places [] := by
  rw [Rule.recording, (hr.uniform rule (Array.mem_of_getElem? hrule)).tree_eq]
  exact Body.mem_places_of_mem_calls h

private theorem finds_of_mem_calls (hr : c.registry.Uniform c.analysis) {id : RuleId}
    {rule : Rule V} (hid : s.stack.head? = some id) (hrule : c.registry.rules[id]? = some rule)
    {body : Body V} {place : Place} (h : (body, place) ∈ rule.body.calls .nil []) :
    c.Finds (.ofList c.registry.recordings) s place body := by
  obtain ⟨-, ha⟩ := hr.analyze_recordings
  have hp := getElem?_recordings hrule
  have hplace := mem_places_recording hr hrule h
  have hcurrent : s.currentRule = id := by
    rw [ParseState.currentRule, List.headD_eq_head?_getD, hid, Option.getD_some]
  have hdecision {kind : DecisionKind} {idx n : Nat} {branches : List Branch}
      (hb : place.branches? = some (kind, idx, branches)) (hn : branches.length = n) :
      c.FindsDecision (.ofList c.registry.recordings) s place kind idx n := by
    refine ⟨branches, _, hb, rfl, ?_, Decision.length_alternatives_build.trans hn⟩
    rw [decision?, hcurrent]
    exact Grammar.decision?_of_mem_places ha hp hplace hb
  obtain ⟨behind, hphrase⟩ := Body.exists_behind_of_mem_calls h
  obtain ⟨phrase, after⟩ := place
  obtain rfl : phrase = body.tree false ++ behind := hphrase
  cases body with
  | consume idx category rest =>
    obtain ⟨a, hrules, hsite⟩ := Option.bind_eq_some_iff.mp
      (Grammar.site?_of_mem_places ha hp hplace rfl)
    exact ⟨a, _, hcurrent ▸ hrules, rfl, hsite⟩
  | subrule idx name rest =>
    have hmem := Phrase.mem_occurrences_of_mem_places hplace rfl
    obtain ⟨i, hi⟩ := Grammar.exists_ruleId?_of_formalDefect? (Grammar.analyze_eq_ok ha).1
      (Array.mem_of_getElem? hp) hmem
    obtain ⟨p, hcalled, rfl⟩ := Grammar.name_of_ruleId? hi
    obtain ⟨called, hrules, rfl⟩ := List.mem_map.mp (List.mem_of_getElem? hcalled)
    exact hr.built.wellFormed.exists_find? (List.mem_map_of_mem hrules)
  | option idx body rest => exact hdecision rfl rfl
  | repetition idx atLeastOne body rest => exact hdecision rfl rfl
  | choice idx expecting gate body rest => exact hdecision rfl (List.length_ofFn ..)
  | _ => trivial

/-- The calls of a body are calls of the innermost rule. -/
def Sits (c : ParseContext V) (s : ParseState) (body : Body V) : Prop :=
  body.propagates = true ∧ ∃ id rule behind after, s.stack.head? = some id
    ∧ c.registry.rules[id]? = some rule ∧ body.calls behind after ⊆ rule.body.calls .nil []

theorem Sits.exists_finds (hr : c.registry.Uniform c.analysis) {body : Body V}
    (h : c.Sits s body) : ∃ id rule, s.stack.head? = some id
      ∧ c.registry.rules[id]? = some rule
      ∧ (body.isCall = true → ∃ place ∈ rule.recording.phrase.places [],
        (body, place) ∈ rule.body.calls .nil []
          ∧ c.Finds (.ofList c.registry.recordings) s place body) := by
  obtain ⟨-, id, rule, behind, after, hid, hrule, hcalls⟩ := h
  refine ⟨id, rule, hid, hrule, fun hcall => ?_⟩
  obtain ⟨place, hplace⟩ := Body.exists_mem_calls hcall behind after
  exact ⟨place, mem_places_recording hr hrule (hcalls hplace), hcalls hplace,
    finds_of_mem_calls hr hid hrule (hcalls hplace)⟩

/-- No step of a uniform rule fails for an internal cause. -/
theorem Sits.isInternal_eq_false (hr : c.registry.Uniform c.analysis) {body : Body V}
    (h : c.Sits s body) {f : Failure} {t : ParseState} (hf : body.opening c s = .error f t) :
    f.cause.isInternal = false := by
  obtain ⟨id, rule, -, -, hfinds⟩ := h.exists_finds hr
  obtain ⟨rfl, cause, hcause, rfl⟩ := Body.failsFor_opening _ _ _ _ hf
  cases hcause with
  | mismatch => rfl
  | earlyExit expected => rfl
  | noAlternative expected => rfl
  | unknownRule hnone =>
    obtain ⟨place, -, -, id, rule, hsome⟩ := hfinds rfl
    cases hnone.symm.trans hsome
  | unrecordedOption hnone =>
    obtain ⟨place, -, -, branches, d, -, -, hsome, -⟩ := hfinds rfl
    cases hnone.symm.trans hsome
  | unrecordedRepetition hnone =>
    obtain ⟨place, -, -, branches, d, -, -, hsome, -⟩ := hfinds rfl
    cases hnone.symm.trans hsome
  | unrecordedChoice hother =>
    obtain ⟨place, -, -, branches, d, -, -, hsome, hlength⟩ := hfinds rfl
    exact absurd hlength (hother d hsome)
  | failed =>
    have hu := h.1
    rw [Body.propagates, Bool.and_eq_true, Bool.not_eq_true'] at hu
    exact hu.1

private theorem invariant_sits (hr : c.registry.Uniform c.analysis) :
    c.Invariant c.Sits fun _ f => f.cause.isInternal = false where
  onward hs ht := by
    obtain ⟨hu, id, rule, behind, after, hid, h⟩ := hs
    exact ⟨hu, id, rule, behind, after, ht.stack_eq ▸ hid, h⟩
  part hs hb := by
    obtain ⟨hu, id, rule, behind, after, hid, hrule, hcalls⟩ := hs
    obtain ⟨behind', after', hpart⟩ := Body.exists_calls_subset hb behind after
    exact ⟨Body.propagates_of_mem_parts hu hb, id, rule, behind', after', hid, hrule,
      List.Subset.trans hpart hcalls⟩
  call hs := by
    obtain ⟨idx, name, rest, -, hfind⟩ := hs
    obtain ⟨hrule, -⟩ := hr.built.wellFormed.find?_eq_some.mp hfind
    exact ⟨(hr.uniform _ (Array.mem_of_getElem? hrule)).propagates, _, _, _, _, rfl, hrule,
      List.Subset.refl _⟩
  opening hs hf := hs.isInternal_eq_false hr hf
  tooDeep _ := rfl
  leave hf := hf

end ParseContext

/-! ## The deeds of a parse -/

private theorem Failure.code_ne {f : Failure} (h : f.cause.isInternal = false) :
    f.code ≠ Code.internalError ∧ f.code ≠ Code.unknownRuleName := by
  have hcodes : ∀ code ∈ [Code.mismatchedToken, Code.noViableAlternative, Code.earlyExit,
      Code.recursionLimit], code ≠ Code.internalError ∧ code ≠ Code.unknownRuleName := by decide
  refine hcodes _ ?_
  obtain ⟨cause, actual⟩ := f
  cases cause with
  | unknownRule | unrecorded => cases h
  | _ => simp [code]

namespace Deed

variable {V : Type} {c : ParseContext V} {d : Deed V}

/-- A step is one of the rule on top of the stack. If it calls for something it finds what the
analysis made of its place in the recording of that rule. No step fails for an internal cause, and
no rule has done so when it is settled what becomes of it. -/
def LinesUp (c : ParseContext V) (g : Grammar) (d : Deed V) : Prop :=
  match d.act with
  | .step body => ∃ id rule, d.state.stack.head? = some id
      ∧ c.registry.rules[id]? = some rule ∧ g.productions[id]? = some rule.recording
      ∧ (body.isCall = true → ∃ place ∈ rule.recording.phrase.places [],
        (body, place) ∈ rule.body.calls .nil [] ∧ c.Finds g d.state place body)
      ∧ ∀ f t, body.opening c d.state = .error f t → f.cause.isInternal = false
  | .settle _ f => f.cause.isInternal = false
  | _ => True

private theorem linesUp_of_meets (hr : c.registry.Uniform c.analysis)
    (h : d.Meets c c.Sits fun _ f => f.cause.isInternal = false) :
    d.LinesUp c (.ofList c.registry.recordings) := by
  obtain ⟨s, act⟩ := d
  cases act with
  | step body =>
    have hsits : c.Sits s body := h
    obtain ⟨id, rule, hid, hrule, hfinds⟩ := hsits.exists_finds hr
    exact ⟨id, rule, hid, hrule, ParseContext.getElem?_recordings hrule, hfinds,
      fun f t hf => hsits.isInternal_eq_false hr hf⟩
  | settle id f => exact h.1
  | enter | leave | finish => trivial

private theorem LinesUp.code_ne {g : Grammar} (h : d.LinesUp c g)
    (hi : d.state.cursor ≤ c.tokens.endIndex) :
    ∀ x ∈ d.reports c, x.code ≠ Code.internalError ∧ x.code ≠ Code.unknownRuleName := by
  have hrepair : ∀ code ∈ repairCodes, code ≠ Code.internalError ∧ code ≠ Code.unknownRuleName := by
    decide
  have hdoes := (d.effect hi).does
  generalize d.reports c = reports, d.returned? c = t, (d.after c).cursor = j at hdoes
  cases hdoes with
  | goOn => exact nofun
  | delete x step on recovery code => exact List.forall_mem_singleton.mpr (hrepair _ code)
  | insert x step on recovery code => exact List.forall_mem_singleton.mpr (hrepair _ code)
  | @resync x id f act inner on n recovery code =>
    rw [LinesUp, act] at h
    exact List.forall_mem_singleton.mpr (code ▸ Failure.code_ne h)
  | @giveUp id f act outermost =>
    rw [LinesUp, act] at h
    exact List.forall_mem_singleton.mpr (Failure.code_ne h)
  | leftOver x act code =>
    rw [List.forall_mem_singleton, code]
    decide

end Deed

namespace Session

variable {V : Type}

/-- In a parse with uniform rules every call finds what was recorded for it, and nothing fails for
an internal cause or is reported with the code of one. -/
theorem calls_find_recorded {s : Session V} (hr : s.context.registry.Uniform s.context.analysis)
    {start : String} {id : RuleId} {rule : Rule V}
    (h : s.context.registry.find? start = some (id, rule)) :
    ∃ g out t u, s.context.registry.grammar = .ok g ∧ s.invoke start = (.ok out, t)
      ∧ s.context.Leads (s.context.startState rule s.state) (s.deeds start) u
      ∧ (∀ d ∈ s.deeds start, d.LinesUp s.context g)
      ∧ ∀ x ∈ out.syntactic, x.code ≠ Code.internalError ∧ x.code ≠ Code.unknownRuleName := by
  obtain ⟨out, t, u, hinvoke, hleads, hkept, -, -⟩ := exists_leads h
  obtain ⟨-, hreported⟩ := ParseContext.usedUp_of_leads hleads (Nat.zero_le _)
  obtain ⟨hrule, -⟩ := hr.built.wellFormed.find?_eq_some.mp h
  have hdeeds : s.deeds start = s.context.deeds id rule s.state := by simp only [deeds, h]
  have hlines : ∀ d ∈ s.deeds start,
      d.LinesUp s.context (.ofList s.context.registry.recordings) := by
    have hsits :
        s.context.Sits { s.context.startState rule s.state with stack := [id] } rule.body :=
      ⟨(hr.uniform _ (Array.mem_of_getElem? hrule)).propagates, id, rule, .nil, [], rfl, hrule,
        List.Subset.refl _⟩
    obtain ⟨inner, last, v, w, heq, hinner, -, hlast⟩ :=
      (ParseContext.invariant_sits hr).exists_deeds hsits
    rw [hdeeds, heq]
    simp only [List.cons_append, List.forall_mem_cons, List.forall_mem_append]
    refine ⟨trivial, fun d hd => Deed.linesUp_of_meets hr (hinner d hd), ?_, trivial,
      List.forall_mem_nil _⟩
    rcases hlast with rfl | ⟨f, rfl, hf⟩
    · trivial
    · exact hf
  refine ⟨_, out, t, u, hr.analyze_recordings.1, hinvoke, hleads, hlines, fun x hx => ?_⟩
  have hmem : x ∈ (s.deeds start).flatMap (·.reports s.context) := by
    rw [hkept, hreported.kept] at hx
    exact List.mem_of_mem_take hx
  obtain ⟨d, hd, hx⟩ := List.mem_flatMap.mp hmem
  exact (hlines d hd).code_ne (ParseContext.cursor_of_leads hleads (Nat.zero_le _) d hd).2 x hx

set_option maxRecDepth 4000 in
/-- The calls for the comma and the items find what was recorded for them, also where the comma that
is one too many has been deleted. -/
theorem calls_find_recorded_noisySession : ∃ g out t, Registry.itemList.grammar = .ok g
    ∧ noisySession.invoke "list" = (.ok out, t)
    ∧ (∀ d ∈ noisySession.deeds "list", d.LinesUp noisySession.context g)
    ∧ out.syntactic.map (·.code) = [Code.mismatchedToken] := by
  obtain ⟨g, out, t, u, hg, hinvoke, -, hlines, -⟩ := calls_find_recorded (s := noisySession)
    Registry.finalized_itemList.uniform find?_itemList
  have hout : (noisySession.invoke "list").1.toOption.map (fun out =>
      out.syntactic.map (·.code)) = some [Code.mismatchedToken] := by cbv
  rw [hinvoke] at hout
  exact ⟨g, out, t, hg, hinvoke, hlines, Option.some.inj hout⟩

end Session

end PredictiveParsing
