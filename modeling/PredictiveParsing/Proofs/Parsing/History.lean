import Mathlib.Data.List.Induction
import PredictiveParsing.Parsing.Session
import PredictiveParsing.Proofs.Parsing.Registration

/-!
# What every history of a registry keeps

Rules are added and removed, analyzed and used for parsing in any order. Whatever has been asked of
a registry, it numbers the rules that are left by their places, and an analysis that it holds is the
one of these rules.
-/

namespace PredictiveParsing.Registry

variable {V : Type}

/-- What can be asked of a registry. -/
inductive Request (V : Type) where
  | define (rule : Rule V)
  | remove (name : String)
  | finalize
  | setPolicy (mayInsert : CategoryId → Bool)
  | parse (start : String) (tokens : TokenStream)

/-- What a registry answers. -/
inductive Answer (V : Type) where
  | defined (result : Except RegistryError RuleId)
  | removed (result : Except RegistryError Unit)
  | finalized (outcome : Option (Except GrammarDefect AnalyzedGrammar))
  | done
  | parsed (result : Except ParseRefusal (ParseResult V))

def serve (r : Registry V) : Request V → Answer V × Registry V
  | .define rule => (.defined (r.define rule).1, (r.define rule).2)
  | .remove name => (.removed (r.remove name).1, (r.remove name).2)
  | .finalize => (.finalized r.finalize.outcome, r.finalize)
  | .setPolicy mayInsert => (.done, { r with mayInsert := mayInsert })
  | .parse start tokens => (.parsed (r.parse start tokens), r)

/-- The answers to several requests in turn, and the registry behind them. -/
def serveAll (r : Registry V) : List (Request V) → List (Answer V) × Registry V
  | [] => ([], r)
  | q :: requests =>
    let (answer, r) := r.serve q
    let (answers, r) := r.serveAll requests
    (answer :: answers, r)

/-- The rules that there are after a request, given those before it. -/
def Request.applyTo (rules : List (Rule V)) : Request V → List (Rule V)
  | define rule =>
    if rule.name ∉ rules.map (·.name) ∧ rules.length < Limits.maxRules then rules ++ [rule]
    else rules
  | remove name => rules.filter (·.name ≠ name)
  | _ => rules

def remaining (requests : List (Request V)) : List (Rule V) :=
  requests.foldl (fun rules q => q.applyTo rules) []

def Answer.Alters : Answer V → Prop
  | defined (.ok _) => True
  | removed (.ok _) => True
  | _ => False

/-- A rule was added or removed after every analysis, if there was one at all. -/
def Outdated (answers : List (Answer V)) : Prop :=
  ∀ before o after, answers = before ++ .finalized o :: after → ∃ a ∈ after, a.Alters

/-- What is promised of a registry. -/
structure Coherent (r : Registry V) : Prop where
  names_nodup : r.names.Nodup
  ruleId?_iff (name : String) (i : RuleId) :
    r.ruleId? name = some i ↔ ∃ rule, r.rules[i]? = some rule ∧ rule.name = name
  define_unchanged (rule : Rule V) (e : RegistryError) :
    (r.define rule).1 = .error e → (r.define rule).2 = r
  remove_unchanged (name : String) (e : RegistryError) :
    (r.remove name).1 = .error e → (r.remove name).2 = r
  outcome_eq (o : Except GrammarDefect AnalyzedGrammar) : r.outcome = some o → o = r.analyze

variable {r : Registry V}

/-! ## One request -/

private theorem define_unchanged {rule : Rule V} {e : RegistryError}
    (h : (r.define rule).1 = .error e) : (r.define rule).2 = r := by
  unfold define at h ⊢
  split
  · rfl
  · rename_i hnone
    rw [hnone] at h
    cases h

private theorem remove_unchanged {name : String} {e : RegistryError}
    (h : (r.remove name).1 = .error e) : (r.remove name).2 = r := by
  unfold remove at h ⊢
  split
  · rfl
  · rename_i hsome
    rw [hsome] at h
    cases h

theorem WellFormed.coherent (hr : r.WellFormed) : r.Coherent where
  names_nodup := hr.names_nodup
  ruleId?_iff name i := by
    rw [ruleId?, hr.index_iff]
    simp [names]
  define_unchanged rule e := define_unchanged
  remove_unchanged name e := remove_unchanged
  outcome_eq := hr.outcome

theorem Built.serve (hr : r.Built) (q : Request V) : (r.serve q).2.Built := by
  cases q with
  | define rule => exact hr.define rule
  | remove name => exact hr.remove name
  | finalize => exact hr.finalize
  | setPolicy mayInsert => exact hr.policy mayInsert
  | parse start tokens => exact hr

private theorem serve_setting (r : Registry V) (q : Request V) :
    (r.serve q).2.model = r.model ∧ (r.serve q).2.preferences = r.preferences := by
  cases q with
  | define rule =>
    simp only [serve, define]
    split <;> exact ⟨rfl, rfl⟩
  | remove name =>
    simp only [serve, remove]
    split <;> exact ⟨rfl, rfl⟩
  | finalize =>
    simp only [serve, finalize]
    split <;> exact ⟨rfl, rfl⟩
  | setPolicy mayInsert => exact ⟨rfl, rfl⟩
  | parse start tokens => exact ⟨rfl, rfl⟩

private theorem eraseIdx_eq_filter {rules : List (Rule V)} (hn : (rules.map (·.name)).Nodup)
    {i : Nat} {rule : Rule V} (hi : rules[i]? = some rule) :
    rules.eraseIdx i = rules.filter (·.name ≠ rule.name) := by
  induction rules generalizing i with
  | nil => cases hi
  | cons first rules ih =>
    obtain ⟨hfirst, hn⟩ := List.nodup_cons.mp hn
    have hne : ∀ other ∈ rules, other.name ≠ first.name := fun other hother heq =>
      hfirst (List.mem_map.mpr ⟨other, hother, heq⟩)
    cases i with
    | zero =>
      obtain rfl := Option.some.inj hi
      rw [List.eraseIdx_cons_zero, List.filter_cons_of_neg (by simp), eq_comm]
      exact List.filter_eq_self.mpr fun other hother => by simpa using hne other hother
    | succ i =>
      have hrule := hne rule (List.mem_of_getElem? hi)
      rw [List.eraseIdx_cons_succ, ih hn hi,
        List.filter_cons_of_pos (by simpa using hrule.symm)]

private theorem WellFormed.rules_define (hr : r.WellFormed) (rule : Rule V) :
    (r.define rule).2.rules.toList =
      if rule.name ∉ r.rules.toList.map (·.name) ∧ r.rules.toList.length < Limits.maxRules then
        r.rules.toList ++ [rule]
      else r.rules.toList := by
  have hfresh : r.refusal? rule.name = none ↔ rule.name ∉ r.rules.toList.map (·.name)
      ∧ r.rules.toList.length < Limits.maxRules := hr.refusal?_eq_none
  rw [Registry.define]
  cases h : r.refusal? rule.name with
  | none =>
    rw [if_pos (hfresh.mp h)]
    simp [Registry.push]
  | some e => rw [if_neg fun hnew => by simp [hfresh.mpr hnew] at h]

private theorem WellFormed.rules_remove (hr : r.WellFormed) (name : String) :
    (r.remove name).2.rules.toList = r.rules.toList.filter (·.name ≠ name) := by
  rw [Registry.remove]
  cases h : r.ruleId? name with
  | none =>
    have hne : ∀ rule ∈ r.rules.toList, rule.name ≠ name := by
      intro rule hrule heq
      obtain ⟨i, hi⟩ := List.getElem?_of_mem hrule
      rw [Array.getElem?_toList] at hi
      have hid := (hr.coherent.ruleId?_iff name i).mpr ⟨rule, hi, heq⟩
      rw [h] at hid
      cases hid
    exact (List.filter_eq_self.mpr fun rule hrule => by simpa using hne rule hrule).symm
  | some i =>
    obtain ⟨rule, hi, rfl⟩ := (hr.coherent.ruleId?_iff name i).mp h
    have hlt : i < r.rules.size := (Array.getElem?_eq_some_iff.mp hi).1
    rw [← Array.getElem?_toList] at hi
    simp only [Array.eraseIdxIfInBounds, dif_pos hlt, Array.toList_eraseIdx]
    exact eraseIdx_eq_filter hr.names_nodup hi

private theorem WellFormed.rules_serve (hr : r.WellFormed) (q : Request V) :
    (r.serve q).2.rules.toList = q.applyTo r.rules.toList := by
  cases q with
  | define rule => exact hr.rules_define rule
  | remove name => exact hr.rules_remove name
  | finalize =>
    simp only [Registry.serve, Registry.finalize, Request.applyTo]
    split <;> rfl
  | setPolicy mayInsert => rfl
  | parse start tokens => rfl

/-- An analysis is there behind a request for one, it is void behind a change, and no other request
touches it. -/
theorem outcome_serve (r : Registry V) (q : Request V) :
    (∃ o, (r.serve q).1 = .finalized o ∧ (r.serve q).2.outcome ≠ none)
      ∨ (r.serve q).1.Alters ∧ (r.serve q).2.outcome = none
      ∨ ¬(r.serve q).1.Alters ∧ (∀ o, (r.serve q).1 ≠ .finalized o)
        ∧ (r.serve q).2.outcome = r.outcome := by
  cases q with
  | define rule =>
    refine .inr ?_
    simp only [serve, define]
    split
    · exact .inr ⟨id, (fun _ h => by cases h), rfl⟩
    · exact .inl ⟨trivial, rfl⟩
  | remove name =>
    refine .inr ?_
    simp only [serve, remove]
    split
    · exact .inr ⟨id, (fun _ h => by cases h), rfl⟩
    · exact .inl ⟨trivial, rfl⟩
  | finalize =>
    refine .inl ⟨_, rfl, ?_⟩
    simp only [serve, finalize]
    split
    · simp [*]
    · simp
  | setPolicy mayInsert => exact .inr (.inr ⟨id, (fun _ h => by cases h), rfl⟩)
  | parse start tokens => exact .inr (.inr ⟨id, (fun _ h => by cases h), rfl⟩)

/-! ## All requests -/

private theorem serveAll_concat (r : Registry V) (requests : List (Request V)) (q : Request V) :
    r.serveAll (requests ++ [q]) =
      ((r.serveAll requests).1 ++ [((r.serveAll requests).2.serve q).1],
        ((r.serveAll requests).2.serve q).2) := by
  induction requests generalizing r with
  | nil => rfl
  | cons p requests ih => simp only [List.cons_append, serveAll, ih]

theorem Built.serveAll (hr : r.Built) (requests : List (Request V)) :
    (r.serveAll requests).2.Built := by
  induction requests generalizing r with
  | nil => exact hr
  | cons q requests ih => exact ih (hr.serve q)

theorem serveAll_setting (r : Registry V) (requests : List (Request V)) :
    (r.serveAll requests).2.model = r.model
      ∧ (r.serveAll requests).2.preferences = r.preferences := by
  induction requests generalizing r with
  | nil => exact ⟨rfl, rfl⟩
  | cons q requests ih =>
    obtain ⟨hmodel, hpreferences⟩ := ih (r.serve q).2
    obtain ⟨hmodel', hpreferences'⟩ := r.serve_setting q
    exact ⟨hmodel.trans hmodel', hpreferences.trans hpreferences'⟩

theorem Built.rules_serveAll (hr : r.Built) (requests : List (Request V)) :
    (r.serveAll requests).2.rules.toList =
      requests.foldl (fun rules q => q.applyTo rules) r.rules.toList := by
  induction requests generalizing r with
  | nil => rfl
  | cons q requests ih =>
    rw [List.foldl_cons, ← hr.wellFormed.rules_serve q]
    exact ih (hr.serve q)

private theorem length_applyTo_le {rules : List (Rule V)} (h : rules.length ≤ Limits.maxRules)
    (q : Request V) : (q.applyTo rules).length ≤ Limits.maxRules := by
  cases q with
  | define rule =>
    rw [Request.applyTo]
    split
    · rename_i hnew
      rw [List.length_append, List.length_singleton]
      exact hnew.2
    · exact h
  | remove name => exact (List.length_filter_le _ rules).trans h
  | finalize => exact h
  | setPolicy mayInsert => exact h
  | parse start tokens => exact h

private theorem length_remaining_le (requests : List (Request V)) :
    (remaining requests).length ≤ Limits.maxRules := by
  induction requests using List.reverseRecOn with
  | nil => exact Nat.zero_le _
  | append_singleton requests q ih =>
    rw [remaining, List.foldl_concat]
    exact length_applyTo_le ih q

private theorem foldl_applyTo_define (rules new : List (Rule V))
    (hn : ((rules ++ new).map (·.name)).Nodup) (hle : (rules ++ new).length ≤ Limits.maxRules) :
    (new.map Request.define).foldl (fun rules q => q.applyTo rules) rules = rules ++ new := by
  induction new generalizing rules with
  | nil => simp
  | cons rule new ih =>
    have hfresh : rule.name ∉ rules.map (·.name) := by
      rw [List.map_append, List.map_cons] at hn
      exact fun h => (List.nodup_append.mp hn).2.2 _ h _ List.mem_cons_self rfl
    have hroom : rules.length < Limits.maxRules := by
      rw [List.length_append, List.length_cons] at hle
      omega
    have happly : (Request.define rule).applyTo rules = rules ++ [rule] :=
      if_pos ⟨hfresh, hroom⟩
    rw [List.map_cons, List.foldl_cons, happly, ih (rules ++ [rule]) (by simpa using hn)
      (by simpa using hle), List.append_assoc, List.singleton_append]

/-! ## Whether an analysis still counts -/

variable {answers : List (Answer V)} {answer : Answer V}

private theorem outdated_concat_of_alters (h : answer.Alters) : Outdated (answers ++ [answer]) := by
  intro before o after heq
  rcases List.eq_nil_or_concat' after with rfl | ⟨after, last, rfl⟩
  · obtain rfl := List.singleton_inj.mp (List.append_inj' heq rfl).2
    cases h
  · rw [← List.cons_append, ← List.append_assoc] at heq
    obtain rfl := List.singleton_inj.mp (List.append_inj' heq rfl).2
    exact ⟨answer, by simp, h⟩

private theorem not_outdated_concat_finalized (answers : List (Answer V))
    (o : Option (Except GrammarDefect AnalyzedGrammar)) :
    ¬Outdated (answers ++ [.finalized o]) := by
  intro h
  obtain ⟨a, ha, -⟩ := h answers o [] rfl
  cases ha

private theorem outdated_concat_iff (h : ¬answer.Alters) (hf : ∀ o, answer ≠ .finalized o) :
    Outdated (answers ++ [answer]) ↔ Outdated answers := by
  constructor
  · rintro hall before o after rfl
    obtain ⟨a, ha, halters⟩ := hall before o (after ++ [answer]) (by simp)
    rcases List.mem_append.mp ha with ha | ha
    · exact ⟨a, ha, halters⟩
    · exact absurd (List.mem_singleton.mp ha ▸ halters) h
  · intro hall before o after heq
    rcases List.eq_nil_or_concat' after with rfl | ⟨after, last, rfl⟩
    · exact absurd (List.singleton_inj.mp (List.append_inj' heq rfl).2) (hf o)
    · rw [← List.cons_append, ← List.append_assoc] at heq
      obtain ⟨a, ha, halters⟩ := hall before o after (List.append_inj' heq rfl).1
      exact ⟨a, List.mem_append_left _ ha, halters⟩

private theorem outcome_serveAll (hr : r.outcome = none) (requests : List (Request V)) :
    (r.serveAll requests).2.outcome = none ↔ Outdated (r.serveAll requests).1 := by
  induction requests using List.reverseRecOn with
  | nil =>
    refine iff_of_true hr fun before o after heq => ?_
    simp [serveAll] at heq
  | append_singleton requests q ih =>
    rw [serveAll_concat]
    rcases outcome_serve (r.serveAll requests).2 q with
      ⟨o, ho, hsome⟩ | ⟨halters, hnone⟩ | ⟨halters, hfinalized, hsame⟩
    · rw [ho]
      exact iff_of_false hsome (not_outdated_concat_finalized _ o)
    · exact iff_of_true hnone (outdated_concat_of_alters halters)
    · rw [outdated_concat_iff halters hfinalized, ← ih, hsame]

private theorem parse_eq_notFinalized {start : String} {tokens : TokenStream} :
    r.parse start tokens = .error .notFinalized ↔ r.outcome = none := by
  unfold parse session
  cases r.outcome with
  | none => exact iff_of_true rfl rfl
  | some o =>
    refine iff_of_false (fun h => ?_) nofun
    cases o with
    | error d => cases h
    | ok a =>
      change (Session.invoke ⟨⟨r, a, tokens⟩, [], .start⟩ start).1 = _ at h
      simp only [Session.invoke] at h
      split at h <;> cases h

/-! ## Every history -/

theorem outcome_finalize (hr : r.WellFormed) : r.finalize.outcome = some r.analyze := by
  unfold finalize
  split
  · rename_i o ho
    rw [ho, hr.outcome o ho]
  · rfl

def ofRules (m : TokenModel) (preferences : ParserPreferences) (blank : V)
    (rules : List (Rule V)) : Registry V :=
  ((empty m preferences blank).serveAll (rules.map .define)).2

private theorem rules_ofRules {m : TokenModel} (hm : m.Built) (preferences : ParserPreferences)
    (blank : V) {rules : List (Rule V)} (hn : (rules.map (·.name)).Nodup)
    (hle : rules.length ≤ Limits.maxRules) :
    (ofRules m preferences blank rules).rules.toList = rules := by
  rw [ofRules, (Built.empty hm preferences blank).rules_serveAll]
  exact foldl_applyTo_define [] rules hn hle

/-- After any requests, refused ones among them, a registry is coherent and has the rules that are
left. It is analyzed as if these had just been registered, and parsing is refused for want of an
analysis if and only if the last one is outdated. -/
theorem coherent_of_serveAll {m : TokenModel} (hm : m.Built) (preferences : ParserPreferences)
    (blank : V) {requests : List (Request V)} {answers : List (Answer V)} {r : Registry V}
    (h : (empty m preferences blank).serveAll requests = (answers, r)) :
    r.Coherent ∧ r.rules.toList = remaining requests
      ∧ (ofRules m preferences blank (remaining requests)).rules = r.rules
      ∧ (r.serve .finalize).1
        = ((ofRules m preferences blank (remaining requests)).serve .finalize).1
      ∧ (r.serve .finalize).1 = .finalized (some r.analyze)
      ∧ ∀ start tokens, r.parse start tokens = .error .notFinalized ↔ Outdated answers := by
  have hempty : (empty m preferences blank).Built := .empty hm preferences blank
  obtain rfl : ((empty m preferences blank).serveAll requests).1 = answers := by rw [h]
  obtain rfl : ((empty m preferences blank).serveAll requests).2 = r := by rw [h]
  generalize hr : ((empty m preferences blank).serveAll requests).2 = r
  have hbuilt : r.Built := hr ▸ hempty.serveAll requests
  have hrules : r.rules.toList = remaining requests := hr ▸ hempty.rules_serveAll requests
  have hfresh : (ofRules m preferences blank (remaining requests)).rules.toList
      = remaining requests := by
    refine rules_ofRules hm preferences blank ?_ (length_remaining_le requests)
    rw [← hrules]
    exact hbuilt.wellFormed.names_nodup
  have hsame : (ofRules m preferences blank (remaining requests)).rules = r.rules :=
    Array.toList_inj.mp (hfresh.trans hrules.symm)
  have hfinalize : (r.serve .finalize).1 = .finalized (some r.analyze) :=
    congrArg Answer.finalized (outcome_finalize hbuilt.wellFormed)
  refine ⟨hbuilt.wellFormed.coherent, hrules, hsame, ?_, hfinalize, fun start tokens => ?_⟩
  · obtain ⟨hmodel, hpreferences⟩ := hr ▸ serveAll_setting (empty m preferences blank) requests
    obtain ⟨hmodel', hpreferences'⟩ := serveAll_setting (empty m preferences blank)
      ((remaining requests).map .define)
    have hfinalize' := outcome_finalize
      (hempty.serveAll ((remaining requests).map .define)).wellFormed
    rw [hfinalize]
    refine congrArg Answer.finalized (Eq.symm (hfinalize'.trans (congrArg some ?_)))
    exact analyze_congr (hmodel'.trans hmodel.symm) hsame
      (congrArg _ (hpreferences'.trans hpreferences.symm))
  · rw [parse_eq_notFinalized, ← hr]
    exact outcome_serveAll rfl requests

/-- Lists are analyzed without items and with them, then removed, and items are registered twice. -/
def itemHistory : List (Request Unit) :=
  [.define listRule, .finalize, .define itemRule, .finalize, .remove "list", .define itemRule]

def itemService : List (Answer Unit) × Registry Unit :=
  (empty itemModel ⟨4, true, 100⟩ ()).serveAll itemHistory

set_option maxRecDepth 4000 in
/-- Items have moved up, and what was known of the lists does not count any more. -/
theorem coherent_of_serveAll_itemHistory : itemModel.Built
    ∧ itemService.2.rules.toList = [itemRule] ∧ itemService.2.ruleId? "item" = some 0
    ∧ Outdated itemService.1
    ∧ (itemService.2.serve .finalize).1
      = ((ofRules itemModel ⟨4, true, 100⟩ () [itemRule]).serve .finalize).1 := by
  have hm : itemModel.Built := .define _ _ _ _ (.define _ _ _ _ (.tagged 0))
  have hremaining : remaining itemHistory = [itemRule] := rfl
  obtain ⟨hcoherent, hrules, -, hfresh, -, hparse⟩ :=
    coherent_of_serveAll hm ⟨4, true, 100⟩ () (Prod.eta itemService).symm
  rw [hremaining] at hrules hfresh
  have hfirst : itemService.2.rules[0]? = some itemRule := by
    rw [← Array.getElem?_toList, hrules]
    rfl
  exact ⟨hm, hrules, (hcoherent.ruleId?_iff "item" 0).mpr ⟨itemRule, hfirst, rfl⟩,
    (hparse "item" itemTokens).mp (by cbv), hfresh⟩

end PredictiveParsing.Registry
