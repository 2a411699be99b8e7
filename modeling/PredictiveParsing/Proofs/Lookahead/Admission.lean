import Mathlib.Data.List.Duplicate
import PredictiveParsing.Proofs.Grammar.LeftRecursion
import PredictiveParsing.Proofs.Lookahead.CommonTokens
import PredictiveParsing.Proofs.Lookahead.Courses
import PredictiveParsing.Proofs.Token.Consistency

/-!
# Which grammars can be analyzed

A grammar is analyzed if and only if it has none of the defects that are looked for, and a defect
that is reported is there.
-/

namespace PredictiveParsing

open Relation

variable {m : TokenModel}

/-! ## What is asked of a grammar -/

namespace TokenModel

/-- The category has no text of its own, and no category at or below it has any. -/
def NeverMatches (m : TokenModel) (c : Category) : Prop :=
  c.id ≠ CategoryId.eof ∧ c.pattern.isAbstract = true
    ∧ ∀ d ∈ m.categories, d.isConcrete = true → ¬ReflTransGen m.IsParent d.id c.id

end TokenModel

namespace Phrase

def Calls (p : Phrase) (name : String) : Prop :=
  ∃ idx, (Occurrence.call name, idx) ∈ p.occurrences

end Phrase

namespace Grammar

/-- What a parser relies on in the rules of a grammar. -/
structure Admissible (m : TokenModel) (rules : List Production) : Prop where
  hierarchy : ∀ c ∈ m.categories, ¬m.NeverMatches c
  categories : ∀ p ∈ rules, ∀ c, p.phrase.Consumes c → c < m.size
  calls : ∀ p ∈ rules, ∀ name, p.phrase.Calls name → name ∈ rules.map (·.name)
  occurrences : ∀ p ∈ rules, p.phrase.occurrences.Nodup
  recursion : ∀ name, ¬(ofList rules).LeftRecursive name

end Grammar

/-- The defect is one of the rules. An occurrence that is repeated is the only one with its text. -/
def GrammarDefect.IsIn (m : TokenModel) (rules : List Production) : GrammarDefect → Prop
  | emptyCategory name => ∃ c ∈ m.categories, c.name = name ∧ m.NeverMatches c
  | undefinedCategory rule c =>
    ∃ p ∈ rules, p.name = rule ∧ p.phrase.Consumes c ∧ m.size ≤ c
  | undefinedRule rule callee =>
    ∃ p ∈ rules, p.name = rule ∧ p.phrase.Calls callee ∧ callee ∉ rules.map (·.name)
  | repeatedOccurrence rule text idx =>
    ∃ p ∈ rules, p.name = rule ∧ ∃ o, o.text m = text ∧ List.Duplicate (o, idx) p.phrase.occurrences
      ∧ ∀ o' i, (o', i) ∈ p.phrase.occurrences → o'.text m = text → o' = o
  | leftRecursion rule path => (Grammar.ofList rules).LeftRecursive rule
    ∧ ∃ others, path = rule :: (others ++ [rule]) ∧ (rule :: others).Nodup
      ∧ path.IsChain (Grammar.ofList rules).Leads
  | recordingFailed _ _ => False

/-! ## Categories without tokens -/

namespace TokenModel

private theorem Built.id_eq_of_getElem? (hm : m.Built) {c : Category} {i : Nat}
    (h : m.categories.toList[i]? = some c) : c.id = i :=
  hm.wellFormed.id_eq (Array.getElem?_toList ▸ h)

/-- The end of the input comes first, and no other category has its number. -/
theorem Built.mem_drop_one (hm : m.Built) {c : Category} :
    c ∈ m.categories.toList.drop 1 ↔ c ∈ m.categories ∧ c.id ≠ CategoryId.eof := by
  rw [← Array.mem_toList_iff, List.mem_iff_getElem?, List.mem_iff_getElem?]
  simp only [List.getElem?_drop]
  constructor
  · rintro ⟨i, hi⟩
    refine ⟨⟨_, hi⟩, ?_⟩
    rw [hm.id_eq_of_getElem? hi, Nat.add_comm]
    exact Nat.succ_ne_zero i
  · rintro ⟨⟨i, hi⟩, hne⟩
    rw [hm.id_eq_of_getElem? hi] at hne
    exact ⟨i - 1, by rwa [Nat.add_sub_cancel' (Nat.pos_of_ne_zero hne)]⟩

private theorem Built.hasConcreteDescendant_iff (hm : m.Built) {id : CategoryId} :
    m.hasConcreteDescendant id = true ↔
      ∃ d ∈ m.categories, d.isConcrete = true ∧ ReflTransGen m.IsParent d.id id := by
  simp only [hasConcreteDescendant, List.any_eq_true, mem_concrete, and_assoc]
  refine exists_congr fun d => and_congr_right fun hd => and_congr_right fun _ => ?_
  have hlt : d.id < m.size := (Array.getElem?_eq_some_iff.mp (hm.wellFormed.mem_iff_get?.mp hd)).1
  exact hm.wellFormed.isA_iff_reflTransGen hlt

theorem Built.neverMatches_iff (hm : m.Built) {c : Category} (hc : c ∈ m.categories) :
    m.NeverMatches c ↔ c ∈ m.categories.toList.drop 1
      ∧ (c.pattern.isAbstract && !m.hasConcreteDescendant c.id) = true := by
  have hbelow : m.hasConcreteDescendant c.id = false ↔
      ∀ d ∈ m.categories, d.isConcrete = true → ¬ReflTransGen m.IsParent d.id c.id := by
    rw [← Bool.not_eq_true, hm.hasConcreteDescendant_iff]
    push Not
    rfl
  rw [hm.mem_drop_one, Bool.and_eq_true, Bool.not_eq_true', hbelow, NeverMatches]
  simp only [hc, true_and]

private theorem Built.emptyCategory?_eq_none (hm : m.Built) :
    m.emptyCategory? = none ↔ ∀ c ∈ m.categories, ¬m.NeverMatches c := by
  rw [emptyCategory?, List.find?_eq_none]
  constructor
  · intro h c hc hnever
    obtain ⟨hmem, hempty⟩ := (hm.neverMatches_iff hc).mp hnever
    exact h c hmem hempty
  · intro h c hmem hempty
    have hc := (hm.mem_drop_one.mp hmem).1
    exact h c hc ((hm.neverMatches_iff hc).mpr ⟨hmem, hempty⟩)

private theorem Built.neverMatches_of_emptyCategory? (hm : m.Built) {c : Category}
    (h : m.emptyCategory? = some c) : c ∈ m.categories ∧ m.NeverMatches c := by
  rw [emptyCategory?] at h
  have hmem := List.mem_of_find?_eq_some h
  have hempty := List.find?_some h
  have hc := (hm.mem_drop_one.mp hmem).1
  exact ⟨hc, (hm.neverMatches_iff hc).mpr ⟨hmem, hempty⟩⟩

end TokenModel

/-! ## Occurrences by their texts -/

theorem TokenModel.isSome_get?_iff {c : CategoryId} : (m.get? c).isSome = true ↔ c < m.size := by
  rw [TokenModel.get?, isSome_getElem?]
  rfl

private theorem TokenModel.Built.eq_of_name_eq (hm : m.Built) {c d : CategoryId} (hc : c < m.size)
    (hd : d < m.size) (h : m.name c = m.name d) : c = d := by
  have hlookup : ∀ {i : CategoryId}, i < m.size → m.byName[m.name i]? = some i := by
    intro i hi
    obtain ⟨c, hget⟩ : ∃ c, m.categories[i]? = some c := ⟨_, Array.getElem?_eq_getElem hi⟩
    refine (hm.wellNamed.byName_iff _ i).mpr ⟨c, hget, ?_⟩
    simp [TokenModel.name, TokenModel.get?, hget]
  exact Option.some.inj ((hlookup hc).symm.trans (h ▸ hlookup hd))

private theorem duplicate_of_firstRepeated? {α : Type} [DecidableEq α] {seen xs : List α} {x : α}
    (h : firstRepeated? seen xs = some x) : List.Duplicate x xs ∨ x ∈ xs ∧ x ∈ seen := by
  induction xs generalizing seen with
  | nil => cases h
  | cons y xs ih =>
    rw [firstRepeated?] at h
    split at h
    · rename_i hy
      obtain rfl := Option.some.inj h
      exact .inr ⟨List.mem_cons_self, hy⟩
    · rcases ih h with hx | ⟨hx, hseen⟩
      · exact .inl hx.cons_duplicate
      · rcases List.mem_cons.mp hseen with rfl | hseen
        · exact .inl (.cons_mem hx)
        · exact .inr ⟨List.mem_cons_of_mem y hx, hseen⟩

private theorem firstRepeated?_map {α β : Type} [DecidableEq α] [DecidableEq β] {f : α → β}
    {seen xs : List α} (hf : Set.InjOn f {x | x ∈ seen ∨ x ∈ xs}) :
    firstRepeated? (seen.map f) (xs.map f) = (firstRepeated? seen xs).map f := by
  induction xs generalizing seen with
  | nil => rfl
  | cons x xs ih =>
    have hx : f x ∈ seen.map f ↔ x ∈ seen := by
      refine ⟨fun h => ?_, List.mem_map_of_mem⟩
      obtain ⟨y, hy, hyx⟩ := List.mem_map.mp h
      exact hf (.inl hy) (.inr List.mem_cons_self) hyx ▸ hy
    rw [List.map_cons, firstRepeated?, firstRepeated?]
    by_cases hmem : x ∈ seen
    · rw [if_pos hmem, if_pos (hx.mpr hmem), Option.map_some]
    · rw [if_neg hmem, if_neg (mt hx.mp hmem), ← List.map_cons]
      refine ih (hf.mono fun y hy => ?_)
      simpa [or_assoc, or_left_comm] using hy

theorem DecisionKind.keyword_injective : Function.Injective DecisionKind.keyword := by
  intro k l h
  cases k <;> cases l <;> first | rfl | simp [keyword] at h

/-- The model has the category of a token that is consumed. -/
def Occurrence.IsDefined (m : TokenModel) (o : Occurrence) : Prop :=
  ∀ c, o = .terminal c → c < m.size

/-- Different pieces have different texts, since no two categories have one name. -/
theorem Occurrence.text_injOn (hm : m.Built) {o o' : Occurrence} (ho : o.IsDefined m)
    (ho' : o'.IsDefined m) (h : o.text m = o'.text m) : o = o' := by
  have hlist := congrArg String.toList h
  cases o with
  | terminal c =>
    cases o' with
    | terminal d =>
      have hname : m.name c = m.name d := by simpa [text, toString] using h
      exact congrArg terminal (hm.eq_of_name_eq (ho c rfl) (ho' d rfl) hname)
    | call r => simp [text, toString] at hlist
    | decision k => cases k <;> simp [text, toString, DecisionKind.keyword] at hlist
  | call r =>
    cases o' with
    | terminal d => simp [text, toString] at hlist
    | call s => simpa [text, toString] using h
    | decision k => cases k <;> simp [text, toString, DecisionKind.keyword] at hlist
  | decision k =>
    cases o' with
    | terminal d => cases k <;> simp [text, toString, DecisionKind.keyword] at hlist
    | call s => cases k <;> simp [text, toString, DecisionKind.keyword] at hlist
    | decision l => exact congrArg decision (DecisionKind.keyword_injective h)

/-! ## The checks of a rule -/

namespace Production

variable {p : Production} {d : GrammarDefect}

theorem undefinedCategory?_eq_none :
    p.undefinedCategory? m = none ↔ ∀ c, p.phrase.Consumes c → c < m.size := by
  rw [undefinedCategory?, List.findSome?_eq_none_iff]
  constructor
  · rintro h c ⟨idx, hc⟩
    by_contra hlt
    have hnone := h _ hc
    simp only [TokenModel.isSome_get?_iff, if_neg hlt, reduceCtorEq] at hnone
  · rintro h ⟨o, idx⟩ ho
    cases o with
    | terminal c =>
      simp only [TokenModel.isSome_get?_iff]
      exact if_pos (h c ⟨idx, ho⟩)
    | call r => rfl
    | decision k => rfl

private theorem exists_of_undefinedCategory? (h : p.undefinedCategory? m = some d) :
    ∃ c, d = .undefinedCategory p.name c ∧ p.phrase.Consumes c ∧ m.size ≤ c := by
  obtain ⟨⟨o, idx⟩, ho, hd⟩ := List.exists_of_findSome?_eq_some h
  cases o with
  | terminal c =>
    simp only [TokenModel.isSome_get?_iff] at hd
    split at hd
    · cases hd
    · rename_i hlt
      exact ⟨c, (Option.some.inj hd).symm, ⟨idx, ho⟩, Nat.le_of_not_lt hlt⟩
  | call r => cases hd
  | decision k => cases hd

private theorem undefinedRule?_eq_none {g : Grammar} :
    p.undefinedRule? g = none ↔ ∀ name, p.phrase.Calls name → (g.ruleId? name).isSome = true := by
  rw [undefinedRule?, List.findSome?_eq_none_iff]
  constructor
  · rintro h name ⟨idx, hc⟩
    have hnone := h _ hc
    simpa [Option.isSome_iff_ne_none] using hnone
  · rintro h ⟨o, idx⟩ ho
    cases o with
    | terminal c => rfl
    | call r => exact if_pos (h r ⟨idx, ho⟩)
    | decision k => rfl

private theorem exists_of_undefinedRule? {g : Grammar} (h : p.undefinedRule? g = some d) :
    ∃ name, d = .undefinedRule p.name name ∧ p.phrase.Calls name ∧ g.ruleId? name = none := by
  obtain ⟨⟨o, idx⟩, ho, hd⟩ := List.exists_of_findSome?_eq_some h
  cases o with
  | terminal c => cases hd
  | call r =>
    dsimp only at hd
    split at hd
    · cases hd
    · rename_i hget
      exact ⟨r, (Option.some.inj hd).symm, ⟨idx, ho⟩, Option.not_isSome_iff_eq_none.mp hget⟩
  | decision k => cases hd

private theorem repeatedOccurrence?_eq_none :
    p.repeatedOccurrence? m = none ↔ p.phrase.occurrences.Nodup := by
  rw [repeatedOccurrence?, Option.map_eq_none_iff, firstRepeated?_eq_none]
  simp

private theorem exists_of_repeatedOccurrence? (h : p.repeatedOccurrence? m = some d) :
    ∃ o idx, d = .repeatedOccurrence p.name (o.text m) idx
      ∧ List.Duplicate (o, idx) p.phrase.occurrences := by
  obtain ⟨⟨o, idx⟩, hfirst, rfl⟩ := Option.map_eq_some_iff.mp h
  have hdup := (duplicate_of_firstRepeated? hfirst).resolve_right (by simp)
  exact ⟨o, idx, rfl, hdup⟩

theorem isDefined_of_undefinedCategory? (h : p.undefinedCategory? m = none) {o : Occurrence}
    {idx : Nat} (ho : (o, idx) ∈ p.phrase.occurrences) : o.IsDefined m := by
  rintro c rfl
  exact undefinedCategory?_eq_none.mp h c ⟨idx, ho⟩

/-- Whether pieces or their texts are compared makes no difference. -/
theorem repeatedOccurrence?_eq_text (hm : m.Built) (h : p.undefinedCategory? m = none) :
    p.repeatedOccurrence? m =
      (firstRepeated? [] (p.phrase.occurrences.map fun (o, idx) => (o.text m, idx))).map
        fun (text, idx) => .repeatedOccurrence p.name text idx := by
  have hinj : Set.InjOn (fun (o, idx) => (Occurrence.text m o, idx))
      {x : Occurrence × Nat | x ∈ [] ∨ x ∈ p.phrase.occurrences} := by
    rintro ⟨o, i⟩ ho ⟨o', i'⟩ ho' heq
    obtain ⟨htext, rfl⟩ := Prod.mk.inj heq
    have hdefined : ∀ {o i}, (o, i) ∈ [] ∨ (o, i) ∈ p.phrase.occurrences → o.IsDefined m :=
      fun ho => isDefined_of_undefinedCategory? h (ho.resolve_left List.not_mem_nil)
    rw [Occurrence.text_injOn hm (hdefined ho) (hdefined ho') htext]
  have hmap := firstRepeated?_map hinj
  rw [List.map_nil] at hmap
  rw [repeatedOccurrence?, hmap, Option.map_map]
  rfl

end Production

/-! ## All checks -/

namespace Grammar

variable {rules : List Production} {d : GrammarDefect}

/-- A name stands for a rule if and only if there is a rule with that name. -/
theorem isSome_ruleId?_iff (hn : (rules.map (·.name)).Nodup) {name : String} :
    ((ofList rules).ruleId? name).isSome = true ↔ name ∈ rules.map (·.name) := by
  rw [Option.isSome_iff_exists, List.mem_iff_getElem?]
  exact exists_congr fun i => getElem?_numbering hn

private theorem formalDefect?_eq_none (hm : m.Built) (hn : (rules.map (·.name)).Nodup) :
    (ofList rules).formalDefect? m = none ↔ (∀ c ∈ m.categories, ¬m.NeverMatches c)
      ∧ (∀ p ∈ rules, ∀ c, p.phrase.Consumes c → c < m.size)
      ∧ (∀ p ∈ rules, ∀ name, p.phrase.Calls name → name ∈ rules.map (·.name))
      ∧ ∀ p ∈ rules, p.phrase.occurrences.Nodup := by
  simp only [formalDefect?, ofList, List.toList_toArray, Option.or_eq_none_iff,
    Option.map_eq_none_iff, List.findSome?_eq_none_iff, hm.emptyCategory?_eq_none,
    Production.undefinedCategory?_eq_none, Production.undefinedRule?_eq_none,
    Production.repeatedOccurrence?_eq_none, and_assoc]
  simp only [← isSome_ruleId?_iff hn]
  rfl

private theorem isIn_of_formalDefect? (hm : m.Built) (hn : (rules.map (·.name)).Nodup)
    (h : (ofList rules).formalDefect? m = some d) : d.IsIn m rules := by
  simp only [formalDefect?, ofList, List.toList_toArray, Option.or_eq_some_iff,
    Option.or_eq_none_iff, Option.map_eq_some_iff, List.findSome?_eq_none_iff] at h
  rcases h with ((⟨c, hc, rfl⟩ | ⟨-, h⟩) | ⟨-, h⟩) | ⟨⟨⟨-, hcategories⟩, -⟩, h⟩
  · obtain ⟨hmem, hnever⟩ := hm.neverMatches_of_emptyCategory? hc
    exact ⟨c, hmem, rfl, hnever⟩
  · obtain ⟨p, hp, hd⟩ := List.exists_of_findSome?_eq_some h
    obtain ⟨c, rfl, hc, hle⟩ := Production.exists_of_undefinedCategory? hd
    exact ⟨p, hp, rfl, hc, hle⟩
  · obtain ⟨p, hp, hd⟩ := List.exists_of_findSome?_eq_some h
    obtain ⟨name, rfl, hcall, hnone⟩ := Production.exists_of_undefinedRule? hd
    refine ⟨p, hp, rfl, hcall, fun hmem => ?_⟩
    have hsome := (isSome_ruleId?_iff hn).mpr hmem
    rw [ofList, hnone] at hsome
    cases hsome
  · obtain ⟨p, hp, hd⟩ := List.exists_of_findSome?_eq_some h
    obtain ⟨o, idx, rfl, hdup⟩ := Production.exists_of_repeatedOccurrence? hd
    have hdefined : ∀ {o' i}, (o', i) ∈ p.phrase.occurrences → o'.IsDefined m :=
      p.isDefined_of_undefinedCategory? (hcategories p hp)
    refine ⟨p, hp, rfl, o, rfl, hdup, fun o' i ho' htext => ?_⟩
    exact Occurrence.text_injOn hm (hdefined ho') (hdefined hdup.mem) htext

theorem hasBranches_of_phrase? (hb : ∀ p ∈ rules, p.phrase.HasBranches) {name : String}
    {q : Phrase} (hq : (ofList rules).phrase? name = some q) : q.HasBranches := by
  obtain ⟨i, p, -, hp, rfl⟩ := exists_of_phrase? hq
  exact hb p (by simpa [ofList] using Array.mem_of_getElem? hp)

private theorem leftCycle?_eq_none_iff (hb : ∀ p ∈ rules, p.phrase.HasBranches) :
    (RuleFacts.ofGrammar (ofList rules)).leftCycle? = none ↔
      ∀ name, ¬(ofList rules).LeftRecursive name := by
  have hphrases : ∀ name q, (ofList rules).phrase? name = some q → q.HasBranches :=
    fun name q => hasBranches_of_phrase? hb
  constructor
  · intro h name hrec
    obtain ⟨visited, hsearch⟩ := search_of_leftCycle? h
    obtain ⟨i, j, hi, hj, hcycle⟩ := transGen_edge ((leftRecursive_iff hphrases).mp hrec)
    obtain rfl : i = j := Option.some.inj (hi.symm.trans hj)
    exact (LeftCycle.ends_of_search closed_leads hsearch i).not_transGen hcycle
  · intro h
    refine Option.eq_none_iff_forall_ne_some.mpr fun ⟨name, path⟩ hcycle => ?_
    obtain ⟨others, rfl, -, hchain⟩ := isChain_of_leftCycle? hcycle
    exact h name ((leftRecursive_iff hphrases).mpr (transGen_of_isChain hchain))

/-- A grammar is analyzed if and only if the checks find nothing. -/
theorem exists_analyze_eq_ok_iff {g : Grammar} {k : Nat} : (∃ a, g.analyze m k = .ok a) ↔
    g.formalDefect? m = none ∧ (RuleFacts.ofGrammar g).leftCycle? = none := by
  constructor
  · rintro ⟨a, h⟩
    exact ⟨(analyze_eq_ok h).1, leftCycle?_of_analyze h⟩
  · rintro ⟨hdefect, hcycle⟩
    exact ⟨analysisOf (.ofGrammar g) m k, by simp only [analyze, hdefect, hcycle]⟩

private theorem analyze_eq_error {g : Grammar} {k : Nat} (h : g.analyze m k = .error d) :
    g.formalDefect? m = some d ∨ ∃ rule path,
      (RuleFacts.ofGrammar g).leftCycle? = some (rule, path) ∧ d = .leftRecursion rule path := by
  rw [analyze] at h
  split at h
  · rename_i hd
    exact .inl (Except.error.inj h ▸ hd)
  · simp only at h
    split at h
    · rename_i rule path hcycle
      exact .inr ⟨rule, path, hcycle, (Except.error.inj h).symm⟩
    · cases h

/-- The analysis of rules with different names takes the admissible grammars and no others, and a
defect that it reports is one of the grammar. -/
theorem analyze_ok_iff_admissible (hm : m.Built) (hn : (rules.map (·.name)).Nodup)
    (hb : ∀ p ∈ rules, p.phrase.HasBranches) (k : Nat) :
    ((∃ a, (ofList rules).analyze m k = .ok a) ↔ Admissible m rules)
      ∧ ∀ d, (ofList rules).analyze m k = .error d → d.IsIn m rules := by
  constructor
  · rw [exists_analyze_eq_ok_iff, formalDefect?_eq_none hm hn, leftCycle?_eq_none_iff hb]
    constructor
    · rintro ⟨⟨hhierarchy, hcategories, hcalls, hoccurrences⟩, hrecursion⟩
      exact ⟨hhierarchy, hcategories, hcalls, hoccurrences, hrecursion⟩
    · rintro ⟨hhierarchy, hcategories, hcalls, hoccurrences, hrecursion⟩
      exact ⟨⟨hhierarchy, hcategories, hcalls, hoccurrences⟩, hrecursion⟩
  · intro d h
    rcases analyze_eq_error h with hdefect | ⟨rule, path, hcycle, rfl⟩
    · exact isIn_of_formalDefect? hm hn hdefect
    · obtain ⟨others, rfl, hnodup, hchain⟩ := isChain_of_leftCycle? hcycle
      have hphrases : ∀ name q, (ofList rules).phrase? name = some q → q.HasBranches :=
        fun name q => hasBranches_of_phrase? hb
      have hrec := (leftRecursive_iff hphrases).mpr (transGen_of_isChain hchain)
      exact ⟨hrec, others, rfl, hnodup, hchain⟩

/-! ## Sums of numbers -/

def plusModel : TokenModel :=
  let m := (TokenModel.empty.define "Operator" none .abstract .normal).2
  let m := (m.define "Plus" (some 1) (.literal "+") .normal).2
  (m.define "Number" none (.literal "1") .normal).2

private theorem built_plusModel : plusModel.Built :=
  .define _ _ _ _ (.define _ _ _ _ (.define _ _ _ _ (.tagged 0)))

def numberRule : Production := ⟨"number", .terminal 3 1 .nil⟩

/-- A number and then any operators, each with a number behind it. -/
def sumRule (idx : Nat) : Production :=
  ⟨"sum", .call "number" 1 (.repetition 1 false (.terminal 1 1 (.call "number" idx .nil)) .nil)⟩

/-- Sums are admissible, but neither without numbers nor with the same index for both calls. -/
theorem analyze_ok_iff_admissible_sumRule : plusModel.Built
    ∧ Admissible plusModel [sumRule 2, numberRule]
    ∧ (GrammarDefect.undefinedRule "sum" "number").IsIn plusModel [sumRule 2]
    ∧ (GrammarDefect.repeatedOccurrence "sum" "subrule call to number" 1).IsIn plusModel
      [sumRule 1, numberRule] := by
  have hnames : ∀ idx, ([sumRule idx, numberRule].map (·.name)).Nodup := fun idx => by
    simp [sumRule, numberRule]
  have hbranches : ∀ idx, ∀ p ∈ [sumRule idx, numberRule], p.phrase.HasBranches := by
    simp [sumRule, numberRule, Phrase.HasBranches]
  have hsum := analyze_ok_iff_admissible built_plusModel (hnames 2) (hbranches 2) 1
  have htwice := analyze_ok_iff_admissible built_plusModel (hnames 1) (hbranches 1) 1
  have hname : ([sumRule 2].map (·.name)).Nodup := List.nodup_singleton _
  have hmissing := analyze_ok_iff_admissible built_plusModel hname
    (fun p hp => hbranches 2 p (List.mem_singleton.mp hp ▸ List.mem_cons_self)) 1
  exact ⟨built_plusModel, hsum.1.mp (exists_analyze_eq_ok_iff.mpr ⟨by cbv, by cbv⟩),
    hmissing.2 _ (by cbv), htwice.2 _ (by cbv)⟩

end Grammar

end PredictiveParsing
