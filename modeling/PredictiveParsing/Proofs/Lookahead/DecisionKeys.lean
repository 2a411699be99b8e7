import Mathlib.Data.Fin.Tuple.Reflection
import PredictiveParsing.Proofs.Lookahead.Admission

/-!
# Decisions by their keys

A decision is written as the name of its rule, its kind and its index, with a dot and a number sign
between them. However the rules are named, no two decisions of a grammar are written alike, so the
tables of a grammar can be kept under these texts: none of them takes the place of another.
-/

namespace PredictiveParsing

/-! ## Texts of keys -/

private theorem eq_of_append_cons_eq {α : Type} {x : α} {a a' b b' : List α} (hb : x ∉ b)
    (hb' : x ∉ b') (h : a ++ x :: b = a' ++ x :: b') : a = a' ∧ b = b' := by
  -- were one front longer than the other, its end would hold the cut of the other one
  have hlonger : ∀ {c d : List α} {more : List α}, x ∉ c → x :: c = more ++ x :: d → more = [] := by
    intro c d more hc heq
    cases more with
    | nil => rfl
    | cons y more =>
      have hcut : c = more ++ x :: d := (List.cons.inj heq).2
      exact absurd (by simp [hcut]) hc
  rcases List.append_eq_append_iff.mp h with ⟨more, hfront, hback⟩ | ⟨more, hfront, hback⟩
  · obtain rfl := hlonger hb hback
    exact ⟨by simpa using hfront.symm, (List.cons.inj hback).2⟩
  · obtain rfl := hlonger hb' hback
    exact ⟨by simpa using hfront, (List.cons.inj hback).2.symm⟩

namespace DecisionKey

private theorem toList_text (k : DecisionKey) :
    k.text.toList = k.rule.toList ++ '.' :: (k.kind.keyword.toList ++ '#' :: Nat.toDigits 10 k.idx)
    := by
  simp [text, toString]

private theorem numberSign_notMem_toDigits (n : Nat) : '#' ∉ Nat.toDigits 10 n := fun h =>
  absurd (Nat.isDigit_of_mem_toDigits (by decide) le_rfl h) (by decide)

/-- The last number sign of a text is in front of the index, and the last dot before it in front of
the kind. -/
theorem text_injective : Function.Injective text := by
  intro k l h
  have hlist := congrArg String.toList h
  simp only [toList_text] at hlist
  rw [← List.cons_append, ← List.cons_append, ← List.append_assoc, ← List.append_assoc] at hlist
  obtain ⟨hfront, hdigits⟩ := eq_of_append_cons_eq (numberSign_notMem_toDigits _)
    (numberSign_notMem_toDigits _) hlist
  have hdot : ∀ kind : DecisionKind, '.' ∉ kind.keyword.toList := fun kind => by
    cases kind <;> decide
  obtain ⟨hrule, hkind⟩ := eq_of_append_cons_eq (hdot _) (hdot _) hfront
  have hidx : k.idx = l.idx := by
    rw [← Nat.ofDigitChars_toDigits (n := k.idx) (b := 10) (by decide) le_rfl, hdigits,
      Nat.ofDigitChars_toDigits (by decide) le_rfl]
  obtain ⟨rule, kind, idx⟩ := k
  obtain rfl := String.toList_injective hrule
  obtain rfl := DecisionKind.keyword_injective (String.toList_injective hkind)
  obtain rfl : idx = l.idx := hidx
  rfl

end DecisionKey

/-! ## Collecting entries -/

private theorem DecisionKey.perm_put {α : Type} {k : DecisionKey} {value : α}
    {entries : List (DecisionKey × α)} (h : k ∉ entries.map Prod.fst) :
    (k.put value entries).Perm ((k, value) :: entries) := by
  induction entries with
  | nil => exact .refl _
  | cons entry entries ih =>
    obtain ⟨l, other⟩ := entry
    rw [List.map_cons, List.mem_cons, not_or] at h
    rw [put, if_neg h.1]
    split
    · exact .refl _
    · exact ((ih h.2).cons _).trans (.swap _ _ _)

private theorem Dictionary.perm_put {α : Type} {key : String} {value : α} {d : Dictionary α}
    (h : key ∉ d.map Prod.fst) : (d.put key value).Perm ((key, value) :: d) := by
  induction d with
  | nil => exact .refl _
  | cons entry d ih =>
    obtain ⟨l, other⟩ := entry
    rw [List.map_cons, List.mem_cons, not_or] at h
    rw [Dictionary.put, alter, if_neg h.1]
    split
    · exact .refl _
    · exact ((ih h.2).cons _).trans (.swap _ _ _)

private theorem perm_foldl_of_perm_put {κ α : Type} {put : List (κ × α) → κ × α → List (κ × α)}
    (hput : ∀ d x, x.1 ∉ d.map Prod.fst → (put d x).Perm (x :: d)) {entries d : List (κ × α)}
    (h : ((entries ++ d).map Prod.fst).Nodup) : (entries.foldl put d).Perm (entries ++ d) := by
  induction entries generalizing d with
  | nil => exact .refl _
  | cons x entries ih =>
    rw [List.cons_append, List.map_cons, List.nodup_cons, List.map_append, List.mem_append,
      not_or] at h
    have hx := hput d x h.1.2
    have hmore : (entries ++ put d x).Perm (x :: (entries ++ d)) :=
      (hx.append_left entries).trans List.perm_middle
    refine (ih ((hmore.map Prod.fst).nodup_iff.mpr ?_)).trans hmore
    rw [List.map_cons, List.nodup_cons, List.map_append, List.mem_append, not_or]
    exact h

/-! ## The decisions of a grammar -/

/-- A piece of a rule at which a parser has to look ahead, and its ways to go on. -/
structure DecisionPoint where
  rule : String
  kind : DecisionKind
  idx : Nat
  branches : List Branch

namespace DecisionPoint

def key (x : DecisionPoint) : DecisionKey := ⟨x.rule, x.kind, x.idx⟩

def table (x : DecisionPoint) (g : Grammar) (m : TokenModel) (k : Nat) : Decision :=
  (Decision.build g m k x.kind x.idx x.branches).1

end DecisionPoint

namespace Production

/-- The keys of the options, repetitions and choices of a rule, each before those inside of it. -/
def decisionKeys (p : Production) : List DecisionKey :=
  p.phrase.occurrences.filterMap fun (o, idx) =>
    match o with
    | .decision kind => some ⟨p.name, kind, idx⟩
    | _ => none

def decisionPoints (p : Production) : List DecisionPoint :=
  (p.phrase.places []).filterMap fun place =>
    place.branches?.map fun (kind, idx, branches) => ⟨p.name, kind, idx, branches⟩

private theorem map_key_decisionPoints (p : Production) :
    p.decisionPoints.map (·.key) = p.decisionKeys := by
  have hplace : ∀ place : Place, (place.branches?.map fun (kind, idx, branches) =>
      (⟨p.name, kind, idx, branches⟩ : DecisionPoint).key) =
        place.phrase.head?.bind fun (o, idx) =>
          match o with
          | .decision kind => some ⟨p.name, kind, idx⟩
          | _ => none := by
    rintro ⟨phrase, after⟩
    cases phrase <;> rfl
  have hkeys := congrArg (List.filterMap fun x : Option (Occurrence × Nat) =>
    x.bind fun (o, idx) =>
      match o with
      | .decision kind => some (⟨p.name, kind, idx⟩ : DecisionKey)
      | _ => none) (Phrase.map_head?_places [] p.phrase)
  rw [List.filterMap_map, List.filterMap_map] at hkeys
  rw [decisionPoints, List.map_filterMap]
  simp only [Option.map_map, Function.comp_def] at hkeys ⊢
  simp only [hplace]
  exact hkeys

private theorem nodup_decisionKeys {p : Production} (h : p.phrase.occurrences.Nodup) :
    p.decisionKeys.Nodup := by
  refine h.filterMap ?_
  rintro ⟨o, i⟩ ⟨o', i'⟩ key hkey hkey'
  cases o <;> cases o' <;> simp only [Option.mem_def, Option.some.injEq, reduceCtorEq] at hkey hkey'
  obtain ⟨-, rfl, rfl⟩ := DecisionKey.mk.inj (hkey.trans hkey'.symm)
  rfl

private theorem rule_of_mem_decisionKeys {p : Production} {key : DecisionKey}
    (h : key ∈ p.decisionKeys) : key.rule = p.name := by
  obtain ⟨⟨o, idx⟩, -, hkey⟩ := List.mem_filterMap.mp h
  cases o <;> simp only [Option.some.injEq, reduceCtorEq] at hkey
  rw [← hkey]

end Production

namespace Grammar

variable {g : Grammar} {m : TokenModel} {k : Nat} {a : AnalyzedGrammar}

def decisionPoints (g : Grammar) : List DecisionPoint :=
  g.productions.toList.flatMap Production.decisionPoints

def decisionKeys (g : Grammar) : List DecisionKey :=
  g.productions.toList.flatMap Production.decisionKeys

theorem map_key_decisionPoints (g : Grammar) : g.decisionPoints.map (·.key) = g.decisionKeys := by
  rw [decisionPoints, decisionKeys, List.map_flatMap]
  simp only [Production.map_key_decisionPoints]

private theorem nodup_decisionKeys (hnames : (g.productions.toList.map (·.name)).Nodup)
    (h : ∀ p ∈ g.productions, p.phrase.occurrences.Nodup) : g.decisionKeys.Nodup := by
  refine List.nodup_flatMap.mpr
    ⟨fun p hp => Production.nodup_decisionKeys (h p (Array.mem_toList_iff.mp hp)), ?_⟩
  refine (List.pairwise_map.mp hnames).imp fun hne key hp hq => hne ?_
  rw [← Production.rule_of_mem_decisionKeys hp, Production.rule_of_mem_decisionKeys hq]

/-- The entries are the tables of the decisions of a grammar, one for each of them under a key that
no other entry has. -/
structure Lists {κ β : Type} (g : Grammar) (m : TokenModel) (k : Nat) (key : DecisionKey → κ)
    (value : Decision → β) (entries : List (κ × β)) : Prop where
  perm : entries.Perm (g.decisionPoints.map fun x => (key x.key, value (x.table g m k)))
  nodup : (entries.map Prod.fst).Nodup

/-- Entries are put under keys that tell decisions apart. -/
theorem Lists.foldl {κ : Type} {put : List (κ × Decision) → κ × Decision → List (κ × Decision)}
    (hput : ∀ d x, x.1 ∉ d.map Prod.fst → (put d x).Perm (x :: d)) {key : DecisionKey → κ}
    {entries : List (κ × Decision)} (h : g.Lists m k key id entries) :
    g.Lists m k key id (entries.foldl put []) := by
  have hperm : (entries.foldl put []).Perm entries := by
    simpa using perm_foldl_of_perm_put hput (d := []) (by simpa using h.nodup)
  exact ⟨hperm.trans h.perm, (hperm.map Prod.fst).nodup_iff.mpr h.nodup⟩

theorem Lists.map {κ κ' β β' : Type} {key : DecisionKey → κ} {value : Decision → β}
    {entries : List (κ × β)} (h : g.Lists m k key value entries) {f : κ → κ'}
    (hf : Function.Injective f) (f' : β → β') :
    g.Lists m k (f ∘ key) (f' ∘ value) (entries.map fun x => (f x.1, f' x.2)) where
  perm := by
    have hmap := h.perm.map fun x => (f x.1, f' x.2)
    rwa [List.map_map] at hmap
  nodup := by
    have hkeys := h.nodup.map hf
    rwa [List.map_map] at hkeys ⊢

private theorem lists_rules (h : g.analyze m k = .ok a)
    (hnames : (g.productions.toList.map (·.name)).Nodup) :
    g.Lists m k id id (a.rules.toList.flatMap fun r =>
      r.decisions.map fun d => ((⟨r.name, d.kind, d.idx⟩ : DecisionKey), d)) := by
  obtain ⟨hdefect, rfl⟩ := analyze_eq_ok h
  have hperm : ((analysisOf (.ofGrammar g) m k).rules.toList.flatMap fun r =>
      r.decisions.map fun d => ((⟨r.name, d.kind, d.idx⟩ : DecisionKey), d)).Perm
        (g.decisionPoints.map fun x => (x.key, x.table g m k)) := by
    have hg : (RuleFacts.ofGrammar g).grammar = g := rfl
    rw [analysisOf, hg, List.toList_toArray, List.map_map, List.flatMap_map, decisionPoints,
      List.map_flatMap]
    conv_rhs => rw [← List.zipIdx_map_fst 0 g.productions.toList, List.flatMap_map]
    refine List.Perm.flatMap_left _ fun x _ => ?_
    obtain ⟨p, r⟩ := x
    refine ((List.mergeSort_perm _ _).map _).trans (.of_eq ?_)
    rw [hg, decisionsOf, Production.decisionPoints, List.map_map, List.map_map, List.map_filterMap,
      List.map_filterMap]
    congr 1
    funext place
    cases place.branches? <;> rfl
  refine ⟨hperm, (hperm.map Prod.fst).nodup_iff.mpr ?_⟩
  rw [List.map_map]
  exact (map_key_decisionPoints g ▸ nodup_decisionKeys hnames fun p hp =>
    nodup_of_formalDefect? hdefect hp)

private theorem exists_decision?_of_mem_decisionPoints (h : g.analyze m k = .ok a)
    {x : DecisionPoint} (hx : x ∈ g.decisionPoints) :
    ∃ r ∈ a.rules, r.name = x.rule ∧ r.decision? x.kind x.idx = some (x.table g m k) := by
  obtain ⟨p, hp, hx⟩ := List.mem_flatMap.mp hx
  obtain ⟨place, hplace, hx⟩ := List.mem_filterMap.mp hx
  obtain ⟨⟨kind, idx, branches⟩, hb, rfl⟩ := Option.map_eq_some_iff.mp hx
  obtain ⟨i, hi⟩ := List.mem_iff_getElem?.mp hp
  rw [Array.getElem?_toList] at hi
  have hdecision := decision?_of_mem_places h hi hplace hb
  have hrule := getElem?_rules h hi
  rw [hrule, Option.bind_some] at hdecision
  exact ⟨_, Array.mem_of_getElem? hrule, rfl, hdecision⟩

/-- No decision is lost when the tables of a grammar are kept by key, or by the text of the key:
there is one entry for each option, repetition and choice of the rules, with the table that its rule
has for it. -/
theorem tables_keep_decisions (h : g.analyze m k = .ok a)
    (hnames : (g.productions.toList.map (·.name)).Nodup) :
    Function.Injective DecisionKey.text
      ∧ g.decisionPoints.map (·.key) = g.decisionKeys
      ∧ (∀ x ∈ g.decisionPoints,
        ∃ r ∈ a.rules, r.name = x.rule ∧ r.decision? x.kind x.idx = some (x.table g m k))
      ∧ g.Lists m k id id a.decisions
      ∧ g.Lists m k DecisionKey.text id a.tables
      ∧ ∃ members, a.tablesText = (Json.object members).pretty ""
        ∧ g.Lists m k DecisionKey.text Decision.toJson members := by
  have hdecisions : g.Lists m k id id a.decisions :=
    (lists_rules h hnames).foldl fun d x => DecisionKey.perm_put
  have htables : g.Lists m k DecisionKey.text id a.tables :=
    (hdecisions.map DecisionKey.text_injective id).foldl fun d x => Dictionary.perm_put
  exact ⟨DecisionKey.text_injective, map_key_decisionPoints g,
    fun x => exists_decision?_of_mem_decisionPoints h, hdecisions, htables, _, rfl,
    htables.map Function.injective_id Decision.toJson⟩

/-- Two rules, one of which is named like a decision of the other. -/
def dottedRules : List Production :=
  [⟨"e", .choice 1 ![false, false] ![.call "e.or#1" 1 .nil, .terminal 2 1 .nil] .nil⟩,
    ⟨"e.or#1", .terminal 3 1 (.repetition 1 false (.option 1 (.terminal 2 1 .nil)
      (.terminal 3 2 .nil)) .nil)⟩]

theorem tables_keep_decisions_dottedRules :
    ∃ a, (ofList dottedRules).analyze plusModel 2 = .ok a
      ∧ ((ofList dottedRules).productions.toList.map (·.name)).Nodup
      ∧ (a.tables.map Prod.fst).Perm ["e.or#1", "e.or#1.many#1", "e.or#1.option#1"]
      ∧ (ofList dottedRules).Lists plusModel 2 DecisionKey.text id a.tables := by
  obtain ⟨a, h⟩ := exists_analyze_eq_ok_iff (g := ofList dottedRules) (m := plusModel) (k := 2).mpr
    ⟨by cbv, by cbv⟩
  have hnames : ((ofList dottedRules).productions.toList.map (·.name)).Nodup := by
    simp [ofList, dottedRules]
  have hkeep := tables_keep_decisions h hnames
  have htexts : (ofList dottedRules).decisionKeys.map (·.text) =
      ["e.or#1", "e.or#1.many#1", "e.or#1.option#1"] := by decide +kernel
  refine ⟨a, h, hnames, ?_, hkeep.2.2.2.2.1⟩
  rw [← htexts, ← hkeep.2.1, List.map_map]
  exact (hkeep.2.2.2.2.1.perm.map Prod.fst).trans (.of_eq (List.map_map ..))

end Grammar

end PredictiveParsing
