import PredictiveParsing.Proofs.Lexing.Scanning
import PredictiveParsing.Proofs.Leading.Buckets
import PredictiveParsing.Proofs.Token.Hierarchy
import PredictiveParsing.Token.Matchers

/-!
# Tokenizing by a table

A tokenizer with a table tries at a character only the categories that the table names for it. Where
every match begins with a leading character of its category, it cuts all texts as one does that
tries every category everywhere, so that both find the same tokens and report the same.
-/

namespace PredictiveParsing

/-- Every match of the category that is not empty begins with one of its leading characters. -/
def Category.LeadsMatches (k : Category) : Prop :=
  ∀ c cs n, k.matcher.matchLength? (c :: cs) = some n → 0 < n →
    ∃ set, k.leadingSet? = some set ∧ set.contains c = true

namespace Segment

variable {best : Option (Category × Nat)} {k : Category} {rest : List Char}

private theorem better_eq_self (h : ∀ n, k.matcher.matchLength? rest = some n → ¬0 < n) :
    better best k rest = best := by
  unfold better
  cases hn : k.matcher.matchLength? rest with
  | none => rfl
  | some n =>
    obtain rfl := Nat.eq_zero_of_not_pos (h n hn)
    exact if_neg (Nat.not_lt_zero _)

/-- Categories without a match can be left out. -/
theorem longestMatch?_filter {candidates : List Category} {keep : Category → Bool}
    (h : ∀ k ∈ candidates, ∀ n, k.matcher.matchLength? rest = some n → 0 < n → keep k = true) :
    longestMatch? (candidates.filter keep) rest = longestMatch? candidates rest := by
  unfold longestMatch?
  generalize none = best
  induction candidates generalizing best with
  | nil => rfl
  | cons k candidates ih =>
    rw [List.forall_mem_cons] at h
    rw [List.filter_cons, List.foldl_cons]
    split
    · rw [List.foldl_cons, ih h.2]
    · rename_i hkeep
      rw [ih h.2, better_eq_self fun n hn hpos => hkeep (h.1 n hn hpos)]

private theorem cut_congr {f f' : Char → List Category}
    (h : ∀ c cs, longestMatch? (f c) (c :: cs) = longestMatch? (f' c) (c :: cs))
    (text : List Char) : cut f text = cut f' text := by
  have hfrom : ∀ fuel p cs, cutFrom f fuel p cs = cutFrom f' fuel p cs := by
    intro fuel
    induction fuel with
    | zero =>
      intro p cs
      cases cs <;> rfl
    | succ fuel ih =>
      intro p cs
      cases cs with
      | nil => rfl
      | cons c cs =>
        have hnext : next (f c) p c cs = next (f' c) p c cs := by
          simp only [next, matched?, h c cs]
        simp only [cutFrom, hnext, ih]
  exact hfrom _ _ _

end Segment

namespace Tokenizer

variable {m : TokenModel} {table : DispatchTable}

private theorem candidates_some (hm : m.WellFormed) (htable : DispatchTable.build m = .ok table)
    (concrete : List Category) (c : Char) :
    candidates m concrete (some table) c =
      m.concrete.filter fun k => k.leadingSet?.any (·.contains c) := by
  have hget : ∀ k ∈ m.concrete, m.get? k.id = some k := fun k hk =>
    hm.mem_iff_get?.mp (TokenModel.mem_concrete.mp hk).1
  simp only [candidates, DispatchTable.candidates_of_build htable, List.filterMap_map,
    Function.comp_def]
  rw [List.filterMap_congr fun k hk => hget k (List.mem_filter.mp hk).1, List.filterMap_some]

theorem cut_candidates_some (hm : m.WellFormed) (htable : DispatchTable.build m = .ok table)
    (hleads : ∀ k ∈ m.concrete, k.LeadsMatches) (text : List Char) :
    Segment.cut (candidates m m.concrete (some table)) text =
      Segment.cut (candidates m m.concrete none) text := by
  refine Segment.cut_congr (fun c cs => ?_) text
  rw [candidates_some hm htable]
  refine Segment.longestMatch?_filter fun k hk n hn hpos => ?_
  obtain ⟨set, hset, hc⟩ := hleads k hk c cs n hn hpos
  simp [hset, hc]

/-- A tokenizer with a table finds and reports what one without it does, for all preferences. -/
theorem tokenize_eq_tokenizeInOrder (hm : m.Built) (hvalid : m.validate = .ok ())
    (htable : DispatchTable.build m = .ok table) (hleads : ∀ k ∈ m.concrete, k.LeadsMatches)
    (p : TokenizerPreferences) : ∃ t, build m p = .ok t ∧ ∀ text, t.tokenize text =
      { t.tokenizeInOrder text with
        counts := { (t.tokenizeInOrder text).counts with usedDispatch := true } } := by
  refine ⟨⟨m, some table, p⟩, by simp [build, hvalid, htable, Except.mapError], fun text => ?_⟩
  have hsegments : segments ⟨m, some table, p⟩ (some table) text =
      segments ⟨m, some table, p⟩ none text := by
    simp only [segments, cut_candidates_some hm.wellFormed htable hleads]
  simp only [tokenize, tokenizeInOrder, scan_eq, hsegments]
  rfl

end Tokenizer

/-! ## A model with declared and with derived leading characters -/

private theorem LeadingSet.contains_ofList {cs : List Char} {c : Char} (h : c ∈ cs) :
    (ofList cs).contains c = true := by
  have hkeeps : ∀ (cs : List Char) (s : LeadingSet), s.contains c = true ∨ c ∈ cs →
      (cs.foldl insert s).contains c = true := by
    intro cs
    induction cs with
    | nil => exact fun s h => h.resolve_right List.not_mem_nil
    | cons d cs ih =>
      intro s h
      refine ih (s.insert d) ?_
      rcases h with h | h
      · exact .inl (contains_insert.mpr (.inl h))
      · rcases List.mem_cons.mp h with rfl | h
        · exact .inl (contains_insert.mpr (.inr (.inl rfl)))
        · exact .inr h
  exact hkeeps cs empty (.inr h)

theorem Category.LeadsMatches.of_literal {k : Category} {text : String}
    (hpattern : k.pattern = .literal text) (hmatcher : k.matcher = .literal text.toList)
    (hleading : k.leading = none) : k.LeadsMatches := by
  intro c cs n hn hpos
  rw [hmatcher, Matcher.matchLength?] at hn
  split at hn
  · rename_i hfront
    obtain rfl := Option.some.inj hn
    cases htext : text.toList with
    | nil => simp [htext, byteCount] at hpos
    | cons d ds =>
      rw [htext, List.isPrefixOf_iff_prefix, List.cons_prefix_cons] at hfront
      refine ⟨LeadingSet.empty.insert d, ?_, ?_⟩
      · simp [Category.leadingSet?, hleading, hpattern, htext]
      · exact LeadingSet.contains_insert.mpr (.inr (.inl hfront.1.symm))
  · cases hn

private theorem Category.LeadsMatches.of_run {k : Category} {members : List Char}
    (hmatcher : k.matcher = .custom (CustomMatcher.run members))
    (hleading : k.leading = some members) : k.LeadsMatches := by
  intro c cs n hn hpos
  rw [hmatcher, Matcher.matchLength?, Option.filter_eq_some_iff, CustomMatcher.run] at hn
  obtain rfl := Option.some.inj hn.1
  refine ⟨.ofList members, by simp [Category.leadingSet?, hleading], LeadingSet.contains_ofList ?_⟩
  by_contra hc
  simp [hc, byteCount] at hpos

def digits : List Char := "0123456789".toList

def sumModel : TokenModel :=
  let m := (TokenModel.empty.define "Digits" none (.custom (.run digits)) .normal).2
  ((m.setLeading 1 digits).2.define "Plus" none (.literal "+") .normal).2

theorem built_sumModel : sumModel.Built :=
  .define _ _ _ _ (.setLeading _ _ (.define _ _ _ _ (.tagged 0)))

private theorem concrete_sumModel : sumModel.concrete =
    [⟨1, "Digits", none, .custom (.run digits), .custom (.run digits), .normal, some digits⟩,
      ⟨2, "Plus", none, .literal "+", .literal "+".toList, .normal, none⟩] := by cbv

private theorem leadsMatches_sumModel : ∀ k ∈ sumModel.concrete, k.LeadsMatches := by
  rw [concrete_sumModel, List.forall_mem_cons, List.forall_mem_singleton]
  exact ⟨.of_run rfl rfl, .of_literal rfl rfl rfl⟩

/-- At most two tokens, and unmatched characters reported together. -/
theorem tokenize_eq_tokenizeInOrder_sumModel : ∃ table, sumModel.Built
    ∧ sumModel.validate = .ok () ∧ DispatchTable.build sumModel = .ok table
    ∧ (∀ k ∈ sumModel.concrete, k.LeadsMatches)
    ∧ ∃ t, Tokenizer.build sumModel ⟨true, .skipToNextMatch, 2⟩ = .ok t
      ∧ ∀ text, t.tokenize text = { t.tokenizeInOrder text with
        counts := { (t.tokenizeInOrder text).counts with usedDispatch := true } } := by
  have hvalid : sumModel.validate = .ok () := by cbv
  obtain ⟨table, htable⟩ : ∃ table, DispatchTable.build sumModel = .ok table := by
    refine DispatchTable.exists_build ?_
    rw [concrete_sumModel, List.forall_mem_cons, List.forall_mem_singleton]
    exact ⟨rfl, rfl⟩
  exact ⟨table, built_sumModel, hvalid, htable, leadsMatches_sumModel,
    Tokenizer.tokenize_eq_tokenizeInOrder built_sumModel hvalid htable leadsMatches_sumModel _⟩

end PredictiveParsing
