import Mathlib.Tactic
import PredictiveParsing.Proofs.Lexing.TableScan
import PredictiveParsing.Proofs.Lexing.Tokenization
import PredictiveParsing.Proofs.Token.Consistency

/-!
# Longest matches

A tokenizer that tries every category everywhere takes the longest match at each place, and of
equally long ones that of the category registered first. It gives up a character only if nothing
matches there.
-/

namespace PredictiveParsing

open Position (inText)

/-- The length of the match of a category at a number of bytes from the start of a text. -/
def Category.matchAt? (k : Category) (text : List Char) (offset : Nat) : Option Nat :=
  (splitBytes? offset text).bind fun (_, rest) => k.matcher.matchLength? rest

/-- No category has a longer match where the token begins, and none that is registered before its
own has one of the same length. -/
def Token.IsLongest (m : TokenModel) (text : List Char) (x : Token) : Prop :=
  ∃ c, m.get? x.category = some c ∧ c.isConcrete = true ∧ 0 < x.span.length
    ∧ c.matchAt? text x.span.start.offset = some x.span.length
    ∧ ∀ k ∈ m.categories, ∀ n, k.matchAt? text x.span.start.offset = some n →
      n ≤ x.span.length ∧ (k.id < c.id → n < x.span.length)

/-! ## The best of several matches -/

namespace Segment

variable {best : Option (Category × Nat)} {ks : List Category} {rest : List Char}

/-- The length of the best match so far. -/
abbrev lengthOf (best : Option (Category × Nat)) : Nat := best.elim 0 Prod.snd

private theorem better_cases (best : Option (Category × Nat)) (c : Category) (rest : List Char) :
    (better best c rest = best ∧ ∀ n, c.matcher.matchLength? rest = some n → n ≤ lengthOf best)
      ∨ ∃ n, c.matcher.matchLength? rest = some n ∧ lengthOf best < n
        ∧ better best c rest = some (c, n) := by
  rw [better]
  cases h : c.matcher.matchLength? rest with
  | none => exact .inl ⟨rfl, by simp⟩
  | some n =>
    by_cases hlt : lengthOf best < n
    · exact .inr ⟨n, rfl, hlt, if_pos hlt⟩
    · refine .inl ⟨if_neg hlt, fun n' hn' => ?_⟩
      obtain rfl := Option.some.inj hn'
      exact Nat.le_of_not_lt hlt

/-- Either the best match so far stays, or the first of the longest ones takes its place. -/
theorem foldl_better_cases (rest : List Char) (ks : List Category)
    (best : Option (Category × Nat)) :
    (ks.foldl (fun best c => better best c rest) best = best
        ∧ ∀ c ∈ ks, ∀ n, c.matcher.matchLength? rest = some n → n ≤ lengthOf best)
      ∨ ∃ front k back n, ks = front ++ k :: back
        ∧ ks.foldl (fun best c => better best c rest) best = some (k, n)
        ∧ k.matcher.matchLength? rest = some n ∧ lengthOf best < n
        ∧ (∀ c ∈ front, ∀ l, c.matcher.matchLength? rest = some l → l < n)
        ∧ ∀ c ∈ back, ∀ l, c.matcher.matchLength? rest = some l → l ≤ n := by
  induction ks generalizing best with
  | nil => exact .inl ⟨rfl, by simp⟩
  | cons c ks ih =>
    rw [List.foldl_cons]
    rcases better_cases best c rest with ⟨hstay, hc⟩ | ⟨n, hn, hlt, hbetter⟩
    · rw [hstay]
      rcases ih best with ⟨hfold, hall⟩ | ⟨front, k, back, n, rfl, hfold, hk, hlt, hfront, hback⟩
      · exact .inl ⟨hfold, List.forall_mem_cons.mpr ⟨hc, hall⟩⟩
      · refine .inr ⟨c :: front, k, back, n, rfl, hfold, hk, hlt, ?_, hback⟩
        exact List.forall_mem_cons.mpr ⟨fun l hl => Nat.lt_of_le_of_lt (hc l hl) hlt, hfront⟩
    · rw [hbetter]
      rcases ih (some (c, n)) with
        ⟨hfold, hall⟩ | ⟨front, k, back, l, rfl, hfold, hk, hlonger, hfront, hback⟩
      · exact .inr ⟨[], c, ks, n, rfl, hfold, hn, hlt, by simp, hall⟩
      · refine .inr ⟨c :: front, k, back, l, rfl, hfold, hk, Nat.lt_trans hlt hlonger, ?_, hback⟩
        refine List.forall_mem_cons.mpr ⟨fun l' hl' => ?_, hfront⟩
        obtain rfl := Option.some.inj (hn.symm.trans hl')
        exact hlonger

private theorem longest_of_longestMatch? (hids : ks.Pairwise fun c d => c.id < d.id) {k : Category}
    {n : Nat} (h : longestMatch? ks rest = some (k, n)) : ∀ c ∈ ks, ∀ l,
      c.matcher.matchLength? rest = some l → l ≤ n ∧ (c.id < k.id → l < n) := by
  rcases foldl_better_cases rest ks none with
    ⟨hfold, -⟩ | ⟨front, k', back, n', rfl, hfold, hk, -, hfront, hback⟩
  · exact nomatch hfold.symm.trans h
  · obtain ⟨rfl, rfl⟩ := Prod.mk.inj (Option.some.inj (hfold.symm.trans h))
    obtain ⟨-, hrest, -⟩ := List.pairwise_append.mp hids
    intro c hc l hl
    rcases List.mem_append.mp hc with hc | hc
    · exact ⟨(hfront c hc l hl).le, fun _ => hfront c hc l hl⟩
    · rcases List.mem_cons.mp hc with rfl | hc
      · obtain rfl := Option.some.inj (hk.symm.trans hl)
        exact ⟨Nat.le_refl _, fun hlt => absurd hlt (Nat.lt_irrefl _)⟩
      · have hafter := (List.pairwise_cons.mp hrest).1 c hc
        exact ⟨hback c hc l hl, fun hlt => absurd (Nat.lt_trans hlt hafter) (Nat.lt_irrefl _)⟩

private theorem eq_zero_of_longestMatch? (h : longestMatch? ks rest = none) : ∀ c ∈ ks, ∀ n,
    c.matcher.matchLength? rest = some n → n = 0 := by
  rcases foldl_better_cases rest ks none with ⟨-, hall⟩ | ⟨_, k, _, n, _, hfold, _⟩
  · exact fun c hc n hn => Nat.le_zero.mp (hall c hc n hn)
  · exact nomatch h.symm.trans hfold

end Segment

/-! ## The categories of a model -/

namespace TokenModel

variable {m : TokenModel}

/-- A category that is not concrete matches nothing. -/
theorem Built.matchLength?_eq_none (h : m.Built) {k : Category} (hk : k ∈ m.categories)
    (hno : k.isConcrete = false) (rest : List Char) : k.matcher.matchLength? rest = none := by
  have hget := h.wellFormed.mem_iff_get?.mp hk
  have habstract : k.pattern = .abstract := by
    by_cases heof : k.id = CategoryId.eof
    · obtain ⟨c, hc, hpattern⟩ := h.wellNamed.eof
      obtain rfl := Option.some.inj ((heof ▸ hget).symm.trans hc)
      exact hpattern
    · have hp : k.pattern.isAbstract = true := by simpa [Category.isConcrete, heof] using hno
      cases hpattern : k.pattern with
      | abstract => rfl
      | regex source => simp [hpattern, Pattern.isAbstract] at hp
      | literal text => simp [hpattern, Pattern.isAbstract] at hp
      | custom f => simp [hpattern, Pattern.isAbstract] at hp
  have hmatcher := h.wellFormed.matcher_eq hget
  rw [habstract] at hmatcher
  have hnever : k.matcher = .never := (Except.ok.inj hmatcher).symm
  rw [hnever]
  rfl

end TokenModel

/-! ## Places and bytes -/

private theorem matchAt?_inText {text : List Char} {i : Nat} (k : Category) :
    k.matchAt? text (inText text i).offset = k.matcher.matchLength? (text.drop i) := by
  have hsplit : splitBytes? (inText text i).offset text = some (text.take i, text.drop i) :=
    splitBytes?_eq_some.mpr
      ⟨(List.take_append_drop i text).symm, (Position.offset_inText text i).symm⟩
  rw [Category.matchAt?, hsplit, Option.bind_some]

private theorem exists_place_of_matchAt? {text : List Char} {i j offset n : Nat} {k : Category}
    (hi : i ≤ text.length) (hstart : (inText text i).offset ≤ offset)
    (hstop : offset < (inText text j).offset) (h : k.matchAt? text offset = some n) :
    ∃ l, i ≤ l ∧ l < j ∧ k.matcher.matchLength? (text.drop l) = some n := by
  obtain ⟨⟨u, v⟩, hsplit, hmatch⟩ := Option.bind_eq_some_iff.mp h
  obtain ⟨rfl, rfl⟩ := splitBytes?_eq_some.mp hsplit
  have hu : byteCount u = (inText (u ++ v) u.length).offset := by
    rw [Position.offset_inText, List.take_left]
  refine ⟨u.length, ?_, ?_, by rwa [List.drop_left]⟩
  · by_contra hlt
    have hstep : (inText (u ++ v) u.length).offset < (inText (u ++ v) (u.length + 1)).offset := by
      have hget : (u ++ v)[u.length]? = some (u ++ v)[u.length] :=
        List.getElem?_eq_getElem (by omega)
      rw [Position.inText_succ hget, Position.offset_advance]
      exact Nat.lt_add_of_pos_right (Char.utf8Size_pos _)
    have hle := Position.offset_inText_le (u ++ v) (show u.length + 1 ≤ i by omega)
    omega
  · by_contra hge
    have hle := Position.offset_inText_le (u ++ v) (Nat.le_of_not_lt hge)
    omega

/-! ## Tokens and reports -/

namespace Segment

variable {m : TokenModel} {text : List Char} {i j : Nat} {segments : List Segment}

/-- All categories are candidates everywhere. -/
abbrev everywhere (m : TokenModel) : Char → List Category := fun _ => m.concrete

theorem matchAt?_everywhere {cs : List Char} (hcs : cs ≠ []) :
    matchAt? (everywhere m) cs = longestMatch? m.concrete cs := by
  cases cs with
  | nil => exact absurd rfl hcs
  | cons c cs => rfl

theorem StandsAt.isLongest (hm : m.Built) {s : Segment} (h : s.StandsAt (everywhere m) text i)
    {k : Category} (hk : s.category = some k) {x : Token} (hx : x.category = k.id)
    (hspan : x.span = s.span) : x.IsLongest m text := by
  have hrest : text.drop i ≠ [] := fun hnil => h.nonempty (List.prefix_nil.mp (hnil ▸ h.isPrefix))
  have hlongest : longestMatch? m.concrete (text.drop i) = some (k, byteCount s.text) := by
    rw [← matchAt?_everywhere hrest]
    exact h.matched k hk
  obtain ⟨hmem, hlength, hpos⟩ := longestMatch?_eq_some hlongest
  obtain ⟨hcategories, hconcrete⟩ := TokenModel.mem_concrete.mp hmem
  have hstart : x.span.start.offset = (inText text i).offset := by rw [hspan, h.span]
  have hsize : x.span.length = byteCount s.text := by rw [hspan, h.length_span]
  refine ⟨k, ?_, hconcrete, hsize ▸ hpos, ?_, fun k' hk' n hn => ?_⟩
  · rw [hx]
    exact hm.wellFormed.mem_iff_get?.mp hcategories
  · rw [hstart, hsize, matchAt?_inText, hlength]
  · rw [hstart, matchAt?_inText] at hn
    rw [hsize]
    by_cases hconcrete' : k'.isConcrete = true
    · exact longest_of_longestMatch? hm.wellFormed.pairwise_concrete hlongest k'
        (TokenModel.mem_concrete.mpr ⟨hk', hconcrete'⟩) n hn
    · rw [hm.matchLength?_eq_none hk' (Bool.eq_false_iff.mpr hconcrete')] at hn
      cases hn

theorem Tile.isLongest (hm : m.Built) (h : Tile (everywhere m) text i segments j) (g : Group) :
    ∀ x ∈ tokensIn g segments, x.IsLongest m text := by
  intro x hx
  obtain ⟨s, hs, k, hk, -, rfl⟩ := mem_tokensIn.mp hx
  obtain ⟨l, hl⟩ := exists_of_mem_tile h hs
  exact hl.isLongest hm hk rfl rfl

private theorem StandsAt.eq_zero_of_matchAt? (hm : m.Built) {s : Segment}
    (h : s.StandsAt (everywhere m) text i) (hs : s.category = none) {offset : Nat}
    (hstart : s.span.start.offset ≤ offset) (hstop : offset < s.span.stop.offset) {k : Category}
    (hk : k ∈ m.categories) {n : Nat} (hn : k.matchAt? text offset = some n) : n = 0 := by
  have hle := h.add_length_le
  rw [h.span] at hstart hstop
  obtain ⟨l, hil, hlj, hmatch⟩ := exists_place_of_matchAt? (by omega) hstart hstop hn
  have hrest : text.drop l ≠ [] := fun hnil => by
    have := List.drop_eq_nil_iff.mp hnil
    omega
  have hnone := h.unmatched hs (l - i) (by omega)
  rw [show i + (l - i) = l by omega, matchAt?_everywhere hrest] at hnone
  by_cases hconcrete : k.isConcrete = true
  · exact eq_zero_of_longestMatch? hnone k
      (List.mem_filter.mpr ⟨Array.mem_toList_iff.mpr hk, hconcrete⟩) n hmatch
  · rw [hm.matchLength?_eq_none hk (Bool.eq_false_iff.mpr hconcrete)] at hmatch
    cases hmatch

private theorem exists_of_mem_diagnostics {excess : Option Diagnostic} {o : Tokenization}
    {stop : Nat} (h : o.Describes text segments stop excess)
    (hexcess : ∀ d ∈ excess, d.code = Code.tooManyTokens)
    {d : Diagnostic} (hd : d ∈ o.diagnostics) (hcode : d.code = Code.unmatchedInput) :
    ∃ s ∈ segments, s.category = none ∧ d.span = s.span := by
  rw [h.diagnostics] at hd
  rcases List.mem_append.mp (List.mem_of_mem_take hd) with hd | hd
  · obtain ⟨s, hs, hsd⟩ := List.mem_filterMap.mp hd
    refine ⟨s, hs, ?_, ?_⟩
    · cases hcategory : s.category with
      | none => rfl
      | some k => simp [diagnostic?, hcategory] at hsd
    · have hspan := map_diagnostic? s
      rw [hsd, Option.map_some] at hspan
      split at hspan
      · exact (Prod.mk.inj (Option.some.inj hspan)).2
      · cases hspan
  · rw [hexcess d (by simpa using hd)] at hcode
    exact absurd hcode (by decide)

end Segment

namespace Tokenizer

/-- In what a tokenizer finds without a table every token is the longest match where it begins, with
the first category that matches so much, and nothing matches where text is reported as unmatched. -/
theorem tokenizeInOrder_longest (t : Tokenizer) (hm : t.model.Built) (text : List Char) :
    (∃ xs p, (t.tokenizeInOrder text).tokens = xs ++ [.eof p]
        ∧ ∀ x ∈ xs, x.IsLongest t.model text)
      ∧ (∀ name, ∀ xs ∈ (t.tokenizeInOrder text).groups.get? name, ∀ x ∈ xs,
        x.IsLongest t.model text)
      ∧ ∀ d ∈ (t.tokenizeInOrder text).diagnostics, d.code = Code.unmatchedInput →
        ∀ offset, d.span.start.offset ≤ offset → offset < d.span.stop.offset →
          ∀ k ∈ t.model.categories, ∀ n, k.matchAt? text offset = some n → n = 0 := by
  obtain ⟨stop, beyond, htile, hdescribes, -⟩ := t.describes_scan none text
  refine ⟨⟨_, _, hdescribes.tokens, htile.isLongest hm .normal⟩, fun name xs hxs => ?_,
    fun d hd hcode offset hstart hstop k hk n hn => ?_⟩
  · rw [show (t.tokenizeInOrder text).groups.get? name = _ from hdescribes.groups name] at hxs
    split at hxs
    · cases hxs
    · obtain rfl := Option.some.inj hxs
      exact htile.isLongest hm (.named name)
  · have hcodes : ∀ d ∈ beyond.map
        (Tokenization.overLimit t.preferences.tokenLimit (byteCount text)),
        d.code = Code.tooManyTokens := by
      intro d hd
      obtain ⟨s, -, rfl⟩ := Option.map_eq_some_iff.mp hd
      rfl
    obtain ⟨s, hs, hnone, hspan⟩ := Segment.exists_of_mem_diagnostics hdescribes hcodes hd hcode
    obtain ⟨i, hi⟩ := Segment.exists_of_mem_tile htile hs
    rw [hspan] at hstart hstop
    exact hi.eq_zero_of_matchAt? hm hnone hstart hstop hk hn

/-- Every category of the model is tried everywhere, and unmatched characters are reported together.
-/
def inOrder : Tokenizer := ⟨sumModel, none, ⟨false, .skipToNextMatch, 10⟩⟩

theorem tokenizeInOrder_longest_sumModel :
    inOrder.model.Built
      ∧ (inOrder.tokenizeInOrder "12+xy".toList).tokens.map (·.image) = ["12", "+", ""]
      ∧ (inOrder.tokenizeInOrder "12+xy".toList).diagnostics.map (·.code) = [Code.unmatchedInput]
      ∧ (∃ xs p, (inOrder.tokenizeInOrder "12+xy".toList).tokens = xs ++ [.eof p]
        ∧ ∀ x ∈ xs, x.IsLongest sumModel "12+xy".toList)
      ∧ ∀ d ∈ (inOrder.tokenizeInOrder "12+xy".toList).diagnostics, d.code = Code.unmatchedInput →
        ∀ offset, d.span.start.offset ≤ offset → offset < d.span.stop.offset →
          ∀ k ∈ sumModel.categories, ∀ n,
            k.matchAt? "12+xy".toList offset = some n → n = 0 := by
  obtain ⟨htokens, -, hreports⟩ :=
    tokenizeInOrder_longest inOrder built_sumModel "12+xy".toList
  exact ⟨built_sumModel, by cbv, by cbv, htokens, hreports⟩

end Tokenizer

end PredictiveParsing
