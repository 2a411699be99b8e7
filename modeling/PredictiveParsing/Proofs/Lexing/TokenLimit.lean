import PredictiveParsing.Proofs.Lexing.LongestMatch

/-!
# The limit on tokens

A tokenizer that may keep fewer tokens cuts a text at the same places. It keeps the same tokens and
reports the same up to the first token that is one too many, and leaves out all that comes from
there on.
-/

namespace PredictiveParsing

open Position (inText offset_inText_le)

def tokensOf (g : Group) (tokens : List (Category × Token)) : List Token :=
  tokens.filterMap fun (c, t) => if c.group = g then some t else none

/-- The tokens of the segments that are not dropped, in the order of the text. -/
def Segment.kept (segments : List Segment) : List (Category × Token) :=
  (segments.filterMap (·.token?)).filter fun (c, _) => c.group != .skipped

namespace Tokenization

/-- What is kept of a text up to a position are the given tokens, in the order of the text. Those of
the normal group are in front of the end of the input, and all others are in their groups. -/
structure Keeps (o : Tokenization) (kept : List (Category × Token)) (stop : Position) : Prop where
  tokens : o.tokens = tokensOf .normal kept ++ [.eof stop]
  groups (name : String) : o.groups.get? name =
    if tokensOf (.named name) kept = [] then none else some (tokensOf (.named name) kept)
  ordered : (kept.map Prod.snd).Pairwise Token.Before
  total : o.counts.total = kept.length + o.counts.skipped

/-- The first tokenization is the second one cut off in front of a token, the first one beyond
`cap` of those that the second one keeps. -/
structure CutOff (o o' : Tokenization) (text : List Char) (cap : Nat)
    (kept : List (Category × Token)) (x : Token) : Prop where
  keeps : o.Keeps (kept.take cap) x.span.start
  tokens : o.tokens.dropLast <+: o'.tokens.dropLast
  groups (name : String) : (o.groups.get? name).getD [] <+: (o'.groups.get? name).getD []
  diagnostics : o.counts.suppressed = 0 → o'.counts.suppressed = 0 →
    o.diagnostics = o'.diagnostics.filter (·.offset < x.offset)
      ++ [{ Diagnostic.lexical Code.tooManyTokens
          s!"Token limit of {cap} reached, remaining input ignored" x.span with
        recovery := .skippedInput (byteCount text - x.offset) }]

end Tokenization

/-! ## Cutting off segments -/

namespace Segment

variable {candidates : Char → List Category} {text : List Char} {i j : Nat}
  {segments : List Segment}

/-- Segments with no more tokens than may be kept stay, and the limit for those behind is lower. -/
theorem limit_append (front back : List Segment) (left : Nat) :
    limit (front.countP (·.isKept) + left) (front ++ back)
      = (front ++ (limit left back).1, (limit left back).2) := by
  induction front with
  | nil => rw [List.countP_nil, Nat.zero_add, List.nil_append, List.nil_append]
  | cons s front ih =>
    by_cases hs : s.isKept = true
    · rw [List.countP_cons_of_pos hs, Nat.add_right_comm, List.cons_append,
        limit_succ_cons_of_isKept hs, ih]
      rfl
    · rw [List.countP_cons_of_neg hs, List.cons_append, limit_cons_of_not_isKept hs, ih]
      rfl

theorem limit_of_beyond {front : List Segment} {s : Segment} {cap : Nat}
    (hcount : front.countP (·.isKept) = cap) (hs : s.isKept = true) (back : List Segment) :
    limit cap (front ++ s :: back) = (front, some s) := by
  have happend := limit_append front (s :: back) 0
  rwa [limit_cons_of_isKept hs, List.append_nil, Nat.add_zero, hcount] at happend

/-- Either all tokens may be kept, or there is a first one that is one too many. -/
theorem exists_beyond_of_lt {left : Nat} (h : left < segments.countP (·.isKept)) :
    ∃ front s back, segments = front ++ s :: back ∧ s.isKept = true
      ∧ front.countP (·.isKept) = left := by
  induction segments generalizing left with
  | nil => simp at h
  | cons s segments ih =>
    cases hs : s.isKept with
    | false =>
      rw [List.countP_cons_of_neg (by simp [hs])] at h
      obtain ⟨front, x, back, rfl, hx, hcount⟩ := ih h
      exact ⟨s :: front, x, back, rfl, hx, by rw [List.countP_cons_of_neg (by simp [hs]), hcount]⟩
    | true =>
      cases left with
      | zero => exact ⟨[], s, segments, rfl, hs, rfl⟩
      | succ left =>
        rw [List.countP_cons_of_pos hs] at h
        obtain ⟨front, x, back, rfl, hx, hcount⟩ := ih (Nat.lt_of_succ_lt_succ h)
        exact ⟨s :: front, x, back, rfl, hx, by rw [List.countP_cons_of_pos hs, hcount]⟩

/-! ## Tokens that are kept -/

theorem kept_append (xs ys : List Segment) : kept (xs ++ ys) = kept xs ++ kept ys := by
  simp [kept]

theorem length_kept (segments : List Segment) :
    (kept segments).length = segments.countP (·.isKept) := by
  rw [kept, length_filter_token? (· != .skipped)]
  refine List.countP_congr fun s _ => ?_
  cases hs : s.category <;> simp [isKept, group?, hs]

theorem exists_kept_cons {s : Segment} (h : s.isKept = true) :
    ∃ c, s.category = some c ∧ ∀ segments, kept (s :: segments)
      = (c, ⟨c.id, String.ofList s.text, s.span, false⟩) :: kept segments := by
  obtain ⟨c, hc, hgroup⟩ : ∃ c, s.category = some c ∧ (c.group != .skipped) = true := by
    cases hc : s.category with
    | none => simp [isKept, hc] at h
    | some c => exact ⟨c, rfl, by simpa [isKept, hc] using h⟩
  refine ⟨c, hc, fun segments => ?_⟩
  rw [kept, List.filterMap_cons_some (token?_of_some hc).1]
  exact List.filter_cons_of_pos hgroup

private theorem tokensOf_kept {g : Group} (hg : g ≠ .skipped) (segments : List Segment) :
    tokensOf g (kept segments) = tokensIn g segments := by
  rw [tokensOf, kept, List.filterMap_filter, ← tokensIn_eq]
  refine List.filterMap_congr fun x _ => ?_
  by_cases hx : x.1.group = g
  · simp [hx, hg]
  · simp [hx]

private theorem Tile.pairwise_kept (h : Tile candidates text i segments j) :
    ((kept segments).map Prod.snd).Pairwise Token.Before := by
  refine List.pairwise_map.mpr (List.Pairwise.filter _ (List.Pairwise.filterMap _ ?_ h.pairwise))
  rintro x y hxy t ht u hu
  obtain ⟨c, -, rfl⟩ := Option.map_eq_some_iff.mp ht
  obtain ⟨d, -, rfl⟩ := Option.map_eq_some_iff.mp hu
  exact hxy

/-! ## Where reports are -/

theorem diagnostic?_eq_some {s : Segment} {d : Diagnostic} (h : s.diagnostic? = some d) :
    s.category = none ∧ d.code = Code.unmatchedInput ∧ d.span = s.span := by
  have hnone : s.category = none := by
    cases hs : s.category with
    | none => rfl
    | some c => simp [diagnostic?, hs] at h
  have hspan := map_diagnostic? s
  rw [h, if_pos (token?_of_none hnone).2, Option.map_some] at hspan
  obtain ⟨hcode, hspan⟩ := Prod.mk.inj (Option.some.inj hspan)
  exact ⟨hnone, hcode, hspan⟩

/-- All segments of a tiling begin in front of its end. -/
theorem Tile.offset_lt (h : Tile candidates text i segments j) {s : Segment} (hs : s ∈ segments) :
    s.span.start.offset < (inText text j).offset := by
  obtain ⟨k, hk⟩ := exists_of_mem_tile h hs
  have hpos : 0 < s.span.length := hk.length_span ▸ byteCount_pos.mpr hk.nonempty
  rw [Span.length] at hpos
  have hstop := (h.offset_le hs).2
  omega

end Segment

open Segment

/-! ## Tokenizations -/

namespace Tokenization

theorem Describes.diagnostics_eq {o : Tokenization} {text : List Char} {segments : List Segment}
    {stop : Nat} {excess : Option Diagnostic} (h : o.Describes text segments stop excess)
    (hall : o.counts.suppressed = 0) :
    o.diagnostics = segments.filterMap (·.diagnostic?) ++ excess.toList := by
  have hsuppressed := h.suppressed
  rw [h.diagnostics, List.take_of_length_le (by omega)]

theorem keeps_ofSegments {candidates : Char → List Category} {text : List Char}
    {segments : List Segment} {stop : Nat} (h : Tile candidates text 0 segments stop)
    (beyond : Option Segment) (limit size : Nat) (usedDispatch : Bool) :
    (ofSegments segments beyond limit size usedDispatch).Keeps (kept segments)
      (inText text stop) := by
  have hdescribes := describes_ofSegments h beyond limit size usedDispatch
  refine ⟨?_, fun name => ?_, h.pairwise_kept, ?_⟩
  · rw [tokensOf_kept (by simp), hdescribes.tokens]
  · rw [tokensOf_kept (by simp), hdescribes.groups]
  · have hsplit := List.length_eq_length_filter_add
      (l := segments.filterMap (·.token?)) fun (c, _) => c.group != .skipped
    refine hsplit.trans (congrArg _ (congrArg List.length (List.filter_congr fun x _ => ?_)))
    simp [bne]

private theorem Keeps.tokens_dropLast {o : Tokenization} {kept : List (Category × Token)}
    {stop : Position} (h : o.Keeps kept stop) : o.tokens.dropLast = tokensOf .normal kept := by
  rw [h.tokens, List.dropLast_concat]

private theorem Keeps.groups_getD {o : Tokenization} {kept : List (Category × Token)}
    {stop : Position} (h : o.Keeps kept stop) (name : String) :
    (o.groups.get? name).getD [] = tokensOf (.named name) kept := by
  rw [h.groups]
  split
  · exact Eq.symm ‹_›
  · rfl

/-- What is left of a text in front of a token that is one too many is what was found in all of the
text, cut off there. -/
theorem cutOff_ofSegments {candidates : Char → List Category} {text : List Char}
    {front back : List Segment} {s : Segment} {stop : Nat} {c : Category} {beyond : Option Segment}
    {cap : Nat} (h : Tile candidates text 0 (front ++ s :: back) stop)
    (hs : s.category = some c) (hcap : front.countP (·.isKept) = cap)
    (hbeyond : ∀ b ∈ beyond, b.StandsAt candidates text stop) (limit : Nat) (usedDispatch : Bool) :
    (ofSegments front (some s) cap (byteCount text) usedDispatch).CutOff
      (ofSegments (front ++ s :: back) beyond limit (byteCount text) usedDispatch) text cap
      (kept (front ++ s :: back)) ⟨c.id, String.ofList s.text, s.span, false⟩ := by
  obtain ⟨j, hfront, hstands, hback⟩ := tile_append.mp h
  have hstart : s.span.start = inText text j := by rw [hstands.span]
  have htake : (kept (front ++ s :: back)).take cap = kept front := by
    rw [kept_append, List.take_left' ((length_kept front).trans hcap)]
  have hfew := keeps_ofSegments hfront (some s) cap (byteCount text) usedDispatch
  rw [← htake, ← hstart] at hfew
  have hmany := keeps_ofSegments h beyond limit (byteCount text) usedDispatch
  refine ⟨hfew, ?_, fun name => ?_, fun hall hall' => ?_⟩
  · rw [hfew.tokens_dropLast, hmany.tokens_dropLast]
    exact (List.take_prefix cap _).filterMap _
  · rw [hfew.groups_getD, hmany.groups_getD]
    exact (List.take_prefix cap _).filterMap _
  · -- Reports of the second tokenization are in front of the token or behind it.
    have hin : ∀ d ∈ front.filterMap (·.diagnostic?), d.offset < (inText text j).offset := by
      intro d hd
      obtain ⟨x, hx, hd⟩ := List.mem_filterMap.mp hd
      rw [Diagnostic.offset, (diagnostic?_eq_some hd).2.2]
      exact hfront.offset_lt hx
    have hout : ∀ d ∈ back.filterMap (·.diagnostic?)
        ++ (beyond.map (overLimit limit (byteCount text))).toList,
        ¬d.offset < (inText text j).offset := by
      intro d hd
      rcases List.mem_append.mp hd with hd | hd
      · obtain ⟨x, hx, hd⟩ := List.mem_filterMap.mp hd
        rw [Diagnostic.offset, (diagnostic?_eq_some hd).2.2, Nat.not_lt]
        exact (offset_inText_le text (Nat.le_add_right _ _)).trans (hback.offset_le hx).1
      · obtain ⟨b, hb, rfl⟩ := Option.map_eq_some_iff.mp (Option.mem_toList.mp hd)
        have hb : b.span.start = inText text stop := by rw [(hbeyond b hb).span]
        rw [Diagnostic.offset, Nat.not_lt]
        change _ ≤ b.span.start.offset
        rw [hb, ← hstart]
        exact (h.offset_lt (List.mem_append_right _ List.mem_cons_self)).le
    have hdiagnostic : s.diagnostic? = none := by simp [diagnostic?, hs]
    rw [(describes_ofSegments hfront _ _ _ _).diagnostics_eq hall,
      (describes_ofSegments h _ _ _ _).diagnostics_eq hall', List.filterMap_append,
      List.filterMap_cons_none hdiagnostic, List.append_assoc, List.filter_append]
    change front.filterMap (·.diagnostic?) ++ [overLimit cap (byteCount text) s]
      = (front.filterMap (·.diagnostic?)).filter (fun d => d.offset < s.span.start.offset)
        ++ (back.filterMap (·.diagnostic?)
          ++ (beyond.map (overLimit limit (byteCount text))).toList).filter
            (fun d => d.offset < s.span.start.offset)
        ++ [overLimit cap (byteCount text) s]
    rw [hstart, List.filter_eq_self.mpr (by simpa using hin),
      List.filter_eq_nil_iff.mpr (by simpa using hout), List.append_nil]

end Tokenization

namespace Tokenizer

/-- The tokenizer with another bound on the number of tokens. -/
def keepingAtMost (t : Tokenizer) (n : Nat) : Tokenizer :=
  { t with preferences := { t.preferences with maxTokens := n } }

theorem scan_of_limit {t : Tokenizer} {dispatch : Option DispatchTable} {text : List Char}
    {cap : Nat} (hcap : t.preferences.tokenLimit = cap) {segments : List Segment}
    {beyond : Option Segment}
    (h : Segment.limit cap (t.segments dispatch text) = (segments, beyond)) :
    t.scan dispatch text
      = (segments, .ofSegments segments beyond cap (byteCount text) dispatch.isSome) := by
  simp only [scan_eq, hcap, h]

/-- A tokenizer that may keep fewer tokens gives the same where there are no more. Otherwise what it
gives is cut off in front of the first token that is one too many. -/
theorem scan_of_lower_limit (t : Tokenizer) (dispatch : Option DispatchTable) (text : List Char)
    {m n cap : Nat} (hcap : (t.keepingAtMost m).preferences.tokenLimit = cap)
    (hlt : cap < (t.keepingAtMost n).preferences.tokenLimit) :
    let few := ((t.keepingAtMost m).scan dispatch text).2
    let many := ((t.keepingAtMost n).scan dispatch text).2
    let kept := Segment.kept ((t.keepingAtMost n).scan dispatch text).1
    (∃ stop, many.Keeps kept stop) ∧ (kept.length ≤ cap → few = many)
      ∧ ∀ c x, kept[cap]? = some (c, x) → few.CutOff many text cap kept x := by
  intro few many kept
  have htile := t.tile_segments dispatch text
  by_cases hall : (t.segments dispatch text).countP (·.isKept) ≤ cap
  · have hfew := scan_of_limit (t := t.keepingAtMost m) hcap (limit_eq_self hall)
    have hmany := scan_of_limit (t := t.keepingAtMost n) rfl (limit_eq_self (hall.trans hlt.le))
    simp only [few, many, kept, hfew, hmany]
    refine ⟨⟨_, Tokenization.keeps_ofSegments htile _ _ _ _⟩, fun _ => rfl, fun c x hx => ?_⟩
    rw [← length_kept] at hall
    exact nomatch (List.getElem?_eq_none hall).symm.trans hx
  · obtain ⟨front, s, back, heq, hs, hcount⟩ := exists_beyond_of_lt (Nat.lt_of_not_le hall)
    obtain ⟨c, hc, hkept⟩ := exists_kept_cons hs
    obtain ⟨left, hleft⟩ := Nat.exists_eq_add_of_lt hlt
    rw [Nat.add_assoc] at hleft
    have hlow : Segment.limit cap (t.segments dispatch text) = (front, some s) :=
      heq ▸ limit_of_beyond hcount hs back
    have hhigh : Segment.limit (cap + (left + 1)) (t.segments dispatch text)
        = (front ++ s :: (Segment.limit left back).1, (Segment.limit left back).2) := by
      have happend := limit_append front (s :: back) (left + 1)
      rwa [limit_succ_cons_of_isKept hs, hcount, ← heq] at happend
    have hfew := scan_of_limit (t := t.keepingAtMost m) hcap hlow
    have hmany := scan_of_limit (t := t.keepingAtMost n) hleft hhigh
    obtain ⟨stop, hstop, -, hbeyond⟩ := htile.limit (cap + (left + 1))
    rw [hhigh] at hstop hbeyond
    simp only [few, many, kept, hfew, hmany]
    have hlength : (Segment.kept front).length = cap := (length_kept front).trans hcount
    refine ⟨⟨_, Tokenization.keeps_ofSegments hstop _ _ _ _⟩, fun hle => ?_, fun c' x hx => ?_⟩
    · rw [kept_append, hkept, List.length_append, hlength, List.length_cons] at hle
      omega
    · rw [kept_append, hkept, List.getElem?_append_right hlength.le, hlength, Nat.sub_self,
        List.getElem?_cons_zero] at hx
      obtain ⟨rfl, rfl⟩ := Prod.mk.inj (Option.some.inj hx)
      exact Tokenization.cutOff_ofSegments hstop hc hcount
        (fun b hb => (hbeyond b hb).2.1) _ _

/-- Of two tokens one may be kept, and a character between them belongs to no category. -/
theorem scan_of_lower_limit_inOrder :
    (inOrder.keepingAtMost 1).preferences.tokenLimit = 1
      ∧ 1 < (inOrder.keepingAtMost 9).preferences.tokenLimit
      ∧ ∃ few many kept c x, ((inOrder.keepingAtMost 1).scan none "12?+y".toList).2 = few
        ∧ ((inOrder.keepingAtMost 9).scan none "12?+y".toList).2 = many
        ∧ Segment.kept ((inOrder.keepingAtMost 9).scan none "12?+y".toList).1 = kept
        ∧ kept[1]? = some (c, x) ∧ few.CutOff many "12?+y".toList 1 kept x
        ∧ few.counts.suppressed = 0 ∧ many.counts.suppressed = 0
        ∧ few.diagnostics.map (fun d => (d.code, d.recovery))
          = [(Code.unmatchedInput, .skippedInput 1), (Code.tooManyTokens, .skippedInput 2)] := by
  have hcap : (inOrder.keepingAtMost 1).preferences.tokenLimit = 1 := by decide
  have hlt : 1 < (inOrder.keepingAtMost 9).preferences.tokenLimit := by decide
  have hsecond : (Segment.kept ((inOrder.keepingAtMost 9).scan none "12?+y".toList).1)[1]?.isSome
      = true := by cbv
  obtain ⟨⟨c, x⟩, hx⟩ := Option.isSome_iff_exists.mp hsecond
  have hcut := (scan_of_lower_limit inOrder none "12?+y".toList hcap hlt).2.2 c x hx
  exact ⟨hcap, hlt, _, _, _, c, x, rfl, rfl, rfl, hx, hcut, by cbv, by cbv, by cbv⟩

end Tokenizer

end PredictiveParsing
