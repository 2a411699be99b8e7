import Mathlib.Algebra.GroupWithZero.Nat
import PredictiveParsing.Proofs.Lexing.Scanning
import PredictiveParsing.Proofs.Lexing.Tiling
import PredictiveParsing.Proofs.Text.Dictionary

/-!
# What a tokenization says of a text

Tokenizing cuts a text into segments that tile it, up to its end or to the first token that is one
too many. The tokens, the groups, the reports and the counts are those of the segments, with all
positions as they are counted in the whole text.
-/

namespace PredictiveParsing

open Position (inText)

namespace Segment

def group? (s : Segment) : Option Group := s.category.map (·.group)

def tokensIn (g : Group) (segments : List Segment) : List Token :=
  (segments.filter fun s => s.group? = some g).filterMap fun s => s.token?.map Prod.snd

/-- Whether the segment is a token of a group that has a name. -/
def isNamed (s : Segment) : Bool :=
  match s.group? with
  | some (.named _) => true
  | _ => false

end Segment

/-- The token is a stretch of the text, with its positions in the text. -/
def Token.StandsIn (text : List Char) (t : Token) : Prop :=
  (∃ i j, i ≤ j ∧ j ≤ text.length ∧ t.span = ⟨inText text i, inText text j⟩)
    ∧ t.image.toList = t.span.slice text

/-- The first token ends where the second begins, or in front of it. -/
def Token.Before (x y : Token) : Prop := x.span.stop.offset ≤ y.span.start.offset

/-- A tokenization says what each of the segments of a text is, up to the character with index
`stop`, and may report at the end why it stops there. -/
structure Tokenization.Describes (o : Tokenization) (text : List Char) (segments : List Segment)
    (stop : Nat) (excess : Option Diagnostic) : Prop where
  tokens : o.tokens = Segment.tokensIn .normal segments ++ [.eof (inText text stop)]
  groups (name : String) : o.groups.get? name =
    if Segment.tokensIn (.named name) segments = [] then none
    else some (Segment.tokensIn (.named name) segments)
  standsIn : ∀ t ∈ o.tokens, t.StandsIn text
  standsIn_groups (name : String) : ∀ ts ∈ o.groups.get? name, ∀ t ∈ ts, t.StandsIn text
  ordered : o.tokens.Pairwise Token.Before
  ordered_groups (name : String) : ∀ ts ∈ o.groups.get? name, ts.Pairwise Token.Before
  diagnostics : o.diagnostics =
    (segments.filterMap (·.diagnostic?) ++ excess.toList).take Limits.maxLexicalDiagnostics
  suppressed : o.counts.suppressed =
    (segments.filterMap (·.diagnostic?) ++ excess.toList).length - Limits.maxLexicalDiagnostics
  unmatched : (segments.filterMap (·.diagnostic?)).map (fun d => (d.code, d.span)) =
    (segments.filter (·.group? = none)).map fun s => (Code.unmatchedInput, s.span)
  total : o.counts.total = segments.countP (·.group?.isSome)
  skipped : o.counts.skipped = segments.countP (·.group? = some .skipped)
  grouped : o.counts.grouped = segments.countP (·.isNamed)
  unmatchedBytes : o.counts.unmatchedBytes =
    ((segments.filter (·.group? = none)).map fun s => byteCount s.text).sum

namespace Segment

variable {candidates : Char → List Category} {text : List Char} {i j : Nat}
  {segments : List Segment}

/-! ## Tokens -/

theorem mem_tokensIn {g : Group} {t : Token} : t ∈ tokensIn g segments ↔
    ∃ s ∈ segments, ∃ c, s.category = some c ∧ c.group = g
      ∧ t = ⟨c.id, String.ofList s.text, s.span, false⟩ := by
  simp only [tokensIn, List.mem_filterMap, List.mem_filter, group?, token?, decide_eq_true_eq,
    Option.map_eq_some_iff]
  constructor
  · rintro ⟨s, ⟨hs, c, hc, hg⟩, _, ⟨c', hc', rfl⟩, rfl⟩
    obtain rfl := Option.some.inj (hc.symm.trans hc')
    exact ⟨s, hs, c, hc, hg, rfl⟩
  · rintro ⟨s, hs, c, hc, hg, rfl⟩
    exact ⟨s, ⟨hs, c, hc, hg⟩, _, ⟨c, hc, rfl⟩, rfl⟩

theorem Tile.standsIn (h : Tile candidates text i segments j) {g : Group} :
    ∀ t ∈ tokensIn g segments, t.StandsIn text := by
  intro t ht
  obtain ⟨s, hs, c, -, -, rfl⟩ := mem_tokensIn.mp ht
  obtain ⟨k, hk⟩ := exists_of_mem_tile h hs
  refine ⟨⟨k, k + s.text.length, Nat.le_add_right _ _, hk.add_length_le, hk.span⟩, ?_⟩
  rw [String.toList_ofList, hk.slice_eq]

theorem Tile.offset_le (h : Tile candidates text i segments j) {s : Segment} (hs : s ∈ segments) :
    (inText text i).offset ≤ s.span.start.offset
      ∧ s.span.stop.offset ≤ (inText text j).offset := by
  induction segments generalizing i with
  | nil => cases hs
  | cons x segments ih =>
    have hx : (inText text i).offset ≤ (inText text (i + x.text.length)).offset :=
      Position.offset_inText_le text (Nat.le_add_right _ _)
    rcases List.mem_cons.mp hs with rfl | hs
    · rw [h.1.span]
      have hj : i + s.text.length ≤ j := by
        have := h.2.flatMap_text.2
        omega
      exact ⟨Nat.le_refl _, Position.offset_inText_le text hj⟩
    · obtain ⟨hstart, hstop⟩ := ih h.2 hs
      exact ⟨hx.trans hstart, hstop⟩

/-- Segments side by side are in the order of the text. -/
theorem Tile.pairwise (h : Tile candidates text i segments j) :
    segments.Pairwise fun x y => x.span.stop.offset ≤ y.span.start.offset := by
  induction segments generalizing i with
  | nil => exact .nil
  | cons x segments ih =>
    refine List.pairwise_cons.mpr ⟨fun y hy => ?_, ih h.2⟩
    rw [h.1.span]
    exact (h.2.offset_le hy).1

theorem Tile.pairwise_tokensIn (h : Tile candidates text i segments j) (g : Group) :
    (tokensIn g segments).Pairwise Token.Before := by
  refine List.Pairwise.filterMap _ ?_ (h.pairwise.filter _)
  rintro x y hxy t ht u hu
  obtain ⟨_, hx, rfl⟩ := Option.map_eq_some_iff.mp ht
  obtain ⟨_, hy, rfl⟩ := Option.map_eq_some_iff.mp hu
  obtain ⟨c, -, rfl⟩ := Option.map_eq_some_iff.mp hx
  obtain ⟨d, -, rfl⟩ := Option.map_eq_some_iff.mp hy
  exact hxy

private theorem Tile.pairwise_withEnd (h : Tile candidates text i segments j) :
    (tokensIn .normal segments ++ [Token.eof (inText text j)]).Pairwise Token.Before := by
  refine List.pairwise_append.mpr
    ⟨h.pairwise_tokensIn .normal, List.pairwise_singleton _ _, fun t ht u hu => ?_⟩
  obtain rfl := List.mem_singleton.mp hu
  obtain ⟨s, hs, c, -, -, rfl⟩ := mem_tokensIn.mp ht
  exact (h.offset_le hs).2

private theorem standsIn_eof (hj : j ≤ text.length) :
    (Token.eof (inText text j)).StandsIn text := by
  refine ⟨⟨j, j, Nat.le_refl _, hj, rfl⟩, ?_⟩
  exact (slice_inText (u := []) (List.nil_append (text.drop j)).symm).symm

/-- The position where the segments of a text end. -/
theorem Tile.endOf_eq (h : Tile candidates text 0 segments j) :
    Tokenization.endOf segments = inText text j := by
  rw [Tokenization.endOf]
  cases hlast : segments.getLast? with
  | none =>
    obtain rfl := List.getLast?_eq_none_iff.mp hlast
    obtain rfl : 0 = j := h
    rfl
  | some s =>
    obtain ⟨front, rfl⟩ := List.getLast?_eq_some_iff.mp hlast
    obtain ⟨k, -, hk, rfl⟩ := tile_append.mp h
    rw [Option.map_some, Option.getD_some, hk.span]

/-! ## Groups -/

theorem token?_of_none {s : Segment} (h : s.category = none) :
    s.token? = none ∧ s.group? = none := by
  simp [token?, group?, h]

theorem token?_of_some {s : Segment} {c : Category} (h : s.category = some c) :
    s.token? = some (c, ⟨c.id, String.ofList s.text, s.span, false⟩)
      ∧ s.group? = some c.group := by
  simp [token?, token, group?, h]

theorem tokensIn_eq (g : Group) (segments : List Segment) :
    (segments.filterMap (·.token?)).filterMap
      (fun (c, t) => if c.group = g then some t else none) = tokensIn g segments := by
  rw [tokensIn, List.filterMap_filterMap, ← List.filterMap_eq_filter, List.filterMap_filterMap]
  refine List.filterMap_congr fun s _ => ?_
  cases hs : s.category with
  | none =>
    obtain ⟨htoken, hgroup⟩ := token?_of_none hs
    simp [htoken, hgroup, Option.guard]
  | some c =>
    obtain ⟨htoken, hgroup⟩ := token?_of_some hs
    by_cases hg : c.group = g
    · simp [htoken, hgroup, hg, Option.guard]
    · simp [htoken, hgroup, hg, Option.guard]

/-- Puts the tokens in front of those that are there already, the last one first. -/
private def fileAll (ts : List Token) (others : Option (List Token)) : Option (List Token) :=
  if ts = [] then others else some (ts.reverse ++ others.getD [])

private theorem fileAll_cons (t : Token) (ts : List Token) (others : Option (List Token)) :
    fileAll (t :: ts) others = fileAll ts (some (t :: others.getD [])) := by
  by_cases h : ts = []
  · simp [fileAll, h]
  · simp [fileAll, h]

private theorem get?_foldl_file {d : Dictionary (List Token)} (h : d.Ascending)
    (tokens : List (Category × Token)) (name : String) :
    (tokens.foldl Tokenization.file d).get? name =
      fileAll (tokens.filterMap fun (c, t) => if c.group = .named name then some t else none)
        (d.get? name) := by
  induction tokens generalizing d with
  | nil => rfl
  | cons x tokens ih =>
    obtain ⟨c, t⟩ := x
    rw [List.foldl_cons, List.filterMap_cons]
    cases hg : c.group with
    | normal => simpa [Tokenization.file, hg] using ih h
    | skipped => simpa [Tokenization.file, hg] using ih h
    | named other =>
      have hfile : Tokenization.file d (c, t) =
          d.alter other fun others => t :: others.getD [] := by
        simp only [Tokenization.file, hg]
      rw [hfile, ih (h.alter other _), Dictionary.get?_alter h]
      by_cases hname : name = other
      · subst hname
        simp only [if_true, hg, fileAll_cons]
      · simp [hg, hname, Ne.symm hname]

private theorem get?_groupsOf (segments : List Segment) (name : String) :
    (Tokenization.groupsOf (segments.filterMap (·.token?))).get? name =
      if tokensIn (.named name) segments = [] then none
      else some (tokensIn (.named name) segments) := by
  have hascending : Dictionary.Ascending ([] : Dictionary (List Token)) := .nil
  have hfile : Tokenization.groupsOf (segments.filterMap (·.token?))
      = ((segments.filterMap (·.token?)).foldl Tokenization.file []).map
        fun entry => (entry.1, entry.2.reverse) := rfl
  rw [hfile, Dictionary.get?_map, get?_foldl_file hascending, tokensIn_eq, fileAll]
  split
  · rfl
  · simp [Dictionary.get?]

/-! ## Reports and counts -/

theorem map_diagnostic? (s : Segment) :
    s.diagnostic?.map (fun d => (d.code, d.span)) =
      if s.group? = none then some (Code.unmatchedInput, s.span) else none := by
  cases hs : s.category with
  | none => simp [diagnostic?, unmatchedReport, group?, hs, Diagnostic.lexical]
  | some c => simp [diagnostic?, group?, hs]

private theorem map_filterMap_diagnostic? (segments : List Segment) :
    (segments.filterMap (·.diagnostic?)).map (fun d => (d.code, d.span)) =
      (segments.filter (·.group? = none)).map fun s => (Code.unmatchedInput, s.span) := by
  rw [List.map_filterMap, ← List.filterMap_eq_filter, List.map_filterMap]
  refine List.filterMap_congr fun s _ => ?_
  rw [map_diagnostic?]
  by_cases hs : s.group? = none
  · simp [hs, Option.guard]
  · simp [hs, Option.guard]

/-- A count of tokens is a count of segments. -/
theorem length_filter_token? (p : Group → Bool) (segments : List Segment) :
    ((segments.filterMap (·.token?)).filter fun (c, _) => p c.group).length =
      segments.countP fun s => s.group?.any p := by
  induction segments with
  | nil => rfl
  | cons s segments ih =>
    rw [List.filterMap_cons, List.countP_cons, ← ih]
    cases hs : s.category with
    | none =>
      obtain ⟨htoken, hgroup⟩ := token?_of_none hs
      simp [htoken, hgroup]
    | some c =>
      obtain ⟨htoken, hgroup⟩ := token?_of_some hs
      by_cases hp : p c.group = true
      · simp [htoken, hgroup, hp]
      · simp [htoken, hgroup, hp]

theorem StandsAt.length_span {s : Segment} (h : s.StandsAt candidates text i) :
    s.span.length = byteCount s.text := by
  obtain ⟨v, hv⟩ := h.isPrefix
  have htake : text.take (i + s.text.length) = text.take i ++ s.text := by
    rw [List.take_add, ← hv, List.take_left]
  rw [Span.length, h.span, Position.offset_inText, Position.offset_inText, htake,
    byteCount_append, Nat.add_sub_cancel_left]

private theorem foldl_length_span {segments : List Segment}
    (h : ∀ s ∈ segments, s.span.length = byteCount s.text) (n : Nat) :
    segments.foldl (fun n s => n + s.span.length) n
      = n + (segments.map fun s => byteCount s.text).sum := by
  induction segments generalizing n with
  | nil => rfl
  | cons s segments ih =>
    rw [List.forall_mem_cons] at h
    rw [List.foldl_cons, ih h.2, h.1, List.map_cons, List.sum_cons, Nat.add_assoc]

theorem Tile.unmatchedBytes (h : Tile candidates text i segments j) :
    (segments.filter (·.category.isNone)).foldl (fun n s => n + s.span.length) 0 =
      ((segments.filter (·.group? = none)).map fun s => byteCount s.text).sum := by
  have hfilter : segments.filter (·.category.isNone) = segments.filter (·.group? = none) :=
    List.filter_congr fun s _ => by cases hs : s.category <;> simp [group?, hs]
  rw [hfilter, foldl_length_span (fun s hs => ?_), Nat.zero_add]
  obtain ⟨k, hk⟩ := exists_of_mem_tile h (List.mem_filter.mp hs).1
  exact hk.length_span

end Segment

open Segment

/-- What segments that tile a text amount to. -/
theorem Tokenization.describes_ofSegments {candidates : Char → List Category} {text : List Char}
    {segments : List Segment} {stop : Nat} (h : Tile candidates text 0 segments stop)
    (beyond : Option Segment) (limit size : Nat) (usedDispatch : Bool) :
    (ofSegments segments beyond limit size usedDispatch).Describes text segments stop
      (beyond.map (overLimit limit size)) := by
  have hstop : stop ≤ text.length := h.le_length (Nat.zero_le _)
  have htokens : (ofSegments segments beyond limit size usedDispatch).tokens
      = tokensIn .normal segments ++ [Token.eof (inText text stop)] := by
    rw [← h.endOf_eq, ← tokensIn_eq]
    rfl
  have hgroups : ∀ name, ∀ ts ∈ (ofSegments segments beyond limit size usedDispatch).groups.get?
      name, ts = tokensIn (.named name) segments := by
    intro name ts hts
    have hts := (get?_groupsOf segments name).symm.trans hts
    split at hts
    · cases hts
    · exact (Option.some.inj hts).symm
  refine ⟨htokens, get?_groupsOf segments, ?_, ?_, ?_, ?_, rfl, rfl, map_filterMap_diagnostic? _,
    ?_, ?_, ?_, h.unmatchedBytes⟩
  · rw [htokens]
    exact List.forall_mem_append.mpr
      ⟨h.standsIn, List.forall_mem_singleton.mpr (standsIn_eof hstop)⟩
  · exact fun name ts hts => hgroups name ts hts ▸ h.standsIn
  · rw [htokens]
    exact h.pairwise_withEnd
  · exact fun name ts hts => hgroups name ts hts ▸ h.pairwise_tokensIn _
  · have hcount := length_filter_token? (fun _ => true) segments
    rw [List.filter_true] at hcount
    exact hcount.trans (List.countP_congr fun s _ => by cases s.group? <;> simp)
  · refine (length_filter_token? (· == .skipped) segments).trans
      (List.countP_congr fun s _ => ?_)
    cases s.group? <;> simp
  · refine (length_filter_token? (fun g => g != .skipped && g != .normal) segments).trans
      (List.countP_congr fun s _ => ?_)
    rw [isNamed]
    rcases s.group? with _ | _ | _ | _ <;> simp

namespace Tokenizer

/-- The candidates with which a text is cut. -/
abbrev candidatesOf (t : Tokenizer) (dispatch : Option DispatchTable) : Char → List Category :=
  candidates t.model t.model.concrete dispatch

theorem tile_segments (t : Tokenizer) (dispatch : Option DispatchTable) (text : List Char) :
    Tile (t.candidatesOf dispatch) text 0 (t.segments dispatch text) text.length := by
  have hcut := tile_cut (t.candidatesOf dispatch) text
  rw [segments]
  cases t.preferences.recovery with
  | singleChar => exact hcut
  | skipToNextMatch => exact hcut.joinUnmatched

/-- A scan says what the segments are that it gives, up to the token that is one too many. -/
theorem describes_scan (t : Tokenizer) (dispatch : Option DispatchTable) (text : List Char) :
    ∃ stop beyond,
      Tile (t.candidatesOf dispatch) text 0 (t.scan dispatch text).1 stop
        ∧ (t.scan dispatch text).2.Describes text (t.scan dispatch text).1 stop
          (beyond.map (Tokenization.overLimit t.preferences.tokenLimit (byteCount text)))
        ∧ (beyond = none → stop = text.length)
        ∧ ∀ s ∈ beyond, s.isKept = true ∧ s.StandsAt (t.candidatesOf dispatch) text stop
          ∧ (t.scan dispatch text).1.countP (·.isKept) = t.preferences.tokenLimit := by
  obtain ⟨stop, htile, hnone, hsome⟩ := (t.tile_segments dispatch text).limit
    t.preferences.tokenLimit
  rw [scan_eq]
  exact ⟨stop, _, htile, Tokenization.describes_ofSegments htile _ _ _ _, hnone, hsome⟩

/-- With any model, table and preferences, tokenizing cuts a text into segments that tile it and
says what they are. They end with the text, or in front of the token that is one too many. -/
theorem scan_tiles (t : Tokenizer) (dispatch : Option DispatchTable) (text : List Char) :
    ∃ stop excess,
      Tile (t.candidatesOf dispatch) text 0 (t.scan dispatch text).1 stop
        ∧ (t.scan dispatch text).2.Describes text (t.scan dispatch text).1 stop excess
        ∧ (excess = none → stop = text.length)
        ∧ (∀ d ∈ excess, d.code = Code.tooManyTokens
          ∧ (t.scan dispatch text).1.countP (·.isKept) = t.preferences.tokenLimit
          ∧ ∃ behind, stop < behind ∧ behind ≤ text.length
            ∧ d.span = ⟨inText text stop, inText text behind⟩)
        ∧ ∀ i, (inText text i).line ≤ text.length + 1
          ∧ (inText text i).column ≤ text.length + 1 := by
  obtain ⟨stop, beyond, htile, hdescribes, hnone, hsome⟩ := t.describes_scan dispatch text
  refine ⟨stop, _, htile, hdescribes, fun h => ?_, fun d hd => ?_, Position.inText_le text⟩
  · exact hnone (Option.map_eq_none_iff.mp h)
  · obtain ⟨s, hs, rfl⟩ := Option.map_eq_some_iff.mp hd
    obtain ⟨-, hstands, hcount⟩ := hsome s hs
    have hpos := List.length_pos_iff.mpr hstands.nonempty
    exact ⟨rfl, hcount, _, Nat.lt_add_of_pos_right hpos, hstands.add_length_le, hstands.span⟩

end Tokenizer

end PredictiveParsing
