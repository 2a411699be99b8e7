import Mathlib.Data.List.SplitBy
import PredictiveParsing.Proofs.Lexing.TokenLimit

/-!
# Two ways to go on behind unmatched text

Whether characters that belong to no category are reported one by one or together makes no
difference to the tokens and the counts. What is reported together are the stretches of such
characters that are as long as possible.
-/

namespace PredictiveParsing

open Position (inText offset_inText_le)

def Span.adjoins (a b : Span) : Bool := a.stop == b.start

namespace Diagnostic

/-- The report of a stretch of a text that belongs to no category. -/
def unmatched (text : List Char) (span : Span) : Diagnostic :=
  let stretch := span.slice text
  let what := if stretch.length = 1 then "character" else "input"
  let quoted := String.ofList (Quoted.encode stretch)
  .lexical Code.unmatchedInput s!"Unexpected {what} {quoted}" span

def isUnmatched (d : Diagnostic) : Bool := d.code == Code.unmatchedInput

end Diagnostic

namespace Segment

def unmatchedSpans (segments : List Segment) : List Span :=
  (segments.filter (·.category.isNone)).map (·.span)

/-! ## What joining keeps -/

private theorem filterMap_token?_run {run : List Segment} (h : ∀ s ∈ run, s.category = none) :
    run.filterMap (·.token?) = [] :=
  List.filterMap_eq_nil_iff.mpr fun s hs => (token?_of_none (h s hs)).1

theorem filterMap_token?_joinUnmatched (segments : List Segment) :
    (joinUnmatched segments).filterMap (·.token?) = segments.filterMap (·.token?) := by
  induction segments using joinUnmatched_induction with
  | nil => rfl
  | last run _ h => exact (filterMap_token?_run h).symm
  | token s rest joined _ ih => rw [List.filterMap_cons, List.filterMap_cons, ih]
  | behind run s rest joined _ h _ ih =>
    rw [List.filterMap_append, filterMap_token?_run h]
    exact ih

private theorem countP_isKept_joinUnmatched (segments : List Segment) :
    (joinUnmatched segments).countP (·.isKept) = segments.countP (·.isKept) := by
  rw [← length_kept, ← length_kept, kept, kept, filterMap_token?_joinUnmatched]

private theorem byteCount_flatMap (run : List Segment) :
    byteCount (run.flatMap (·.text)) = (run.map fun s => byteCount s.text).sum := by
  induction run with
  | nil => rfl
  | cons s run ih =>
    rw [List.flatMap_cons, byteCount_append, ih, List.map_cons, List.sum_cons]

private theorem group?_eq_none {s : Segment} :
    s.group? = none ↔ s.category = none := Option.map_eq_none_iff

private theorem sum_unmatched_joinUnmatched (segments : List Segment) :
    (((joinUnmatched segments).filter (·.group? = none)).map fun s => byteCount s.text).sum
      = ((segments.filter (·.group? = none)).map fun s => byteCount s.text).sum := by
  have hfilter {run : List Segment} (h : ∀ s ∈ run, s.category = none) :
      run.filter (·.group? = none) = run :=
    List.filter_eq_self.mpr fun s hs => by simpa using group?_eq_none.mpr (h s hs)
  have hmerged (run : List Segment) : (merged run).group? = none := rfl
  induction segments using joinUnmatched_induction with
  | nil => rfl
  | last run _ h =>
    rw [hfilter h, List.filter_singleton, hmerged]
    simp [merged, byteCount_flatMap]
  | token s rest joined hs ih =>
    have hs : s.group? ≠ none := fun h => hs (group?_eq_none.mp h)
    simpa [hs] using ih
  | behind run s rest joined _ h _ ih =>
    rw [List.filter_append, hfilter h, List.map_append, List.sum_append, ← ih,
      List.filter_cons_of_pos (by simp [hmerged]), List.map_cons, List.sum_cons, merged,
      byteCount_flatMap]

private theorem limit_joinUnmatched (segments : List Segment) (cap : Nat) :
    limit cap (joinUnmatched segments)
      = (joinUnmatched (limit cap segments).1, (limit cap segments).2) := by
  have hcount := countP_isKept_joinUnmatched segments
  by_cases hall : segments.countP (·.isKept) ≤ cap
  · rw [limit_eq_self hall, limit_eq_self (hcount ▸ hall)]
  · obtain ⟨front, s, back, rfl, hs, hfront⟩ := exists_beyond_of_lt (Nat.lt_of_not_le hall)
    have hsome : s.category ≠ none := by
      obtain ⟨c, hc, -⟩ := exists_kept_cons hs
      rw [hc]
      exact Option.some_ne_none c
    rw [limit_of_beyond hfront hs, joinUnmatched_append_cons hsome,
      limit_of_beyond ((countP_isKept_joinUnmatched front).trans hfront) hs]

/-! ## Spans of stretches without a category -/

variable {candidates : Char → List Category} {text : List Char} {i j : Nat}
  {segments : List Segment}

private theorem unmatchedSpans_run {run : List Segment} (h : ∀ s ∈ run, s.category = none) :
    unmatchedSpans run = run.map (·.span) := by
  rw [unmatchedSpans, List.filter_eq_self.mpr fun s hs => Option.isNone_iff_eq_none.mpr (h s hs)]

private theorem unmatchedSpans_append (xs ys : List Segment) :
    unmatchedSpans (xs ++ ys) = unmatchedSpans xs ++ unmatchedSpans ys := by
  simp [unmatchedSpans]

private theorem unmatchedSpans_cons {s : Segment} (hs : s.category ≠ none)
    (segments : List Segment) : unmatchedSpans (s :: segments) = unmatchedSpans segments := by
  simp [unmatchedSpans, hs]

private theorem Tile.isChain_span (h : Tile candidates text i segments j) :
    (segments.map (·.span)).IsChain fun a b => a.adjoins b = true := by
  induction segments generalizing i with
  | nil => exact .nil
  | cons s segments ih =>
    refine List.isChain_cons.mpr ⟨fun b hb => ?_, ih h.2⟩
    cases segments with
    | nil => cases hb
    | cons x segments =>
      obtain rfl := Option.some.inj hb
      simp [Span.adjoins, h.1.span, h.2.1.span]

private theorem Tile.stop_of_mem_getLast? (h : Tile candidates text i segments j) :
    ∀ a ∈ (segments.map (·.span)).getLast?, a.stop = inText text j := by
  intro a ha
  rw [List.getLast?_map, Option.mem_def, Option.map_eq_some_iff] at ha
  obtain ⟨s, hs, rfl⟩ := ha
  obtain ⟨front, rfl⟩ := List.getLast?_eq_some_iff.mp hs
  obtain ⟨k, -, hk, rfl⟩ := tile_append.mp h
  rw [hk.span]

/-- What is reported together are the longest stretches of what is reported one by one. -/
theorem unmatchedSpans_joinUnmatched (h : Tile candidates text i segments j) :
    unmatchedSpans (joinUnmatched segments)
      = ((unmatchedSpans segments).splitBy Span.adjoins).map Span.around := by
  induction segments using joinUnmatched_induction generalizing i with
  | nil => rfl
  | last run hne hrun =>
    rw [unmatchedSpans_run hrun, List.splitBy_of_isChain (by simpa using hne) h.isChain_span]
    rfl
  | token s rest joined hs ih =>
    rw [unmatchedSpans_cons hs, unmatchedSpans_cons hs, ih h.2]
  | behind run s rest joined hne hrun hs ih =>
    obtain ⟨k, hk, hrest⟩ := tile_append.mp h
    have hapart : ∀ a ∈ (unmatchedSpans run).getLast?, ∀ b ∈ (unmatchedSpans (s :: rest)).head?,
        a.adjoins b = false := by
      intro a ha b hb
      rw [unmatchedSpans_run hrun] at ha
      rw [unmatchedSpans_cons hs] at hb
      obtain ⟨x, hx, rfl⟩ := List.mem_map.mp (List.mem_of_mem_head? hb)
      have hbehind := (hrest.2.offset_le (List.mem_filter.mp hx).1).1
      have hone : Tile candidates text k [s] (k + s.text.length) := ⟨hrest.1, rfl⟩
      have hlt := hone.offset_lt List.mem_cons_self
      have hne : a.stop ≠ x.span.start := by
        intro heq
        rw [← heq, hk.stop_of_mem_getLast? a ha] at hbehind
        rw [hrest.1.span] at hlt
        exact absurd hlt (Nat.not_lt_of_le hbehind)
      simpa [Span.adjoins] using hne
    rw [unmatchedSpans_append, List.splitBy_append hapart, List.map_append, ← ih hrest,
      unmatchedSpans_run hrun, List.splitBy_of_isChain (by simpa using hne) hk.isChain_span]
    rfl

/-! ## Reports -/

private theorem StandsAt.diagnostic?_eq {s : Segment} (h : s.StandsAt candidates text i) :
    s.diagnostic? = if s.category.isNone then some (.unmatched text s.span) else none := by
  cases hs : s.category with
  | some c => simp [diagnostic?, hs]
  | none =>
    simp only [diagnostic?, unmatchedReport, hs, Diagnostic.unmatched, h.slice_eq,
      Option.isNone_none, if_true]

private theorem Tile.filterMap_diagnostic? (h : Tile candidates text i segments j) :
    segments.filterMap (·.diagnostic?) = (unmatchedSpans segments).map (.unmatched text) := by
  rw [unmatchedSpans, List.map_map, ← List.filterMap_eq_map, List.filterMap_filter]
  refine List.filterMap_congr fun s hs => ?_
  obtain ⟨k, hk⟩ := exists_of_mem_tile h hs
  exact hk.diagnostic?_eq

end Segment

open Segment

namespace Tokenization

variable {candidates : Char → List Category} {text : List Char} {segments : List Segment}
  {stop : Nat}

private theorem ofSegments_joinUnmatched (h : Tile candidates text 0 segments stop)
    (beyond : Option Segment) (limit size : Nat) (usedDispatch : Bool) :
    let o := ofSegments segments beyond limit size usedDispatch
    let o' := ofSegments (joinUnmatched segments) beyond limit size usedDispatch
    o'.tokens = o.tokens ∧ o'.groups = o.groups
      ∧ { o'.counts with suppressed := o.counts.suppressed } = o.counts := by
  have hbytes := sum_unmatched_joinUnmatched segments
  rw [← h.unmatchedBytes, ← h.joinUnmatched.unmatchedBytes] at hbytes
  simp only [ofSegments, filterMap_token?_joinUnmatched, h.endOf_eq, h.joinUnmatched.endOf_eq,
    hbytes, and_self]

private theorem filter_isUnmatched (segments : List Segment) (excess : Option Diagnostic)
    (hexcess : ∀ d ∈ excess, d.code = Code.tooManyTokens) :
    (segments.filterMap (·.diagnostic?) ++ excess.toList).filter (·.isUnmatched)
        = segments.filterMap (·.diagnostic?)
      ∧ (segments.filterMap (·.diagnostic?) ++ excess.toList).filter (!·.isUnmatched)
        = excess.toList := by
  have hin : ∀ d ∈ segments.filterMap (·.diagnostic?), d.isUnmatched = true := by
    intro d hd
    obtain ⟨s, -, hs⟩ := List.mem_filterMap.mp hd
    rw [Diagnostic.isUnmatched, (diagnostic?_eq_some hs).2.1]
    rfl
  have hout : ∀ d ∈ excess.toList, d.isUnmatched = false := by
    intro d hd
    rw [Diagnostic.isUnmatched, hexcess d (Option.mem_toList.mp hd)]
    rfl
  rw [List.filter_append, List.filter_append, List.filter_eq_self.mpr hin,
    List.filter_eq_nil_iff.mpr (by simpa using hout), List.append_nil,
    List.filter_eq_nil_iff.mpr (by simpa using hin), List.nil_append,
    List.filter_eq_self.mpr (by simpa using hout)]
  exact ⟨rfl, rfl⟩

private theorem diagnostics_joinUnmatched (h : Tile candidates text 0 segments stop)
    (beyond : Option Segment) (limit size : Nat) (usedDispatch : Bool) :
    let o := ofSegments segments beyond limit size usedDispatch
    let o' := ofSegments (joinUnmatched segments) beyond limit size usedDispatch
    o.counts.suppressed = 0 → o'.counts.suppressed = 0 →
      o'.diagnostics.filter (·.isUnmatched)
          = (((o.diagnostics.filter (·.isUnmatched)).map (·.span)).splitBy Span.adjoins).map
            (fun run => .unmatched text (.around run))
        ∧ o'.diagnostics.filter (!·.isUnmatched) = o.diagnostics.filter (!·.isUnmatched) := by
  intro o o' hall hall'
  have hcodes : ∀ d ∈ beyond.map (overLimit limit size), d.code = Code.tooManyTokens := by
    intro d hd
    obtain ⟨s, -, rfl⟩ := Option.map_eq_some_iff.mp hd
    rfl
  obtain ⟨hunmatched, hothers⟩ := filter_isUnmatched segments _ hcodes
  obtain ⟨hunmatched', hothers'⟩ := filter_isUnmatched (joinUnmatched segments) _ hcodes
  have hspans : ((unmatchedSpans segments).map (.unmatched text)).map (fun d : Diagnostic => d.span)
      = unmatchedSpans segments := (List.map_map ..).trans (List.map_id _)
  rw [(describes_ofSegments h _ _ _ _).diagnostics_eq hall,
    (describes_ofSegments h.joinUnmatched _ _ _ _).diagnostics_eq hall', hunmatched, hunmatched',
    hothers, hothers', h.filterMap_diagnostic?, h.joinUnmatched.filterMap_diagnostic?,
    unmatchedSpans_joinUnmatched h, hspans, List.map_map]
  exact ⟨rfl, rfl⟩

end Tokenization

namespace Tokenizer

/-- The tokenizer with another way to go on behind text that belongs to no category. -/
def recoveringBy (t : Tokenizer) (recovery : LexicalRecovery) : Tokenizer :=
  { t with preferences := { t.preferences with recovery := recovery } }

/-- Whether unmatched characters are reported one by one or together, a tokenizer finds the same
tokens and counts the same. If no report is left out, what is reported together are the longest
stretches of what is reported one by one, and all else is reported alike. -/
theorem scan_recoveringBy (t : Tokenizer) (dispatch : Option DispatchTable) (text : List Char) :
    let single := ((t.recoveringBy .singleChar).scan dispatch text).2
    let joined := ((t.recoveringBy .skipToNextMatch).scan dispatch text).2
    joined.tokens = single.tokens ∧ joined.groups = single.groups
      ∧ { joined.counts with suppressed := single.counts.suppressed } = single.counts
      ∧ (single.counts.suppressed = 0 → joined.counts.suppressed = 0 →
        joined.diagnostics.filter (·.isUnmatched)
            = (((single.diagnostics.filter (·.isUnmatched)).map (·.span)).splitBy
              Span.adjoins).map (fun run => .unmatched text (.around run))
          ∧ joined.diagnostics.filter (!·.isUnmatched)
            = single.diagnostics.filter (!·.isUnmatched)) := by
  intro single joined
  let pieces := Segment.cut (t.candidatesOf dispatch) text
  obtain ⟨stop, htile, -, -⟩ := (tile_cut (t.candidatesOf dispatch) text).limit
    t.preferences.tokenLimit
  have hsingle : (t.recoveringBy .singleChar).scan dispatch text = _ :=
    scan_of_limit rfl (Prod.mk.eta (p := Segment.limit t.preferences.tokenLimit pieces)).symm
  have hjoined : (t.recoveringBy .skipToNextMatch).scan dispatch text = _ :=
    scan_of_limit rfl (limit_joinUnmatched pieces t.preferences.tokenLimit)
  simp only [single, joined, hsingle, hjoined]
  obtain ⟨htokens, hgroups, hcounts⟩ := Tokenization.ofSegments_joinUnmatched htile
    (Segment.limit t.preferences.tokenLimit pieces).2 t.preferences.tokenLimit (byteCount text)
    dispatch.isSome
  exact ⟨htokens, hgroups, hcounts, Tokenization.diagnostics_joinUnmatched htile _ _ _ _⟩

set_option maxRecDepth 4000 in
/-- A character that belongs to no category stands alone, and two others stand side by side. -/
theorem scan_recoveringBy_inOrder : ∃ single joined,
    ((inOrder.recoveringBy .singleChar).scan none "?1é?+".toList).2 = single
      ∧ ((inOrder.recoveringBy .skipToNextMatch).scan none "?1é?+".toList).2 = joined
      ∧ single.counts.suppressed = 0 ∧ joined.counts.suppressed = 0
      ∧ joined.diagnostics.filter (·.isUnmatched)
        = (((single.diagnostics.filter (·.isUnmatched)).map (·.span)).splitBy
          Span.adjoins).map (fun run => .unmatched "?1é?+".toList (.around run))
      ∧ (single.diagnostics.map (·.recovery), joined.diagnostics.map (·.recovery))
        = ([.skippedInput 1, .skippedInput 2, .skippedInput 1],
          [.skippedInput 1, .skippedInput 3]) := by
  obtain ⟨-, -, -, hreports⟩ := scan_recoveringBy inOrder none "?1é?+".toList
  have hsingle : ((inOrder.recoveringBy .singleChar).scan none
      "?1é?+".toList).2.counts.suppressed = 0 := by cbv
  have hjoined : ((inOrder.recoveringBy .skipToNextMatch).scan none
      "?1é?+".toList).2.counts.suppressed = 0 := by cbv
  exact ⟨_, _, rfl, rfl, hsingle, hjoined, (hreports hsingle hjoined).1, by cbv⟩

end Tokenizer

end PredictiveParsing
