import PredictiveParsing.Proofs.Lexing.Segments

/-!
# Scanning

The loop of a scan goes through the segments of the text in order. Where unmatched text is reported
together, the loop that skips such text ends where the loop around it, left to itself, would find
the next match, so both go through the same places.
-/

namespace PredictiveParsing

namespace Segment

variable {candidates : Char → List Category}

/-! ## The places of a scan -/

/-- The segments that the loop of a scan goes through when nothing limits it. -/
def walk (mode : LexicalRecovery) (candidates : Char → List Category) :
    (fuel : Nat) → Position → List Char → List Segment
  | _, _, [] => []
  | 0, _, _ :: _ => []
  | fuel + 1, p, c :: cs =>
    match matched? (candidates c) p (c :: cs) with
    | none =>
      let (s, rest) := Tokenizer.recover mode candidates p c cs
      s :: walk mode candidates fuel s.span.stop rest
    | some (_, s, rest) => s :: walk mode candidates fuel s.span.stop rest

private theorem walk_singleChar (candidates : Char → List Category) (fuel : Nat) (p : Position)
    (cs : List Char) : walk .singleChar candidates fuel p cs = cutFrom candidates fuel p cs := by
  induction fuel generalizing p cs with
  | zero => cases cs <;> rfl
  | succ fuel ih =>
    cases cs with
    | nil => rfl
    | cons c cs =>
      rw [walk, cutFrom, next]
      cases matched? (candidates c) p (c :: cs) with
      | none => exact congrArg _ (ih _ _)
      | some m => exact congrArg _ (ih _ _)

/-- A text without a match at its start, if it is not empty, is cut behind its first character. -/
theorem cutFrom_of_unmatched {p : Position} {c : Char} {cs : List Char} (fuel : Nat)
    (h : matched? (candidates c) p (c :: cs) = none) :
    cutFrom candidates (fuel + 1) p (c :: cs) =
      ⟨none, [c], ⟨p, p.advance c cs.head?⟩⟩ ::
        cutFrom candidates fuel (p.advance c cs.head?) cs := by
  rw [cutFrom, next, h]

theorem cutFrom_of_matched {p : Position} {c : Char} {cs rest : List Char} {k : Category}
    {s : Segment} (fuel : Nat) (h : matched? (candidates c) p (c :: cs) = some (k, s, rest)) :
    cutFrom candidates (fuel + 1) p (c :: cs) = s :: cutFrom candidates fuel s.span.stop rest := by
  rw [cutFrom, next, h]

/-- The text is at its end, or something matches where it goes on. -/
def Resumes (candidates : Char → List Category) (p : Position) : List Char → Prop
  | [] => True
  | c :: cs => (matched? (candidates c) p (c :: cs)).isSome = true

/-- The loop that skips unmatched text goes through the characters that the cut has one by one. -/
theorem skipUnmatched_eq (passed : List Char) (p : Position) (cs : List Char) (fuel : Nat)
    (hfuel : cs.length ≤ fuel) :
    ∃ run stop rest, skipUnmatched candidates passed p cs =
        (passed.reverse ++ run.flatMap (·.text), stop, rest) ∧
      (∀ s ∈ run, s.category = none) ∧ stop = (run.getLast?.map (·.span.stop)).getD p ∧
      Resumes candidates stop rest ∧ rest <:+ cs ∧ ∃ fuel', rest.length ≤ fuel' ∧
        cutFrom candidates fuel p cs = run ++ cutFrom candidates fuel' stop rest := by
  induction cs generalizing passed p fuel with
  | nil =>
    exact ⟨[], p, [], by simp [skipUnmatched], nofun, rfl, trivial, List.suffix_rfl, fuel, hfuel,
      rfl⟩
  | cons c cs ih =>
    obtain ⟨fuel, rfl⟩ := Nat.exists_eq_add_of_le' (Nat.le_trans (Nat.le_add_left 1 _) hfuel)
    rw [skipUnmatched]
    split
    · rename_i found hsome
      exact ⟨[], p, c :: cs, by simp, nofun, rfl, Option.isSome_of_eq_some hsome,
        List.suffix_rfl, _, hfuel, rfl⟩
    · rename_i hnone
      obtain ⟨run, stop, rest, hskip, hrun, hstop, hresumes, hrest, fuel', hfuel', hcut⟩ :=
        ih (c :: passed) (p.advance c cs.head?) fuel (Nat.le_of_succ_le_succ hfuel)
      refine ⟨⟨none, [c], ⟨p, p.advance c cs.head?⟩⟩ :: run, stop, rest, ?_,
        List.forall_mem_cons.mpr ⟨rfl, hrun⟩, ?_, hresumes,
        hrest.trans (List.suffix_cons c cs), fuel', hfuel', ?_⟩
      · rw [hskip]
        simp
      · rw [hstop, List.getLast?_cons]
        cases run.getLast? <;> rfl
      · rw [cutFrom_of_unmatched fuel hnone, hcut, List.cons_append]

/-- Behind neighbours without a category, where something matches, joining goes on as if the text
began there. -/
theorem joinUnmatched_append {run back : List Segment} (hrun : ∀ s ∈ run, s.category = none)
    (hne : run ≠ []) (hback : ∀ s ∈ back.head?, s.category ≠ none) :
    joinUnmatched (run ++ back) = merged run :: joinUnmatched back := by
  cases back with
  | nil => rw [List.append_nil, joinUnmatched_run hrun hne]; rfl
  | cons s back =>
    have hs := hback s rfl
    rw [joinUnmatched_append_cons hs, joinUnmatched_run hrun hne]
    exact congrArg _ (joinUnmatched_append_cons hs [] back).symm

private theorem merged_cons (s : Segment) (run : List Segment) : merged (s :: run) =
    ⟨none, s.text ++ run.flatMap (·.text),
      ⟨s.span.start, (run.getLast?.map (·.span.stop)).getD s.span.stop⟩⟩ := by
  have hlast : (((s :: run).map Segment.span).getLastD .dummy).stop =
      (run.getLast?.map (·.span.stop)).getD s.span.stop := by
    rw [List.getLastD_eq_getLast?, List.getLast?_map, List.getLast?_cons]
    cases run.getLast? <;> rfl
  rw [merged, Span.around, hlast]
  rfl

private theorem head?_cutFrom {p : Position} {cs : List Char} {fuel : Nat}
    (h : Resumes candidates p cs) : ∀ s ∈ (cutFrom candidates fuel p cs).head?,
      s.category ≠ none := by
  intro s hs
  cases cs with
  | nil => cases fuel <;> cases hs
  | cons c cs =>
    cases fuel with
    | zero => cases hs
    | succ fuel =>
      obtain ⟨⟨k, s', rest⟩, hsome⟩ := Option.isSome_iff_exists.mp h
      rw [cutFrom_of_matched fuel hsome] at hs
      obtain rfl := Option.some.inj hs
      rw [(matched?_eq_some hsome).1]
      exact Option.some_ne_none k

/-- With a loop of its own, recovery goes through what lies between two matches in one step. -/
theorem walk_skipToNextMatch (candidates : Char → List Category) {fuel fuel' : Nat} (p : Position)
    {cs : List Char} (hfuel : cs.length ≤ fuel) (hfuel' : cs.length ≤ fuel') :
    walk .skipToNextMatch candidates fuel p cs = joinUnmatched (cutFrom candidates fuel' p cs) := by
  induction fuel generalizing p cs fuel' with
  | zero =>
    obtain rfl := List.length_eq_zero_iff.mp (Nat.le_zero.mp hfuel)
    cases fuel' <;> rfl
  | succ fuel ih =>
    cases cs with
    | nil => cases fuel' <;> rfl
    | cons c cs =>
      obtain ⟨fuel', rfl⟩ := Nat.exists_eq_add_of_le' (Nat.le_trans (Nat.le_add_left 1 _) hfuel')
      have hfuel := Nat.le_of_succ_le_succ hfuel
      have hfuel' := Nat.le_of_succ_le_succ hfuel'
      rw [walk]
      split
      · rename_i hnone
        obtain ⟨run, stop, rest, hskip, hrun, hstop, hresumes, hrest, more, hmore, hcut⟩ :=
          skipUnmatched_eq [c] (p.advance c cs.head?) cs fuel' hfuel'
        rw [cutFrom_of_unmatched fuel' hnone, hcut, ← List.cons_append,
          joinUnmatched_append (List.forall_mem_cons.mpr ⟨rfl, hrun⟩) (List.cons_ne_nil _ _)
            (head?_cutFrom hresumes), ← ih stop (Nat.le_trans hrest.length_le hfuel) hmore]
        have hrecover : Tokenizer.recover .skipToNextMatch candidates p c cs =
            (merged (⟨none, [c], ⟨p, p.advance c cs.head?⟩⟩ :: run), rest) := by
          rw [Tokenizer.recover]
          dsimp only
          rw [hskip, hstop, merged_cons]
          rfl
        have hend : (merged (⟨none, [c], ⟨p, p.advance c cs.head?⟩⟩ :: run)).span.stop = stop := by
          rw [merged_cons, hstop]
        rw [hrecover]
        dsimp only
        rw [hend]
      · rename_i k s rest hsome
        obtain ⟨hk, htext, hne⟩ := matched?_eq_some hsome
        have hlength := congrArg List.length htext
        have hpos := List.length_pos_iff.mpr hne
        rw [List.length_cons, List.length_append] at hlength
        have hs : s.category ≠ none := by simp [hk]
        have hnext : walk .skipToNextMatch candidates fuel s.span.stop rest =
            joinUnmatched (cutFrom candidates fuel' s.span.stop rest) :=
          ih s.span.stop (by omega) (by omega)
        rw [cutFrom_of_matched fuel' hsome, hnext]
        exact (joinUnmatched_append_cons hs [] _).symm

end Segment

/-! ## What a scan has come across -/

namespace Findings

/-- What a scan has come across behind some segments when it has made some reports. -/
def behind (segments : List Segment) (reports : List Diagnostic) (usedDispatch : Bool) : Findings :=
  let tokens := segments.filterMap (·.token?)
  { segments := segments.toArray
    tokens := (tokens.filterMap fun (c, t) => if c.group = .normal then some t else none).toArray
    groups := tokens.foldl Tokenization.file []
    diagnostics := (reports.take Limits.maxLexicalDiagnostics).toArray
    counts := {
      total := tokens.length
      skipped := (tokens.filter fun (c, _) => c.group == .skipped).length
      grouped := (tokens.filter fun (c, _) => c.group != .skipped && c.group != .normal).length
      unmatchedBytes :=
        (segments.filter (·.category.isNone)).foldl (fun n s => n + s.span.length) 0
      suppressed := reports.length - Limits.maxLexicalDiagnostics
      usedDispatch := usedDispatch } }

variable {segments : List Segment} {reports : List Diagnostic} {usedDispatch : Bool} {s : Segment}

theorem report_behind (d : Diagnostic) :
    (behind segments reports usedDispatch).report d =
      behind segments (reports ++ [d]) usedDispatch := by
  have hsize : (behind segments reports usedDispatch).diagnostics.size =
      min Limits.maxLexicalDiagnostics reports.length := by simp [behind]
  rw [report, hsize]
  split
  · have hall : reports.length + 1 ≤ Limits.maxLexicalDiagnostics := by omega
    have hsuppressed : reports.length + 1 - Limits.maxLexicalDiagnostics =
        reports.length - Limits.maxLexicalDiagnostics := by omega
    have hkept : reports.take Limits.maxLexicalDiagnostics = reports :=
      List.take_of_length_le (Nat.le_of_succ_le hall)
    have hkept' : (reports ++ [d]).take Limits.maxLexicalDiagnostics = reports ++ [d] :=
      List.take_of_length_le (by simpa using hall)
    simp [behind, hsuppressed, hkept, hkept']
  · have hfull : Limits.maxLexicalDiagnostics ≤ reports.length := by omega
    have hsuppressed : reports.length + 1 - Limits.maxLexicalDiagnostics =
        reports.length - Limits.maxLexicalDiagnostics + 1 := by omega
    simp [behind, hsuppressed, List.take_append_of_le_length hfull]

private theorem take_behind {c : Category} (h : s.category = some c) :
    (behind segments reports usedDispatch).take c s =
      behind (segments ++ [s]) reports usedDispatch := by
  have htoken : s.token? = some (c, s.token c) := by rw [Segment.token?, h, Option.map_some]
  cases hg : c.group with
  | normal => simp [take, behind, htoken, hg, h, TokenCounts.record, Tokenization.file]
  | skipped => simp [take, behind, htoken, hg, h, TokenCounts.record, Tokenization.file]
  | named name => simp [take, behind, htoken, hg, h, TokenCounts.record, Tokenization.file]

private theorem passOver_behind (h : s.category = none) :
    (behind segments reports usedDispatch).passOver s =
      behind (segments ++ [s]) (reports ++ [s.unmatchedReport]) usedDispatch := by
  have htoken : s.token? = none := by rw [Segment.token?, h, Option.map_none]
  rw [← report_behind, passOver]
  congr 1
  simp [behind, htoken, h]

private theorem kept_behind (segments : List Segment) (reports : List Diagnostic)
    (usedDispatch : Bool) :
    (behind segments reports usedDispatch).kept = segments.countP (·.isKept) := by
  refine Nat.sub_eq_of_eq_add' ?_
  induction segments with
  | nil => rfl
  | cons s segments ih =>
    simp only [behind] at ih ⊢
    rw [List.filterMap_cons, List.countP_cons]
    cases hs : s.category with
    | none => simpa [Segment.token?, Segment.isKept, hs] using ih
    | some c =>
      have htoken : s.token? = some (c, s.token c) := by rw [Segment.token?, hs, Option.map_some]
      by_cases hg : c.group = .skipped
      · simp [htoken, Segment.isKept, hs, hg, ih, Nat.add_right_comm]
      · simp [htoken, Segment.isKept, hs, hg, ih, Nat.add_assoc]

private theorem finish_behind (segments : List Segment) (beyond : Option Segment) (limit size : Nat)
    (usedDispatch : Bool) :
    (behind segments (segments.filterMap (·.diagnostic?) ++
      (beyond.map (Tokenization.overLimit limit size)).toList) usedDispatch).finish
        (Tokenization.endOf segments) =
      (segments, .ofSegments segments beyond limit size usedDispatch) := by
  simp [finish, behind, Tokenization.ofSegments, Tokenization.groupsOf]

end Findings

namespace Tokenizer

variable {prefs : TokenizerPreferences} {candidates : Char → List Category} {size : Nat}

private theorem endOf_append (segments : List Segment) (s : Segment) :
    Tokenization.endOf (segments ++ [s]) = s.span.stop := by
  simp [Tokenization.endOf]

private theorem category_recover (mode : LexicalRecovery) (candidates : Char → List Category)
    (p : Position) (c : Char) (cs : List Char) :
    (recover mode candidates p c cs).1.category = none := by
  cases mode <;> rfl

/-- The loop of a scan gives what the segments that it would go through amount to, as far as the
limit on tokens allows. -/
theorem scanFrom_behind (fuel : Nat) (cs : List Char) (usedDispatch : Bool) (done : List Segment) :
    scanFrom prefs candidates size fuel (Tokenization.endOf done) cs
        (.behind done (done.filterMap (·.diagnostic?)) usedDispatch) =
      let left := prefs.tokenLimit - done.countP (·.isKept)
      let (segments, beyond) := Segment.limit left
        (Segment.walk prefs.recovery candidates fuel (Tokenization.endOf done) cs)
      (done ++ segments,
        .ofSegments (done ++ segments) beyond prefs.tokenLimit size usedDispatch) := by
  have hfinish := fun done beyond =>
    Findings.finish_behind done beyond prefs.tokenLimit size usedDispatch
  have hstop : ∀ done : List Segment, (Findings.behind done (done.filterMap (·.diagnostic?))
      usedDispatch).finish (Tokenization.endOf done) =
        (done, .ofSegments done none prefs.tokenLimit size usedDispatch) := by
    intro done
    have hnone := hfinish done none
    rwa [Option.map_none, Option.toList_none, List.append_nil] at hnone
  induction fuel generalizing cs done with
  | zero => cases cs <;> simp [scanFrom, Segment.walk, Segment.limit, Segment.limitFrom, hstop]
  | succ fuel ih =>
    cases cs with
    | nil => simp [scanFrom, Segment.walk, Segment.limit, Segment.limitFrom, hstop]
    | cons c cs =>
      rw [scanFrom, Segment.walk]
      cases hmatched : Segment.matched? (candidates c) (Tokenization.endOf done) (c :: cs) with
      | none =>
        dsimp only
        generalize hr : recover prefs.recovery candidates (Tokenization.endOf done) c cs = r
        obtain ⟨s, rest⟩ := r
        have hs : s.category = none := by
          have hnone := category_recover prefs.recovery candidates (Tokenization.endOf done) c cs
          rwa [hr] at hnone
        have hreports : [s].filterMap (·.diagnostic?) = [s.unmatchedReport] := by
          simp [Segment.diagnostic?, hs]
        have hkept : ¬s.isKept = true := by simp [Segment.isKept, hs]
        have hnext := ih rest (done ++ [s])
        rw [endOf_append, List.filterMap_append, hreports, List.countP_append,
          ← Findings.passOver_behind hs] at hnext
        dsimp only
        rw [Segment.limit_cons_of_not_isKept hkept]
        simpa [hkept] using hnext
      | some found =>
        obtain ⟨k, s, rest⟩ := found
        obtain ⟨hs, -, -⟩ := Segment.matched?_eq_some hmatched
        have hreports : [s].filterMap (·.diagnostic?) = [] := by simp [Segment.diagnostic?, hs]
        have hnext := ih rest (done ++ [s])
        rw [endOf_append, List.filterMap_append, hreports, List.append_nil, List.countP_append,
          ← Findings.take_behind hs] at hnext
        dsimp only
        rw [Findings.kept_behind]
        split
        · rename_i hfull
          have hkept : s.isKept = true := by simpa [Segment.isKept, hs] using hfull.1
          have hover := hfinish done (some s)
          rw [Option.map_some, Option.toList_some, ← Findings.report_behind] at hover
          rw [hover, Nat.sub_eq_zero_of_le hfull.2, Segment.limit_cons_of_isKept hkept,
            List.append_nil]
        · rename_i hroom
          rw [hnext]
          by_cases hkept : s.isKept = true
          · have hlt : done.countP (·.isKept) < prefs.tokenLimit := by
              refine Nat.lt_of_not_le fun hle => hroom ⟨?_, hle⟩
              simpa [Segment.isKept, hs] using hkept
            obtain ⟨left, hleft⟩ := Nat.exists_eq_add_of_lt hlt
            have hleft' : prefs.tokenLimit - done.countP (·.isKept) = left + 1 := by omega
            rw [hleft', Segment.limit_succ_cons_of_isKept hkept]
            simp [hkept, Nat.sub_add_eq, hleft']
          · rw [Segment.limit_cons_of_not_isKept hkept]
            simp [hkept]

private theorem walk_eq_segments (t : Tokenizer) (dispatch : Option DispatchTable)
    (text : List Char) :
    Segment.walk t.preferences.recovery (Tokenizer.candidates t.model t.model.concrete dispatch)
      text.length .start text = t.segments dispatch text := by
  rw [segments]
  cases t.preferences.recovery with
  | singleChar => exact Segment.walk_singleChar _ _ _ _
  | skipToNextMatch => exact Segment.walk_skipToNextMatch _ _ (Nat.le_refl _) (Nat.le_refl _)

/-- What a scan gives: the segments of the text up to the token that is one too many, and what they
amount to. -/
theorem scan_eq (t : Tokenizer) (dispatch : Option DispatchTable) (text : List Char) :
    t.scan dispatch text =
      let (segments, beyond) := Segment.limit t.preferences.tokenLimit (t.segments dispatch text)
      (segments, .ofSegments segments beyond t.preferences.tokenLimit (byteCount text)
        dispatch.isSome) := by
  have hstart : Findings.start dispatch.isSome = .behind [] [] dispatch.isSome := rfl
  rw [scan, hstart, ← walk_eq_segments]
  exact scanFrom_behind text.length text dispatch.isSome []

theorem tokenize_eq (t : Tokenizer) (text : List Char) :
    t.tokenize text = .ofSegments
      (Segment.limit t.preferences.tokenLimit (t.segments t.dispatch text)).1
      (Segment.limit t.preferences.tokenLimit (t.segments t.dispatch text)).2
      t.preferences.tokenLimit (byteCount text) t.dispatch.isSome :=
  congrArg Prod.snd (scan_eq t t.dispatch text)

end Tokenizer

end PredictiveParsing
