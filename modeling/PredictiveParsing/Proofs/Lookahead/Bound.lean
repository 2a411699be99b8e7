import PredictiveParsing.Proofs.Lookahead.Analysis
import PredictiveParsing.Proofs.Lookahead.Clashes
import PredictiveParsing.Proofs.Lookahead.Selection

/-!
# The bound on lookahead

The bound counts in the last round only, where paths are settled that would have to grow. Such paths
collide, and that is found. Rounds that found nothing therefore come to the same table under every
greater bound.
-/

namespace PredictiveParsing

variable {g : Grammar} {m : TokenModel} {depth : Nat}

/-! ## The last round -/

private theorem Growth.sortOut_eq {verdicts : List (Expansion × List Clash)} {b : Growth}
    (h : ∀ v ∈ verdicts, v.2.any (·.isUndecided) = false) :
    b.sortOut false verdicts = b.sortOut true verdicts := by
  have hpartition : (verdicts.partition fun v => v.2.any (·.isUndecided) && !false) =
      verdicts.partition fun v => v.2.any (·.isUndecided) && !true := by
    simp only [List.partition_eq_filter_filter, Prod.mk.injEq]
    constructor
    · exact List.filter_congr fun v hv => by simp [h v hv]
    · exact List.filter_congr fun v hv => by simp [h v hv]
  simp only [sortOut, hpartition]

namespace Table

variable {rows : List Row} {t : Table}

/-- What is undecided between two alternatives is found by the earlier of them in a last round. -/
theorem not_isUndecided_of_foundIn (hfound : ∀ x, x ∉ foundIn m rows true) {i : Nat} {row : Row}
    (hrow : rows[i]? = some row) :
    ∀ v ∈ row.verdicts m rows.zipIdx i, v.2.any (·.isUndecided) = false := by
  rintro ⟨e, clashes⟩ hv
  by_contra hu
  rw [Bool.not_eq_false, Row.any_isUndecided_iff hv] at hu
  obtain ⟨hgate, he, j, row', f, hrow', hj, hgate', hf, hf', hcomp⟩ := hu
  obtain ⟨he', -⟩ := Row.mem_verdicts.mp hv
  refine absurd (exists_mem_foundIn.mpr ?_) (not_exists.mpr hfound)
  -- whichever of the two alternatives comes first has the other one in its clashes
  rcases Nat.lt_or_gt_of_ne hj with hji | hij
  · exact ⟨j, i, row', row, f, e, hji, hrow', hrow, hgate', hgate, hf, he',
      TokenModel.compatible_comm.trans hcomp, .inr ⟨rfl, hf', he⟩⟩
  · exact ⟨i, j, row, row', e, f, hij, hrow, hrow', hgate, hgate', he', hf, hcomp,
      .inr ⟨rfl, he, hf'⟩⟩

private theorem isSettled_round_last : (t.round g m depth true).isSettled = true := by
  cases h : t.growths.mapM (·.row? g depth) with
  | none => exact (round_of_none h).1
  | some rows =>
    rw [isSettled, List.all_eq_true]
    intro b hb
    obtain ⟨i, hi⟩ := List.getElem?_of_mem hb
    obtain ⟨b₀, row, -, -, -, rfl⟩ := exists_of_getElem?_round h hi
    rw [Std.TreeSet.isEmpty_iff_forall_not_mem]
    intro p hp
    obtain ⟨v, -, hv, -⟩ := Growth.mem_active_sortOut.mp hp
    rw [Bool.not_true, Bool.and_false] at hv
    cases hv

private theorem mem_foundIn_last {x : Finding} (h : x ∈ foundIn m rows false) :
    x ∈ foundIn m rows true := by
  obtain ⟨i, row, e, hrow, hgate, he, hclash | ⟨hno, -⟩⟩ := mem_foundIn.mp h
  · exact mem_foundIn.mpr ⟨i, row, e, hrow, hgate, he, .inl hclash⟩
  · cases hno

private theorem growths_round_eq (hrows : t.growths.mapM (·.row? g depth) = some rows)
    (hfound : ∀ x, x ∉ foundIn m rows true) :
    (t.round g m depth false).growths = (t.round g m depth true).growths := by
  refine List.ext_getElem? fun i => ?_
  simp only [round, hrows, List.getElem?_zipWith, List.getElem?_map, List.getElem?_zipIdx]
  cases hrow : rows[i]? with
  | none => rfl
  | some row =>
    cases t.growths[i]? with
    | none => rfl
    | some b =>
      have hsort := Growth.sortOut_eq (b := b) (not_isUndecided_of_foundIn hfound hrow)
      simpa using hsort

private theorem round_eq_of_findings (h : (t.round g m depth true).findings = []) :
    t.round g m depth false = t.round g m depth true := by
  cases hrows : t.growths.mapM (·.row? g depth) with
  | none =>
    obtain ⟨-, x, hx, -⟩ := @round_of_none g m depth true t hrows
    rw [h] at hx
    cases hx
  | some rows =>
    have hnone : ¬ ∃ x ∈ (t.round g m depth true).findings, True := by simp [h]
    rw [findings_round hrows, Finding.exists_mem_foldl_note_iff fun _ => True, not_or] at hnone
    have hlast : ∀ x, x ∉ foundIn m rows true := fun x hx => hnone.1 ⟨x, hx, trivial⟩
    have hfound : foundIn m rows false = foundIn m rows true := by
      rw [List.eq_nil_iff_forall_not_mem.mpr hlast, List.eq_nil_iff_forall_not_mem]
      exact fun x hx => hlast x (mem_foundIn_last hx)
    have hfindings : (t.round g m depth false).findings = (t.round g m depth true).findings := by
      rw [findings_round hrows, findings_round hrows, hfound]
    exact congrArg₂ Table.mk (growths_round_eq hrows hlast) hfindings

private theorem rounds_eq_of_findings {left left' : Nat} (hle : left ≤ left')
    (h : (t.rounds g m left depth).2.findings = []) :
    t.rounds g m left' depth = t.rounds g m left depth := by
  induction left generalizing left' depth t with
  | zero =>
    cases left' with
    | zero => rfl
    | succ left' =>
      -- the round that was the last one is settled, so that those behind it are left out
      have hround : t.round g m depth false = t.round g m depth true := round_eq_of_findings h
      simp only [rounds, hround, isSettled_round_last, if_true]
  | succ left ih =>
    cases left' with
    | zero => exact absurd hle (Nat.not_succ_le_zero left)
    | succ left' =>
      simp only [rounds] at h ⊢
      split
      · rfl
      · rename_i hs
        rw [if_neg hs] at h
        exact ih (Nat.le_of_succ_le_succ hle) h

end Table

/-! ## Tables under a greater bound -/

namespace Decision

variable {k k' idx : Nat} {kind : DecisionKind} {branches : List Branch}

private theorem build_eq_of_le (hk : k ≤ k')
    (h : (build g m k kind idx branches).1.ambiguous = false) :
    build g m k' kind idx branches = build g m k kind idx branches := by
  have hnone : ((Table.start branches).rounds g m (k - 1) 1).2.findings = [] := by
    rw [← List.isEmpty_iff, ← Bool.not_eq_false']
    exact h
  have hrounds := Table.rounds_eq_of_findings (Nat.sub_le_sub_right hk 1) hnone
  rw [build, build, hrounds]

/-- What becomes of a decision when more categories may be looked at: it stays as it is if it is not
ambiguous. -/
structure Settles (d d' : Decision) : Prop where
  kind : d'.kind = d.kind
  idx : d'.idx = d.idx
  eq : d.ambiguous = false → d' = d
  ambiguous : d'.ambiguous = true → d.ambiguous = true

private theorem settles_build (hk : k ≤ k') (kind : DecisionKind) (idx : Nat)
    (branches : List Branch) :
    (build g m k kind idx branches).1.Settles (build g m k' kind idx branches).1 where
  kind := rfl
  idx := rfl
  eq h := congrArg Prod.fst (build_eq_of_le hk h)
  ambiguous := by
    contrapose!
    intro h
    rw [build_eq_of_le hk (Bool.eq_false_iff.mpr h)]
    exact h

end Decision

namespace AnalyzedRule

/-- What becomes of a rule when more categories may be looked at: its decisions settle, and all else
stays as it is. -/
structure Settles (r r' : AnalyzedRule) : Prop where
  eq : { r' with decisions := r.decisions } = r
  decisions : List.Forall₂ Decision.Settles r.decisions r'.decisions

end AnalyzedRule

namespace Grammar

variable {k k' : Nat} {a : AnalyzedGrammar}

private theorem exists_decisions_analyzeRule (g : Grammar) (m : TokenModel) (p : Production)
    (r : RuleId) : ∃ ways : List (DecisionKind × Nat × List Branch), ∀ k,
      (analyzeRule (.ofGrammar g) m k p r).1.decisions =
        ways.map fun x => (Decision.build g m k x.1 x.2.1 x.2.2).1 := by
  let ways := (p.phrase.places []).filterMap (·.branches?)
  let before (x y : DecisionKind × Nat × List Branch) : Bool :=
    x.1.rank < y.1.rank || (x.1 == y.1 && x.2.1 ≤ y.2.1)
  refine ⟨ways.mergeSort before, fun k => ?_⟩
  -- the tables are put in the order of their kinds and indices, which they have from the ways
  have hsort : (ways.mergeSort before).map (fun x => (Decision.build g m k x.1 x.2.1 x.2.2).1) =
      (ways.map fun x => (Decision.build g m k x.1 x.2.1 x.2.2).1).mergeSort decisionBefore :=
    List.map_mergeSort fun _ _ _ _ => rfl
  exact (congrArg (List.mergeSort · decisionBefore) (List.map_map ..)).trans hsort.symm

private theorem settles_analyzeRule (hk : k ≤ k') (p : Production) (r : RuleId) :
    (analyzeRule (.ofGrammar g) m k p r).1.Settles (analyzeRule (.ofGrammar g) m k' p r).1 where
  eq := rfl
  decisions := by
    obtain ⟨ways, hways⟩ := exists_decisions_analyzeRule g m p r
    rw [hways, hways, List.forall₂_map_left_iff, List.forall₂_map_right_iff, List.forall₂_same]
    exact fun x _ => Decision.settles_build hk x.1 x.2.1 x.2.2

/-- A grammar that has an analysis has one under every greater bound, too. All decisions that are
not ambiguous are the same there, and none that is not ambiguous becomes so. -/
theorem analyze_of_le (hk : k ≤ k') (h : g.analyze m k = .ok a) :
    ∃ a', g.analyze m k' = .ok a' ∧
      List.Forall₂ AnalyzedRule.Settles a.rules.toList a'.rules.toList := by
  obtain ⟨hdefect, rfl⟩ := analyze_eq_ok h
  have hcycle := leftCycle?_of_analyze h
  refine ⟨analysisOf (.ofGrammar g) m k', by simp only [analyze, hdefect, hcycle], ?_⟩
  simp only [analysisOf, List.map_map]
  rw [List.forall₂_map_left_iff, List.forall₂_map_right_iff, List.forall₂_same]
  exact fun x _ => settles_analyzeRule hk x.1 x.2

set_option maxRecDepth 4000 in
private theorem ambiguous_forkAnalysis : (forkAnalysis.rules.toList.map fun r =>
    r.decisions.map (·.ambiguous)) = [[false]] := by cbv

/-- The branches of the fork are apart within three categories, so that five come to the same table.
-/
theorem analyze_of_le_forkRule : ∃ a' d, (ofList [forkRule]).analyze forkModel 5 = .ok a' ∧
    a'.rules.toList.flatMap (·.decisions) = [d] ∧
    forkAnalysis.rules.toList.flatMap (·.decisions) = [d] ∧ d.ambiguous = false := by
  obtain ⟨a', ha', hrules⟩ := analyze_of_le (show 3 ≤ 5 by decide) analyze_forkRule
  obtain ⟨rule, hrule, hshape⟩ := List.map_eq_singleton_iff.mp ambiguous_forkAnalysis
  obtain ⟨d, hd, hsettled⟩ := List.map_eq_singleton_iff.mp hshape
  rw [hrule, List.forall₂_cons_left_iff] at hrules
  obtain ⟨rule', rest, hrule', hrest, hrules'⟩ := hrules
  obtain rfl := List.forall₂_nil_left_iff.mp hrest
  have hdecisions := hrule'.decisions
  rw [hd, List.forall₂_cons_left_iff] at hdecisions
  obtain ⟨d', ds, hd', hds, hdecisions'⟩ := hdecisions
  obtain rfl := List.forall₂_nil_left_iff.mp hds
  obtain rfl : d' = d := hd'.eq hsettled
  exact ⟨a', d', ha', by simp [hrules', hdecisions'], by simp [hrule, hd], hsettled⟩

end Grammar

end PredictiveParsing
