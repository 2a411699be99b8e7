import PredictiveParsing.Lookahead.Decision
import PredictiveParsing.Proofs.Lookahead.Expansion
import PredictiveParsing.Proofs.Outcome

/-!
# How decision tables grow

A round looks at all expansions that go on from the active paths and settles those that clash with
no other alternative. What an alternative can consume always begins with a settled path, or goes on
from an active one.
-/

namespace PredictiveParsing

namespace PathSet

theorem mem_foldl_insert {α : Type} {f : α → CategoryPath} {xs : List α} {s : PathSet}
    {p : CategoryPath} :
    p ∈ xs.foldl (fun s x => s.insert (f x)) s ↔ p ∈ s ∨ ∃ x ∈ xs, p = f x := by
  induction xs generalizing s with
  | nil => simp
  | cons x xs ih =>
    rw [List.foldl_cons, ih, Std.TreeSet.mem_insert, Std.LawfulEqCmp.compare_eq_iff_eq]
    simp only [List.mem_cons, exists_eq_or_imp]
    rw [← or_assoc, or_comm (a := p ∈ s), eq_comm]

end PathSet

namespace TokenModel

private theorem isUndecided_of_ended {m : TokenModel} {i j : Nat} {e f : Expansion} {c : Clash}
    (h : m.clash? i j e f = some c) (he : e.ended = true) : c.isUndecided = false := by
  rw [clash?] at h
  rw [if_pos he] at h
  split at h
  · cases h
  · split at h
    · cases h; rfl
    · split at h
      · cases h; rfl
      · cases h

end TokenModel

namespace Row

variable {m : TokenModel} {rows : List (Row × Nat)} {row : Row} {i : Nat}

theorem mem_verdicts {e : Expansion} {clashes : List Clash} :
    (e, clashes) ∈ row.verdicts m rows i ↔
      e ∈ row.expansions ∧ clashes = if row.gated then [] else Row.clashes m rows i e := by
  simp only [verdicts, List.mem_map, Prod.mk.injEq]
  constructor
  · rintro ⟨_, he, rfl, rfl⟩
    exact ⟨he, rfl⟩
  · rintro ⟨he, rfl⟩
    exact ⟨e, he, rfl, rfl⟩

theorem exists_mem_verdicts {e : Expansion} (h : e ∈ row.expansions) :
    ∃ clashes, (e, clashes) ∈ row.verdicts m rows i :=
  ⟨_, mem_verdicts.2 ⟨h, rfl⟩⟩

private theorem any_isUndecided_of_ended {e : Expansion} {clashes : List Clash}
    (h : (e, clashes) ∈ row.verdicts m rows i) (he : e.ended = true) :
    clashes.any (·.isUndecided) = false := by
  obtain ⟨-, rfl⟩ := mem_verdicts.1 h
  split
  · rfl
  · apply List.any_eq_false.2
    intro c hc
    obtain ⟨⟨other, j⟩, -, hc⟩ := List.mem_flatMap.1 hc
    simp only at hc
    split at hc
    · cases hc
    · obtain ⟨f, -, hf⟩ := List.mem_filterMap.1 hc
      simp [TokenModel.isUndecided_of_ended hf he]

end Row

namespace Growth

/-- Whatever the alternative can consume begins with a settled path, or with an active one of the
depth that was reached. -/
def Covers (g : Grammar) (depth : Nat) (b : Growth) : Prop :=
  ∀ w, Expands g b.branch.stack w true →
    (∃ p ∈ b.settled, p <+: w) ∨ (depth ≤ w.length ∧ w.take depth ∈ b.active)

variable {g : Grammar} {depth : Nat} {b : Growth} {row : Row}

theorem mem_expansions_of_row? (h : b.row? g depth = some row) {e : Expansion} :
    e ∈ row.expansions ↔ (Expands g b.branch.stack e.path e.ended ∧
        if e.ended then e.path.length < depth else e.path.length = depth)
      ∧ depth ≤ e.path.length + 1 ∧ e.path.take (depth - 1) ∈ b.active := by
  rw [row?] at h
  split at h
  · rename_i hempty
    cases h
    simp [Std.TreeSet.isEmpty_iff_forall_not_mem.1 hempty]
  · obtain ⟨found, hf, rfl⟩ := Option.map_eq_some_iff.1 h
    simp only [List.mem_filter, Std.TreeSet.mem_toList, Expansion.mem_all? hf, Bool.and_eq_true,
      decide_eq_true_eq, Std.TreeSet.contains_iff_mem]

theorem mem_settled_sortOut {last : Bool} {verdicts : List (Expansion × List Clash)}
    {p : CategoryPath} : p ∈ (b.sortOut last verdicts).settled ↔
      p ∈ b.settled ∨
        ∃ v ∈ verdicts, (v.2.any (·.isUndecided) && !last) = false ∧ p = v.1.path := by
  simp only [Growth.sortOut, List.partition_eq_filter_filter, PathSet.mem_foldl_insert,
    List.mem_filter, Function.comp_apply, Bool.not_eq_true', and_assoc]

theorem mem_active_sortOut {last : Bool} {verdicts : List (Expansion × List Clash)}
    {p : CategoryPath} : p ∈ (b.sortOut last verdicts).active ↔
      ∃ v ∈ verdicts, (v.2.any (·.isUndecided) && !last) = true ∧ p = v.1.path := by
  simp only [Growth.sortOut, List.partition_eq_filter_filter, PathSet.mem_foldl_insert,
    List.mem_filter, and_assoc, Std.TreeSet.not_mem_emptyc, false_or]

private theorem settled_or_active {last : Bool} {m : TokenModel} {rows : List (Row × Nat)} {i : Nat}
    {e : Expansion} (he : e ∈ row.expansions) :
    e.path ∈ (b.sortOut last (row.verdicts m rows i)).settled
      ∨ (e.ended = false ∧ e.path ∈ (b.sortOut last (row.verdicts m rows i)).active) := by
  obtain ⟨clashes, hv⟩ := @Row.exists_mem_verdicts m rows row i e he
  cases hu : clashes.any (·.isUndecided) && !last with
  | false => exact .inl (mem_settled_sortOut.2 (.inr ⟨_, hv, hu, rfl⟩))
  | true =>
    refine .inr ⟨Bool.eq_false_iff.2 fun hend => ?_, mem_active_sortOut.2 ⟨_, hv, hu, rfl⟩⟩
    rw [Row.any_isUndecided_of_ended hv hend] at hu
    cases hu

/-- A round keeps what an alternative covers. -/
theorem Covers.sortOut (h : b.Covers g depth) (hrow : b.row? g (depth + 1) = some row) (last : Bool)
    (m : TokenModel) (rows : List (Row × Nat)) (i : Nat) :
    (b.sortOut last (row.verdicts m rows i)).Covers g (depth + 1) := by
  intro w hw
  rcases h w hw with ⟨p, hp, hpw⟩ | ⟨hlen, hact⟩
  · exact .inl ⟨p, mem_settled_sortOut.2 (.inl hp), hpw⟩
  · rcases Nat.lt_or_ge depth w.length with hlt | hge
    · -- the way is cut one category later
      have he : (⟨w.take (depth + 1), false⟩ : Expansion) ∈ row.expansions := by
        refine (mem_expansions_of_row? hrow).2 ⟨⟨hw.take_of_le hlt, ?_⟩, ?_, ?_⟩
        · simpa using Nat.min_eq_left hlt
        · simp; omega
        · simpa [List.take_take] using hact
      rcases settled_or_active he with hs | ⟨-, ha⟩
      · exact .inl ⟨_, hs, List.take_prefix _ _⟩
      · exact .inr ⟨hlt, ha⟩
    · -- the way ends here
      have he : (⟨w, true⟩ : Expansion) ∈ row.expansions := by
        refine (mem_expansions_of_row? hrow).2 ⟨⟨hw, ?_⟩, ?_, hact⟩
        · simpa using Nat.lt_succ_of_le hge
        · simpa using hlen
      rcases settled_or_active he with hs | ⟨hend, -⟩
      · exact .inl ⟨w, hs, List.prefix_rfl⟩
      · cases hend

end Growth

namespace Finding

private theorem exists_mem_note (f : Finding) (fs : List Finding) :
    ∃ x ∈ f.note fs, x.kind = f.kind := by
  induction fs with
  | nil => exact ⟨_, List.mem_singleton_self _, rfl⟩
  | cons x fs ih =>
    rw [note]
    split
    · rename_i h
      exact ⟨_, List.mem_cons_self, h⟩
    · obtain ⟨y, hy, hk⟩ := ih
      exact ⟨y, List.mem_cons_of_mem x hy, hk⟩

end Finding

namespace Table

variable {g : Grammar} {m : TokenModel}

/-- Every alternative covers what it can consume. -/
def Covers (g : Grammar) (depth : Nat) (t : Table) : Prop := ∀ b ∈ t.growths, b.Covers g depth

private theorem covers_start (branches : List Branch) : (start branches).Covers g 0 := by
  intro b hb w hw
  obtain ⟨branch, -, rfl⟩ := List.mem_map.1 hb
  exact .inr ⟨Nat.zero_le _, by simp⟩

/-- A round without too many paths sorts out every alternative. -/
theorem exists_of_getElem?_round {depth : Nat} {last : Bool} {t : Table} {rows : List Row}
    (h : t.growths.mapM (·.row? g depth) = some rows) {i : Nat} {b : Growth}
    (hb : (t.round g m depth last).growths[i]? = some b) :
    ∃ b₀ row, t.growths[i]? = some b₀ ∧ rows[i]? = some row ∧ b₀.row? g depth = some row
      ∧ b = b₀.sortOut last (row.verdicts m rows.zipIdx i) := by
  simp only [round, h, List.getElem?_zipWith, List.getElem?_map, List.getElem?_zipIdx] at hb
  have hall := Outcome.mapM_eq_some.1 h
  cases hrow : rows[i]? with
  | none => simp [hrow] at hb
  | some row =>
    cases hb₀ : t.growths[i]? with
    | none => simp [hb₀, hrow] at hb
    | some b₀ =>
      obtain ⟨hlt₀, rfl⟩ := List.getElem?_eq_some_iff.1 hb₀
      obtain ⟨hlt, rfl⟩ := List.getElem?_eq_some_iff.1 hrow
      exact ⟨_, _, rfl, rfl, hall.get hlt₀ hlt, by simpa [hb₀, hrow, eq_comm] using hb⟩

theorem Covers.round {depth : Nat} {t : Table} (ht : t.Covers g depth) {last : Bool}
    {rows : List Row} (h : t.growths.mapM (·.row? g (depth + 1)) = some rows) :
    (t.round g m (depth + 1) last).Covers g (depth + 1) := by
  intro b hb
  obtain ⟨i, hi⟩ := List.getElem?_of_mem hb
  obtain ⟨b₀, row, hb₀, -, hrow, rfl⟩ := exists_of_getElem?_round h hi
  exact (ht b₀ (List.mem_of_getElem? hb₀)).sortOut hrow last m _ i

/-- A round with too many paths gives up and says so. -/
theorem round_of_none {depth : Nat} {last : Bool} {t : Table}
    (h : t.growths.mapM (·.row? g depth) = none) :
    (t.round g m depth last).isSettled = true
      ∧ ∃ f ∈ (t.round g m depth last).findings, f.kind = .pathLimit := by
  simp only [round, h]
  constructor
  · simp [isSettled, Growth.giveUp]
  · exact Finding.exists_mem_note ⟨.pathLimit, t.unsettled, []⟩ t.findings

theorem Covers.settled {depth : Nat} {t : Table} (ht : t.Covers g depth)
    (hs : ∀ b ∈ t.growths, ∀ p, p ∉ b.active) :
    ∀ b ∈ t.growths, ∀ w, Expands g b.branch.stack w true → ∃ p ∈ b.settled, p <+: w :=
  fun b hb w hw => (ht b hb w hw).resolve_right fun h => hs b hb _ h.2

/-- Without the finding that there were too many paths all that can be consumed is covered by the
settled paths. -/
theorem Covers.rounds {left depth : Nat} {t : Table} (ht : t.Covers g depth)
    (hf : ∀ f ∈ (t.rounds g m left (depth + 1)).2.findings, f.kind ≠ .pathLimit) :
    ∀ b ∈ (t.rounds g m left (depth + 1)).2.growths, ∀ w, Expands g b.branch.stack w true →
      ∃ p ∈ b.settled, p <+: w := by
  induction left generalizing depth t with
  | zero =>
    cases h : t.growths.mapM (·.row? g (depth + 1)) with
    | none =>
      obtain ⟨-, f, hm, hk⟩ := @round_of_none g m (depth + 1) true t h
      exact absurd hk (hf f hm)
    | some rows =>
      apply (ht.round h).settled
      intro b hb p hp
      obtain ⟨i, hi⟩ := List.getElem?_of_mem hb
      obtain ⟨b₀, row, -, -, -, rfl⟩ := exists_of_getElem?_round h hi
      obtain ⟨v, -, hv, -⟩ := Growth.mem_active_sortOut.1 hp
      simp at hv
  | succ left ih =>
    unfold Table.rounds at hf ⊢
    cases h : t.growths.mapM (·.row? g (depth + 1)) with
    | none =>
      obtain ⟨hs, f, hm, hk⟩ := @round_of_none g m (depth + 1) false t h
      simp only [hs, if_true] at hf
      exact absurd hk (hf f hm)
    | some rows =>
      simp only at hf ⊢
      split at hf
      · rename_i hs
        rw [if_pos hs]
        apply (ht.round h).settled
        intro b hb p hp
        have hempty := List.all_eq_true.1 hs b hb
        exact Std.TreeSet.isEmpty_iff_forall_not_mem.1 hempty p hp
      · rename_i hs
        rw [if_neg hs]
        exact ih (ht.round h) hf

theorem map_branch_round {depth : Nat} {last : Bool} {t : Table} :
    (t.round g m depth last).growths.map (·.branch) = t.growths.map (·.branch) := by
  rw [Table.round]
  split
  · rw [List.map_map]
    rfl
  · rename_i rows h
    have hl := (Outcome.mapM_eq_some.1 h).length_eq
    have hz : ∀ (vs : List (List (Expansion × List Clash))) (bs : List Growth),
        vs.length = bs.length →
        (List.zipWith (Growth.sortOut last) vs bs).map (·.branch) = bs.map (·.branch) := by
      intro vs
      induction vs with
      | nil => intro bs hb; simp [List.length_eq_zero_iff.1 hb.symm]
      | cons v vs ih =>
        intro bs hb
        cases bs with
        | nil => rfl
        | cons b bs => exact congrArg (b.branch :: ·) (ih bs (Nat.succ.inj hb))
    exact hz _ _ (by simpa using hl.symm)

theorem map_branch_rounds {left depth : Nat} {t : Table} :
    (t.rounds g m left depth).2.growths.map (·.branch) = t.growths.map (·.branch) := by
  induction left generalizing depth t with
  | zero => exact map_branch_round
  | succ left ih =>
    unfold Table.rounds
    simp only
    split
    · exact map_branch_round
    · rw [ih, map_branch_round]

end Table

namespace Decision

variable {g : Grammar} {m : TokenModel} {k idx : Nat} {kind : DecisionKind} {branches : List Branch}

theorem length_alternatives_build :
    (build g m k kind idx branches).1.alternatives.length = branches.length := by
  have h := congrArg List.length (@Table.map_branch_rounds g m (k - 1) 1 (Table.start branches))
  simpa [build, Table.start] using h

/-- Where there were not too many paths, a path of an alternative begins whatever the alternative
can consume. -/
theorem exists_path_of_expands
    (hf : ∀ f ∈ (build g m k kind idx branches).2, f.kind ≠ .pathLimit) {i : Nat} {b : Branch}
    (hb : branches[i]? = some b) {w : CategoryPath} (hw : Expands g b.stack w true) :
    ∃ a, (build g m k kind idx branches).1.alternatives[i]? = some a ∧ ∃ p ∈ a.paths, p <+: w := by
  have hbranch := @Table.map_branch_rounds g m (k - 1) 1 (Table.start branches)
  have hstart : (Table.start branches).growths.map (·.branch) = branches :=
    (List.map_map ..).trans (List.map_id _)
  rw [hstart] at hbranch
  rw [← hbranch, List.getElem?_map, Option.map_eq_some_iff] at hb
  obtain ⟨growth, hg, rfl⟩ := hb
  obtain ⟨p, hp, hpw⟩ :=
    (Table.covers_start branches).rounds hf growth (List.mem_of_getElem? hg) w hw
  refine ⟨⟨growth.settled.toList, growth.branch.gated⟩, ?_, p, Std.TreeSet.mem_toList.2 hp, hpw⟩
  simp only [build, List.getElem?_map, hg, Option.map_some]

end Decision

end PredictiveParsing
