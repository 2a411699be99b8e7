import PredictiveParsing.Proofs.Lookahead.Collisions

/-!
# What decision tables hold

A round compares all expansions of the paths that collide, so it keeps exactly those that collide,
too. By induction on the rounds a table stores the shortest paths that do not collide, and what
collides up to the end of the rule or the last round.
-/

namespace PredictiveParsing

variable {g : Grammar} {m : TokenModel} {branches : List Branch} {i j d k : Nat} {last : Bool}

open Branch

namespace Growth

/-- The paths of alternative `i` in a table that has grown to `d` categories. -/
structure Exact (g : Grammar) (m : TokenModel) (branches : List Branch) (i d : Nat) (last : Bool)
    (b : Growth) : Prop where
  settled (p : CategoryPath) :
    p ∈ b.settled ↔ Stores g m branches i b.branch.stack d last p
  active (p : CategoryPath) : p ∈ b.active ↔ last = false ∧ p.length = d
    ∧ Expands g b.branch.stack p false ∧ Contested g m branches i p

variable {b : Growth} {row : Row} {x : Expansion}

theorem Exact.mem_expansions_iff (h : b.Exact g m branches i d false)
    (hrow : b.row? g (d + 1) = some row) :
    x ∈ row.expansions ↔ Reaches g m branches i d b.branch.stack x.path x.ended := by
  obtain ⟨p, e⟩ := x
  rw [mem_expansions_of_row? hrow, h.active, Nat.add_sub_cancel, List.length_take]
  simp only
  constructor
  · rintro ⟨⟨hp, hlen⟩, hle, -, hd, -, hc⟩
    refine ⟨hp, ?_, hc⟩
    cases e with
    | true => simp only [if_true, Bool.not_true, Bool.toNat_false] at hlen ⊢; omega
    | false => simpa using hlen
  · rintro ⟨hp, hlen, hc⟩
    have htake : p.take d <+: p := List.take_prefix _ _
    refine ⟨⟨hp, ?_⟩, by omega, trivial, by omega, hp.of_isPrefix htake, hc⟩
    cases e with
    | true => simp only [if_true, Bool.not_true, Bool.toNat_false] at hlen ⊢; omega
    | false => simpa using hlen

end Growth

namespace Table

/-- The table after rounds to `d` categories, with what they have found. -/
structure Exact (g : Grammar) (m : TokenModel) (branches : List Branch) (d : Nat) (last : Bool)
    (t : Table) : Prop where
  branch : t.growths.map (·.branch) = branches
  growth (i : Nat) (b : Growth) : t.growths[i]? = some b → b.Exact g m branches i d last
  found : (∃ x, x ∈ t.findings) ↔ ∃ i j, i < j ∧ Confused g m branches i j d last
  kind : ∀ x ∈ t.findings, x.kind ≠ .pathLimit

variable {t : Table} {rows : List Row} {x y : Expansion}

theorem Exact.getElem?_branches (h : t.Exact g m branches d last) {b : Branch} :
    branches[i]? = some b ↔ ∃ growth, t.growths[i]? = some growth ∧ growth.branch = b := by
  rw [← h.branch, List.getElem?_map, Option.map_eq_some_iff]

/-- The rows of a round hold all expansions of what has to grow. -/
theorem Exact.exists_row_iff (h : t.Exact g m branches d false)
    (hrows : t.growths.mapM (·.row? g (d + 1)) = some rows) :
    (∃ row, rows[i]? = some row ∧ row.gated = false ∧ x ∈ row.expansions) ↔
      Offers g branches i x.path x.ended ∧ x.path.length = d + (!x.ended).toNat
        ∧ Contested g m branches i (x.path.take d) := by
  simp only [Outcome.getElem?_of_mapM_eq_some hrows]
  constructor
  · rintro ⟨row, ⟨b, hb, hrow⟩, hgate, hx⟩
    obtain ⟨hway, hlen, hc⟩ := ((h.growth i b hb).mem_expansions_iff hrow).mp hx
    exact ⟨⟨b.branch, h.getElem?_branches.mpr ⟨b, hb, rfl⟩, Growth.gated_of_row? hrow ▸ hgate,
      hway⟩, hlen, hc⟩
  · rintro ⟨⟨branch, hbranch, hgate, hway⟩, hlen, hc⟩
    obtain ⟨b, hb, rfl⟩ := h.getElem?_branches.mp hbranch
    have hlt : i < rows.length := by
      rw [← (Outcome.mapM_eq_some.1 hrows).length_eq]
      exact (List.getElem?_eq_some_iff.mp hb).1
    obtain ⟨b', hb', hrow⟩ :=
      (Outcome.getElem?_of_mapM_eq_some hrows).mp (List.getElem?_eq_getElem hlt)
    obtain rfl : b = b' := Option.some.inj (hb.symm.trans hb')
    exact ⟨_, ⟨b, hb, hrow⟩, (Growth.gated_of_row? hrow).trans hgate,
      ((h.growth i b hb).mem_expansions_iff hrow).mpr ⟨hway, hlen, hc⟩⟩

private theorem Exact.any_isUndecided_iff (h : t.Exact g m branches d false)
    (hrows : t.growths.mapM (·.row? g (d + 1)) = some rows) {row : Row} (hrow : rows[i]? = some row)
    {clashes : List Clash} (hx : (x, clashes) ∈ row.verdicts m rows.zipIdx i) :
    clashes.any (·.isUndecided) = true ↔ x.ended = false ∧ Collides g m branches i x.path := by
  have hmem := (Row.mem_verdicts.mp hx).1
  rw [Row.any_isUndecided_iff hx]
  constructor
  · rintro ⟨hgate, hend, j, row', y, hrow', hj, hgate', hy, hend', hc⟩
    obtain ⟨hp, hlen, -⟩ := (h.exists_row_iff hrows).mp ⟨row, hrow, hgate, hmem⟩
    obtain ⟨hq, hlen', -⟩ := (h.exists_row_iff hrows).mp ⟨row', hrow', hgate', hy⟩
    rw [hend] at hp hlen
    rw [hend'] at hq hlen'
    exact ⟨hend, hp, j, y.path, hj, hq, hlen'.trans hlen.symm, hc⟩
  · rintro ⟨hend, hp, j, q, hj, hq, hlen, hc⟩
    obtain ⟨b, hb, hgrowth⟩ := (Outcome.getElem?_of_mapM_eq_some hrows).mp hrow
    have hlen' := (((h.growth i b hb).mem_expansions_iff hgrowth).mp hmem).length
    have hqlen : q.length = d + (!false).toNat := by rw [hlen, hlen', hend]
    obtain ⟨row', hrow', hgate', hy⟩ := (h.exists_row_iff (x := ⟨q, false⟩) hrows).mpr ⟨hq, hqlen,
      contested_take_of_compatible hj.symm hq hp (by omega) (TokenModel.compatible_comm ▸ hc)⟩
    obtain ⟨branch, hbranch, hopen, -⟩ := hp
    have hgate : row.gated = false := by
      obtain ⟨b', hb', rfl⟩ := h.getElem?_branches.mp hbranch
      obtain rfl : b = b' := Option.some.inj (hb.symm.trans hb')
      exact (Growth.gated_of_row? hgrowth).trans hopen
    exact ⟨hgate, hend, j, row', _, hrow', hj, hgate', hy, rfl, hc⟩

private theorem Exact.exists_mem_foundIn_iff (h : t.Exact g m branches d false)
    (hrows : t.growths.mapM (·.row? g (d + 1)) = some rows) :
    (∃ x, x ∈ foundIn m rows last) ↔ ∃ i j, i < j
      ∧ ((∃ w q e, Offers g branches i w true ∧ w.length = d ∧ Offers g branches j q e
          ∧ q.length = w.length + (!e).toNat ∧ m.compatible w q = true)
        ∨ (last = true ∧ ∃ p q, Offers g branches i p false ∧ p.length = d + 1
          ∧ Offers g branches j q false ∧ q.length = d + 1 ∧ m.compatible p q = true)) := by
  have hmem := fun i x => h.exists_row_iff (i := i) (x := x) hrows
  rw [exists_mem_foundIn]
  constructor
  · rintro ⟨i, j, row, row', x, y, hij, hrow, hrow', hgate, hgate', hx, hy, hc, hkind⟩
    obtain ⟨hp, hlen, -⟩ := (hmem i x).mp ⟨row, hrow, hgate, hx⟩
    obtain ⟨hq, hlen', -⟩ := (hmem j y).mp ⟨row', hrow', hgate', hy⟩
    refine ⟨i, j, hij, hkind.imp ?_ ?_⟩
    · rintro ⟨hend, -⟩
      rw [hend] at hp hlen
      have hd : x.path.length = d := hlen
      exact ⟨_, _, _, hp, hd, hq, hd.symm ▸ hlen', hc⟩
    · rintro ⟨hlast, hend, hend'⟩
      rw [hend] at hp hlen
      rw [hend'] at hq hlen'
      exact ⟨hlast, _, _, hp, hlen, hq, hlen', hc⟩
  · rintro ⟨i, j, hij, ⟨w, q, e, hw, hd, hq, hlen, hc⟩ | ⟨hlast, p, q, hp, hd, hq, hlen, hc⟩⟩
    · have hle : w.length ≤ q.length := hlen ▸ Nat.le_add_right _ _
      obtain ⟨row, hrow, hgate, hx⟩ := (hmem i ⟨w, true⟩).mpr ⟨hw, hd,
        contested_take_of_compatible (Nat.ne_of_gt hij) hw hq (hd ▸ hle) hc⟩
      obtain ⟨row', hrow', hgate', hy⟩ := (hmem j ⟨q, e⟩).mpr ⟨hq, hd ▸ hlen,
        contested_take_of_compatible (Nat.ne_of_lt hij) hq hw (Nat.le_of_eq hd.symm)
          (TokenModel.compatible_comm ▸ hc)⟩
      refine ⟨i, j, row, row', _, _, hij, hrow, hrow', hgate, hgate', hx, hy, hc, .inl ⟨rfl, ?_⟩⟩
      cases e with
      | true => exact .inl ⟨rfl, hlen.symm⟩
      | false => exact .inr (hlen ▸ Nat.lt_succ_self _)
    · obtain ⟨row, hrow, hgate, hx⟩ := (hmem i ⟨p, false⟩).mpr ⟨hp, hd,
        contested_take_of_compatible (Nat.ne_of_gt hij) hp hq (by omega) hc⟩
      obtain ⟨row', hrow', hgate', hy⟩ := (hmem j ⟨q, false⟩).mpr ⟨hq, hlen,
        contested_take_of_compatible (Nat.ne_of_lt hij) hq hp (by omega)
          (TokenModel.compatible_comm ▸ hc)⟩
      exact ⟨i, j, row, row', _, _, hij, hrow, hrow', hgate, hgate', hx, hy, hc,
        .inr ⟨hlast, rfl, rfl⟩⟩

theorem exact_start : (start branches).Exact g m branches 0 false where
  branch := (List.map_map ..).trans (List.map_id _)
  growth i b hb := by
    rw [start, List.getElem?_map, Option.map_eq_some_iff] at hb
    obtain ⟨branch, -, rfl⟩ := hb
    constructor
    · intro p
      refine ⟨fun h => absurd h Std.TreeSet.not_mem_emptyc, ?_⟩
      rintro (⟨-, hd, -⟩ | ⟨-, hd, -, -⟩ | ⟨-, hlast, -, -⟩)
      · cases hd
      · cases hd
      · cases hlast
    · intro p
      have hp : p ∈ (Std.TreeSet.empty.insert [] : PathSet) ↔ p = [] := by
        rw [Std.TreeSet.mem_insert, Std.LawfulEqCmp.compare_eq_iff_eq, eq_comm]
        exact or_iff_left Std.TreeSet.not_mem_emptyc
      rw [hp]
      constructor
      · rintro rfl
        exact ⟨rfl, rfl, .cut, .inl rfl⟩
      · rintro ⟨-, hlen, -⟩
        exact List.length_eq_zero_iff.mp hlen
  found := by
    constructor
    · rintro ⟨x, hx⟩
      exact absurd hx List.not_mem_nil
    · rintro ⟨i, j, -, ⟨-, -, hd, -, -, -⟩ | ⟨-, -, hlast, -, -, -⟩⟩
      · cases hd
      · cases hlast
  kind x hx := absurd hx List.not_mem_nil

/-- A round keeps and settles of an alternative what it has to. -/
theorem Exact.sortOut (h : t.Exact g m branches d false)
    (hrows : t.growths.mapM (·.row? g (d + 1)) = some rows) {b : Growth} {row : Row}
    (hb : t.growths[i]? = some b) (hrow : rows[i]? = some row)
    (hgrowth : b.row? g (d + 1) = some row) :
    (b.sortOut last (row.verdicts m rows.zipIdx i)).Exact g m branches i (d + 1) last := by
  have hexact := h.growth i b hb
  have hund : ∀ {x clashes}, (x, clashes) ∈ row.verdicts m rows.zipIdx i →
      (clashes.any (·.isUndecided) = true ↔ x.ended = false ∧ Collides g m branches i x.path) :=
    h.any_isUndecided_iff hrows hrow
  constructor
  · intro p
    rw [Growth.mem_settled_sortOut, hexact.settled]
    change _ ↔ Stores g m branches i b.branch.stack (d + 1) last p
    rw [stores_succ_iff]
    refine or_congr_right ?_
    constructor
    · rintro ⟨⟨x, clashes⟩, hv, hfree, rfl⟩
      have hx := (hexact.mem_expansions_iff hgrowth).mp (Row.mem_verdicts.mp hv).1
      refine ⟨x.ended, hx, fun hend hc => ?_⟩
      simpa [(hund hv).mpr ⟨hend, hc⟩] using hfree
    · rintro ⟨e, hx, hlast⟩
      obtain ⟨clashes, hv⟩ := @Row.exists_mem_verdicts m rows.zipIdx row i ⟨p, e⟩
        ((hexact.mem_expansions_iff hgrowth).mpr hx)
      refine ⟨_, hv, ?_, rfl⟩
      rw [Bool.and_eq_false_imp, Bool.not_eq_false']
      intro hu
      obtain ⟨hend, hc⟩ := (hund hv).mp hu
      exact hlast hend hc
  · intro p
    rw [Growth.mem_active_sortOut]
    change _ ↔ last = false ∧ p.length = d + 1 ∧ Expands g b.branch.stack p false ∧ _
    constructor
    · rintro ⟨⟨x, clashes⟩, hv, hheld, rfl⟩
      rw [Bool.and_eq_true, Bool.not_eq_true'] at hheld
      obtain ⟨hend, hc⟩ := (hund hv).mp hheld.1
      obtain ⟨hway, hlen, -⟩ := (hexact.mem_expansions_iff hgrowth).mp (Row.mem_verdicts.mp hv).1
      rw [hend] at hway hlen
      exact ⟨hheld.2, hlen, hway, .inr hc⟩
    · rintro ⟨hlast, hlen, hway, hc⟩
      have hx : Reaches g m branches i d b.branch.stack p false :=
        ⟨hway, hlen, hc.of_isPrefix (List.take_prefix d p)⟩
      obtain ⟨clashes, hv⟩ := @Row.exists_mem_verdicts m rows.zipIdx row i ⟨p, false⟩
        ((hexact.mem_expansions_iff hgrowth).mpr hx)
      have hu := (hund hv).mpr ⟨rfl, hc.resolve_left (List.ne_nil_of_length_eq_add_one hlen)⟩
      exact ⟨_, hv, by rw [hu, hlast]; rfl, rfl⟩

/-- A round that does not give up takes the table to one category more. -/
theorem Exact.round (h : t.Exact g m branches d false)
    (hrows : t.growths.mapM (·.row? g (d + 1)) = some rows) :
    (t.round g m (d + 1) last).Exact g m branches (d + 1) last where
  branch := map_branch_round.trans h.branch
  growth i b hb := by
    obtain ⟨b, row, hb₀, hrow, hgrowth, rfl⟩ := exists_of_getElem?_round hrows hb
    exact h.sortOut hrows hb₀ hrow hgrowth
  found := by
    have hfound := Finding.exists_mem_foldl_note_iff (fun _ => True) (foundIn m rows last)
      t.findings
    rw [← findings_round hrows] at hfound
    simp only [and_true] at hfound
    rw [hfound, h.found, h.exists_mem_foundIn_iff hrows]
    simp only [confused_succ_iff (d := d), ← exists_or, ← and_or_left]
    exact exists₂_congr fun i j => and_congr_right fun _ => or_comm
  kind := by
    have hkind := Finding.exists_mem_foldl_note_iff (fun k => k = .pathLimit) (foundIn m rows last)
      t.findings
    rw [← findings_round hrows] at hkind
    intro x hx hk
    rcases hkind.mp ⟨x, hx, hk⟩ with ⟨y, hy, hk⟩ | ⟨y, hy, hk⟩
    · exact kind_of_mem_foundIn hy hk
    · exact h.kind y hy hk

/-- A round gives up if and only if a search for expansions that it needs does. -/
theorem Exact.mapM_eq_none_iff (h : t.Exact g m branches d false) :
    t.growths.mapM (·.row? g (d + 1)) = none ↔ GivesUp g m branches d := by
  rw [Outcome.mapM_eq_none]
  constructor
  · rintro ⟨b, hb, hrow⟩
    obtain ⟨i, hi⟩ := List.getElem?_of_mem hb
    rw [Growth.row?] at hrow
    split at hrow
    · cases hrow
    · rename_i hne
      rw [Std.TreeSet.isEmpty_iff_forall_not_mem, not_forall] at hne
      obtain ⟨p, hp⟩ := hne
      obtain ⟨-, hlen, hway, hc⟩ := ((h.growth i b hi).active p).mp (not_not.mp hp)
      exact ⟨i, b.branch, p, h.getElem?_branches.mpr ⟨b, hi, rfl⟩, hlen, hway, hc,
        Option.map_eq_none_iff.mp hrow⟩
  · rintro ⟨i, branch, p, hbranch, hlen, hway, hc, hall⟩
    obtain ⟨b, hi, rfl⟩ := h.getElem?_branches.mp hbranch
    have hp : p ∈ b.active := ((h.growth i b hi).active p).mpr ⟨rfl, hlen, hway, hc⟩
    have hne : ¬b.active.isEmpty := fun he => Std.TreeSet.isEmpty_iff_forall_not_mem.mp he p hp
    exact ⟨b, List.mem_of_getElem? hi, by rw [Growth.row?, if_neg hne, hall]; rfl⟩

theorem Exact.allApart (h : t.Exact g m branches d false) (hs : t.isSettled = true) :
    AllApart g m branches d := by
  intro i branch p hbranch hlen hway hc
  obtain ⟨b, hb, rfl⟩ := h.getElem?_branches.mp hbranch
  have hempty := List.all_eq_true.mp hs b (List.mem_of_getElem? hb)
  exact Std.TreeSet.isEmpty_iff_forall_not_mem.mp hempty p
    (((h.growth i b hb).active p).mpr ⟨rfl, hlen, hway, hc⟩)

private theorem Exact.of_allApart (h : t.Exact g m branches d false) (ha : AllApart g m branches d)
    (hd : d ≤ k) : t.Exact g m branches k true where
  branch := h.branch
  growth i b hb := by
    have hbranch := h.getElem?_branches.mpr ⟨b, hb, rfl⟩
    refine ⟨fun p => ((h.growth i b hb).settled p).trans (ha.stores_iff hbranch hd).symm,
      fun p => ⟨fun hp => ?_, nofun⟩⟩
    obtain ⟨-, hlen, hway, hc⟩ := ((h.growth i b hb).active p).mp hp
    exact absurd hc (ha i _ p hbranch hlen hway)
  found := h.found.trans <| exists₂_congr fun i j =>
    and_congr_right fun hij => (ha.confused_iff (Nat.ne_of_lt hij) hd).symm
  kind := h.kind

/-- Rounds that do not give up. -/
theorem Exact.rounds {left : Nat} (h : t.Exact g m branches d false) (hk : d + 1 + left = k)
    (hlimit : ∀ n, d ≤ n → n < k → ¬GivesUp g m branches n) :
    (t.rounds g m left (d + 1)).2.Exact g m branches k true := by
  obtain ⟨rows, hrows⟩ : ∃ rows, t.growths.mapM (·.row? g (d + 1)) = some rows :=
    Option.ne_none_iff_exists'.mp fun hnone =>
      hlimit d (Nat.le_refl d) (by omega) (h.mapM_eq_none_iff.mp hnone)
  induction left generalizing d t rows with
  | zero => exact hk ▸ h.round hrows
  | succ left ih =>
    have hnext : (t.round g m (d + 1) false).Exact g m branches (d + 1) false := h.round hrows
    unfold Table.rounds
    simp only
    split
    · -- no path has to grow, so the rounds that are left out would have found nothing
      rename_i hs
      exact hnext.of_allApart (hnext.allApart hs) (by omega)
    · obtain ⟨rows', hrows'⟩ : ∃ rows,
          (t.round g m (d + 1) false).growths.mapM (·.row? g (d + 1 + 1)) = some rows :=
        Option.ne_none_iff_exists'.mp fun hnone =>
          hlimit (d + 1) (Nat.le_succ d) (by omega) (hnext.mapM_eq_none_iff.mp hnone)
      exact ih hnext (by omega) (fun n hn => hlimit n (Nat.le_of_succ_le hn)) rows' hrows'

private theorem Exact.exists_pathLimit {left n : Nat} (h : t.Exact g m branches d false)
    (hk : d + 1 + left = k) (hd : d ≤ n) (hn : n < k) (hlimit : GivesUp g m branches n) :
    ∃ x ∈ (t.rounds g m left (d + 1)).2.findings, x.kind = .pathLimit := by
  induction left generalizing d t with
  | zero =>
    obtain rfl : d = n := by omega
    exact (round_of_none (h.mapM_eq_none_iff.mpr hlimit)).2
  | succ left ih =>
    unfold Table.rounds
    simp only
    cases hrows : t.growths.mapM (·.row? g (d + 1)) with
    | none =>
      obtain ⟨hs, hfound⟩ := @round_of_none g m (d + 1) false t hrows
      rwa [if_pos hs]
    | some rows =>
      have hnext : (t.round g m (d + 1) false).Exact g m branches (d + 1) false := h.round hrows
      have hne : d ≠ n := by
        rintro rfl
        rw [h.mapM_eq_none_iff.mpr hlimit] at hrows
        cases hrows
      split
      · -- the search that gives up later still has a path to grow, so the rounds cannot stop here
        rename_i hs
        obtain ⟨i, b, p, hb, hlen, hway, hc, -⟩ := hlimit
        have hlt := (hnext.allApart hs).lt_of_contested hb hway hc
        omega
      · exact ih hnext (by omega) (by omega)

end Table

namespace Decision

variable {idx : Nat} {kind : DecisionKind}

/-- The number of rounds is at least one. -/
private theorem rounds_bound : 0 + 1 + (k - 1) = max k 1 := by omega

/-- A path limit is reported if and only if a search for expansions gives up. -/
theorem exists_pathLimit_iff (kind : DecisionKind) (idx : Nat) :
    (∃ x ∈ (build g m k kind idx branches).2, x.kind = .pathLimit) ↔
      HitsLimit g m branches (max k 1) := by
  constructor
  · rintro ⟨x, hx, hk⟩
    by_contra hlimit
    have hexact := Table.exact_start.rounds rounds_bound fun n _ hn hg => hlimit ⟨n, hn, hg⟩
    exact hexact.kind x hx hk
  · rintro ⟨n, hn, hg⟩
    exact Table.exact_start.exists_pathLimit rounds_bound (Nat.zero_le n) hn hg

theorem exact_of_build (hlimit : ¬HitsLimit g m branches (max k 1)) :
    ((Table.start branches).rounds g m (k - 1) 1).2.Exact g m branches (max k 1) true :=
  Table.exact_start.rounds rounds_bound fun n _ hn hg => hlimit ⟨n, hn, hg⟩

/-- Where the path limit is not hit a table stores exactly what grew up to a path that does not
collide, to the end of the rule or to the last round. -/
theorem exists_alternative_of_build (hlimit : ¬HitsLimit g m branches (max k 1)) {b : Branch}
    (hb : branches[i]? = some b) : ∃ a,
      (build g m k kind idx branches).1.alternatives[i]? = some a ∧ a.gated = b.gated
        ∧ a.paths.Nodup
        ∧ ∀ path, path ∈ a.paths ↔ Stores g m branches i b.stack (max k 1) true path := by
  have hexact := exact_of_build hlimit
  obtain ⟨growth, hg, rfl⟩ := hexact.getElem?_branches.mp hb
  refine ⟨⟨growth.settled.toList, growth.branch.gated⟩, ?_, rfl, ?_, fun path => ?_⟩
  · simp only [build, List.getElem?_map, hg, Option.map_some]
  · refine Std.TreeSet.distinct_toList.imp fun {p q} hne heq => hne ?_
    exact Std.LawfulEqCmp.compare_eq_iff_eq.mpr heq
  · exact Std.TreeSet.mem_toList.trans ((hexact.growth i growth hg).settled path)

theorem ambiguous_build_iff_exists : (build g m k kind idx branches).1.ambiguous = true ↔
    ∃ x, x ∈ (build g m k kind idx branches).2 := by
  rw [← List.isEmpty_eq_false_iff_exists_mem, ← Bool.not_eq_true']
  rfl

theorem ambiguous_build_iff (hlimit : ¬HitsLimit g m branches (max k 1)) :
    (build g m k kind idx branches).1.ambiguous = true ↔
      ∃ i j, i < j ∧ Confused g m branches i j (max k 1) true := by
  rw [← (exact_of_build hlimit).found]
  exact ambiguous_build_iff_exists

end Decision

end PredictiveParsing
