import PredictiveParsing.Proofs.Lookahead.Table
import PredictiveParsing.Proofs.Token.Hierarchy

/-!
# Clashes and findings

What a round compares: two expansions clash if their paths can match the same tokens. A round finds
something where one of them ended in front of the other, or where none of them can grow any more.
-/

namespace PredictiveParsing

namespace TokenModel

variable {m : TokenModel} {p q p' q' : CategoryPath} {i j : Nat} {e f : Expansion}

theorem compatible_iff : m.compatible p q = true ↔
    ∀ (n : Nat) (a b : CategoryId), p[n]? = some a → q[n]? = some b → m.overlaps a b = true := by
  rw [compatible, List.all_eq_true]
  constructor
  · intro h n a b ha hb
    exact h (a, b) (List.mem_of_getElem? (List.getElem?_zip_eq_some.mpr ⟨ha, hb⟩))
  · rintro h ⟨a, b⟩ hab
    obtain ⟨n, hn⟩ := List.getElem?_of_mem hab
    obtain ⟨ha, hb⟩ := List.getElem?_zip_eq_some.mp hn
    exact h n a b ha hb

theorem compatible_comm : m.compatible p q = m.compatible q p := by
  rw [Bool.eq_iff_iff, compatible_iff, compatible_iff]
  constructor
  · intro h n a b ha hb
    exact m.overlaps_comm b a ▸ h n b a hb ha
  · intro h n a b ha hb
    exact m.overlaps_comm b a ▸ h n b a hb ha

theorem compatible_of_isPrefix (h : m.compatible p q = true) (hp : p' <+: p) (hq : q' <+: q) :
    m.compatible p' q' = true := by
  obtain ⟨u, rfl⟩ := hp
  obtain ⟨v, rfl⟩ := hq
  rw [compatible_iff] at h ⊢
  intro n a b ha hb
  have hap := (List.getElem?_eq_some_iff.mp ha).1
  have hbq := (List.getElem?_eq_some_iff.mp hb).1
  exact h n a b (List.getElem?_append_left hap ▸ ha) (List.getElem?_append_left hbq ▸ hb)

/-- Beyond the shorter path nothing is compared. -/
theorem compatible_append_right (h : p.length ≤ q.length) :
    m.compatible p (q ++ q') = m.compatible p q := by
  rw [Bool.eq_iff_iff]
  constructor
  · intro hc
    exact compatible_of_isPrefix hc List.prefix_rfl (List.prefix_append q q')
  · intro hc
    rw [compatible_iff] at hc ⊢
    intro n a b ha hb
    have hn := (List.getElem?_eq_some_iff.mp ha).1
    rw [List.getElem?_append_left (Nat.lt_of_lt_of_le hn h)] at hb
    exact hc n a b ha hb

theorem compatible_take_right (h : p.length ≤ q.length) :
    m.compatible p (q.take p.length) = m.compatible p q := by
  have hlen : p.length ≤ (q.take p.length).length := Nat.le_of_eq (List.length_take_of_le h).symm
  have happend := @compatible_append_right m p _ (q.drop p.length) hlen
  rw [← happend, List.take_append_drop]

/-! ## The clash of two expansions -/

theorem clash?_eq_undecided {other : Nat} : m.clash? i j e f = some (.undecided other) ↔
    other = j ∧ e.ended = false ∧ f.ended = false ∧ m.compatible e.path f.path = true := by
  rw [clash?]
  cases m.compatible e.path f.path <;> cases e.ended <;> cases f.ended <;> grind

/-- An expansion ended, and the other alternative comes later and has one that gets as far. -/
theorem exists_clash?_eq_found : (∃ kind other w, m.clash? i j e f = some (.found kind other w)) ↔
    i < j ∧ e.ended = true ∧ m.compatible e.path f.path = true
      ∧ ((f.ended = true ∧ e.path.length = f.path.length) ∨ e.path.length < f.path.length) := by
  constructor
  · rintro ⟨kind, other, w, h⟩
    rw [clash?] at h
    grind
  · rintro ⟨hij, he, hc, ⟨hf, hlen⟩ | hlen⟩
    · exact ⟨.collision, j, e.path, by simp [clash?, hc, he, hf, hlen, hij]⟩
    · exact ⟨.shadowing, j, f.path, by simp [clash?, hc, he, hlen, Nat.ne_of_lt hlen, hij]⟩

private theorem kind_of_clash?_eq_found {kind : Finding.Kind} {other : Nat} {w : CategoryPath}
    (h : m.clash? i j e f = some (.found kind other w)) : kind ≠ .pathLimit := by
  rw [clash?] at h
  grind

end TokenModel

namespace Row

variable {m : TokenModel} {rows : List Row} {i : Nat} {e : Expansion} {c : Clash}

theorem mem_clashes : c ∈ clashes m rows.zipIdx i e ↔
    ∃ (j : Nat) (row : Row) (f : Expansion), rows[j]? = some row ∧ j ≠ i ∧ row.gated = false
      ∧ f ∈ row.expansions ∧ m.clash? i j e f = some c := by
  simp only [clashes, List.mem_flatMap, Prod.exists, List.mem_zipIdx_iff_getElem?]
  constructor
  · rintro ⟨row, j, hrow, hc⟩
    split at hc
    · cases hc
    · rename_i hopen
      rw [Bool.or_eq_true, not_or, decide_eq_true_eq, Bool.not_eq_true] at hopen
      obtain ⟨f, hf, hclash⟩ := List.mem_filterMap.mp hc
      exact ⟨j, row, f, hrow, hopen.1, hopen.2, hf, hclash⟩
  · rintro ⟨j, row, f, hrow, hj, hgate, hf, hclash⟩
    refine ⟨row, j, hrow, ?_⟩
    simpa [hj, hgate] using ⟨f, hf, hclash⟩

/-- An expansion is undecided if it goes on and one of another alternative that matches the same
tokens goes on, too. -/
theorem any_isUndecided_iff {row : Row} {clashes : List Clash}
    (h : (e, clashes) ∈ row.verdicts m rows.zipIdx i) : clashes.any (·.isUndecided) = true ↔
      row.gated = false ∧ e.ended = false
        ∧ ∃ (j : Nat) (row' : Row) (f : Expansion), rows[j]? = some row' ∧ j ≠ i
          ∧ row'.gated = false ∧ f ∈ row'.expansions ∧ f.ended = false
          ∧ m.compatible e.path f.path = true := by
  obtain ⟨-, rfl⟩ := mem_verdicts.mp h
  cases hgate : row.gated with
  | true => simp
  | false =>
    simp only [Bool.false_eq_true, if_false, List.any_eq_true, true_and]
    constructor
    · rintro ⟨c, hc, hu⟩
      obtain ⟨j, row', f, hrow', hj, hgate', hf, hclash⟩ := mem_clashes.mp hc
      cases c with
      | undecided other =>
        obtain ⟨-, he, hend, hcomp⟩ := TokenModel.clash?_eq_undecided.mp hclash
        exact ⟨he, j, row', f, hrow', hj, hgate', hf, hend, hcomp⟩
      | found kind other w => cases hu
    · rintro ⟨he, j, row', f, hrow', hj, hgate', hf, hend, hcomp⟩
      have hclash : m.clash? i j e f = some (.undecided j) :=
        TokenModel.clash?_eq_undecided.mpr ⟨rfl, he, hend, hcomp⟩
      exact ⟨_, mem_clashes.mpr ⟨j, row', f, hrow', hj, hgate', hf, hclash⟩, rfl⟩

end Row

theorem Growth.gated_of_row? {g : Grammar} {depth : Nat} {b : Growth} {row : Row}
    (h : b.row? g depth = some row) : row.gated = b.branch.gated := by
  rw [row?] at h
  split at h
  · obtain rfl := Option.some.inj h
    rfl
  · obtain ⟨found, -, rfl⟩ := Option.map_eq_some_iff.mp h
    rfl

namespace Finding

private theorem exists_mem_note_iff {P : Kind → Prop} {f : Finding} {fs : List Finding} :
    (∃ x ∈ f.note fs, P x.kind) ↔ P f.kind ∨ ∃ x ∈ fs, P x.kind := by
  induction fs with
  | nil => simp [note]
  | cons x fs ih =>
    rw [note]
    split
    · rename_i h
      simp [h]
    · simp only [List.mem_cons, exists_eq_or_imp, ih, or_left_comm]

theorem exists_mem_foldl_note_iff (P : Kind → Prop) (found fs : List Finding) :
    (∃ x ∈ found.foldl (fun fs f => f.note fs) fs, P x.kind) ↔
      (∃ f ∈ found, P f.kind) ∨ ∃ x ∈ fs, P x.kind := by
  induction found generalizing fs with
  | nil => simp
  | cons f found ih =>
    simp only [List.foldl_cons, ih, exists_mem_note_iff, List.mem_cons, exists_eq_or_imp]
    rw [← or_assoc, or_comm (a := P f.kind)]

end Finding

namespace Clash

variable {i : Nat} {path : CategoryPath} {clashes : List Clash} {x : Finding}

private theorem exists_finding? : (∃ c ∈ clashes, ∃ x, c.finding? i = some x) ↔
    ∃ kind other w, found kind other w ∈ clashes := by
  constructor
  · rintro ⟨c, hc, x, hx⟩
    cases c with
    | undecided other => cases hx
    | found kind other w => exact ⟨kind, other, w, hc⟩
  · rintro ⟨kind, other, w, hc⟩
    exact ⟨_, hc, _, rfl⟩

private theorem exists_lastFinding? : (∃ x, lastFinding? i path clashes = some x) ↔
    ∃ j, i < j ∧ undecided j ∈ clashes := by
  rw [← Option.isSome_iff_exists, lastFinding?, List.isSome_findSome?, List.any_eq_true]
  constructor
  · rintro ⟨c, hc, hx⟩
    cases c with
    | undecided j =>
      simp only at hx
      split at hx
      · rename_i hij
        exact ⟨j, hij, hc⟩
      · cases hx
    | found kind other w => cases hx
  · rintro ⟨j, hij, hc⟩
    exact ⟨_, hc, by simp [hij]⟩

private theorem kind_of_finding? {c : Clash}
    (hc : ∀ kind other w, c = found kind other w → kind ≠ .pathLimit) (h : c.finding? i = some x) :
    x.kind ≠ .pathLimit := by
  cases c with
  | undecided other => cases h
  | found kind other w =>
    obtain rfl := Option.some.inj h
    exact hc kind other w rfl

private theorem kind_of_lastFinding? (h : lastFinding? i path clashes = some x) :
    x.kind ≠ .pathLimit := by
  obtain ⟨c, -, hx⟩ := List.exists_of_findSome?_eq_some h
  cases c with
  | undecided j =>
    simp only at hx
    split at hx
    · obtain rfl := Option.some.inj hx
      nofun
    · cases hx
  | found kind other w => cases hx

end Clash

namespace Table

variable {m : TokenModel} {rows : List Row} {last : Bool}

/-- What a round with these rows finds. -/
def foundIn (m : TokenModel) (rows : List Row) (last : Bool) : List Finding :=
  ((rows.zipIdx.map fun (row, i) => row.verdicts m rows.zipIdx i).zipIdx.map
    fun (v, i) => findingsOf last i v).flatten

theorem findings_round {g : Grammar} {depth : Nat} {t : Table}
    (h : t.growths.mapM (·.row? g depth) = some rows) : (t.round g m depth last).findings =
      (foundIn m rows last).foldl (fun fs f => f.note fs) t.findings := by
  simp only [round, h]
  rfl

theorem mem_foundIn {x : Finding} : x ∈ foundIn m rows last ↔
    ∃ (i : Nat) (row : Row) (e : Expansion), rows[i]? = some row ∧ row.gated = false
      ∧ e ∈ row.expansions ∧ ((∃ c ∈ Row.clashes m rows.zipIdx i e, c.finding? i = some x)
        ∨ (last = true
          ∧ Clash.lastFinding? i e.path (Row.clashes m rows.zipIdx i e) = some x)) := by
  have hverdicts : ∀ (i : Nat) (v : List (Expansion × List Clash)),
      (rows.zipIdx.map fun (row, i) => row.verdicts m rows.zipIdx i)[i]? = some v ↔
        ∃ row, rows[i]? = some row ∧ row.verdicts m rows.zipIdx i = v := by
    intro i v
    simp [List.getElem?_map, List.getElem?_zipIdx, Option.map_eq_some_iff]
  simp only [foundIn, List.mem_flatten, List.mem_map, Prod.exists, List.mem_zipIdx_iff_getElem?,
    hverdicts, findingsOf]
  constructor
  · rintro ⟨_, ⟨_, i, ⟨row, hrow, rfl⟩, rfl⟩, hx⟩
    obtain ⟨⟨e, clashes⟩, hv, hx⟩ := List.mem_flatMap.mp hx
    obtain ⟨he, rfl⟩ := Row.mem_verdicts.mp hv
    cases hgate : row.gated with
    | true => simp [hgate, Clash.lastFinding?] at hx
    | false =>
      simp only [hgate, Bool.false_eq_true, if_false, List.mem_append, List.mem_filterMap] at hx
      refine ⟨i, row, e, hrow, hgate, he, hx.imp_right fun hx => ?_⟩
      split at hx
      · rename_i hlast
        exact ⟨hlast, by simpa using hx⟩
      · cases hx
  · rintro ⟨i, row, e, hrow, hgate, he, hx⟩
    refine ⟨_, ⟨_, i, ⟨row, hrow, rfl⟩, rfl⟩, List.mem_flatMap.mpr
      ⟨_, Row.mem_verdicts.mpr ⟨he, rfl⟩, ?_⟩⟩
    simp only [hgate, Bool.false_eq_true, if_false, List.mem_append, List.mem_filterMap]
    refine hx.imp_right fun hx => ?_
    rw [if_pos hx.1]
    simpa using hx.2

theorem kind_of_mem_foundIn {x : Finding} (h : x ∈ foundIn m rows last) : x.kind ≠ .pathLimit := by
  obtain ⟨i, row, e, -, -, -, ⟨c, hc, hx⟩ | ⟨-, hx⟩⟩ := mem_foundIn.mp h
  · refine Clash.kind_of_finding? ?_ hx
    rintro kind other w rfl
    obtain ⟨j, row', f, -, -, -, -, hclash⟩ := Row.mem_clashes.mp hc
    exact TokenModel.kind_of_clash?_eq_found hclash
  · exact Clash.kind_of_lastFinding? hx

/-- A round finds something if and only if an expansion ended and a later alternative gets as far,
or both cannot grow any more. -/
theorem exists_mem_foundIn : (∃ x, x ∈ foundIn m rows last) ↔
    ∃ (i j : Nat) (row row' : Row) (e f : Expansion), i < j ∧ rows[i]? = some row
      ∧ rows[j]? = some row' ∧ row.gated = false ∧ row'.gated = false ∧ e ∈ row.expansions
      ∧ f ∈ row'.expansions
      ∧ m.compatible e.path f.path = true
      ∧ ((e.ended = true ∧ ((f.ended = true ∧ e.path.length = f.path.length)
          ∨ e.path.length < f.path.length))
        ∨ (last = true ∧ e.ended = false ∧ f.ended = false)) := by
  simp only [mem_foundIn]
  constructor
  · rintro ⟨x, i, row, e, hrow, hgate, he, ⟨c, hc, hx⟩ | ⟨hlast, hx⟩⟩
    · obtain ⟨kind, other, w, hc⟩ := Clash.exists_finding?.mp ⟨c, hc, x, hx⟩
      obtain ⟨j, row', f, hrow', hj, hgate', hf, hclash⟩ := Row.mem_clashes.mp hc
      obtain ⟨hij, hend, hcomp, hlen⟩ := TokenModel.exists_clash?_eq_found.mp ⟨_, _, _, hclash⟩
      exact ⟨i, j, row, row', e, f, hij, hrow, hrow', hgate, hgate', he, hf, hcomp,
        .inl ⟨hend, hlen⟩⟩
    · obtain ⟨j, hij, hc⟩ := Clash.exists_lastFinding?.mp ⟨x, hx⟩
      obtain ⟨j', row', f, hrow', hj, hgate', hf, hclash⟩ := Row.mem_clashes.mp hc
      obtain ⟨rfl, he', hf', hcomp⟩ := TokenModel.clash?_eq_undecided.mp hclash
      exact ⟨i, j, row, row', e, f, hij, hrow, hrow', hgate, hgate', he, hf, hcomp,
        .inr ⟨hlast, he', hf'⟩⟩
  · rintro ⟨i, j, row, row', e, f, hij, hrow, hrow', hgate, hgate', he, hf, hcomp, hend | hend⟩
    · obtain ⟨kind, other, w, hclash⟩ :=
        TokenModel.exists_clash?_eq_found.mpr ⟨hij, hend.1, hcomp, hend.2⟩
      have hc := Row.mem_clashes.mpr ⟨j, row', f, hrow', Nat.ne_of_gt hij, hgate', hf, hclash⟩
      obtain ⟨c, hc, x, hx⟩ := Clash.exists_finding?.mpr ⟨kind, other, w, hc⟩
      exact ⟨x, i, row, e, hrow, hgate, he, .inl ⟨c, hc, hx⟩⟩
    · have hclash : m.clash? i j e f = some (.undecided j) :=
        TokenModel.clash?_eq_undecided.mpr ⟨rfl, hend.2.1, hend.2.2, hcomp⟩
      have hc := Row.mem_clashes.mpr ⟨j, row', f, hrow', Nat.ne_of_gt hij, hgate', hf, hclash⟩
      obtain ⟨x, hx⟩ := Clash.exists_lastFinding?.mpr ⟨j, hij, hc⟩
      exact ⟨x, i, row, e, hrow, hgate, he, .inr ⟨hend.1, hx⟩⟩

end Table

end PredictiveParsing
