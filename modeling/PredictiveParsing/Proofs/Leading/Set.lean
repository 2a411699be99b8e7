import PredictiveParsing.Leading.Set

/-!
# Members of leading sets

What each operation on leading sets does to membership. Sets are exact on ASCII, while all other
characters are members together or not at all.
-/

namespace PredictiveParsing

open Unicode

theorem Unicode.isAscii_iff {c : Char} : isAscii c = true ↔ c.toNat < 128 := by
  simp [isAscii]

theorem Unicode.isAscii_eq_false_iff {c : Char} : isAscii c = false ↔ 128 ≤ c.toNat := by
  simp [isAscii]

/-- What holds of the first 128 code points holds of all ASCII characters. -/
theorem Unicode.forall_ascii {P : Char → Prop} (h : ∀ n : Fin 128, P (Char.ofNat n)) {c : Char}
    (hc : isAscii c = true) : P c := by
  have hlt := isAscii_iff.mp hc
  have heq := h ⟨c.toNat, hlt⟩
  rwa [Char.ofNat_toNat] at heq

theorem Unicode.toNat_ofNat {n : Nat} (h : n < 128) : (Char.ofNat n).toNat = n := by
  rw [Char.ofNat, dif_pos (.inl (Nat.lt_trans h (by decide)))]
  rfl

namespace LeadingSet

variable {s t : LeadingSet} {a b c d : Char}

theorem contains_ascii (h : isAscii d = true) : s.contains d = s.ascii.getLsbD d.toNat := by
  simp [contains, h]

theorem contains_nonAscii (h : isAscii d = false) : s.contains d = s.nonAscii := by
  simp [contains, h]

theorem not_contains_empty : empty.contains d = false := by
  cases h : isAscii d with
  | true => rw [contains_ascii h]; exact BitVec.getLsbD_zero
  | false => rw [contains_nonAscii h]; rfl

theorem contains_all : all.contains d = true := by
  cases h : isAscii d with
  | true =>
    rw [contains_ascii h]
    simp only [all, BitVec.getLsbD_allOnes, decide_eq_true_eq]
    exact isAscii_iff.mp h
  | false => rw [contains_nonAscii h]; rfl

theorem contains_union : (s.union t).contains d = (s.contains d || t.contains d) := by
  cases h : isAscii d with
  | true => simp [contains_ascii h, union]
  | false => simp [contains_nonAscii h, union]

theorem contains_negated : s.negated.contains d = (!isAscii d || !s.contains d) := by
  cases h : isAscii d with
  | true =>
    have := isAscii_iff.mp h
    simp [contains_ascii h, negated, this]
  | false => simp [contains_nonAscii h, negated]

theorem contains_insert : (s.insert c).contains d = true ↔
    s.contains d = true ∨ d = c ∨ (isAscii c = false ∧ isAscii d = false) := by
  cases hc : isAscii c with
  | true =>
    cases hd : isAscii d with
    | true =>
      have hlt := isAscii_iff.mp hc
      have heq : c.toNat = d.toNat ↔ d = c :=
        ⟨fun h => (Char.toNat_inj.mp h).symm, fun h => h ▸ rfl⟩
      simp [contains_ascii hd, insert, hc, BitVec.getLsbD_twoPow, hlt, heq]
    | false =>
      have hne : d ≠ c := by rintro rfl; simp [hc] at hd
      simp [contains_nonAscii hd, insert, hc, hne]
  | false =>
    cases hd : isAscii d with
    | true =>
      have hne : d ≠ c := by rintro rfl; simp [hc] at hd
      simp [contains_ascii hd, insert, hc, hne]
    | false => simp [contains_nonAscii hd, insert, hc]

private theorem getLsbD_bits (first i : Nat) (hi : i < 128) : ∀ stop,
    (bits first stop).getLsbD i = (decide (first ≤ i) && decide (i < stop))
  | 0 => by simp [bits]
  | n + 1 => by
    rw [bits]
    split
    · rename_i hle
      rw [BitVec.getLsbD_or, getLsbD_bits first i hi n, BitVec.getLsbD_twoPow]
      grind
    · rename_i hlt
      have : ¬ (first ≤ i ∧ i < n + 1) := by omega
      simpa using this

theorem contains_insertRange : (s.insertRange a b).contains d = true ↔
    s.contains d = true ∨ (a ≤ d ∧ d ≤ b) ∨
      (a ≤ b ∧ isAscii b = false ∧ isAscii d = false) := by
  have hle : ∀ {x y : Char}, x ≤ y ↔ x.toNat ≤ y.toNat := Iff.rfl
  have hlt : ∀ {x y : Char}, x < y ↔ x.toNat < y.toNat := Iff.rfl
  rw [insertRange]
  split
  · rename_i hba
    rw [hlt] at hba
    simp only [hle]
    constructor
    · exact Or.inl
    · rintro (h | h | h)
      · exact h
      · omega
      · omega
  · rename_i hab
    rw [hlt] at hab
    cases hd : isAscii d with
    | true =>
      have h128 := isAscii_iff.mp hd
      simp only [contains_ascii hd, BitVec.getLsbD_or, getLsbD_bits _ _ h128, hle,
        Bool.or_eq_true, Bool.and_eq_true, decide_eq_true_eq]
      have hmin : d.toNat < min b.toNat 127 + 1 ↔ d.toNat ≤ b.toNat := by omega
      simp [hmin]
    | false =>
      have h128 := isAscii_eq_false_iff.mp hd
      cases hb : isAscii b with
      | true =>
        have hb128 := isAscii_iff.mp hb
        have hnone : ¬ (a.toNat ≤ d.toNat ∧ d.toNat ≤ b.toNat) := by omega
        simp [contains_nonAscii hd, hle, hnone]
      | false =>
        have hab : a.toNat ≤ b.toNat := by omega
        simp [contains_nonAscii hd, hle, hab]

theorem contains_insert_empty :
    (s.insert c).contains d = (s.contains d || (empty.insert c).contains d) := by
  rw [Bool.eq_iff_iff, Bool.or_eq_true, contains_insert, contains_insert, not_contains_empty]
  simp

theorem contains_insertRange_empty :
    (s.insertRange a b).contains d = (s.contains d || (empty.insertRange a b).contains d) := by
  rw [Bool.eq_iff_iff, Bool.or_eq_true, contains_insertRange, contains_insertRange,
    not_contains_empty]
  simp

theorem mem_asciiCodes {n : Nat} : n ∈ s.asciiCodes ↔ s.ascii.getLsbD n = true := by
  simp only [asciiCodes, List.mem_filter, List.mem_range, and_iff_right_iff_imp]
  exact BitVec.lt_of_getLsbD

theorem mem_map_asciiCodes :
    d ∈ s.asciiCodes.map Char.ofNat ↔ isAscii d = true ∧ s.contains d = true := by
  rw [List.mem_map]
  constructor
  · rintro ⟨n, hn, rfl⟩
    rw [mem_asciiCodes] at hn
    have hlt := BitVec.lt_of_getLsbD hn
    have hascii : isAscii (Char.ofNat n) = true := isAscii_iff.mpr (by rwa [toNat_ofNat hlt])
    exact ⟨hascii, by rwa [contains_ascii hascii, toNat_ofNat hlt]⟩
  · rintro ⟨hascii, hd⟩
    rw [contains_ascii hascii] at hd
    exact ⟨d.toNat, mem_asciiCodes.mpr hd, Char.ofNat_toNat d⟩

/-- Sets with the same members are the same. -/
theorem eq_of_contains (h : ∀ d, s.contains d = t.contains d) : s = t := by
  have hascii : s.ascii = t.ascii := by
    refine BitVec.eq_of_getLsbD_eq fun n hn => ?_
    have hcode := toNat_ofNat hn
    have hc : isAscii (Char.ofNat n) = true := isAscii_iff.mpr (by rwa [hcode])
    have hmem := h (Char.ofNat n)
    rwa [contains_ascii hc, contains_ascii hc, hcode] at hmem
  have hbeyond : s.nonAscii = t.nonAscii := h '\u03bb'
  cases s
  cases t
  cases hascii
  cases hbeyond
  rfl

/-- A set with a single member has the one that was entered. -/
theorem eq_of_single?_insert (h : (empty.insert c).single? = some d) : d = c := by
  rw [single?] at h
  split at h
  · rename_i code hcodes hnon
    have hc : isAscii c = true := by
      cases hc : isAscii c with
      | true => rfl
      | false => simp [insert, hc] at hnon
    have hself : (empty.insert c).contains c = true := contains_insert.mpr (.inr (.inl rfl))
    rw [contains_ascii hc, ← mem_asciiCodes, hcodes, List.mem_singleton] at hself
    rw [← Option.some.inj h, ← hself, Char.ofNat_toNat]
  · cases h

theorem single?_of_nonAscii (h : s.nonAscii = true) : s.single? = none := by
  rw [single?]
  split
  · rename_i hnon
    simp [h] at hnon
  · rfl

end LeadingSet

end PredictiveParsing
