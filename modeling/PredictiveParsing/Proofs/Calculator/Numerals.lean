import Mathlib.Algebra.Order.Ring.Nat
import PredictiveParsing.Calculator.Arithmetic

/-!
# Numerals

A number is written with decimal digits, and without a zero in front of another digit. ASCII digits
stand for a natural number, which is read as the nearest double-precision number.
-/

namespace PredictiveParsing

/-! ## Digits and white space -/

theorem isAscii_of_isDigit {c : Char} (h : c.isDigit = true) : Unicode.isAscii c = true :=
  decide_eq_true (lt_of_le_of_lt (Char.isDigit_iff_toNat.1 h).2 (by decide))

namespace Unicode

theorem isBlank_of_isDigit {c : Char} (h : c.isDigit = true) : isBlank c = false := by
  obtain ⟨hlow, hhigh⟩ := Char.isDigit_iff_toNat.1 h
  have hlow : 48 ≤ c.toNat := hlow
  have hspace : c ≠ ' ' := by
    rintro rfl
    exact absurd hlow (by decide)
  simp only [isBlank, isAscii_of_isDigit h, if_true, Bool.or_eq_false_iff, beq_eq_false_iff_ne,
    ne_eq, hspace, not_false_eq_true, Bool.and_eq_false_iff, decide_eq_false_iff_not, true_and]
  omega

theorem isDecimalDigit_of_isDigit {c : Char} (h : c.isDigit = true) : isDecimalDigit c = true := by
  rw [isDecimalDigit, if_pos (isAscii_of_isDigit h), h]

private theorem CodeRanges.exists_of_holds {ranges : CodeRanges} {c : Char}
    (h : ranges.holds c = true) : ∃ r ∈ ranges, r.1 ≤ c.toNat ∧ c.toNat ≤ r.2 := by
  have hsearch : ∀ fuel lo hi, ranges.search c.toNat fuel lo hi = true →
      ∃ r ∈ ranges, r.1 ≤ c.toNat ∧ c.toNat ≤ r.2 := by
    intro fuel
    induction fuel with
    | zero => exact fun lo hi h => nomatch h
    | succ fuel ih =>
      intro lo hi h
      unfold search at h
      split at h
      · simp only at h
        split at h
        · cases h
        · rename_i first last hget
          split at h
          · exact ih _ _ h
          · split at h
            · exact ih _ _ h
            · exact ⟨_, Array.mem_of_getElem? hget, by omega, by omega⟩
      · cases h
  exact hsearch _ _ _ h

/-- No character is both white space and a decimal digit. -/
theorem isDecimalDigit_of_isBlank {c : Char} (h : isBlank c = true) : isDecimalDigit c = false := by
  rw [Bool.eq_false_iff]
  intro hdigit
  unfold isDecimalDigit at hdigit
  split at hdigit
  · rw [isBlank_of_isDigit hdigit] at h
    cases h
  · rename_i hascii
    rw [isBlank, if_neg hascii] at h
    obtain ⟨a, ha, hca⟩ := CodeRanges.exists_of_holds h
    obtain ⟨b, hb, hcb⟩ := CodeRanges.exists_of_holds hdigit
    have hapart : ∀ a ∈ blankRanges.toList, ∀ b ∈ digitRanges.toList, a.2 < b.1 ∨ b.2 < a.1 := by
      decide
    have := hapart a ha.val b hb.val
    omega

end Unicode

namespace Decimal

private theorem ofDigits_eq (digits : List Char) :
    ofDigits digits = min overflow (Nat.ofDigitChars 10 digits 0) := by
  unfold ofDigits
  generalize overflow = overflow
  have hfold : ∀ n, digits.foldl (fun n d => min overflow (10 * n + (d.toNat - '0'.toNat)))
      (min overflow n) = min overflow (Nat.ofDigitChars 10 digits n) := by
    induction digits with
    | nil => exact fun n => rfl
    | cons d digits ih =>
      intro n
      rw [List.foldl_cons, Nat.ofDigitChars_cons, ← ih]
      congr 1
      omega
  simpa using hfold 0

private theorem div_le_roundShift (n s : Nat) : n / 2 ^ s ≤ roundShift n s := by
  unfold roundShift
  simp only [Nat.pow_eq]
  split
  · exact le_rfl
  · exact Nat.le_succ _

private theorem nearestBits_of_le_log2 {n : Nat} (h : 1024 ≤ n.log2) :
    nearestBits n = infinityBits := by
  have hpos : n ≠ 0 := by
    rintro rfl
    exact absurd h (by decide)
  have hmantissa : 2 ^ 52 ≤ roundShift n (n.log2 - 52) := by
    refine le_trans ?_ (div_le_roundShift n _)
    rw [Nat.le_div_iff_mul_le (Nat.two_pow_pos _), ← pow_add]
    rw [show 52 + (n.log2 - 52) = n.log2 by omega]
    exact Nat.log2_self_le hpos
  have hexponent : (1024 + 1022) * 2 ^ 52 ≤ (n.log2 + 1022) * 2 ^ 52 :=
    Nat.mul_le_mul_right _ (by omega)
  have hlarge : ¬n.log2 ≤ 52 := by omega
  simp only [nearestBits, hpos, hlarge, if_false, Nat.pow_eq]
  refine Nat.min_eq_left ?_
  simp only [infinityBits, Nat.pow_eq]
  omega

private theorem nearestBits_of_overflow_le {n : Nat} (h : overflow ≤ n) :
    nearestBits n = infinityBits := by
  unfold overflow at h
  generalize hk : 1024 = k at h
  have hpos : n ≠ 0 := Nat.ne_of_gt (lt_of_lt_of_le (Nat.two_pow_pos k) h)
  exact nearestBits_of_le_log2 (hk.trans_le ((Nat.le_log2 hpos).2 h))

private theorem nearest_min_overflow (n : Nat) : nearest (min overflow n) = nearest n := by
  rcases le_total overflow n with h | h
  · rw [Nat.min_eq_left h, nearest, nearest, nearestBits_of_overflow_le h,
      nearestBits_of_overflow_le le_rfl]
  · rw [Nat.min_eq_right h]

end Decimal

namespace Calculator

/-- Zero, or decimal digits of any script behind one of the digits from one to nine. -/
inductive IsNumeral : List Char → Prop where
  | zero : IsNumeral ['0']
  | digits {c : Char} {cs : List Char} (hc : '1' ≤ c ∧ c ≤ '9')
      (hcs : ∀ d ∈ cs, Unicode.isDecimalDigit d = true) : IsNumeral (c :: cs)

theorem IsNumeral.isDigit {c : Char} {cs : List Char} (h : IsNumeral (c :: cs)) :
    c.isDigit = true := by
  cases h with
  | zero => rfl
  | digits hc hcs => exact Char.isDigit_iff_toNat.2 ⟨le_trans (by decide) hc.1, hc.2⟩

theorem IsNumeral.isDecimalDigit {cs : List Char} (h : IsNumeral cs) :
    ∀ d ∈ cs, Unicode.isDecimalDigit d = true := by
  cases h with
  | zero => exact List.forall_mem_singleton.2 (Unicode.isDecimalDigit_of_isDigit rfl)
  | digits hc hcs =>
    exact List.forall_mem_cons.2
      ⟨Unicode.isDecimalDigit_of_isDigit (IsNumeral.digits hc hcs).isDigit, hcs⟩

/-- The value of ASCII digits is the nearest number. -/
theorem literalValue_ofList {cs : List Char} (h : ∀ c ∈ cs, c.isDigit = true) :
    literalValue (String.ofList cs) = Decimal.nearest (Nat.ofDigitChars 10 cs 0) := by
  have hall : (String.ofList cs).toList.all (·.isDigit) = true := by simpa using h
  rw [literalValue, if_pos hall, String.toList_ofList, Decimal.ofDigits_eq,
    Decimal.nearest_min_overflow]

theorem literalValue_toDigits (n : Nat) :
    literalValue (String.ofList (Nat.toDigits 10 n)) = Decimal.nearest n := by
  rw [literalValue_ofList fun c hc => Nat.isDigit_of_mem_toDigits (by decide) le_rfl hc,
    Nat.ofDigitChars_toDigits (by decide) le_rfl]

theorem toDigits_injective : Function.Injective (Nat.toDigits 10) := fun m n h => by
  rw [← Nat.ofDigitChars_toDigits (n := m) (b := 10) (by decide) le_rfl, h,
    Nat.ofDigitChars_toDigits (by decide) le_rfl]

/-! ## Numerals of ASCII digits -/

theorem digit_lt {c : Char} (h : c.isDigit = true) : c.toNat - '0'.toNat < 10 := by
  have hhigh : c.toNat ≤ 57 := (Char.isDigit_iff_toNat.1 h).2
  have hzero : '0'.toNat = 48 := rfl
  omega

theorem digitChar_digit {c : Char} (h : c.isDigit = true) :
    (c.toNat - '0'.toNat).digitChar = c := by
  have hall : ∀ d : Fin 10,
      ((Char.ofNat (48 + d)).toNat - '0'.toNat).digitChar = Char.ofNat (48 + d) := by decide
  obtain ⟨d, hd⟩ : ∃ d : Fin 10, c.toNat = 48 + d := by
    have hlow : 48 ≤ c.toNat := (Char.isDigit_iff_toNat.1 h).1
    exact ⟨⟨c.toNat - 48, digit_lt h⟩, (Nat.add_sub_of_le hlow).symm⟩
  rw [← Char.ofNat_toNat c, hd]
  exact hall d

private theorem toDigits_ofDigitChars {n : Nat} (hn : 0 < n) {cs : List Char}
    (h : ∀ c ∈ cs, c.isDigit = true) :
    Nat.toDigits 10 (Nat.ofDigitChars 10 cs n) = Nat.toDigits 10 n ++ cs := by
  induction cs generalizing n with
  | nil => simp
  | cons c cs ih =>
    rw [List.forall_mem_cons] at h
    have hdigit := digit_lt h.1
    rw [Nat.ofDigitChars_cons, ih (by omega) h.2,
      ← Nat.toDigits_append_toDigits (by decide) hn hdigit, Nat.toDigits_of_lt_base hdigit,
      digitChar_digit h.1, List.append_assoc, List.singleton_append]

/-- A numeral of ASCII digits is that of a natural number. -/
theorem IsNumeral.exists_toDigits {cs : List Char} (h : IsNumeral cs)
    (hascii : ∀ c ∈ cs, c.isDigit = true) : ∃ n, Nat.toDigits 10 n = cs := by
  cases h with
  | zero => exact ⟨0, rfl⟩
  | @digits c cs hc hcs =>
    rw [List.forall_mem_cons] at hascii
    have hpos : 0 < c.toNat - '0'.toNat := by
      have hlow : 49 ≤ c.toNat := hc.1
      have hzero : '0'.toNat = 48 := rfl
      omega
    refine ⟨_, (toDigits_ofDigitChars hpos hascii.2).trans ?_⟩
    rw [Nat.toDigits_of_lt_base (digit_lt hascii.1), digitChar_digit hascii.1,
      List.singleton_append]

theorem isNumeral_toDigits (n : Nat) : IsNumeral (Nat.toDigits 10 n) := by
  have hdigit : ∀ d : Fin 10, (d : Nat).digitChar.isDigit = true
      ∧ (d ≠ 0 → '1' ≤ (d : Nat).digitChar ∧ (d : Nat).digitChar ≤ '9') := by decide
  induction n using Nat.strong_induction_on with
  | h n ih =>
    rw [Nat.toDigits_eq_if (by decide)]
    split
    · rename_i hn
      by_cases h0 : n = 0
      · exact h0 ▸ .zero
      · exact .digits ((hdigit ⟨n, hn⟩).2 fun h => h0 (congrArg Fin.val h)) (by simp)
    · have hlast := Unicode.isDecimalDigit_of_isDigit (hdigit ⟨n % 10, Nat.mod_lt n (by decide)⟩).1
      have hfront := ih (n / 10) (by omega)
      generalize hds : Nat.toDigits 10 (n / 10) = ds at hfront
      cases hfront with
      | zero => have := toDigits_injective (hds.trans (rfl : _ = Nat.toDigits 10 0)); omega
      | digits hc hcs =>
        exact .digits hc (List.forall_mem_append.2 ⟨hcs, List.forall_mem_singleton.2 hlast⟩)

end Calculator

end PredictiveParsing
