import PredictiveParsing.Text.Position

/-!
# Places in a text

The position in front of each character of a text, counted from its start one character at a time,
and the text under a span between two such positions.
-/

namespace PredictiveParsing

/-! ## Bytes -/

theorem foldl_utf8Size (n : Nat) (cs : List Char) :
    cs.foldl (fun n c => n + c.utf8Size) n = n + byteCount cs := by
  rw [byteCount]
  induction cs generalizing n with
  | nil => rfl
  | cons c cs ih => rw [List.foldl_cons, List.foldl_cons, ih, ih (0 + c.utf8Size), Nat.zero_add,
      Nat.add_assoc]

theorem byteCount_nil : byteCount [] = 0 := rfl

theorem byteCount_cons (c : Char) (cs : List Char) :
    byteCount (c :: cs) = c.utf8Size + byteCount cs := by
  rw [byteCount, List.foldl_cons, foldl_utf8Size, Nat.zero_add]

theorem byteCount_append (u v : List Char) : byteCount (u ++ v) = byteCount u + byteCount v := by
  rw [byteCount, List.foldl_append, foldl_utf8Size]
  rfl

theorem byteCount_pos {cs : List Char} : 0 < byteCount cs ↔ cs ≠ [] := by
  cases cs with
  | nil => simp [byteCount_nil]
  | cons c cs =>
    have hpos := Char.utf8Size_pos c
    simp only [byteCount_cons, ne_eq, reduceCtorEq, not_false_eq_true, iff_true]
    omega

private theorem splitBytesFrom?_eq_some {n : Nat} {taken cs u v : List Char} :
    splitBytesFrom? taken n cs = some (u, v) ↔
      ∃ w, u = taken.reverse ++ w ∧ cs = w ++ v ∧ byteCount w = n := by
  induction cs generalizing n taken with
  | nil =>
    rw [splitBytesFrom?]
    constructor
    · intro h
      split at h
      · rename_i hn
        obtain ⟨rfl, rfl⟩ := Prod.mk.inj (Option.some.inj h)
        exact ⟨[], by simp, rfl, hn ▸ byteCount_nil⟩
      · cases h
    · rintro ⟨w, rfl, hw, rfl⟩
      obtain ⟨rfl, rfl⟩ := List.append_eq_nil_iff.mp hw.symm
      simp [byteCount_nil]
  | cons c cs ih =>
    rw [splitBytesFrom?]
    constructor
    · intro h
      split at h
      · rename_i hn
        obtain ⟨rfl, rfl⟩ := Prod.mk.inj (Option.some.inj h)
        exact ⟨[], by simp, rfl, hn ▸ byteCount_nil⟩
      · split at h
        · rename_i hle
          obtain ⟨w, rfl, rfl, hw⟩ := ih.mp h
          exact ⟨c :: w, by simp, rfl, by rw [byteCount_cons, hw]; omega⟩
        · cases h
    · rintro ⟨w, rfl, hw, rfl⟩
      cases w with
      | nil =>
        obtain rfl : c :: cs = v := hw
        simp [byteCount_nil]
      | cons d w =>
        obtain ⟨rfl, rfl⟩ := List.cons.inj hw
        have hpos := Char.utf8Size_pos c
        rw [byteCount_cons, if_neg (by omega), if_pos (by omega), ih]
        exact ⟨w, by simp, rfl, by omega⟩

/-- A text is split at a number of bytes where that many bytes are a number of characters. -/
theorem splitBytes?_eq_some {n : Nat} {cs u v : List Char} :
    splitBytes? n cs = some (u, v) ↔ cs = u ++ v ∧ byteCount u = n := by
  rw [splitBytes?, splitBytesFrom?_eq_some]
  constructor
  · rintro ⟨w, rfl, h⟩
    exact h
  · exact fun h => ⟨u, rfl, h⟩

/-! ## Positions -/

namespace Position

/-- The position in front of the character with index `i` of a text: the characters in front of it
move the start on one by one, each with a look at the character behind it. -/
def inText (text : List Char) : (i : Nat) → Position
  | 0 => start
  | i + 1 =>
    match text[i]? with
    | none => inText text i
    | some c => (inText text i).advance c text[i + 1]?

variable {text : List Char} {i j : Nat}

theorem offset_advance (p : Position) (c : Char) (next : Option Char) :
    (p.advance c next).offset = p.offset + c.utf8Size := by
  rw [advance]
  split <;> rfl

theorem inText_succ {c : Char} (h : text[i]? = some c) :
    inText text (i + 1) = (inText text i).advance c text[i + 1]? := by
  simp only [inText, h]

theorem offset_inText (text : List Char) (i : Nat) :
    (inText text i).offset = byteCount (text.take i) := by
  induction i with
  | zero => rfl
  | succ i ih =>
    cases h : text[i]? with
    | none =>
      simp only [inText, h, ih]
      rw [List.take_add_one, h, Option.toList_none, List.append_nil]
    | some c =>
      rw [inText_succ h, offset_advance, ih, List.take_add_one, h, byteCount_append,
        Option.toList_some, byteCount_cons, byteCount_nil, Nat.add_zero]

theorem offset_inText_le (text : List Char) (h : i ≤ j) :
    (inText text i).offset ≤ (inText text j).offset := by
  obtain ⟨v, hv⟩ := List.take_prefix_take_left (l := text) h
  rw [offset_inText, offset_inText, ← hv, byteCount_append]
  exact Nat.le_add_right _ _

/-- Lines and columns are counted from one, so that neither is beyond the characters of the text by
more than one. -/
theorem inText_le (text : List Char) (i : Nat) :
    (inText text i).line ≤ text.length + 1 ∧ (inText text i).column ≤ text.length + 1 := by
  have hle : ∀ i ≤ text.length, (inText text i).line ≤ i + 1 ∧ (inText text i).column ≤ i + 1 := by
    intro i
    induction i with
    | zero => exact fun _ => ⟨Nat.le_refl _, Nat.le_refl _⟩
    | succ i ih =>
      intro hi
      obtain ⟨hline, hcolumn⟩ := ih (Nat.le_of_succ_le hi)
      rw [inText_succ (List.getElem?_eq_getElem hi), advance]
      split
      · exact ⟨Nat.succ_le_succ hline, Nat.le_add_left _ _⟩
      · exact ⟨Nat.le_succ_of_le hline, Nat.succ_le_succ hcolumn⟩
  induction i with
  | zero => exact ⟨Nat.le_add_left _ _, Nat.le_add_left _ _⟩
  | succ i ih =>
    cases h : text[i]? with
    | none => simpa only [inText, h] using ih
    | some c =>
      obtain ⟨hi, -⟩ := List.getElem?_eq_some_iff.mp h
      obtain ⟨hline, hcolumn⟩ := hle (i + 1) hi
      omega

/-- The position behind a stretch of a text. -/
theorem behind_inText {u v : List Char} (h : text.drop i = u ++ v) :
    (inText text i).behind u v = inText text (i + u.length) := by
  induction u generalizing i with
  | nil => rfl
  | cons c u ih =>
    have hi : text[i]? = some c := by
      rw [← List.head?_drop, h]
      rfl
    have hdrop : text.drop (i + 1) = u ++ v := by
      rw [← List.tail_drop, h]
      rfl
    have hnext : text[i + 1]? = u.head?.or v.head? := by
      rw [← List.head?_drop, hdrop, List.head?_append]
    rw [behind, ← hnext, ← inText_succ hi, ih hdrop, List.length_cons]
    exact congrArg (inText text) (by omega)

end Position

open Position

/-- The text under the span between two places. -/
theorem slice_inText {text u v : List Char} {i : Nat} (h : text.drop i = u ++ v) :
    Span.slice ⟨inText text i, inText text (i + u.length)⟩ text = u := by
  have hfront : splitBytes? (inText text i).offset text = some (text.take i, text.drop i) :=
    splitBytes?_eq_some.mpr ⟨(List.take_append_drop i text).symm, (offset_inText text i).symm⟩
  have htake : text.take (i + u.length) = text.take i ++ u := by
    rw [List.take_add, h, List.take_left]
  have hoffset : (inText text (i + u.length)).offset = (inText text i).offset + byteCount u := by
    rw [offset_inText, offset_inText, htake, byteCount_append]
  have hback : splitBytes? (byteCount u) (text.drop i) = some (u, v) :=
    splitBytes?_eq_some.mpr ⟨h, rfl⟩
  simp only [Span.slice, hfront, hoffset, Nat.le_add_right, if_true, Nat.add_sub_cancel_left,
    hback, Option.map_some, Option.getD_some]

end PredictiveParsing
