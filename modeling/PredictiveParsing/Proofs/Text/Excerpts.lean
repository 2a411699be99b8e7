import PredictiveParsing.Text.Excerpt
import PredictiveParsing.Proofs.Text.Places

/-!
# The excerpt of a place

Positions take a carriage return on its own for the end of a line, excerpts cut a text at line feeds
only. In front of the first such return both agree on the lines, so that a message shows the line
of the character it is about and has its first caret under it.
-/

namespace PredictiveParsing

/-- A carriage return with no line feed behind it. -/
def LoneReturn (text : List Char) (j : Nat) : Prop :=
  text[j]? = some '\r' ∧ text[j + 1]? ≠ some '\n'

instance (text : List Char) (j : Nat) : Decidable (LoneReturn text j) :=
  inferInstanceAs (Decidable (_ ∧ _))

variable {text : List Char} {i j : Nat}

namespace Position

private theorem breaksLine_of_not_loneReturn {c : Char} (hc : text[i]? = some c)
    (h : ¬ LoneReturn text i) : breaksLine c text[i + 1]? = (c == '\n') := by
  by_cases hr : c = '\r'
  · subst hr
    have hnext : text[i + 1]? = some '\n' := Decidable.byContradiction fun hne => h ⟨hc, hne⟩
    rw [hnext]
    rfl
  · simp [breaksLine, hr]

private theorem line_advance (p : Position) (c : Char) (next : Option Char) :
    (p.advance c next).line = p.line + (breaksLine c next).toNat := by
  rw [advance]
  cases breaksLine c next <;> rfl

private theorem count_lt_line_inText (text : List Char) (i : Nat) :
    (text.take i).count '\n' < (inText text i).line ∧
      ∀ j < i, LoneReturn text j → (text.take i).count '\n' + 1 < (inText text i).line := by
  induction i with
  | zero => exact ⟨Nat.zero_lt_one, fun j hj => absurd hj (Nat.not_lt_zero j)⟩
  | succ i ih =>
    obtain ⟨hcount, hlone⟩ := ih
    rw [List.take_add_one]
    cases hc : text[i]? with
    | none =>
      simp only [inText, hc, Option.toList_none, List.append_nil]
      refine ⟨hcount, fun j hj hr => hlone j (Nat.lt_of_le_of_ne (Nat.le_of_lt_succ hj) ?_) hr⟩
      rintro rfl
      rw [hr.1] at hc
      cases hc
    | some c =>
      have hfeed : (text.take i ++ [c]).count '\n' =
          (text.take i).count '\n' + (c == '\n').toNat := by
        rw [List.count_append, List.count_singleton]
        cases c == '\n' <;> rfl
      have hbreak : (c == '\n').toNat ≤ (breaksLine c text[i + 1]?).toNat := by
        rw [breaksLine]
        cases c == '\n' <;> simp
      rw [inText_succ hc, line_advance, Option.toList_some, hfeed]
      refine ⟨by omega, fun j hj hr => ?_⟩
      rcases Nat.lt_succ_iff_lt_or_eq.mp hj with hj | rfl
      · have hlt := hlone j hj hr
        omega
      · obtain rfl : c = '\r' := Option.some.inj (hc.symm.trans hr.1)
        have hlone : breaksLine '\r' text[j + 1]? = true := by simp [breaksLine, hr.2]
        rw [hlone]
        exact Nat.succ_lt_succ hcount

end Position

namespace Excerpt

open Position

/-! ## Lines -/

theorem splitLinesFrom_eq (done : List (List Char)) (line cs : List Char) :
    splitLinesFrom done line cs = done.reverse ++ splitLinesFrom [] line cs := by
  induction cs generalizing done line with
  | nil => simp [splitLinesFrom]
  | cons c cs ih =>
    rw [splitLinesFrom, splitLinesFrom]
    split
    · rw [ih (line.reverse :: done), ih [line.reverse]]
      simp
    · exact ih done (c :: line)

private theorem head?_splitLinesFrom (line cs : List Char) :
    (splitLinesFrom [] line cs).head? = some (line.reverse ++ cs.takeWhile (· ≠ '\n')) := by
  induction cs generalizing line with
  | nil => simp [splitLinesFrom]
  | cons c cs ih =>
    rw [splitLinesFrom]
    split
    · rename_i hc
      rw [splitLinesFrom_eq]
      simp [hc]
    · rename_i hc
      rw [ih]
      simp [hc]

private theorem length_splitLinesFrom (line cs : List Char) :
    (splitLinesFrom [] line cs).length = cs.count '\n' + 1 := by
  induction cs generalizing line with
  | nil => rfl
  | cons c cs ih =>
    rw [splitLinesFrom]
    split
    · rename_i hc
      rw [splitLinesFrom_eq, List.length_append, ih, hc, List.count_cons_self]
      simp
      omega
    · rename_i hc
      rw [ih, List.count_cons_of_ne hc]

/-- Where no carriage return stands on its own in front of a place, the position there says how many
lines have been cut off the text and how much of the line at hand has been read. -/
theorem splitLines_inText (h : ∀ j < i, ¬ LoneReturn text j) :
    ∃ done line, splitLines text = splitLinesFrom done line (text.drop i) ∧
      (inText text i).line = done.length + 1 ∧ (inText text i).column = line.length + 1 := by
  induction i with
  | zero => exact ⟨[], [], rfl, rfl, rfl⟩
  | succ i ih =>
    obtain ⟨done, line, hsplit, hline, hcolumn⟩ := ih fun j hj => h j (Nat.lt_succ_of_lt hj)
    cases hc : text[i]? with
    | none =>
      have hle : text.length ≤ i := List.getElem?_eq_none_iff.mp hc
      rw [List.drop_eq_nil_of_le hle] at hsplit
      rw [List.drop_eq_nil_of_le (Nat.le_succ_of_le hle)]
      simp only [inText, hc]
      exact ⟨done, line, hsplit, hline, hcolumn⟩
    | some c =>
      obtain ⟨hi, rfl⟩ := List.getElem?_eq_some_iff.mp hc
      rw [List.drop_eq_getElem_cons hi, splitLinesFrom] at hsplit
      rw [inText_succ hc, advance, breaksLine_of_not_loneReturn hc (h i (Nat.lt_succ_self i))]
      by_cases hn : text[i] = '\n'
      · rw [if_pos hn] at hsplit
        refine ⟨line.reverse :: done, [], hsplit, ?_⟩
        simp [hn, hline]
      · rw [if_neg hn] at hsplit
        refine ⟨done, text[i] :: line, hsplit, ?_⟩
        simp [hn, hline, hcolumn]

private theorem trimReturns_append_cons {c : Char} (hc : c ≠ '\r') (u v : List Char) :
    trimReturns (u ++ c :: v) = u ++ c :: trimReturns v := by
  simp [trimReturns, List.dropWhile_append, hc]

/-- The line of a place: what has been read of it, and the text from there to the next line feed. -/
theorem line?_inText (h : ∀ j < i, ¬ LoneReturn text j) :
    ∃ line, (inText text i).column = line.length + 1 ∧
      line? text (inText text i).line =
        some (trimReturns (line ++ (text.drop i).takeWhile (· ≠ '\n'))) := by
  obtain ⟨done, line, hsplit, hline, hcolumn⟩ := splitLines_inText h
  refine ⟨line.reverse, by rw [hcolumn, List.length_reverse], ?_⟩
  have hlength : done.reverse.length = done.length := List.length_reverse
  rw [line?, hline, if_neg (Nat.succ_ne_zero _), Nat.add_sub_cancel, hsplit, splitLinesFrom_eq,
    List.getElem?_append_right (Nat.le_of_eq hlength), hlength, Nat.sub_self,
    ← List.head?_eq_getElem?, head?_splitLinesFrom, Option.map_some]

/-- With a carriage return on its own in front of it, the end of a text is on no line of it. -/
theorem line?_inText_length (h : LoneReturn text j) :
    line? text (inText text text.length).line = none := by
  obtain ⟨hj, -⟩ := List.getElem?_eq_some_iff.mp h.1
  have hlt := (count_lt_line_inText text text.length).2 j hj h
  rw [List.take_length] at hlt
  rw [line?, if_neg (by omega), List.getElem?_eq_none, Option.map_none]
  rw [splitLines, length_splitLinesFrom]
  omega

/-- All positions of a text are on lines that excerpts have just if every carriage return in it is
part of a line break of two characters. -/
theorem forall_exists_line_iff :
    (∀ i, ∃ line, line? text (inText text i).line = some line) ↔ ∀ j, ¬ LoneReturn text j := by
  constructor
  · intro h j hj
    obtain ⟨line, hline⟩ := h text.length
    rw [line?_inText_length hj] at hline
    cases hline
  · intro h i
    obtain ⟨_, _, hline⟩ := line?_inText (i := i) fun j _ => h j
    exact ⟨_, hline⟩

private theorem newline_notMem_of_mem_splitLinesFrom {line cs l : List Char} (hline : '\n' ∉ line)
    (h : l ∈ splitLinesFrom [] line cs) : '\n' ∉ l := by
  induction cs generalizing line with
  | nil =>
    rw [splitLinesFrom, List.reverse_singleton, List.mem_singleton] at h
    rwa [h, List.mem_reverse]
  | cons c cs ih =>
    rw [splitLinesFrom] at h
    split at h
    · rw [splitLinesFrom_eq, List.reverse_singleton, List.singleton_append, List.mem_cons] at h
      rcases h with rfl | h
      · rwa [List.mem_reverse]
      · exact ih List.not_mem_nil h
    · rename_i hc
      exact ih (List.not_mem_cons_of_ne_of_not_mem (Ne.symm hc) hline) h

private theorem newline_notMem_of_line? {n : Nat} {line : List Char}
    (h : line? text n = some line) : '\n' ∉ line := by
  rw [line?] at h
  split at h
  · cases h
  · obtain ⟨l, hl, rfl⟩ := Option.map_eq_some_iff.mp h
    intro hmem
    rw [trimReturns, List.mem_reverse] at hmem
    refine newline_notMem_of_mem_splitLinesFrom List.not_mem_nil (List.mem_of_getElem? hl) ?_
    exact List.mem_reverse.mp ((List.dropWhile_sublist _).mem hmem)

/-! ## The caret -/

/-- A message ends in the line `source` and a line with its first caret under the character number
`k` of `source`, counted from zero. -/
def PointsAt (message : String) (source : List Char) (k : Nat) : Prop :=
  ∃ head marks, message.toList = head ++ '\n' :: source ++ '\n' :: marks ++ ['\n'] ∧
    '\n' ∉ source ∧ '\n' ∉ marks ∧ marks[k]? = some '^' ∧ '^' ∉ marks.take k

private theorem newline_notMem_toString (n : Nat) : '\n' ∉ (toString n).toList := by
  intro h
  rw [Nat.toString_eq_repr, Nat.toList_repr] at h
  exact absurd (Nat.isDigit_of_mem_toDigits (by decide) (by decide) h) (by decide)

private theorem render_of_line? {s : Span} {line : List Char} (message : String)
    (h : line? text s.start.line = some line) :
    let number := toString s.start.line
    let margin := String.ofList (List.replicate number.length ' ')
    let carets := String.ofList (List.replicate (s.start.column - 1) ' ') ++
      String.ofList (List.replicate (caretCount line s) '^')
    render text s message = s!"error: {message}\n  --> {s.start.text}\n" ++
      s!"{margin} |\n{number} | {String.ofList line}\n{margin} | {carets}\n" := by
  rw [render]
  simp only [h]
  rfl

private theorem render_pointsAt {s : Span} {line : List Char} (message : String)
    (h : line? text s.start.line = some line) :
    PointsAt (render text s message) ((toString s.start.line ++ " | ").toList ++ line)
      ((toString s.start.line).length + 3 + (s.start.column - 1)) := by
  have hcarets : 0 < caretCount line s := Nat.le_max_right _ _
  have hnumber := newline_notMem_toString s.start.line
  have hline := newline_notMem_of_line? h
  rw [render_of_line? message h]
  generalize toString s.start.line = number at hnumber ⊢
  let margin := List.replicate number.length ' '
  let indent := margin ++ " | ".toList ++ List.replicate (s.start.column - 1) ' '
  have hindent : indent.length = number.length + 3 + (s.start.column - 1) := by
    simp [indent, margin]
    omega
  refine ⟨s!"error: {message}\n  --> {s.start.text}\n".toList ++ margin ++ " |".toList,
    indent ++ List.replicate (caretCount line s) '^', ?_, ?_, ?_, ?_, ?_⟩
  · simp [toString, indent, margin]
  · simp [hnumber, hline]
  · simp [indent, margin]
  · rw [List.getElem?_append_right (Nat.le_of_eq hindent), hindent, Nat.sub_self,
      List.getElem?_replicate, if_pos hcarets]
  · rw [← hindent, List.take_left]
    simp [indent, margin]

end Excerpt

end PredictiveParsing
