import PredictiveParsing.Proofs.Lexing.Segments

/-!
# Segments tile a text

The segments of a text stand side by side in it, each with the positions of its ends in the whole
text. That stays so when neighbours without a category are joined and when the segments behind the
last token that counts are left out.
-/

namespace PredictiveParsing

/-! ## Segments at their places -/

namespace Segment

variable {candidates : Char → List Category} {text : List Char} {i j k : Nat}

open Position (inText)

/-- The longest match at the start of a text, of the categories that may match at its first
character. -/
def matchAt? (candidates : Char → List Category) : List Char → Option (Category × Nat)
  | [] => none
  | c :: cs => longestMatch? (candidates c) (c :: cs)

/-- The segment stands in the text from the character with index `i` on, with the positions of its
ends. It is the longest match there, or a run of characters at which nothing matches. -/
structure StandsAt (candidates : Char → List Category) (text : List Char) (i : Nat) (s : Segment) :
    Prop where
  nonempty : s.text ≠ []
  isPrefix : s.text <+: text.drop i
  span : s.span = ⟨inText text i, inText text (i + s.text.length)⟩
  matched : ∀ k ∈ s.category, matchAt? candidates (text.drop i) = some (k, byteCount s.text)
  unmatched : s.category = none →
    ∀ l < s.text.length, matchAt? candidates (text.drop (i + l)) = none

/-- The segments stand side by side from the character with index `i` up to the one with index `j`.
-/
def Tile (candidates : Char → List Category) (text : List Char) :
    (i : Nat) → List Segment → (j : Nat) → Prop
  | i, [], j => i = j
  | i, s :: rest, j =>
    s.StandsAt candidates text i ∧ Tile candidates text (i + s.text.length) rest j

theorem StandsAt.add_length_le {s : Segment} (h : s.StandsAt candidates text i) :
    i + s.text.length ≤ text.length := by
  have hpos := List.length_pos_iff.mpr h.nonempty
  have hle := h.isPrefix.length_le
  rw [List.length_drop] at hle
  omega

theorem tile_append {xs ys : List Segment} :
    Tile candidates text i (xs ++ ys) k ↔
      ∃ j, Tile candidates text i xs j ∧ Tile candidates text j ys k := by
  induction xs generalizing i with
  | nil => simp [Tile]
  | cons s xs ih => simp [Tile, ih, and_assoc]

theorem Tile.le_length {xs : List Segment} (h : Tile candidates text i xs j)
    (hi : i ≤ text.length) : j ≤ text.length := by
  induction xs generalizing i with
  | nil => exact Eq.symm h ▸ hi
  | cons s xs ih => exact ih h.2 h.1.add_length_le

/-- The segments together are the text in between. -/
theorem Tile.flatMap_text {xs : List Segment} (h : Tile candidates text i xs j) :
    xs.flatMap (·.text) <+: text.drop i ∧ i + (xs.flatMap (·.text)).length = j := by
  induction xs generalizing i with
  | nil => exact ⟨List.nil_prefix, h⟩
  | cons s xs ih =>
    obtain ⟨v, hv⟩ := h.1.isPrefix
    obtain ⟨hrest, hj⟩ := ih h.2
    have hdrop : text.drop (i + s.text.length) = v := by
      rw [← List.drop_drop, ← hv, List.drop_left]
    rw [List.flatMap_cons]
    constructor
    · rw [← hv]
      exact (List.prefix_append_right_inj s.text).mpr (hdrop ▸ hrest)
    · rw [List.length_append]
      omega

theorem exists_of_mem_tile {xs : List Segment} (h : Tile candidates text i xs j) {s : Segment}
    (hs : s ∈ xs) : ∃ k, s.StandsAt candidates text k := by
  induction xs generalizing i with
  | nil => cases hs
  | cons x xs ih =>
    rcases List.mem_cons.mp hs with rfl | hs
    · exact ⟨i, h.1⟩
    · exact ih h.2 hs

/-- The text of a segment is the text under its span. -/
theorem StandsAt.slice_eq {s : Segment} (h : s.StandsAt candidates text i) :
    s.span.slice text = s.text := by
  obtain ⟨v, hv⟩ := h.isPrefix
  rw [h.span, slice_inText hv.symm]

/-! ## Cutting -/

variable (candidates) in
private theorem standsAt_next {c : Char} {cs : List Char} (h : text.drop i = c :: cs) :
    (next (candidates c) (inText text i) c cs).1.StandsAt candidates text i
      ∧ (next (candidates c) (inText text i) c cs).2
        = text.drop (i + (next (candidates c) (inText text i) c cs).1.text.length) := by
  have hi : text[i]? = some c := by rw [← List.head?_drop, h, List.head?_cons]
  have hbehind : text.drop (i + 1) = cs := by rw [← List.tail_drop, h, List.tail_cons]
  have hmatch : matchAt? candidates (text.drop i) = longestMatch? (candidates c) (c :: cs) := by
    rw [h, matchAt?]
  cases hlongest : longestMatch? (candidates c) (c :: cs) with
  | none =>
    have hnext : next (candidates c) (inText text i) c cs
        = (⟨none, [c], ⟨inText text i, (inText text i).advance c cs.head?⟩⟩, cs) := by
      simp only [next, matched?, hlongest]
    rw [hnext]
    refine ⟨⟨List.cons_ne_nil c [], ⟨cs, h.symm⟩, ?_, by simp, ?_⟩, hbehind.symm⟩
    · simp only [List.length_singleton, Position.inText_succ hi, ← List.head?_drop, hbehind]
    · intro _ l hl
      obtain rfl : l = 0 := by simpa using hl
      exact hmatch.trans hlongest
  | some found =>
    obtain ⟨k, n⟩ := found
    obtain ⟨-, hlength, hpos⟩ := longestMatch?_eq_some hlongest
    obtain ⟨u, v, huv, hn⟩ := Matcher.exists_of_matchLength? hlength
    have hsplit : splitBytes? n (c :: cs) = some (u, v) := splitBytes?_eq_some.mpr ⟨huv, hn⟩
    have hnext : next (candidates c) (inText text i) c cs
        = (⟨some k, u, ⟨inText text i, (inText text i).behind u v⟩⟩, v) := by
      simp only [next, matched?, hlongest, hsplit]
    rw [hnext]
    have hu : text.drop i = u ++ v := h.trans huv
    refine ⟨⟨byteCount_pos.mp (hn ▸ hpos), ⟨v, hu.symm⟩, ?_, ?_, by simp⟩, ?_⟩
    · rw [Position.behind_inText hu]
    · intro k' hk'
      obtain rfl := Option.some.inj hk'
      rw [hmatch, hlongest, hn]
    · rw [← List.drop_drop, hu, List.drop_left]

private theorem tile_cutFrom {fuel : Nat} (hi : i ≤ text.length) (hfuel : text.length ≤ i + fuel) :
    Tile candidates text i (cutFrom candidates fuel (inText text i) (text.drop i)) text.length := by
  induction fuel generalizing i with
  | zero =>
    obtain rfl : i = text.length := by omega
    rw [List.drop_length]
    rfl
  | succ fuel ih =>
    cases h : text.drop i with
    | nil =>
      have hlength : text.length - i = 0 := by rw [← List.length_drop, h, List.length_nil]
      obtain rfl : i = text.length := by omega
      rfl
    | cons c cs =>
      obtain ⟨hstands, hrest⟩ := standsAt_next candidates h
      have hpos := List.length_pos_iff.mpr hstands.nonempty
      simp only [cutFrom, hrest, hstands.span]
      exact ⟨hstands, ih hstands.add_length_le (by omega)⟩

/-- Cutting goes through the whole text. -/
theorem tile_cut (candidates : Char → List Category) (text : List Char) :
    Tile candidates text 0 (cut candidates text) text.length :=
  tile_cutFrom (Nat.zero_le _) (Nat.le_add_left _ _)

/-! ## Joining -/

/-- Nothing matches at any character of neighbours without a category. -/
theorem Tile.unmatched {run : List Segment} (h : Tile candidates text i run j)
    (hnone : ∀ s ∈ run, s.category = none) :
    ∀ l < (run.flatMap (·.text)).length, matchAt? candidates (text.drop (i + l)) = none := by
  induction run generalizing i with
  | nil => exact fun l hl => absurd hl (Nat.not_lt_zero l)
  | cons s run ih =>
    rw [List.forall_mem_cons] at hnone
    intro l hl
    rw [List.flatMap_cons, List.length_append] at hl
    rcases Nat.lt_or_ge l s.text.length with hlt | hge
    · exact h.1.unmatched hnone.1 l hlt
    · have hrest := ih h.2 hnone.2 (l - s.text.length) (by omega)
      rwa [show i + s.text.length + (l - s.text.length) = i + l by omega] at hrest

private theorem Tile.standsAt_join {first : Segment} {others : List Segment} {last : Segment}
    (h : Tile candidates text i (first :: others) j)
    (hlast : (first :: others).getLast? = some last)
    (hnone : ∀ s ∈ first :: others, s.category = none) :
    StandsAt candidates text i
      ⟨none, (first :: others).flatMap (·.text), ⟨first.span.start, last.span.stop⟩⟩ := by
  have hends : last.span.stop = inText text j := by
    obtain ⟨front, hfront⟩ := List.getLast?_eq_some_iff.mp hlast
    rw [hfront] at h
    obtain ⟨k, -, hk, rfl⟩ := tile_append.mp h
    rw [hk.span]
  have hall := h.flatMap_text
  refine ⟨?_, hall.1, ?_, nofun, fun _ => h.unmatched hnone⟩
  · exact fun hnil => h.1.nonempty (List.append_eq_nil_iff.mp hnil).1
  · rw [hends, ← hall.2, h.1.span]

private theorem tile_flush {done run : List Segment} (hdone : Tile candidates text 0 done.reverse i)
    (hrun : Tile candidates text i run.reverse j) (hnone : ∀ s ∈ run, s.category = none) :
    Tile candidates text 0 (joinUnmatchedFrom.flush done run).reverse j := by
  rw [joinUnmatchedFrom.flush]
  cases h : run.reverse with
  | nil =>
    rw [h] at hrun
    obtain rfl : i = j := hrun
    exact hdone
  | cons first others =>
    have hlast : (first :: others).getLast? = some (run.headD first) := by
      obtain ⟨s, hs⟩ : ∃ s, run.head? = some s := by
        cases run with
        | nil => cases h
        | cons s run => exact ⟨s, rfl⟩
      rw [← h, List.getLast?_reverse, hs, List.headD_eq_head?_getD, hs, Option.getD_some]
    rw [h] at hrun
    have hstands := hrun.standsAt_join hlast fun s hs =>
      hnone s (List.mem_reverse.mp (h ▸ hs))
    rw [List.reverse_cons]
    exact tile_append.mpr ⟨i, hdone, hstands, hrun.flatMap_text.2⟩

private theorem tile_joinUnmatchedFrom {done run segments : List Segment}
    (hdone : Tile candidates text 0 done.reverse i) (hrun : Tile candidates text i run.reverse j)
    (hnone : ∀ s ∈ run, s.category = none) (h : Tile candidates text j segments k) :
    Tile candidates text 0 (joinUnmatchedFrom done run segments) k := by
  induction segments generalizing done run i j with
  | nil =>
    obtain rfl : j = k := h
    exact tile_flush hdone hrun hnone
  | cons s segments ih =>
    rw [joinUnmatchedFrom]
    split
    · rename_i hs
      refine ih hdone ?_ (List.forall_mem_cons.mpr ⟨Option.isNone_iff_eq_none.mp hs, hnone⟩) h.2
      rw [List.reverse_cons]
      exact tile_append.mpr ⟨j, hrun, h.1, rfl⟩
    · refine ih (i := j + s.text.length) ?_ rfl (List.forall_mem_nil _) h.2
      rw [List.reverse_cons]
      exact tile_append.mpr ⟨j, tile_flush hdone hrun hnone, h.1, rfl⟩

/-- What is joined still tiles the text. -/
theorem Tile.joinUnmatched {segments : List Segment} (h : Tile candidates text 0 segments k) :
    Tile candidates text 0 (joinUnmatched segments) k := by
  have hnone : Tile candidates text 0 (List.reverse []) 0 := rfl
  exact tile_joinUnmatchedFrom hnone hnone nofun h

/-! ## The limit on tokens -/

theorem limitFrom_eq (done segments : List Segment) (left : Nat) : ∃ rest,
    done.reverse ++ segments
        = (limitFrom done left segments).1 ++ (limitFrom done left segments).2.toList ++ rest
      ∧ ((limitFrom done left segments).2 = none → rest = [])
      ∧ ∀ s ∈ (limitFrom done left segments).2, s.isKept = true
        ∧ (limitFrom done left segments).1.countP (·.isKept) = done.countP (·.isKept) + left := by
  induction segments generalizing done left with
  | nil => exact ⟨[], by simp [limitFrom], fun _ => rfl, by simp [limitFrom]⟩
  | cons s segments ih =>
    have hmove : done.reverse ++ s :: segments = (s :: done).reverse ++ segments := by simp
    unfold limitFrom
    split
    · rename_i hkept
      cases left with
      | zero =>
        refine ⟨segments, by simp, by simp, fun s' hs' => ?_⟩
        obtain rfl := Option.some.inj hs'
        exact ⟨hkept, by simp⟩
      | succ left =>
        obtain ⟨rest, heq, hnone, hsome⟩ := ih (s :: done) left
        rw [List.countP_cons_of_pos hkept] at hsome
        refine ⟨rest, hmove.trans heq, hnone, fun s' hs' => ⟨(hsome s' hs').1, ?_⟩⟩
        rw [(hsome s' hs').2, Nat.add_right_comm, Nat.add_assoc]
    · rename_i hkept
      obtain ⟨rest, heq, hnone, hsome⟩ := ih (s :: done) left
      rw [List.countP_cons_of_neg hkept] at hsome
      exact ⟨rest, hmove.trans heq, hnone, hsome⟩

/-- Nothing is left out where no token is one too many. -/
theorem limit_of_none {segments : List Segment} {left : Nat}
    (h : (Segment.limit left segments).2 = none) : (Segment.limit left segments).1 = segments := by
  obtain ⟨rest, heq, hnone, -⟩ := limitFrom_eq [] segments left
  change segments
    = (Segment.limit left segments).1 ++ (Segment.limit left segments).2.toList ++ rest at heq
  rw [h, hnone h] at heq
  simpa using heq.symm

theorem limit_eq_self {segments : List Segment} {left : Nat}
    (h : segments.countP (·.isKept) ≤ left) : Segment.limit left segments = (segments, none) := by
  have hnone : (Segment.limit left segments).2 = none := by
    cases hbeyond : (Segment.limit left segments).2 with
    | none => rfl
    | some s =>
      obtain ⟨rest, heq, -, hsome⟩ := limitFrom_eq [] segments left
      obtain ⟨hkept, hcount⟩ := hsome s hbeyond
      change segments = (Segment.limit left segments).1
        ++ (Segment.limit left segments).2.toList ++ rest at heq
      change (Segment.limit left segments).1.countP (·.isKept) = _ at hcount
      rw [heq, hbeyond] at h
      simp only [List.countP_append, hcount, Option.toList_some, List.countP_singleton, hkept,
        List.countP_nil, if_true] at h
      omega
  exact Prod.ext (limit_of_none hnone) hnone

/-- What is left of a tiling is a tiling, up to the token that is one too many if there is one. -/
theorem Tile.limit {segments : List Segment} (h : Tile candidates text 0 segments text.length)
    (left : Nat) : ∃ stop, Tile candidates text 0 (Segment.limit left segments).1 stop
      ∧ ((Segment.limit left segments).2 = none → stop = text.length)
      ∧ ∀ s ∈ (Segment.limit left segments).2, s.isKept = true ∧ s.StandsAt candidates text stop
        ∧ (Segment.limit left segments).1.countP (·.isKept) = left := by
  obtain ⟨rest, heq, hnone, hsome⟩ := limitFrom_eq [] segments left
  change segments
    = (Segment.limit left segments).1 ++ (Segment.limit left segments).2.toList ++ rest at heq
  rw [heq, List.append_assoc] at h
  obtain ⟨stop, hfront, hback⟩ := tile_append.mp h
  refine ⟨stop, hfront, fun hn => ?_, fun s hs => ?_⟩
  · change (Segment.limit left segments).2 = none → rest = [] at hnone
    rw [hn, hnone hn] at hback
    exact hback
  · have hs' : (Segment.limit left segments).2 = some s := hs
    rw [hs'] at hback
    obtain ⟨hkept, hcount⟩ := hsome s hs
    exact ⟨hkept, hback.1, by simpa [Segment.limit] using hcount⟩

end Segment

end PredictiveParsing
