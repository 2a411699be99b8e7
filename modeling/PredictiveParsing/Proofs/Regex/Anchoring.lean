import PredictiveParsing.Proofs.Regex.Constructs
import PredictiveParsing.Token.Category

/-!
# Patterns tied to the start of a text

A pattern is tied to the start of a text by a group around it. Reading it there goes on as reading
it on its own, with one more group open and one more parenthesis at the end, until the parenthesis
closes the group. A pattern that closes the group itself is not one on its own; any other that can
be read in the group can be read without it.
-/

namespace PredictiveParsing.Regex

variable [Dialect] {o : Options} {cs rest : List Char} {c : Char} {r r' : Reading} {f : Opened}
  {p : Piece} {fuel : Nat}

/-! ## Runs -/

theorem run_of_nil (h : skip r.options r.rest = []) :
    r.run fuel = if r.opened.isEmpty then .ok r.close else .error .unclosedGroup := by
  cases fuel <;> rw [Reading.run, h]

theorem run_of_cons (h : skip r.options r.rest = c :: cs) :
    r.run (fuel + 1) = r.step c cs >>= fun r' => r'.run fuel := by
  rw [Reading.run, h]

theorem run_zero_of_cons (h : skip r.options r.rest = c :: cs) :
    r.run 0 = .error .unclosedGroup := by
  rw [Reading.run, h]

/-- What is left of the text makes no expression of the reading. -/
def Reading.Lost (r : Reading) : Prop := ∀ fuel p, r.run fuel ≠ .ok p

/-- At the end of the text no group may be open. -/
theorem lost_of_skip (h : skip r.options r.rest = []) (hopened : r.opened ≠ []) : r.Lost := by
  intro fuel p hp
  rw [run_of_nil h, if_neg (by simpa using hopened)] at hp
  cases hp

omit [Dialect] in
private theorem skip_brace (o : Options) (cs : List Char) :
    skip o ('\x7b' :: cs) = '\x7b' :: cs := by
  rw [skip]
  split
  · rw [skipVerbose, if_neg (by decide), if_neg (by decide)]
  · rfl

private theorem lost_of_opensNothing (h : OpensNothing r.options rest)
    (hrest : r.rest = rest ++ [')']) : r.Lost := by
  obtain ⟨more, rfl, hmore⟩ := h
  have hskip : skip r.options r.rest = '\x7b' :: (more ++ [')']) := by
    rw [hrest]
    exact skip_brace r.options _
  have hcount : ∀ y, readBounds r.options (more ++ [')']) ≠ .ok y := by
    intro y hy
    rw [readBounds_eq] at hy
    rcases skip_closing r.options more with hnil | hclosing
    · rw [hnil] at hy
      cases hy
    · rw [hclosing, hmore] at hy
      cases hy
  intro fuel p hp
  cases fuel with
  | zero =>
    rw [run_zero_of_cons hskip] at hp
    cases hp
  | succ fuel =>
    rw [run_of_cons hskip] at hp
    obtain ⟨r', hstep, -⟩ := Outcome.bind_eq_ok.mp hp
    obtain ⟨x, rest, hx, -⟩ := step_eq_ok.mp hstep
    obtain ⟨y, hy, -⟩ := Outcome.bind_eq_ok.mp hx
    exact hcount y hy

/-! ## Steps in a group -/

/-- The reading with one more group open around it, and the parenthesis that closes the group at the
end of the text. -/
def Reading.within (f : Opened) (r : Reading) : Reading :=
  { r with rest := r.rest ++ [')'], opened := r.opened ++ [f] }

omit [Dialect] in
theorem within_opened_ne_nil : (r.within f).opened ≠ [] := by
  simp [Reading.within]

/-- A construct takes no more of the text than has been read of it, and only one that closes a group
makes less of those that are open. -/
theorem of_take {x : Construct} (h : r.take rest x = .ok r') :
    r'.rest = rest ∧ (x ≠ .close → r.opened ≠ [] → r'.opened ≠ []) := by
  cases x with
  | piece p =>
    obtain rfl := Except.ok.inj h
    exact ⟨rfl, fun _ hopened => hopened⟩
  | branch =>
    obtain rfl := Except.ok.inj h
    exact ⟨rfl, fun _ hopened => hopened⟩
  | repetition greedy least most =>
    rw [Reading.take, Reading.repeatLast] at h
    split at h
    · cases h
    · dsimp only at h
      obtain ⟨-, h⟩ := Outcome.unless_eq_ok.mp h
      obtain ⟨-, h⟩ := Outcome.unless_eq_ok.mp h
      obtain rfl := Except.ok.inj h
      exact ⟨rfl, fun _ hopened => hopened⟩
  | group inside name =>
    cases name with
    | none =>
      obtain rfl := Except.ok.inj h
      exact ⟨rfl, fun _ _ => List.cons_ne_nil _ _⟩
    | some name =>
      obtain ⟨-, h⟩ := Outcome.unless_eq_ok.mp h
      obtain rfl := Except.ok.inj h
      exact ⟨rfl, fun _ _ => List.cons_ne_nil _ _⟩
  | options inside =>
    obtain rfl := Except.ok.inj h
    exact ⟨rfl, fun _ hopened => hopened⟩
  | close =>
    rw [Reading.take, Reading.closeGroup] at h
    split at h
    · cases h
    · obtain rfl := Except.ok.inj h
      exact ⟨rfl, fun hx => absurd rfl hx⟩

private theorem repeatLast_within {greedy : Bool} {least : Nat} {most : Option Nat} :
    (r.within f).repeatLast greedy least most (rest ++ [')']) =
      (r.repeatLast greedy least most rest).map (Reading.within f) := by
  have hpieces : (r.within f).pieces = r.pieces := rfl
  rw [Reading.repeatLast, Reading.repeatLast, hpieces]
  cases r.pieces with
  | nil => rfl
  | cons p ps =>
    dsimp only
    split
    · rfl
    · split
      · rfl
      · rfl

private theorem take_within {x : Construct} (hx : x = .close → r.opened ≠ []) :
    (r.within f).take (rest ++ [')']) x = (r.take rest x).map (Reading.within f) := by
  cases x with
  | piece p => rfl
  | branch => rfl
  | repetition greedy least most => exact repeatLast_within
  | group inside name =>
    cases name with
    | none => rfl
    | some name =>
      rw [Reading.take, Reading.take]
      change (if r.names.contains name then _ else _) = _
      split
      · rfl
      · rfl
  | options inside => rfl
  | close =>
    obtain ⟨g, gs, hopened⟩ := List.exists_cons_of_ne_nil (hx rfl)
    have hwithin : (r.within f).opened = r.opened ++ [f] := rfl
    rw [Reading.take, Reading.take, Reading.closeGroup, Reading.closeGroup, hwithin, hopened]
    rfl

/-- A step in the group is one without it, unless it closes the group or leads nowhere. -/
theorem step_within (h : (r.within f).step c (cs ++ [')']) = .ok r') :
    r'.Lost ∨ (c = ')' ∧ r.opened = []) ∨
      ∃ r₀, r.step c cs = .ok r₀ ∧ r' = r₀.within f ∧ r₀.rest.length ≤ cs.length := by
  obtain ⟨x, mid, hx, htake⟩ := step_eq_ok.mp h
  by_cases hclose : x = .close ∧ r.opened = []
  · obtain ⟨rfl, hopened⟩ := hclose
    exact .inr (.inl ⟨(eq_of_construct_close hx).1, hopened⟩)
  rcases List.suffix_concat_iff.mp (construct_suffix hx) with rfl | ⟨rest, rfl, hrest⟩
  · -- the parenthesis has been read as a part of the construct, so nothing closes the group
    left
    have hx' : x ≠ .close := by
      rintro rfl
      exact List.append_ne_nil_of_right_ne_nil cs (by simp) (eq_of_construct_close hx).2.symm
    obtain ⟨hrest, hopened⟩ := of_take htake
    refine lost_of_skip ?_ (hopened hx' within_opened_ne_nil)
    rw [hrest]
    exact skip_nil r'.options
  · rcases construct_closing hx with hx | ⟨⟨p, rfl⟩, hopens⟩
    · rw [take_within (fun hx => fun ho => hclose ⟨hx, ho⟩)] at htake
      obtain ⟨r₀, hr₀, rfl⟩ := Outcome.map_eq_ok.mp htake
      refine .inr (.inr ⟨r₀, step_eq_ok.mpr ⟨x, rest, hx, hr₀⟩, rfl, ?_⟩)
      rw [(of_take hr₀).1]
      exact hrest.length_le
    · obtain rfl := Except.ok.inj htake
      exact .inl (lost_of_opensNothing hopens rfl)

/-- What becomes of a group, and of what has been read before it, when it is closed at the end of
the text. -/
def Opened.closed (f : Opened) (p : Piece) : Piece :=
  Piece.alternatives (Piece.sequence ({ p with depth := p.depth + 1 } :: f.pieces)) f.branches

private theorem eq_of_closeGroup (h : (r.within f).closeGroup [] = .ok r')
    (hrun : r'.run fuel = .ok p) : r.opened = [] ∧ p = f.closed r.close := by
  rw [Reading.closeGroup] at h
  cases hopened : r.opened with
  | nil =>
    simp only [Reading.within, hopened, List.nil_append] at h
    obtain rfl := Except.ok.inj h
    rw [run_of_nil (skip_nil _)] at hrun
    exact ⟨rfl, (Except.ok.inj hrun).symm⟩
  | cons g gs =>
    simp only [Reading.within, hopened, List.cons_append] at h
    obtain rfl := Except.ok.inj h
    exact absurd hrun (lost_of_skip (skip_nil g.outside) (by simp) _ _)

private theorem run_within {n : Nat} (h : (r.within f).run fuel = .ok p) (hn : r.rest.length ≤ n) :
    r.run n = .error .unopenedGroup ∨ ∃ q, r.run n = .ok q ∧ p = f.closed q := by
  -- on the fuel of the run in the group; the other run only needs as much as there is text
  induction fuel generalizing r n with
  | zero =>
    rcases skip_closing r.options r.rest with hskip | hskip
    · exact absurd h (lost_of_skip hskip within_opened_ne_nil _ _)
    obtain ⟨c, cs, hcs⟩ := List.exists_cons_of_ne_nil
      (List.append_ne_nil_of_right_ne_nil (skip r.options r.rest) (by simp : [')'] ≠ []))
    rw [run_zero_of_cons (hskip.trans hcs)] at h
    cases h
  | succ fuel ih =>
    rcases skip_closing r.options r.rest with hskip | hskip
    · exact absurd h (lost_of_skip hskip within_opened_ne_nil _ _)
    cases hr : skip r.options r.rest with
    | nil =>
      rw [hr] at hskip
      rw [run_of_cons hskip] at h
      obtain ⟨r', hstep, h⟩ := Outcome.bind_eq_ok.mp h
      rw [run_of_nil hr]
      obtain ⟨hopened, rfl⟩ := eq_of_closeGroup hstep h
      exact .inr ⟨r.close, by rw [hopened]; rfl, rfl⟩
    | cons c cs =>
      rw [hr] at hskip
      rw [run_of_cons hskip] at h
      obtain ⟨r', hstep, h⟩ := Outcome.bind_eq_ok.mp h
      have hlength : cs.length + 1 ≤ r.rest.length := (hr ▸ skip_suffix r.options r.rest).length_le
      obtain ⟨n, rfl⟩ := Nat.exists_eq_add_of_le' (Nat.le_trans (by omega) hn : 1 ≤ n)
      rw [run_of_cons hr]
      rcases step_within hstep with hlost | ⟨rfl, hopened⟩ | ⟨r₀, hr₀, rfl, hle⟩
      · exact absurd h (hlost _ _)
      · left
        rw [Reading.step, Reading.closeGroup, hopened]
        rfl
      · rw [hr₀]
        exact ih h (by omega)

/-! ## Patterns -/

def Reading.start (source : List Char) : Reading := ⟨source, Options.none, [], [], [], []⟩

/-- The group around a pattern, behind the start of the text. -/
def Opened.anchor : Opened := ⟨[], [⟨.look .textStart, 0, 1, true⟩], Options.none⟩

private theorem run_anchored (source : String) :
    Reading.run (anchored source).length (.start (anchored source)) =
      Reading.run (source.toList.length + 3) ((Reading.start source.toList).within .anchor) := by
  have hlength : (anchored source).length = source.toList.length + 3 + 2 := by
    simp [anchored]
  rw [hlength]
  rfl

omit [Dialect] in
private theorem andThen_empty (a : Regex) : a.andThen .empty = a := by
  rw [andThen]
  split
  · exact ‹a = empty›.symm
  · rfl

omit [Dialect] in
private theorem not_exceeds_of_le {limit : Option Nat} {m n : Nat} (hle : m ≤ n)
    (hn : ¬exceeds limit n = true) : ¬exceeds limit m = true := by
  cases limit with
  | none => exact Bool.false_ne_true
  | some most =>
    simp only [exceeds, Option.any_some, decide_eq_true_eq] at hn ⊢
    omega

/-- A pattern that can be read behind the start of a text can be read on its own, and is the same
expression then, unless it closes a group that it has not opened. -/
theorem read_anchored {source : String} {e : Regex} (h : read (anchored source) = .ok e) :
    read source.toList = .error .unopenedGroup ∨
      ∃ e₀, read source.toList = .ok e₀ ∧ e = (look .textStart).andThen e₀ := by
  obtain ⟨p, hrun, h⟩ := Outcome.bind_eq_ok.mp h
  obtain ⟨hdepth, h⟩ := Outcome.unless_eq_ok.mp h
  obtain ⟨hsize, h⟩ := Outcome.unless_eq_ok.mp h
  obtain rfl := Except.ok.inj h
  have hgroup := (run_anchored source).symm.trans hrun
  rcases run_within hgroup (Nat.le_refl source.toList.length) with hread | ⟨q, hread, rfl⟩
  · left
    rw [read]
    change Reading.run _ (Reading.start source.toList) >>= _ = _
    rw [hread]
    rfl
  · refine .inr ⟨q.regex, ?_, ?_⟩
    · have hdepth' : q.depth ≤ max (max 0 (q.depth + 1)) 0 + 1 := by omega
      have hsize' : q.size ≤ 1 + q.size + 1 := by omega
      refine Outcome.bind_eq_ok.mpr ⟨q, hread, ?_⟩
      rw [if_neg (not_exceeds_of_le hdepth' hdepth), if_neg (not_exceeds_of_le hsize' hsize)]
    · change (look .textStart).andThen (q.regex.andThen .empty) = _
      rw [andThen_empty]

end PredictiveParsing.Regex
