import PredictiveParsing.Proofs.Outcome
import PredictiveParsing.Regex.Reader

/-!
# Readers in front of a closing parenthesis

What the readers of a pattern do with a text that a closing parenthesis follows. A reader that
leaves the parenthesis has read the text as it would have without it: no construct looks further
than to the character behind it, and a parenthesis says as little there as the end of the text.
-/

namespace PredictiveParsing.Regex

variable {α β : Type} {o : Options} {cs rest : List Char}

/-- The reader takes characters off the front of a text, and a closing parenthesis at the end of the
text that it leaves makes no difference to it. -/
structure Local (f : List Char → Except PatternError (Rest α)) : Prop where
  suffix {cs rest : List Char} {y : α} (h : f cs = .ok (y, rest)) : rest <:+ cs
  closing {cs rest : List Char} {y : α} (h : f (cs ++ [')']) = .ok (y, rest ++ [')'])) :
    f cs = .ok (y, rest)

theorem ne_nil_of_suffix (h : rest ++ [')'] <:+ cs) : cs ≠ [] := by
  rintro rfl
  simp at h

theorem prefix_closing {u : List Char} (h : ')' ∉ u) : u <+: cs ++ [')'] ↔ u <+: cs := by
  rw [List.prefix_concat_iff]
  refine or_iff_right ?_
  rintro rfl
  exact h (by simp)

theorem eq_cons_of_closing {c : Char} (h : c :: (cs ++ [')']) = rest ++ [')']) : rest = c :: cs :=
  List.append_cancel_right (h.symm.trans (List.cons_append ..).symm)

theorem eq_nil_of_closing (h : [')'] = rest ++ [')']) : rest = [] := by
  simpa using h

namespace Local

variable {f : List Char → Except PatternError (Rest α)}

theorem congr {g : List Char → Except PatternError (Rest α)} (h : ∀ cs, f cs = g cs)
    (hg : Local g) : Local f :=
  funext h ▸ hg

theorem pure (y : α) : Local fun cs => .ok (y, cs) where
  suffix h := by
    obtain ⟨-, rfl⟩ := Prod.mk.inj (Except.ok.inj h)
    exact List.suffix_rfl
  closing h := by
    obtain ⟨rfl, hrest⟩ := Prod.mk.inj (Except.ok.inj h)
    rw [List.append_cancel_right hrest]

theorem error (e : PatternError) : Local fun _ => (.error e : Except PatternError (Rest α)) where
  suffix h := by cases h
  closing h := by cases h

theorem bind {g : α → List Char → Except PatternError (Rest β)} (hf : Local f)
    (hg : ∀ x, Local (g x)) : Local fun cs => f cs >>= fun p => g p.1 p.2 where
  suffix h := by
    obtain ⟨⟨x, mid⟩, hx, h⟩ := Outcome.bind_eq_ok.mp h
    exact ((hg x).suffix h).trans (hf.suffix hx)
  closing h := by
    obtain ⟨⟨x, mid⟩, hx, h⟩ := Outcome.bind_eq_ok.mp h
    have hmid := hf.suffix hx
    rcases List.suffix_concat_iff.mp hmid with rfl | ⟨mid, rfl, -⟩
    · exact absurd rfl (ne_nil_of_suffix ((hg x).suffix h))
    · exact Outcome.bind_eq_ok.mpr ⟨_, hf.closing hx, (hg x).closing h⟩

theorem map (hf : Local f) (g : α → β) : Local fun cs => (f cs).map fun p => (g p.1, p.2) where
  suffix h := by
    obtain ⟨⟨x, rest⟩, hx, h⟩ := Outcome.map_eq_ok.mp h
    obtain ⟨-, rfl⟩ := Prod.mk.inj h
    exact hf.suffix hx
  closing h := by
    obtain ⟨⟨x, rest⟩, hx, h⟩ := Outcome.map_eq_ok.mp h
    obtain ⟨rfl, rfl⟩ := Prod.mk.inj h
    exact Outcome.map_eq_ok.mpr ⟨_, hf.closing hx, rfl⟩

/-- A reader that fails at the end of the text. -/
theorem cons {e : PatternError} (hnil : f [] = .error e) (hf : ∀ c, Local fun cs => f (c :: cs)) :
    Local f where
  suffix {cs rest y} h := by
    cases cs with
    | nil =>
      rw [hnil] at h
      cases h
    | cons c cs => exact ((hf c).suffix h).trans (List.suffix_cons c cs)
  closing {cs rest y} h := by
    cases cs with
    | nil => exact absurd rfl (ne_nil_of_suffix ((hf ')').suffix h))
    | cons c cs => exact (hf c).closing h

/-- A reader that goes on by a condition to which the parenthesis is nothing. -/
theorem ite {g k : List Char → Except PatternError (Rest α)} {p : List Char → Prop}
    [DecidablePred p] (hp : ∀ cs, p (cs ++ [')']) ↔ p cs) (hg : Local g) (hk : Local k) :
    Local fun cs => if p cs then g cs else k cs where
  suffix h := by
    split at h
    · exact hg.suffix h
    · exact hk.suffix h
  closing {cs rest y} h := by
    simp only [hp] at h
    split at h
    · rw [if_pos ‹_›]
      exact hg.closing h
    · rw [if_neg ‹_›]
      exact hk.closing h

theorem drop (hf : Local f) (n : Nat) : Local fun cs => f (cs.drop n) where
  suffix h := (hf.suffix h).trans (List.drop_suffix n _)
  closing {cs rest y} h := by
    rw [List.drop_append] at h
    rcases Nat.eq_zero_or_pos (n - cs.length) with hn | hn
    · rw [hn] at h
      exact hf.closing h
    · rw [List.drop_eq_nil_of_le (by omega), List.drop_eq_nil_of_le (by simp; omega)] at h
      exact absurd rfl (ne_nil_of_suffix (hf.suffix h))

/-- A reader that goes on by whether the text starts with a character. -/
theorem head {g k : List Char → Except PatternError (Rest α)} {c : Char} (hc : c ≠ ')')
    (hg : Local g) (hk : Local k) (hpos : ∀ cs, f (c :: cs) = g (c :: cs))
    (hneg : ∀ cs, (∀ more, cs ≠ c :: more) → f cs = k cs) : Local f := by
  refine .congr (fun cs => ?_) (.ite (p := ([c] <+: ·))
    (fun _ => prefix_closing (by simpa using hc.symm)) hg hk)
  split
  · obtain ⟨more, rfl⟩ := ‹[c] <+: cs›
    exact hpos more
  · exact hneg cs fun more h => ‹¬[c] <+: cs› ⟨more, h.symm⟩

end Local

/-! ## White space -/

private theorem skipVerbose_suffix (inComment : Bool) (cs : List Char) :
    skipVerbose inComment cs <:+ cs := by
  induction cs generalizing inComment with
  | nil => exact List.suffix_rfl
  | cons c cs ih =>
    cases inComment with
    | true => exact (ih _).trans (List.suffix_cons c cs)
    | false =>
      rw [skipVerbose]
      split
      · exact (ih _).trans (List.suffix_cons c cs)
      · split
        · exact (ih _).trans (List.suffix_cons c cs)
        · exact List.suffix_rfl

theorem skip_suffix (o : Options) (cs : List Char) : skip o cs <:+ cs := by
  rw [skip]
  split
  · exact skipVerbose_suffix false cs
  · exact List.suffix_rfl

theorem skip_nil (o : Options) : skip o [] = [] := List.suffix_nil.mp (skip_suffix o [])

private theorem skipVerbose_closing (inComment : Bool) (cs : List Char) :
    skipVerbose inComment (cs ++ [')']) = [] ∨
      skipVerbose inComment (cs ++ [')']) = skipVerbose inComment cs ++ [')'] := by
  induction cs generalizing inComment with
  | nil =>
    cases inComment with
    | true => exact .inl rfl
    | false => exact .inr rfl
  | cons c cs ih =>
    cases inComment with
    | true => exact ih _
    | false =>
      rw [List.cons_append, skipVerbose, skipVerbose]
      split
      · exact ih _
      · split
        · exact ih _
        · exact .inr rfl

/-- A comment may hide the parenthesis. -/
theorem skip_closing (o : Options) (cs : List Char) :
    skip o (cs ++ [')']) = [] ∨ skip o (cs ++ [')']) = skip o cs ++ [')'] := by
  rw [skip, skip]
  split
  · exact skipVerbose_closing false cs
  · exact .inr rfl

/-- No comment hides the parenthesis from a reader that leaves it. -/
theorem skip_closing_of_suffix (h : rest ++ [')'] <:+ skip o (cs ++ [')'])) :
    skip o (cs ++ [')']) = skip o cs ++ [')'] :=
  (skip_closing o cs).resolve_left (ne_nil_of_suffix h)

theorem skip_eq_of_closing (h : skip o (cs ++ [')']) = rest ++ [')']) : skip o cs = rest := by
  have hsuffix : rest ++ [')'] <:+ skip o (cs ++ [')']) := h ▸ List.suffix_rfl
  rw [skip_closing_of_suffix hsuffix] at h
  exact List.append_cancel_right h

theorem Local.skip {f : List Char → Except PatternError (Rest α)} (hf : Local f) (o : Options) :
    Local fun cs => f (Regex.skip o cs) where
  suffix h := (hf.suffix h).trans (skip_suffix o _)
  closing {cs rest y} h := by
    rw [skip_closing_of_suffix (hf.suffix h)] at h
    exact hf.closing h

theorem Local.ok_skip (y : α) (o : Options) : Local fun cs => .ok (y, Regex.skip o cs) :=
  (Local.pure y).skip o

/-! ## Escapes -/

private theorem local_readHexDigits (o : Options) (n value : Nat) :
    Local (readHexDigits o value n) ∧
    ∀ c, Local fun cs => readHexDigits o value (n + 1) (c :: cs) := by
  have hcons : ∀ {n}, (∀ value, Local (readHexDigits o value n)) →
      ∀ value c, Local fun cs => readHexDigits o value (n + 1) (c :: cs) := by
    intro n ih value c
    simp only [readHexDigits]
    cases hexValue? c with
    | none => exact .error _
    | some d => exact (ih _).skip o
  have hall : ∀ n value, Local (readHexDigits o value n) := by
    intro n
    induction n with
    | zero =>
      intro value
      change Local fun cs => readHexDigits o value 0 cs
      simp only [readHexDigits]
      cases charOfCode? value with
      | none => exact .error _
      | some c => exact .pure c
    | succ n ih => exact fun value => Local.cons rfl (hcons ih value)
  exact ⟨hall n value, hcons (hall n) value⟩

theorem readBracedHex_suffix {value digits fuel : Nat} {c : Char}
    (h : readBracedHex o value digits fuel cs = .ok (c, rest)) : rest <:+ cs := by
  induction fuel generalizing value digits cs with
  | zero => cases h
  | succ fuel ih =>
    cases cs with
    | nil => cases h
    | cons d cs =>
      rw [readBracedHex] at h
      split at h
      · split at h
        · cases h
        · split at h
          · obtain ⟨-, rfl⟩ := Prod.mk.inj (Except.ok.inj h)
            exact (skip_suffix o cs).trans (List.suffix_cons d cs)
          · cases h
      · split at h
        · exact (ih h).trans ((skip_suffix o cs).trans (List.suffix_cons d cs))
        · cases h

private theorem readBracedHex_closing {value digits fuel n : Nat} {c : Char}
    (h : readBracedHex o value digits fuel (cs ++ [')']) = .ok (c, rest ++ [')']))
    (hn : cs.length ≤ n) : readBracedHex o value digits n cs = .ok (c, rest) := by
  induction fuel generalizing value digits cs n with
  | zero => cases h
  | succ fuel ih =>
    cases cs with
    | nil =>
      rw [List.nil_append, readBracedHex] at h
      cases h
    | cons d cs =>
      obtain ⟨n, rfl⟩ := Nat.exists_eq_add_of_le' (Nat.le_trans (by simp) hn : 1 ≤ n)
      rw [List.cons_append, readBracedHex] at h
      rw [readBracedHex]
      split at h
      · rw [if_pos ‹_›]
        split at h
        · cases h
        · rw [if_neg ‹_›]
          split at h
          · obtain ⟨rfl, hrest⟩ := Prod.mk.inj (Except.ok.inj h)
            rw [skip_eq_of_closing hrest]
          · cases h
      · rw [if_neg ‹_›]
        split at h
        · rw [skip_closing_of_suffix (readBracedHex_suffix h)] at h
          have hlength := (skip_suffix o cs).length_le
          exact ih h (by simp only [List.length_cons] at hn; omega)
        · cases h

/-- What is read of a code point: digits in braces, or a fixed number of them. -/
def hexBody (o : Options) (n : Nat) : List Char → Except PatternError (Rest Char)
  | [] => .error .badEscape
  | c :: cs =>
    if c = '\x7b' then readBracedHex o 0 0 cs.length (skip o cs)
    else readHexDigits o 0 (n + 1) (c :: cs)

private theorem local_bracedHex (o : Options) : Local fun cs =>
    readBracedHex o 0 0 cs.length (skip o cs) where
  suffix h := (readBracedHex_suffix h).trans (skip_suffix o _)
  closing {cs rest y} h := by
    rw [skip_closing_of_suffix (readBracedHex_suffix h)] at h
    exact readBracedHex_closing h (skip_suffix o cs).length_le

private theorem local_hexBody (o : Options) (n : Nat) : Local (hexBody o n) := by
  refine Local.cons rfl fun c => ?_
  by_cases hc : c = '\x7b'
  · simp only [hexBody, if_pos hc]
    exact local_bracedHex o
  · simp only [hexBody, if_neg hc]
    exact (local_readHexDigits o n 0).2 c

private theorem readHex_eq (n : Nat) (cs : List Char) :
    readHex o (n + 1) cs = hexBody o n (skip o cs) := by
  rw [readHex]
  cases skip o cs with
  | nil => rfl
  | cons c rest =>
    rw [hexBody]
    split
    · rename_i h
      cases h
    · rename_i h
      obtain ⟨rfl, rfl⟩ := List.cons.inj h
      rfl
    · rename_i hbrace
      have hne : c ≠ '\x7b' := by
        rintro rfl
        exact hbrace rest rfl
      rw [if_neg hne]

private theorem local_readHex (o : Options) (n : Nat) : Local (readHex o (n + 1)) :=
  .congr (readHex_eq n) ((local_hexBody o n).skip o)

theorem readBraced_suffix {name y : List Char} {fuel : Nat}
    (h : readBraced o name fuel cs = .ok (y, rest)) : rest <:+ cs := by
  induction fuel generalizing name cs with
  | zero => cases h
  | succ fuel ih =>
    cases cs with
    | nil => cases h
    | cons c cs =>
      rw [readBraced] at h
      split at h
      · obtain ⟨-, rfl⟩ := Prod.mk.inj (Except.ok.inj h)
        exact List.suffix_cons c cs
      · exact (ih h).trans ((skip_suffix o cs).trans (List.suffix_cons c cs))

private theorem readBraced_closing {name y : List Char} {fuel n : Nat}
    (h : readBraced o name fuel (cs ++ [')']) = .ok (y, rest ++ [')'])) (hn : cs.length ≤ n) :
    readBraced o name n cs = .ok (y, rest) := by
  induction fuel generalizing name cs n with
  | zero => cases h
  | succ fuel ih =>
    cases cs with
    | nil =>
      rw [List.nil_append, readBraced, if_neg (by decide), skip_nil] at h
      cases fuel <;> cases h
    | cons c cs =>
      obtain ⟨n, rfl⟩ := Nat.exists_eq_add_of_le' (Nat.le_trans (by simp) hn : 1 ≤ n)
      rw [List.cons_append, readBraced] at h
      rw [readBraced]
      split at h
      · obtain ⟨rfl, hrest⟩ := Prod.mk.inj (Except.ok.inj h)
        rw [if_pos ‹_›, List.append_cancel_right hrest]
      · rw [if_neg ‹_›]
        rw [skip_closing_of_suffix (readBraced_suffix h)] at h
        have hlength := (skip_suffix o cs).length_le
        exact ih h (by simp only [List.length_cons] at hn; omega)

private theorem local_bracedName (o : Options) : Local fun cs =>
    readBraced o [] cs.length (skip o cs) where
  suffix h := (readBraced_suffix h).trans (skip_suffix o _)
  closing {cs rest y} h := by
    rw [skip_closing_of_suffix (readBraced_suffix h)] at h
    exact readBraced_closing h (skip_suffix o cs).length_le

def propertyName (o : Options) : List Char → Except PatternError (Rest (List Char))
  | [] => .error .badEscape
  | c :: cs =>
    if c = '\x7b' then readBraced o [] cs.length (skip o cs)
    else if c = '\\' then .error .unknownProperty
    else .ok ([c], skip o cs)

private theorem local_propertyName (o : Options) : Local (propertyName o) := by
  refine Local.cons rfl fun c => ?_
  by_cases hbrace : c = '\x7b'
  · simp only [propertyName, if_pos hbrace]
    exact local_bracedName o
  · by_cases hslash : c = '\\'
    · simp only [propertyName, if_neg hbrace, if_pos hslash]
      exact .error _
    · simp only [propertyName, if_neg hbrace, if_neg hslash]
      exact .ok_skip [c] o

/-- The end of a pattern behind an opening brace that is no start of a name of a word boundary. -/
def OpensNothing (o : Options) (cs : List Char) : Prop :=
  ∃ more, cs = '\x7b' :: more ∧ skip o more = []

theorem takeWhile_closing {p : Char → Bool} (hp : p ')' = false) (cs : List Char) :
    (cs ++ [')']).takeWhile p = cs.takeWhile p ∧
      (cs ++ [')']).dropWhile p = cs.dropWhile p ++ [')'] := by
  induction cs with
  | nil => simp [hp]
  | cons c cs ih => cases h : p c <;> simp [h, ih]

/-- Up to a mark that is there, nothing depends on how the text ends. -/
theorem takeWhile_append_of_dropWhile {p : Char → Bool} {d : Char} {after : List Char}
    (h : cs.dropWhile p = d :: after) (more : List Char) :
    (cs ++ more).takeWhile p = cs.takeWhile p ∧
      (cs ++ more).dropWhile p = d :: (after ++ more) := by
  have htake : (cs.takeWhile p).length ≠ cs.length := by
    have hlength := congrArg List.length (List.takeWhile_append_dropWhile (p := p) (l := cs))
    rw [h, List.length_append, List.length_cons] at hlength
    omega
  rw [List.takeWhile_append, if_neg htake, List.dropWhile_append, h]
  exact ⟨rfl, rfl⟩

private theorem readBoundary_suffix {l : Look} (h : readBoundary o cs = .ok (l, rest)) :
    rest <:+ cs := by
  rw [readBoundary.eq_def] at h
  split at h
  · rename_i inner
    split at h
    · cases h
    · rename_i c more hskip
      have hmore : c :: more <:+ inner := hskip ▸ skip_suffix o inner
      split at h
      · split at h
        · rename_i after hdrop
          dsimp only at h
          split at h
          · obtain ⟨-, rfl⟩ := Prod.mk.inj (Except.ok.inj h)
            have hafter : '\x7d' :: after <:+ c :: more := hdrop ▸ List.dropWhile_suffix _
            exact ((List.suffix_cons _ _).trans hafter).trans (hmore.trans (List.suffix_cons _ _))
          · cases h
        · cases h
      · obtain ⟨-, rfl⟩ := Prod.mk.inj (Except.ok.inj h)
        exact List.suffix_rfl
  · obtain ⟨-, rfl⟩ := Prod.mk.inj (Except.ok.inj h)
    exact List.suffix_rfl

private theorem readBoundary_of_head (h : ∀ more, cs ≠ '\x7b' :: more) :
    readBoundary o cs = .ok (.word o.unicode .boundary, cs) := by
  rw [readBoundary.eq_def]
  split
  · exact absurd rfl (h _)
  · rfl

private theorem readBoundary_closing {l : Look}
    (h : readBoundary o (cs ++ [')']) = .ok (l, rest ++ [')'])) :
    readBoundary o cs = .ok (l, rest) ∨ OpensNothing o rest := by
  by_cases hbrace : ∃ more, cs = '\x7b' :: more
  · obtain ⟨inner, rfl⟩ := hbrace
    rw [List.cons_append, readBoundary] at h
    rcases skip_closing o inner with hskip | hskip
    · rw [hskip] at h
      cases h
    · rw [hskip] at h
      cases hinner : skip o inner with
      | nil =>
        rw [hinner] at h
        obtain ⟨-, hrest⟩ := Prod.mk.inj (Except.ok.inj h)
        exact .inr ⟨inner, (List.append_cancel_right hrest).symm, hinner⟩
      | cons c more =>
        left
        rw [readBoundary, hinner]
        rw [hinner, List.cons_append] at h
        dsimp only at h ⊢
        split at h
        · rw [if_pos ‹_›]
          rw [← List.cons_append, (takeWhile_closing (by decide) _).1,
            (takeWhile_closing (by decide) _).2] at h
          cases hdrop : (c :: more).dropWhile isBoundaryLetter with
          | nil =>
            rw [hdrop] at h
            cases h
          | cons d after =>
            rw [hdrop, List.cons_append] at h
            split at h
            · rename_i heq
              obtain ⟨rfl, rfl⟩ := List.cons.inj heq
              split at h
              · obtain ⟨rfl, hrest⟩ := Prod.mk.inj (Except.ok.inj h)
                rw [List.append_cancel_right hrest]
                rfl
              · cases h
            · cases h
        · rw [if_neg ‹_›]
          obtain ⟨rfl, hrest⟩ := Prod.mk.inj (Except.ok.inj h)
          rw [eq_cons_of_closing hrest]
  · have hhead : ∀ more, cs ≠ '\x7b' :: more := fun more h => hbrace ⟨more, h⟩
    left
    rw [readBoundary_of_head hhead]
    rw [readBoundary_of_head] at h
    · obtain ⟨rfl, hrest⟩ := Prod.mk.inj (Except.ok.inj h)
      rw [List.append_cancel_right hrest]
    · cases cs with
      | nil => simp
      | cons c cs =>
        intro more heq
        exact hhead cs ((List.cons.inj heq).1 ▸ rfl)

section Dialect

variable [Dialect]

private theorem readProperty_eq (negated : Bool) (cs : List Char) : readProperty o negated cs =
    propertyName o (skip o cs) >>= fun p =>
      match o.propertyClass? negated p.1 with
      | none => .error .unknownProperty
      | some s => .ok (s, p.2) := by
  rw [readProperty]
  cases skip o cs with
  | nil => rfl
  | cons c rest =>
    split
    · rename_i h
      cases h
    · rename_i h
      obtain ⟨rfl, rfl⟩ := List.cons.inj h
      rfl
    · rename_i h
      obtain ⟨rfl, rfl⟩ := List.cons.inj h
      rfl
    · rename_i hbrace hslash h
      obtain ⟨rfl, rfl⟩ := List.cons.inj h
      have hname : propertyName o (c :: rest) = .ok ([c], skip o rest) := by
        rw [propertyName, if_neg hbrace, if_neg hslash]
      exact hname ▸ rfl

private theorem local_readProperty (o : Options) (negated : Bool) :
    Local (readProperty o negated) := by
  refine Local.congr (readProperty_eq negated) (((local_propertyName o).skip o).bind
    (g := fun name rest => match o.propertyClass? negated name with
      | none => .error .unknownProperty
      | some s => .ok (s, rest))
    fun name => ?_)
  cases o.propertyClass? negated name with
  | none => exact .error _
  | some s => exact .pure _

theorem local_readEscape {c : Char} (hc : c ≠ 'b') : Local fun cs => readEscape o (c :: cs) := by
  simp only [readEscape, if_neg hc]
  by_cases hx : c = 'x'
  · simp only [if_pos hx]
    exact (local_readHex o 1).map Escape.literal
  by_cases hu : c = 'u'
  · simp only [if_neg hx, if_pos hu]
    exact (local_readHex o 3).map Escape.literal
  by_cases hU : c = 'U'
  · simp only [if_neg hx, if_neg hu, if_pos hU]
    exact (local_readHex o 7).map Escape.literal
  by_cases hp : c = 'p'
  · simp only [if_neg hx, if_neg hu, if_neg hU, if_pos hp]
    exact (local_readProperty o false).map Escape.class
  by_cases hP : c = 'P'
  · simp only [if_neg hx, if_neg hu, if_neg hU, if_neg hp, if_pos hP]
    exact (local_readProperty o true).map Escape.class
  simp only [if_neg hx, if_neg hu, if_neg hU, if_neg hp, if_neg hP]
  cases isEscapable c with
  | true => exact .pure _
  | false =>
    cases (specialEscapes o).lookup c with
    | none => exact .error _
    | some e => exact .pure e

theorem readEscape_suffix {e : Escape} {c : Char} (h : readEscape o (c :: cs) = .ok (e, rest)) :
    rest <:+ cs := by
  by_cases hc : c = 'b'
  · subst hc
    obtain ⟨⟨l, mid⟩, hl, h⟩ := Outcome.map_eq_ok.mp h
    obtain ⟨-, rfl⟩ := Prod.mk.inj h
    exact readBoundary_suffix hl
  · exact (local_readEscape hc).suffix h

theorem readEscape_closing {e : Escape}
    (h : readEscape o (cs ++ [')']) = .ok (e, rest ++ [')'])) :
    readEscape o cs = .ok (e, rest) ∨ (∃ l, e = .look l) ∧ OpensNothing o rest := by
  cases cs with
  | nil => exact absurd rfl (ne_nil_of_suffix (readEscape_suffix h))
  | cons c cs =>
    by_cases hc : c = 'b'
    · subst hc
      obtain ⟨⟨l, mid⟩, hl, h⟩ := Outcome.map_eq_ok.mp h
      obtain ⟨rfl, rfl⟩ := Prod.mk.inj h
      rcases readBoundary_closing hl with hl | hopens
      · exact .inl (Outcome.map_eq_ok.mpr ⟨_, hl, rfl⟩)
      · exact .inr ⟨⟨l, rfl⟩, hopens⟩
    · exact .inl ((local_readEscape hc).closing h)

end Dialect

/-! ## Counts, options and names -/

theorem dropBlank_suffix (cs : List Char) : dropBlank cs <:+ cs := List.dropWhile_suffix _

theorem dropBlank_closing (cs : List Char) : dropBlank (cs ++ [')']) = dropBlank cs ++ [')'] :=
  (takeWhile_closing (by decide) cs).2

theorem readDigits_suffix (value digits n : Nat) (cs : List Char) :
    (readDigits o value digits n cs).2.2 <:+ cs := by
  induction n generalizing value digits cs with
  | zero => exact List.suffix_rfl
  | succ n ih =>
    rcases cs with _ | ⟨c, cs⟩
    · exact List.suffix_rfl
    rw [readDigits]
    split
    · exact (ih _ _ _).trans ((skip_suffix o cs).trans (List.suffix_cons c cs))
    · exact List.suffix_rfl

private theorem readDigits_closing {value digits fuel n v d : Nat}
    (h : readDigits o value digits fuel (cs ++ [')']) = (v, d, rest ++ [')']))
    (hfuel : cs.length < fuel) (hn : cs.length ≤ n) :
    readDigits o value digits n cs = (v, d, rest) := by
  induction fuel generalizing value digits cs n with
  | zero => simp at hfuel
  | succ fuel ih =>
    rcases cs with _ | ⟨c, cs⟩
    · obtain ⟨hv, h⟩ := Prod.mk.inj h
      obtain ⟨hd, hrest⟩ := Prod.mk.inj h
      rw [← hv, ← hd, eq_nil_of_closing hrest]
      cases n <;> rfl
    simp only [List.length_cons] at hfuel hn
    obtain ⟨n, rfl⟩ := Nat.exists_eq_add_of_le' (Nat.le_trans (by omega) hn : 1 ≤ n)
    rw [List.cons_append, readDigits] at h
    rw [readDigits]
    split at h
    · rw [if_pos ‹_›]
      have hlength := (skip_suffix o cs).length_le
      have hsuffix := readDigits_suffix (o := o) (value * 10 + (c.toNat - '0'.toNat)) (digits + 1)
        fuel (skip o (cs ++ [')']))
      rw [h] at hsuffix
      rw [skip_closing_of_suffix hsuffix] at h
      exact ih h (by omega) (by omega)
    · rw [if_neg ‹_›]
      obtain ⟨hv, h⟩ := Prod.mk.inj h
      obtain ⟨hd, hrest⟩ := Prod.mk.inj h
      rw [hv, hd, eq_cons_of_closing hrest]

/-- The digits of a count behind white space: their value and their number. -/
def countDigits (o : Options) (cs : List Char) : Except PatternError (Rest (Nat × Nat)) :=
  match readDigits o 0 0 cs.length (dropBlank cs) with
  | (value, digits, rest) => .ok ((value, digits), rest)

private theorem local_countDigits (o : Options) : Local (countDigits o) where
  suffix {cs rest y} h := by
    obtain ⟨-, rfl⟩ := Prod.mk.inj (Except.ok.inj h)
    exact (readDigits_suffix _ _ _ _).trans (dropBlank_suffix cs)
  closing {cs rest y} h := by
    obtain ⟨hy, hrest⟩ := Prod.mk.inj (Except.ok.inj h)
    have hlength := (dropBlank_suffix cs).length_le
    have hdigits : readDigits o 0 0 (cs ++ [')']).length (dropBlank cs ++ [')']) =
        (y.1, y.2, rest ++ [')']) := by
      rw [← dropBlank_closing, ← hy, ← hrest]
    have hread := readDigits_closing hdigits (by simp; omega) hlength
    rw [countDigits, hread]

def countValue (y : Nat × Nat) (cs : List Char) : Except PatternError (Rest (Option Nat)) :=
  if y.2 = 0 then .ok (none, dropBlank cs)
  else if y.1 < 0x100000000 then .ok (some y.1, dropBlank cs)
  else .error .badCount

private theorem local_countValue (y : Nat × Nat) : Local (countValue y) := by
  have hblank : ∀ count : Option Nat, Local fun cs => .ok (count, dropBlank cs) := fun count => {
    suffix := fun {cs rest y} h => by
      obtain ⟨-, rfl⟩ := Prod.mk.inj (Except.ok.inj h)
      exact dropBlank_suffix cs
    closing := fun {cs rest y} h => by
      obtain ⟨rfl, hrest⟩ := Prod.mk.inj (Except.ok.inj h)
      rw [List.append_cancel_right ((dropBlank_closing cs).symm.trans hrest)] }
  change Local fun cs => countValue y cs
  by_cases hnone : y.2 = 0
  · simp only [countValue, if_pos hnone]
    exact hblank none
  · by_cases hlt : y.1 < 0x100000000
    · simp only [countValue, if_neg hnone, if_pos hlt]
      exact hblank (some y.1)
    · simp only [countValue, if_neg hnone, if_neg hlt]
      exact .error _

theorem local_readCount (o : Options) : Local (readCount o) :=
  .congr (fun _ => rfl) ((local_countDigits o).bind local_countValue)

def upperBound (o : Options) (least : Option Nat) (cs : List Char) :
    Except PatternError (Rest (Option (Nat × Option Nat))) :=
  match cs with
  | '\x7d' :: more => .ok (least.map fun n => (n, none), '\x7d' :: more)
  | _ => readCount o cs >>= fun p =>
    match least, p.1 with
    | some n, some m => .ok (some (n, some m), p.2)
    | _, _ => .error .badCount

private theorem local_twoBounds (o : Options) (least : Option Nat) : Local fun cs =>
    readCount o cs >>= fun p =>
      match least, p.1 with
      | some n, some m => (.ok (some (n, some m), p.2) :
        Except PatternError (Rest (Option (Nat × Option Nat))))
      | _, _ => .error .badCount := by
  refine (local_readCount o).bind (g := fun most rest =>
    match least, most with
    | some n, some m => (.ok (some (n, some m), rest) :
      Except PatternError (Rest (Option (Nat × Option Nat))))
    | _, _ => .error .badCount) fun most => ?_
  cases least with
  | none => exact .error _
  | some n =>
    cases most with
    | none => exact .error _
    | some m => exact .pure _

private theorem local_upperBound (o : Options) (least : Option Nat) :
    Local (upperBound o least) := by
  refine Local.head (c := '\x7d') (by decide) (.pure (least.map fun n => (n, none)))
    (local_twoBounds o least) (fun cs => rfl) fun cs h => ?_
  rw [upperBound.eq_def]
  split
  · exact absurd rfl (h _)
  · rfl

def closeBounds (o : Options) (bounds : Option (Nat × Option Nat)) :
    List Char → Except PatternError (Rest (Nat × Option Nat))
  | [] => .error .badCount
  | c :: cs =>
    match bounds with
    | some (n, m) =>
      if c = '\x7d' ∧ m.all (n ≤ ·) = true then .ok ((n, m), skip o cs) else .error .badCount
    | none => .error .badCount

private theorem local_closeBounds (o : Options) (bounds : Option (Nat × Option Nat)) :
    Local (closeBounds o bounds) := by
  refine Local.cons rfl fun c => ?_
  rcases bounds with _ | ⟨n, m⟩
  · exact .error _
  · by_cases h : c = '\x7d' ∧ m.all (n ≤ ·) = true
    · simp only [closeBounds, if_pos h]
      exact .ok_skip _ o
    · simp only [closeBounds, if_neg h]
      exact .error _

def otherBound (o : Options) (least : Option Nat) (cs : List Char) :
    Except PatternError (Rest (Option (Nat × Option Nat))) :=
  match cs with
  | ',' :: rest => upperBound o least (skip o rest)
  | _ => .ok (least.map fun n => (n, some n), cs)

private theorem local_otherBound (o : Options) (least : Option Nat) :
    Local (otherBound o least) := by
  refine Local.head (c := ',') (by decide)
    (Local.cons (f := fun cs => match cs with
      | [] => .error .badCount
      | _ :: rest => upperBound o least (skip o rest)) rfl
      fun _ => (local_upperBound o least).skip o)
    (.pure (least.map fun n => (n, some n))) (fun cs => rfl) fun cs h => ?_
  rw [otherBound.eq_def]
  split
  · exact absurd rfl (h _)
  · rfl

private theorem closeBounds_eq (bounds : Option (Nat × Option Nat)) (cs : List Char) :
    (match bounds, cs with
      | some (n, m), '\x7d' :: rest =>
        if m.all (n ≤ ·) then .ok ((n, m), skip o rest) else .error .badCount
      | _, _ => .error .badCount) = closeBounds o bounds cs := by
  rcases bounds with _ | ⟨n, m⟩
  · cases cs <;> rfl
  · rcases cs with _ | ⟨c, cs⟩
    · rfl
    · rw [closeBounds]
      split
      · rename_i heq hcs
        obtain ⟨rfl, rfl⟩ := Prod.mk.inj (Option.some.inj heq)
        obtain ⟨rfl, rfl⟩ := List.cons.inj hcs
        simp
      · rename_i hno
        have hc : c ≠ '\x7d' := fun hc => hno n m cs rfl (hc ▸ rfl)
        rw [if_neg fun h => hc h.1]

private theorem upperBound_bind (least : Option Nat) (cs : List Char)
    (k : Rest (Option (Nat × Option Nat)) → Except PatternError β) :
    (match cs with
      | '\x7d' :: more => k (least.map fun n => (n, none), '\x7d' :: more)
      | cs => readCount o cs >>= fun p =>
        match least, p.1 with
        | some n, some m => k (some (n, some m), p.2)
        | _, _ => .error .badCount) = upperBound o least cs >>= k := by
  rw [upperBound.eq_def]
  split
  · rfl
  · cases readCount o cs with
    | error e => rfl
    | ok p =>
      obtain ⟨most, rest⟩ := p
      cases least <;> cases most <;> rfl

private theorem otherBound_bind (least : Option Nat) (cs : List Char)
    (k : Rest (Option (Nat × Option Nat)) → Except PatternError β) :
    (match cs with
      | ',' :: rest =>
        match skip o rest with
        | '\x7d' :: more => k (least.map fun n => (n, none), '\x7d' :: more)
        | rest => readCount o rest >>= fun p =>
          match least, p.1 with
          | some n, some m => k (some (n, some m), p.2)
          | _, _ => .error .badCount
      | cs => k (least.map fun n => (n, some n), cs)) = otherBound o least cs >>= k := by
  rw [otherBound.eq_def]
  split
  · exact upperBound_bind least _ k
  · rfl

theorem readBounds_eq (cs : List Char) : readBounds o cs =
    readCount o (skip o cs) >>= fun p =>
      otherBound o p.1 p.2 >>= fun q => closeBounds o q.1 q.2 := by
  rw [readBounds]
  cases skip o cs with
  | nil => rfl
  | cons c more =>
    simp only [← otherBound_bind, ← closeBounds_eq]
    rfl

theorem local_readBounds (o : Options) : Local (readBounds o) :=
  .congr readBounds_eq (((local_readCount o).skip o).bind fun least =>
    (local_otherBound o least).bind (local_closeBounds o))

theorem readOptionLetters_suffix {letters y : List Char}
    (h : readOptionLetters letters cs = .ok (y, rest)) : rest <:+ cs := by
  induction cs generalizing letters with
  | nil => cases h
  | cons c cs ih =>
    rw [readOptionLetters] at h
    split at h
    · obtain ⟨-, rfl⟩ := Prod.mk.inj (Except.ok.inj h)
      exact List.suffix_rfl
    · exact (ih h).trans (List.suffix_cons c cs)

theorem ne_nil_of_readOptionLetters {letters y : List Char}
    (h : readOptionLetters letters cs = .ok (y, rest)) : rest ≠ [] := by
  induction cs generalizing letters with
  | nil => cases h
  | cons c cs ih =>
    rw [readOptionLetters] at h
    split at h
    · obtain ⟨-, rfl⟩ := Prod.mk.inj (Except.ok.inj h)
      exact List.cons_ne_nil c cs
    · exact ih h

theorem readOptionLetters_closing {letters y : List Char}
    (h : readOptionLetters letters (cs ++ [')']) = .ok (y, rest ++ [')'])) (hrest : rest ≠ []) :
    readOptionLetters letters cs = .ok (y, rest) := by
  induction cs generalizing letters with
  | nil =>
    obtain ⟨-, heq⟩ := Prod.mk.inj (Except.ok.inj h)
    exact absurd (eq_nil_of_closing heq) hrest
  | cons c cs ih =>
    rw [List.cons_append, readOptionLetters] at h
    rw [readOptionLetters]
    split at h
    · rw [if_pos ‹_›]
      obtain ⟨rfl, heq⟩ := Prod.mk.inj (Except.ok.inj h)
      rw [eq_cons_of_closing heq]
    · rw [if_neg ‹_›]
      exact ih h

theorem local_readGroupName [Dialect] : Local readGroupName where
  suffix {cs rest y} h := by
    rw [readGroupName] at h
    split at h
    · cases h
    · rename_i hdrop
      dsimp only at h
      split at h
      · cases h
      · split at h
        · obtain ⟨-, rfl⟩ := Prod.mk.inj (Except.ok.inj h)
          exact (List.suffix_cons _ _).trans (hdrop ▸ List.dropWhile_suffix _)
        · cases h
  closing {cs rest y} h := by
    rw [readGroupName] at h
    rw [readGroupName]
    cases hdrop : cs.dropWhile (· != '>') with
    | nil =>
      rw [List.dropWhile_append, hdrop] at h
      cases h
    | cons d after =>
      obtain ⟨htake, hrest⟩ := takeWhile_append_of_dropWhile hdrop [')']
      rw [hrest, htake] at h
      dsimp only at h ⊢
      split at h
      · cases h
      · rename_i heq
        rw [heq]
        split at h
        · rw [if_pos ‹_›]
          obtain ⟨rfl, hafter⟩ := Prod.mk.inj (Except.ok.inj h)
          rw [List.append_cancel_right hafter, heq]
        · cases h

end PredictiveParsing.Regex
