import PredictiveParsing.Proofs.Regex.Readers

/-!
# Classes in front of a closing parenthesis

A class that is closed has been read without a look at the parenthesis behind the text, since that
is no end of a class: members, ranges, operations and classes in the class are the same without it.
-/

namespace PredictiveParsing.Regex

variable {o : Options} {cs rest : List Char}

/-! ## Classes -/

/-- A named class behind its colon and the sign that negates it. -/
def asciiBody? (o : Options) (negated : Bool) (cs : List Char) : Option (Rest CharClass) :=
  match cs.dropWhile (· != ':'), asciiClasses.lookup (String.ofList (cs.takeWhile (· != ':'))) with
  | ':' :: ']' :: rest, some ranges =>
    some (.negatedIf negated (o.fold (.ofRanges ranges)), rest)
  | _, _ => none

private theorem asciiBody?_closing (negated : Bool) (cs : List Char) :
    asciiBody? o negated (cs ++ [')']) =
    (asciiBody? o negated cs).map fun p => (p.1, p.2 ++ [')']) := by
  rw [asciiBody?, asciiBody?]
  cases hdrop : cs.dropWhile (· != ':') with
  | nil =>
    rw [List.dropWhile_append, hdrop]
    rfl
  | cons d after =>
    obtain ⟨htake, hrest⟩ := takeWhile_append_of_dropWhile hdrop [')']
    rw [hrest, htake]
    generalize asciiClasses.lookup (String.ofList (cs.takeWhile (· != ':'))) = ranges
    cases after with
    | nil => simp
    | cons e rest =>
      by_cases hclose : d = ':' ∧ e = ']'
      · obtain ⟨rfl, rfl⟩ := hclose
        cases ranges <;> rfl
      · rw [List.cons_append]
        split
        · exact absurd ⟨by simp_all, by simp_all⟩ hclose
        · split
          · exact absurd ⟨by simp_all, by simp_all⟩ hclose
          · rfl

theorem asciiClass?_of_head {c : Char} (h : c ≠ '^') :
    asciiClass? o (':' :: c :: cs) = asciiBody? o false (c :: cs) := by
  rw [asciiClass?]
  · rfl
  · rintro more heq
    exact h (List.cons.inj heq).1

private theorem asciiClass?_closing (cs : List Char) : asciiClass? o (cs ++ [')']) =
    (asciiClass? o cs).map fun p => (p.1, p.2 ++ [')']) := by
  rcases cs with _ | ⟨c, cs⟩
  · rfl
  by_cases hc : c = ':'
  · subst hc
    rcases cs with _ | ⟨d, cs⟩
    · rfl
    by_cases hsign : d = '^'
    · subst hsign
      exact asciiBody?_closing true cs
    · rw [List.cons_append, List.cons_append, asciiClass?_of_head hsign,
        asciiClass?_of_head hsign]
      exact asciiBody?_closing false (d :: cs)
  · simp [asciiClass?, hc]

private theorem asciiBody?_suffix {negated : Bool} {k : CharClass}
    (h : asciiBody? o negated cs = some (k, rest)) : rest <:+ cs := by
  rw [asciiBody?] at h
  split at h
  · rename_i after ranges hdrop _
    obtain ⟨-, rfl⟩ := Prod.mk.inj (Option.some.inj h)
    have hafter : ':' :: ']' :: after <:+ cs := hdrop ▸ List.dropWhile_suffix _
    exact ((List.suffix_cons _ _).trans (List.suffix_cons _ _)).trans hafter
  · cases h

theorem asciiClass?_suffix {k : CharClass} (h : asciiClass? o cs = some (k, rest)) :
    rest <:+ cs := by
  rcases cs with _ | ⟨c, cs⟩
  · cases h
  refine List.IsSuffix.trans ?_ (List.suffix_cons c cs)
  by_cases hc : c = ':'
  · subst hc
    rcases cs with _ | ⟨d, cs⟩
    · cases h
    by_cases hsign : d = '^'
    · subst hsign
      have hbody : asciiBody? o true cs = some (k, rest) := h
      exact (asciiBody?_suffix hbody).trans (List.suffix_cons _ _)
    · rw [asciiClass?_of_head hsign] at h
      exact asciiBody?_suffix h
  · simp [asciiClass?, hc] at h

variable [Dialect]

theorem readMember_of_ne {c : Char} (h : c ≠ '\\') :
    readMember o (c :: cs) = .ok (.literal c, cs) := by
  rw [readMember.eq_def]
  split
  · rename_i heq
    cases heq
  · rename_i heq
    exact absurd (List.cons.inj heq).1 h
  · rename_i heq
    obtain ⟨rfl, rfl⟩ := List.cons.inj heq
    rfl

theorem readMember_suffix {e : Escape} {c : Char} (h : readMember o (c :: cs) = .ok (e, rest)) :
    rest <:+ cs := by
  by_cases hc : c = '\\'
  · subst hc
    rcases cs with _ | ⟨d, cs⟩
    · cases h
    · exact (readEscape_suffix h).trans (List.suffix_cons d cs)
  · rw [readMember_of_ne hc] at h
    obtain ⟨-, rfl⟩ := Prod.mk.inj (Except.ok.inj h)
    exact List.suffix_rfl

private theorem readMember_closing {e : Escape} (h : readMember o (cs ++ [')']) = .ok
    (e, rest ++ [')'])) (he : ∀ l, e ≠ .look l) : readMember o cs = .ok (e, rest) := by
  rcases cs with _ | ⟨c, cs⟩
  · exact absurd rfl (ne_nil_of_suffix (readMember_suffix h))
  by_cases hc : c = '\\'
  · subst hc
    rcases readEscape_closing h with h | ⟨⟨l, hl⟩, -⟩
    · exact h
    · exact absurd hl (he l)
  · rw [List.cons_append, readMember_of_ne hc] at h
    rw [readMember_of_ne hc]
    obtain ⟨rfl, hrest⟩ := Prod.mk.inj (Except.ok.inj h)
    rw [List.append_cancel_right hrest]

/-- A range from one character to another, behind the first of them. -/
def RangeTo (o : Options) (first : Escape) (k : CharClass) (cs rest : List Char) : Prop :=
  ∃ a b, first = .literal a ∧ a ≤ b ∧ k = .range a b ∧ readMember o cs = .ok (.literal b, rest)

def Alone (first : Escape) (k : CharClass) : Prop :=
  (∃ c, first = .literal c ∧ k = .single c) ∨ first = .class k

theorem readRange_iff {k : CharClass} : readRange o cs = .ok (k, rest) ↔
    ∃ first mid, readMember o cs = .ok (first, mid) ∧ skip o mid ≠ [] ∧
      ((startsRange o (skip o mid) = true ∧ RangeTo o first k (skip o ((skip o mid).drop 1)) rest) ∨
        (startsRange o (skip o mid) = false ∧ Alone first k ∧ rest = skip o mid)) := by
  constructor
  · intro h
    obtain ⟨⟨first, mid⟩, hfirst, h⟩ := Outcome.bind_eq_ok.mp h
    dsimp only at h
    refine ⟨first, mid, hfirst, ?_⟩
    rw [Outcome.unless_eq_ok] at h
    refine ⟨by simpa using h.1, ?_⟩
    replace h := h.2
    split at h
    · rename_i hstarts
      refine .inl ⟨hstarts, ?_⟩
      replace h := (Outcome.unless_eq_ok.mp h).2
      obtain ⟨⟨last, after⟩, hlast, h⟩ := Outcome.bind_eq_ok.mp h
      dsimp only at h
      split at h
      · split at h
        · obtain ⟨rfl, rfl⟩ := Prod.mk.inj (Except.ok.inj h)
          exact ⟨_, _, rfl, ‹_›, rfl, hlast⟩
        · cases h
      · cases h
    · rename_i hstarts
      refine .inr ⟨by simpa using hstarts, ?_⟩
      split at h
      · obtain ⟨rfl, rfl⟩ := Prod.mk.inj (Except.ok.inj h)
        exact ⟨.inl ⟨_, rfl, rfl⟩, rfl⟩
      · obtain ⟨rfl, rfl⟩ := Prod.mk.inj (Except.ok.inj h)
        exact ⟨.inr rfl, rfl⟩
      · cases h
  · rintro ⟨first, mid, hfirst, hne, h⟩
    refine Outcome.bind_eq_ok.mpr ⟨_, hfirst, ?_⟩
    dsimp only
    rw [if_neg (by simpa using hne)]
    rcases h with ⟨hstarts, a, b, rfl, hle, rfl, hlast⟩ | ⟨hstarts, halone, rfl⟩
    · rw [if_pos hstarts, if_neg]
      · refine Outcome.bind_eq_ok.mpr ⟨_, hlast, ?_⟩
        dsimp only
        rw [if_pos hle]
      · intro hnil
        rw [List.isEmpty_iff.mp hnil] at hlast
        cases hlast
    · rw [if_neg (by simp [hstarts])]
      rcases halone with ⟨c, rfl, rfl⟩ | rfl <;> rfl

theorem readRange_suffix {k : CharClass} {c : Char} (h : readRange o (c :: cs) = .ok (k, rest)) :
    rest <:+ cs := by
  obtain ⟨first, mid, hfirst, hne, h⟩ := readRange_iff.mp h
  have hmid := (skip_suffix o mid).trans (readMember_suffix hfirst)
  rcases h with ⟨-, a, b, -, -, -, hlast⟩ | ⟨-, -, rfl⟩
  · cases hafter : skip o ((skip o mid).drop 1) with
    | nil =>
      rw [hafter] at hlast
      cases hlast
    | cons d after =>
      rw [hafter] at hlast
      have hd : d :: after <:+ (skip o mid).drop 1 := hafter ▸ skip_suffix o _
      exact (readMember_suffix hlast).trans ((List.suffix_cons d after).trans
        (hd.trans ((List.drop_suffix _ _).trans hmid)))
  · exact hmid

omit [Dialect] in
private theorem startsRange_closing (o : Options) (c : Char) (cs : List Char) :
    startsRange o (c :: cs ++ [')']) = startsRange o (c :: cs) ∨
      (c = '-' ∧ startsRange o (c :: cs ++ [')']) = true ∧
        (skip o (cs ++ [')']) = [] ∨ skip o cs = [])) := by
  by_cases hc : c = '-'
  · subst hc
    rw [List.cons_append, startsRange, startsRange]
    rcases skip_closing o cs with hskip | hskip
    · rw [hskip]
      exact .inr ⟨rfl, rfl, .inl rfl⟩
    · rw [hskip]
      cases h : skip o cs with
      | nil => exact .inr ⟨rfl, rfl, .inr rfl⟩
      | cons d more =>
        left
        rw [List.cons_append]
        by_cases hd : d = ']' ∨ d = '-'
        · rcases hd with rfl | rfl <;> rfl
        · rw [not_or] at hd
          split <;> simp_all
  · left
    rw [List.cons_append]
    simp [startsRange, hc]

private theorem readRange_closing {k : CharClass} (h : readRange o (cs ++ [')']) = .ok
    (k, rest ++ [')'])) (hrest : rest ≠ []) : readRange o cs = .ok (k, rest) := by
  obtain ⟨first, mid, hfirst, hne, h⟩ := readRange_iff.mp h
  have hlook : ∀ l, first ≠ .look l := by
    rintro l rfl
    rcases h with ⟨-, a, b, h, -⟩ | ⟨-, ⟨c, h, -⟩ | h, -⟩ <;> cases h
  have hsuffix : mid <:+ cs ++ [')'] := by
    cases cs with
    | nil => exact (readMember_suffix hfirst).trans (List.suffix_cons _ _)
    | cons c cs => exact (readMember_suffix hfirst).trans (List.suffix_cons _ _)
  rcases List.suffix_concat_iff.mp hsuffix with rfl | ⟨mid, rfl, -⟩
  · exact absurd (skip_nil o) hne
  have hskip := (skip_closing o mid).resolve_left hne
  rw [hskip] at h
  rw [readRange_iff]
  refine ⟨first, mid, readMember_closing hfirst hlook, ?_⟩
  cases hmid : skip o mid with
  | nil =>
    rw [hmid] at h
    rcases h with ⟨hstarts, -⟩ | ⟨-, -, heq⟩
    · cases hstarts
    · exact absurd (List.append_cancel_right heq) hrest
  | cons c more =>
    rw [hmid] at h
    refine ⟨by simp, ?_⟩
    rcases h with ⟨hstarts, a, b, rfl, hle, rfl, hlast⟩ | ⟨hstarts, halone, heq⟩
    · left
      rw [List.cons_append, List.drop_one, List.tail_cons] at hlast
      have hmore : skip o (more ++ [')']) ≠ [] := by
        intro hnil
        rw [hnil] at hlast
        cases hlast
      rw [(skip_closing o more).resolve_left hmore] at hlast
      have hlast := readMember_closing hlast (by simp)
      have hnil : skip o more ≠ [] := by
        intro hnil
        rw [hnil] at hlast
        cases hlast
      refine ⟨?_, a, b, rfl, hle, rfl, hlast⟩
      rcases startsRange_closing o c more with h | ⟨-, -, h⟩
      · rw [← h, hstarts]
      · exact (h.elim hmore hnil).elim
    · right
      refine ⟨?_, halone, List.append_cancel_right heq⟩
      rcases startsRange_closing o c more with h | ⟨-, h, -⟩
      · rw [← h, hstarts]
      · rw [hstarts] at h
        cases h

omit [Dialect] in
theorem readOpening_suffix (members : CharClass) (n : Nat) (cs : List Char) :
    (readOpening o members n cs).2 <:+ cs := by
  induction n generalizing members cs with
  | zero => exact List.suffix_rfl
  | succ n ih =>
    rw [readOpening.eq_def]
    dsimp only
    split
    · exact (ih _ _).trans ((skip_suffix o _).trans (List.suffix_cons _ _))
    · split
      · exact (skip_suffix o _).trans (List.suffix_cons _ _)
      · exact List.suffix_rfl
    · exact List.suffix_rfl

omit [Dialect] in
private theorem readOpening_closing {members k : CharClass} {fuel n : Nat}
    (h : readOpening o members fuel (cs ++ [')']) = (k, rest ++ [')'])) (hfuel : cs.length < fuel)
    (hn : cs.length ≤ n) : readOpening o members n cs = (k, rest) := by
  induction fuel generalizing members cs n with
  | zero => simp at hfuel
  | succ fuel ih =>
    rcases cs with _ | ⟨c, cs⟩
    · obtain ⟨rfl, hrest⟩ := Prod.mk.inj h
      rw [← List.append_cancel_right hrest]
      cases n <;> rfl
    simp only [List.length_cons] at hfuel hn
    obtain ⟨n, rfl⟩ := Nat.exists_eq_add_of_le' (Nat.le_trans (by omega) hn : 1 ≤ n)
    rw [List.cons_append] at h
    by_cases hhyphen : c = '-'
    · subst hhyphen
      rw [readOpening] at h ⊢
      have hlength := (skip_suffix o cs).length_le
      have hsuffix := readOpening_suffix (o := o) (.union members (.single '-')) fuel
        (skip o (cs ++ [')']))
      rw [h] at hsuffix
      rw [skip_closing_of_suffix hsuffix] at h
      exact ih h (by omega) (by omega)
    by_cases hclose : c = ']'
    · subst hclose
      rw [readOpening] at h ⊢
      split at h
      · rw [if_pos ‹_›]
        obtain ⟨rfl, hrest⟩ := Prod.mk.inj h
        rw [skip_eq_of_closing hrest]
      · rw [if_neg ‹_›]
        obtain ⟨rfl, hrest⟩ := Prod.mk.inj h
        rw [eq_cons_of_closing hrest]
    · have hplain : ∀ {m : Nat} {more : List Char},
          readOpening o members (m + 1) (c :: more) = (members, c :: more) := by
        intro m more
        rw [readOpening]
        · rintro rest heq
          exact hhyphen (List.cons.inj heq).1
        · rintro rest heq
          exact hclose (List.cons.inj heq).1
      rw [hplain] at h ⊢
      obtain ⟨rfl, hrest⟩ := Prod.mk.inj h
      rw [eq_cons_of_closing hrest]

section Members

variable {left : Option (ClassOperation × CharClass)} {members : CharClass} {depth n : Nat}

theorem readMembers_nil : readMembers o n left members depth [] = .error .unclosedClass := by
  cases n with
  | zero => rw [readMembers]
  | succ n =>
    rw [readMembers.eq_def]
    dsimp only
    rw [skip_nil]

/-- An operation on classes is written with its sign twice. -/
def operation? (c : Char) : List Char → Option (ClassOperation × List Char)
  | [] => none
  | d :: rest =>
    if c = '&' ∧ d = '&' then some (.intersection, rest)
    else if c = '-' ∧ d = '-' then some (.difference, rest)
    else if c = '~' ∧ d = '~' then some (.symmetricDifference, rest)
    else none

theorem readMembers_cons {c : Char} {more : List Char} (hskip : skip o cs = c :: more) :
    readMembers o (n + 1) left members depth cs =
      if c = ']' then .ok ((combine o left members, depth), more)
      else if c = '[' then
        match asciiClass? o more with
        | some (s, rest) => readMembers o n left (.union members s) depth rest
        | none => readClass o n more >>= fun p =>
          readMembers o n left (.union members p.1.1) (max depth p.1.2) p.2
      else
        match operation? c more with
        | some (op, rest) => readMembers o n (some (op, combine o left members)) .empty depth rest
        | none => readRange o (c :: more) >>= fun p =>
          readMembers o n left (.union members p.1) depth p.2 := by
  rw [readMembers.eq_def]
  dsimp only
  rw [hskip]
  split
  · rename_i h
    cases h
  · rename_i h
    obtain ⟨rfl, rfl⟩ := List.cons.inj h
    rfl
  · rename_i h
    obtain ⟨rfl, rfl⟩ := List.cons.inj h
    rfl
  · rename_i h
    obtain ⟨rfl, rfl⟩ := List.cons.inj h
    rfl
  · rename_i h
    obtain ⟨rfl, rfl⟩ := List.cons.inj h
    rfl
  · rename_i h
    obtain ⟨rfl, rfl⟩ := List.cons.inj h
    rfl
  · rename_i hnil hclose hopen hand hhyphen htilde
    have hclose : c ≠ ']' := fun h => hclose more (h ▸ rfl)
    have hopen : c ≠ '[' := fun h => hopen more (h ▸ rfl)
    have hoperation : operation? c more = none := by
      rcases more with _ | ⟨d, more⟩
      · rfl
      rw [operation?, if_neg, if_neg, if_neg]
      · rintro ⟨rfl, rfl⟩
        exact htilde more rfl
      · rintro ⟨rfl, rfl⟩
        exact hhyphen more rfl
      · rintro ⟨rfl, rfl⟩
        exact hand more rfl
    rw [if_neg hclose, if_neg hopen, hoperation]

omit [Dialect] in
private theorem operation?_closing (c : Char) (more : List Char) : operation? c (more ++ [')']) =
    (operation? c more).map fun p => (p.1, p.2 ++ [')']) := by
  rcases more with _ | ⟨d, more⟩
  · simp [operation?]
  · simp only [List.cons_append, operation?]
    split
    · rfl
    · split
      · rfl
      · split <;> rfl

omit [Dialect] in
theorem operation?_suffix {c : Char} {more : List Char} {op : ClassOperation}
    (h : operation? c more = some (op, rest)) : rest <:+ more := by
  rcases more with _ | ⟨d, more⟩
  · cases h
  · simp only [operation?] at h
    split at h
    · cases h
      exact List.suffix_cons _ _
    · split at h
      · cases h
        exact List.suffix_cons _ _
      · split at h
        · cases h
          exact List.suffix_cons _ _
        · cases h

def classHead (o : Options) (cs : List Char) : Bool × List Char :=
  match skip o cs with
  | '^' :: rest => (true, skip o rest)
  | _ => (false, skip o cs)

theorem readClass_succ (cs : List Char) : readClass o (n + 1) cs =
    readMembers o n none (readOpening o .empty (classHead o cs).2.length (classHead o cs).2).1 0
        (readOpening o .empty (classHead o cs).2.length (classHead o cs).2).2 >>= fun p =>
      .ok ((.negatedIf (classHead o cs).1 (o.fold p.1.1), p.1.2 + 1), p.2) := by
  rw [readClass]
  rfl

omit [Dialect] in
theorem classHead_suffix (cs : List Char) : (classHead o cs).2 <:+ cs := by
  rw [classHead]
  split
  · rename_i rest h
    have hrest : '^' :: rest <:+ cs := h ▸ skip_suffix o cs
    exact (skip_suffix o rest).trans ((List.suffix_cons _ _).trans hrest)
  · exact skip_suffix o cs

omit [Dialect] in
private theorem classHead_closing (cs : List Char) : (classHead o (cs ++ [')'])).2 = [] ∨
    classHead o (cs ++ [')']) = ((classHead o cs).1, (classHead o cs).2 ++ [')']) := by
  rw [classHead, classHead]
  rcases skip_closing o cs with hskip | hskip
  · rw [hskip]
    exact .inl rfl
  · rw [hskip]
    rcases skip o cs with _ | ⟨c, more⟩
    · exact .inr rfl
    by_cases hc : c = '^'
    · subst hc
      rcases skip_closing o more with hmore | hmore
      · exact .inl hmore
      · right
        change (true, skip o (more ++ [')'])) = (true, skip o more ++ [')'])
        rw [hmore]
    · right
      simp [hc]

/-- What the readers of classes leave of a text is the end of it. -/
structure ClassSuffixes (o : Options) (n : Nat) : Prop where
  ofClass {cs rest : List Char} {y : CharClass × Nat} (h : readClass o n cs = .ok (y, rest)) :
    rest <:+ cs
  ofMembers {left : Option (ClassOperation × CharClass)} {members : CharClass} {depth : Nat}
    {cs rest : List Char} {y : CharClass × Nat}
    (h : readMembers o n left members depth cs = .ok (y, rest)) : rest <:+ cs

private theorem ClassSuffixes.class_succ (ih : ClassSuffixes o n) {y : CharClass × Nat}
    (h : readClass o (n + 1) cs = .ok (y, rest)) : rest <:+ cs := by
  rw [readClass_succ] at h
  obtain ⟨⟨_, after⟩, hmembers, h⟩ := Outcome.bind_eq_ok.mp h
  obtain ⟨-, rfl⟩ := Prod.mk.inj (Except.ok.inj h)
  exact (ih.ofMembers hmembers).trans ((readOpening_suffix _ _ _).trans (classHead_suffix cs))

private theorem ClassSuffixes.members_succ (ih : ClassSuffixes o n) {y : CharClass × Nat}
    (h : readMembers o (n + 1) left members depth cs = .ok (y, rest)) : rest <:+ cs := by
  cases hskip : skip o cs with
  | nil =>
    rw [readMembers.eq_def] at h
    dsimp only at h
    rw [hskip] at h
    cases h
  | cons c more =>
    have hmore : more <:+ cs := (List.suffix_cons c more).trans (hskip ▸ skip_suffix o cs)
    refine List.IsSuffix.trans ?_ hmore
    rw [readMembers_cons hskip] at h
    split at h
    · obtain ⟨-, rfl⟩ := Prod.mk.inj (Except.ok.inj h)
      exact List.suffix_rfl
    split at h
    · split at h
      · rename_i hclass
        exact (ih.ofMembers h).trans (asciiClass?_suffix hclass)
      · obtain ⟨⟨_, after⟩, hclass, h⟩ := Outcome.bind_eq_ok.mp h
        exact (ih.ofMembers h).trans (ih.ofClass hclass)
    split at h
    · rename_i hoperation
      exact (ih.ofMembers h).trans (operation?_suffix hoperation)
    · obtain ⟨⟨_, after⟩, hrange, h⟩ := Outcome.bind_eq_ok.mp h
      exact (ih.ofMembers h).trans (readRange_suffix hrange)

theorem classSuffixes (o : Options) (n : Nat) : ClassSuffixes o n := by
  induction n with
  | zero =>
    constructor
    · intro cs rest y h
      rw [readClass] at h
      cases h
    · intro left members depth cs rest y h
      rw [readMembers] at h
      cases h
  | succ n ih => exact ⟨ih.class_succ, ih.members_succ⟩

/-- A parenthesis is no end of a class. -/
theorem readMembers_parenthesis {y : CharClass × Nat} (hskip : skip o cs = [')'])
    (h : readMembers o n left members depth cs = .ok (y, rest)) : False := by
  cases n with
  | zero =>
    rw [readMembers] at h
    cases h
  | succ n =>
    rw [readMembers_cons hskip, if_neg (by decide), if_neg (by decide)] at h
    obtain ⟨⟨k, mid⟩, hrange, -⟩ := Outcome.bind_eq_ok.mp h
    obtain ⟨first, mid, hfirst, hne, -⟩ := readRange_iff.mp hrange
    obtain ⟨-, rfl⟩ := Prod.mk.inj (Except.ok.inj hfirst)
    exact hne (skip_nil o)

/-- The members that are left end with the parenthesis and hold more than that. -/
theorem exists_of_readMembers {fuel : Nat} {mid : List Char} {y : CharClass × Nat}
    (hmid : mid <:+ cs ++ [')']) (h : readMembers o fuel left members depth mid = .ok (y, rest)) :
    ∃ more, mid = more ++ [')'] ∧ more ≠ [] ∧ more <:+ cs := by
  rcases List.suffix_concat_iff.mp hmid with rfl | ⟨more, rfl, hmore⟩
  · rw [readMembers_nil] at h
    cases h
  · refine ⟨more, rfl, ?_, hmore⟩
    rintro rfl
    have hskip : skip o [')'] = [')'] := by
      rw [skip]
      split <;> rfl
    exact readMembers_parenthesis hskip h

/-- Classes that leave the parenthesis at the end of the text are the same without it, given the
fuel that the shorter text needs. -/
structure ClassClosings (o : Options) (fuel : Nat) : Prop where
  ofClass {cs rest : List Char} {y : CharClass × Nat} {n : Nat}
    (h : readClass o fuel (cs ++ [')']) = .ok (y, rest ++ [')'])) (hn : 2 * cs.length + 2 ≤ n) :
    readClass o n cs = .ok (y, rest)
  ofMembers {left : Option (ClassOperation × CharClass)} {members : CharClass} {depth : Nat}
    {cs rest : List Char} {y : CharClass × Nat} {n : Nat}
    (h : readMembers o fuel left members depth (cs ++ [')']) = .ok (y, rest ++ [')']))
    (hn : 2 * cs.length + 1 ≤ n) : readMembers o n left members depth cs = .ok (y, rest)

private theorem ClassClosings.class_succ {fuel : Nat} (ih : ClassClosings o fuel)
    {y : CharClass × Nat} (h : readClass o (fuel + 1) (cs ++ [')']) = .ok (y, rest ++ [')']))
    (hn : 2 * cs.length + 2 ≤ n) : readClass o n cs = .ok (y, rest) := by
  obtain ⟨n, rfl⟩ := Nat.exists_eq_add_of_le' (Nat.le_trans (by omega) hn : 1 ≤ n)
  rw [readClass_succ] at h ⊢
  obtain ⟨⟨k, after⟩, hmembers, h⟩ := Outcome.bind_eq_ok.mp h
  obtain ⟨rfl, rfl⟩ := Prod.mk.inj (Except.ok.inj h)
  have hsuffix := readOpening_suffix (o := o) .empty (classHead o (cs ++ [')'])).2.length
    (classHead o (cs ++ [')'])).2
  rcases classHead_closing (o := o) cs with hhead | hhead
  · rw [hhead] at hmembers
    have hnone : (readOpening o .empty ([] : List Char).length []).2 = [] := rfl
    rw [hnone, readMembers_nil] at hmembers
    cases hmembers
  · rw [hhead] at hmembers hsuffix ⊢
    obtain ⟨more, hmore, -, hle⟩ := exists_of_readMembers hsuffix hmembers
    have hopened : readOpening o .empty ((classHead o cs).2 ++ [')']).length
        ((classHead o cs).2 ++ [')']) = (_, more ++ [')']) := Prod.ext rfl hmore
    have hopening := readOpening_closing hopened (by simp) (Nat.le_refl (classHead o cs).2.length)
    have hlength := hle.length_le
    have hlength' := (classHead_suffix (o := o) cs).length_le
    rw [hmore] at hmembers
    have hread := ih.ofMembers hmembers (by omega : 2 * more.length + 1 ≤ n)
    rw [hopening]
    exact Outcome.bind_eq_ok.mpr ⟨_, hread, rfl⟩

private theorem ClassClosings.members_succ {fuel : Nat} (ih : ClassClosings o fuel)
    {y : CharClass × Nat}
    (h : readMembers o (fuel + 1) left members depth (cs ++ [')']) = .ok (y, rest ++ [')']))
    (hn : 2 * cs.length + 1 ≤ n) : readMembers o n left members depth cs = .ok (y, rest) := by
  obtain ⟨n, rfl⟩ := Nat.exists_eq_add_of_le' (Nat.le_trans (by omega) hn : 1 ≤ n)
  rcases skip_closing o cs with hskip | hskip
  · rw [readMembers.eq_def] at h
    dsimp only at h
    rw [hskip] at h
    cases h
  cases hcs : skip o cs with
  | nil =>
    rw [hcs] at hskip
    exact (readMembers_parenthesis hskip h).elim
  | cons c more =>
    have hlength : more.length + 1 ≤ cs.length := (hcs ▸ skip_suffix o cs).length_le
    rw [hcs, List.cons_append] at hskip
    rw [readMembers_cons hskip] at h
    rw [readMembers_cons hcs]
    split at h
    · rw [if_pos ‹_›]
      obtain ⟨rfl, hrest⟩ := Prod.mk.inj (Except.ok.inj h)
      rw [List.append_cancel_right hrest]
    rw [if_neg ‹_›]
    split at h
    · rw [if_pos ‹_›]
      rw [asciiClass?_closing] at h
      cases hclass : asciiClass? o more with
      | some p =>
        rw [hclass] at h
        have hle := (asciiClass?_suffix hclass).length_le
        exact ih.ofMembers h (by omega)
      | none =>
        rw [hclass] at h
        obtain ⟨⟨p, mid⟩, hinner, h⟩ := Outcome.bind_eq_ok.mp h
        -- members follow the inner class, so it has left the parenthesis alone
        obtain ⟨after, rfl, -, hafter⟩ :=
          exists_of_readMembers ((classSuffixes o fuel).ofClass hinner) h
        have hle := hafter.length_le
        have hrest := ih.ofMembers h (by omega : 2 * after.length + 1 ≤ n)
        exact Outcome.bind_eq_ok.mpr ⟨_, ih.ofClass hinner (by omega), hrest⟩
    rw [if_neg ‹_›]
    rw [operation?_closing] at h
    cases hoperation : operation? c more with
    | some p =>
      rw [hoperation] at h
      have hle := (operation?_suffix hoperation).length_le
      exact ih.ofMembers h (by omega)
    | none =>
      rw [hoperation] at h
      obtain ⟨⟨k, mid⟩, hrange, h⟩ := Outcome.bind_eq_ok.mp h
      obtain ⟨after, rfl, hne, hafter⟩ := exists_of_readMembers (readRange_suffix hrange) h
      have hle := hafter.length_le
      have hrest := ih.ofMembers h (by omega : 2 * after.length + 1 ≤ n)
      exact Outcome.bind_eq_ok.mpr ⟨_, readRange_closing hrange hne, hrest⟩

theorem classClosings (o : Options) (fuel : Nat) : ClassClosings o fuel := by
  induction fuel with
  | zero =>
    constructor
    · intro cs rest y n h
      rw [readClass] at h
      cases h
    · intro left members depth cs rest y n h
      rw [readMembers] at h
      cases h
  | succ fuel ih => exact ⟨ih.class_succ, ih.members_succ⟩

end Members

end PredictiveParsing.Regex
