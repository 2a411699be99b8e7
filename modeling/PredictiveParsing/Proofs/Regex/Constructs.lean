import PredictiveParsing.Proofs.Regex.ClassReaders

/-!
# Constructs of a pattern

A step of reading a pattern in two parts: the construct that comes next in the text, which depends
on the options alone, and what the construct does to the groups that are open. The first part leaves
a closing parenthesis at the end of the text alone, or needs it.
-/

namespace PredictiveParsing.Regex

variable [Dialect] {o : Options} {cs rest : List Char}

/-- What a pattern may go on with. -/
inductive Construct where
  | piece (p : Piece)
  | branch
  | repetition (greedy : Bool) (least : Nat) (most : Option Nat)
  | group (inside : Options) (name : Option (List Char))
  | options (inside : Options)
  | close

/-- The repetition whose bounds have been read, greedy or lazy. -/
def readRepetition (least : Nat) (most : Option Nat) (cs : List Char) :
    Except PatternError (Rest Construct) :=
  .ok (.repetition (readGreed cs).1 least most, (readGreed cs).2)

def readNamed (o : Options) (cs : List Char) : Except PatternError (Rest Construct) :=
  (readGroupName cs).map fun p => (.group o (some p.1), p.2)

/-- What option letters are for: the group behind a colon, or the rest of the group around them. -/
def optionsEnd (o : Options) (letters : List Char) :
    List Char → Except PatternError (Rest Construct)
  | [] => .error .badOption
  | c :: cs =>
    if !optionLettersOk letters then .error .badOption
    else if c = ')' then
      if letters.isEmpty then .error .nothingToRepeat else .ok (.options (o.change letters), cs)
    else .ok (.group (o.change letters) none, cs)

def readOptions (o : Options) (cs : List Char) : Except PatternError (Rest Construct) :=
  readOptionLetters [] cs >>= fun p => optionsEnd o p.1 p.2

/-- Whether an assertion on the text around the place follows an opening parenthesis. -/
def StartsLookAround (cs : List Char) : Prop :=
  ['?', '='] <+: cs ∨ ['?', '!'] <+: cs ∨ ['?', '<', '='] <+: cs ∨ ['?', '<', '!'] <+: cs

instance : DecidablePred StartsLookAround := fun _ => inferInstanceAs (Decidable (_ ∨ _ ∨ _ ∨ _))

def readGroup (o : Options) (cs : List Char) : Except PatternError (Rest Construct) :=
  if StartsLookAround cs then .error .lookAround
  else if ['?', 'P', '<'] <+: cs then readNamed o (cs.drop 3)
  else if ['?', '<'] <+: cs then readNamed o (cs.drop 2)
  else if ['?'] <+: cs then readOptions o (cs.drop 1)
  else .ok (.group o none, cs)

def Escape.regex (o : Options) : Escape → Regex
  | .literal c => literalRegex o c
  | .class s => .chars s
  | .look l => .look l

/-- The construct that starts with a character, and what follows it. -/
def construct (o : Options) (c : Char) : List Char → Except PatternError (Rest Construct) :=
  match c with
  | '(' => fun cs => readGroup o (skip o cs)
  | ')' => fun cs => .ok (.close, cs)
  | '|' => fun cs => .ok (.branch, cs)
  | '[' => fun cs =>
    (readClass o (2 * cs.length + 2) cs).map fun p => (.piece ⟨.chars p.1.1, p.1.2, 1, true⟩, p.2)
  | '?' => readRepetition 0 (some 1)
  | '*' => readRepetition 0 none
  | '+' => readRepetition 1 none
  | '\x7b' => fun cs => readBounds o cs >>= fun p => readRepetition p.1.1 p.1.2 p.2
  | '\\' => fun cs => (readEscape o cs).map fun p => (.piece ⟨p.1.regex o, 0, 1, true⟩, p.2)
  | '.' => fun cs => .ok (.piece ⟨dotRegex o, 0, 1, true⟩, cs)
  | '^' => fun cs => .ok (.piece ⟨startRegex o, 0, 1, true⟩, cs)
  | '$' => fun cs => .ok (.piece ⟨endRegex o, 0, 1, true⟩, cs)
  | c => fun cs => .ok (.piece ⟨literalRegex o c, 0, 1, true⟩, cs)

def Reading.take (r : Reading) (rest : List Char) : Construct → Except PatternError Reading
  | .piece p => .ok (r.push p rest)
  | .branch =>
    .ok { r with rest := rest, branches := Piece.sequence r.pieces :: r.branches, pieces := [] }
  | .repetition greedy least most => r.repeatLast greedy least most rest
  | .group inside none => .ok (r.openGroup inside rest)
  | .group inside (some name) =>
    if r.names.contains name then .error .badGroupName
    else .ok ({ r with names := name :: r.names }.openGroup inside rest)
  | .options inside => .ok ({ r with options := inside }.push ⟨.empty, 0, 0, false⟩ rest)
  | .close => r.closeGroup rest

/-! ## Constructs in front of a closing parenthesis -/

omit [Dialect] in
private theorem local_readGreed : Local fun cs => .ok ((readGreed cs).1, (readGreed cs).2) := by
  have hlazy : Local fun cs : List Char => match cs with
      | [] => .error .nothingToRepeat
      | _ :: cs => .ok (false, cs) :=
    .cons rfl fun _ => .pure false
  refine .head (c := '?') (by decide) hlazy (.pure true) (fun cs => rfl) fun cs h => ?_
  rw [readGreed.eq_def]
  split
  · exact absurd rfl (h _)
  · rfl

omit [Dialect] in
private theorem local_readRepetition (least : Nat) (most : Option Nat) :
    Local (readRepetition least most) :=
  local_readGreed.map fun greedy => Construct.repetition greedy least most

private theorem local_readNamed (o : Options) : Local (readNamed o) :=
  local_readGroupName.map fun name => Construct.group o (some name)

omit [Dialect] in
private theorem local_optionsEnd (o : Options) (letters : List Char) :
    Local (optionsEnd o letters) := by
  refine Local.cons rfl fun c => ?_
  cases hok : optionLettersOk letters with
  | false =>
    simp only [optionsEnd, hok]
    exact .error _
  | true =>
    by_cases hc : c = ')'
    · cases hempty : letters.isEmpty with
      | true =>
        simp only [optionsEnd, hok, hc, hempty]
        exact .error _
      | false =>
        simp only [optionsEnd, hok, hc, hempty]
        exact .pure _
    · simp only [optionsEnd, hok, if_neg hc]
      exact .pure _

omit [Dialect] in
private theorem local_readOptions (o : Options) : Local (readOptions o) where
  suffix h := by
    obtain ⟨⟨letters, mid⟩, hletters, h⟩ := Outcome.bind_eq_ok.mp h
    exact ((local_optionsEnd o letters).suffix h).trans (readOptionLetters_suffix hletters)
  closing {cs rest y} h := by
    obtain ⟨⟨letters, mid⟩, hletters, h⟩ := Outcome.bind_eq_ok.mp h
    rcases List.suffix_concat_iff.mp (readOptionLetters_suffix hletters) with rfl | ⟨mid, rfl, -⟩
    · exact absurd rfl (ne_nil_of_suffix ((local_optionsEnd o letters).suffix h))
    · have hread := (local_optionsEnd o letters).closing h
      have hmid : mid ≠ [] := by
        rintro rfl
        cases hread
      exact Outcome.bind_eq_ok.mpr ⟨_, readOptionLetters_closing hletters hmid, hread⟩

omit [Dialect] in
private theorem startsLookAround_closing (cs : List Char) :
    StartsLookAround (cs ++ [')']) ↔ StartsLookAround cs := by
  simp only [StartsLookAround]
  rw [prefix_closing (by decide), prefix_closing (by decide), prefix_closing (by decide),
    prefix_closing (by decide)]

private theorem local_readGroup (o : Options) : Local (readGroup o) := by
  refine Local.ite startsLookAround_closing (.error _) ?_
  refine Local.ite (fun _ => prefix_closing (by decide)) ((local_readNamed o).drop 3) ?_
  refine Local.ite (fun _ => prefix_closing (by decide)) ((local_readNamed o).drop 2) ?_
  exact Local.ite (fun _ => prefix_closing (by decide)) ((local_readOptions o).drop 1) (.pure _)

private theorem local_readClass (o : Options) :
    Local fun cs => readClass o (2 * cs.length + 2) cs where
  suffix h := (classSuffixes o _).ofClass h
  closing h := (classClosings o _).ofClass h (by omega)

theorem local_construct {c : Char} (hc : c ≠ '\\') : Local (construct o c) := by
  rw [construct.eq_def]
  split
  · exact (local_readGroup o).skip o
  · exact .pure _
  · exact .pure _
  · exact (local_readClass o).map fun y => Construct.piece ⟨.chars y.1, y.2, 1, true⟩
  · exact local_readRepetition 0 (some 1)
  · exact local_readRepetition 0 none
  · exact local_readRepetition 1 none
  · exact (local_readBounds o).bind fun y => local_readRepetition y.1 y.2
  · exact absurd rfl hc
  · exact .pure _
  · exact .pure _
  · exact .pure _
  · exact .pure _

private theorem escape_suffix {x : Construct} (h : construct o '\\' cs = .ok (x, rest)) :
    rest <:+ cs := by
  obtain ⟨⟨e, mid⟩, he, h⟩ := Outcome.map_eq_ok.mp h
  obtain ⟨-, rfl⟩ := Prod.mk.inj h
  rcases cs with _ | ⟨c, cs⟩
  · cases he
  · exact (readEscape_suffix he).trans (List.suffix_cons c cs)

theorem construct_suffix {c : Char} {x : Construct} (h : construct o c cs = .ok (x, rest)) :
    rest <:+ cs := by
  by_cases hc : c = '\\'
  · subst hc
    exact escape_suffix h
  · exact (local_construct hc).suffix h

/-- A construct that leaves the parenthesis at the end is there without it, except for a word
boundary in front of what becomes a count without a number. -/
theorem construct_closing {c : Char} {x : Construct}
    (h : construct o c (cs ++ [')']) = .ok (x, rest ++ [')'])) :
    construct o c cs = .ok (x, rest) ∨ (∃ p, x = .piece p) ∧ OpensNothing o rest := by
  by_cases hc : c = '\\'
  · subst hc
    obtain ⟨⟨e, mid⟩, he, h⟩ := Outcome.map_eq_ok.mp h
    obtain ⟨rfl, rfl⟩ := Prod.mk.inj h
    rcases readEscape_closing he with he | ⟨-, hopens⟩
    · exact .inl (Outcome.map_eq_ok.mpr ⟨_, he, rfl⟩)
    · exact .inr ⟨⟨_, rfl⟩, hopens⟩
  · exact .inl ((local_construct hc).closing h)

private theorem ne_close_of_readGroup {x : Construct} (h : readGroup o cs = .ok (x, rest)) :
    x ≠ .close := by
  have hnamed : ∀ {text : List Char}, readNamed o text = .ok (x, rest) → x ≠ .close := by
    intro text h
    obtain ⟨p, -, h⟩ := Outcome.map_eq_ok.mp h
    obtain ⟨rfl, -⟩ := Prod.mk.inj h
    exact Construct.noConfusion
  rw [readGroup] at h
  split at h
  · cases h
  split at h
  · exact hnamed h
  split at h
  · exact hnamed h
  split at h
  · obtain ⟨⟨letters, mid⟩, -, h⟩ := Outcome.bind_eq_ok.mp h
    rcases mid with _ | ⟨c, mid⟩
    · cases h
    obtain ⟨-, h⟩ := Outcome.unless_eq_ok.mp h
    split at h
    · obtain ⟨-, h⟩ := Outcome.unless_eq_ok.mp h
      obtain ⟨rfl, -⟩ := Prod.mk.inj (Except.ok.inj h)
      exact Construct.noConfusion
    · obtain ⟨rfl, -⟩ := Prod.mk.inj (Except.ok.inj h)
      exact Construct.noConfusion
  · obtain ⟨rfl, -⟩ := Prod.mk.inj (Except.ok.inj h)
    exact Construct.noConfusion

/-- Only a closing parenthesis closes a group. -/
theorem eq_of_construct_close {c : Char} (h : construct o c cs = .ok (.close, rest)) :
    c = ')' ∧ rest = cs := by
  rw [construct.eq_def] at h
  split at h
  · exact absurd rfl (ne_close_of_readGroup h)
  · exact ⟨rfl, (Prod.mk.inj (Except.ok.inj h)).2.symm⟩
  · cases h
  · obtain ⟨p, -, h⟩ := Outcome.map_eq_ok.mp h
    cases h
  · cases h
  · cases h
  · cases h
  · obtain ⟨p, -, h⟩ := Outcome.bind_eq_ok.mp h
    cases h
  · obtain ⟨p, -, h⟩ := Outcome.map_eq_ok.mp h
    cases h
  all_goals cases h

/-! ## Steps -/

section Steps

variable {r r' : Reading}

theorem take_eq_ok (x : Construct) (rest : List Char) : r.take rest x = .ok r' ↔
    ∃ x' rest', (.ok (x, rest) : Except PatternError (Rest Construct)) = .ok (x', rest') ∧
      r.take rest' x' = .ok r' := by
  constructor
  · exact fun h => ⟨x, rest, rfl, h⟩
  · rintro ⟨x', rest', heq, h⟩
    obtain ⟨rfl, rfl⟩ := Prod.mk.inj (Except.ok.inj heq)
    exact h

/-- A reader that goes well leads to the construct that is made of what it reads. -/
theorem bind_take_eq_ok {α : Type} (y : Except PatternError (Rest α)) (g : α → Construct) :
    (y >>= fun p => r.take p.2 (g p.1)) = .ok r' ↔
      ∃ x rest, (y.map fun p => (g p.1, p.2)) = .ok (x, rest) ∧ r.take rest x = .ok r' := by
  cases y with
  | error e => simp [bind, Except.bind, Except.map]
  | ok p => exact take_eq_ok (g p.1) p.2

private theorem openNamed_eq_ok : r.openNamed cs = .ok r' ↔
    ∃ x rest, readNamed r.options cs = .ok (x, rest) ∧ r.take rest x = .ok r' :=
  bind_take_eq_ok (readGroupName cs) fun name => .group r.options (some name)

private theorem readOptions_eq_ok :
    (readOptionLetters [] cs >>= fun p =>
      if !optionLettersOk p.1 then .error .badOption
      else
        match p.2 with
        | ')' :: rest =>
          if p.1.isEmpty then .error .nothingToRepeat
          else .ok ({ r with options := r.options.change p.1 }.push ⟨.empty, 0, 0, false⟩ rest)
        | _ => .ok (r.openGroup (r.options.change p.1) (p.2.drop 1))) = .ok r' ↔
      ∃ x rest, readOptions r.options cs = .ok (x, rest) ∧ r.take rest x = .ok r' := by
  rw [readOptions]
  cases h : readOptionLetters [] cs with
  | error e => simp [bind, Except.bind]
  | ok p =>
    obtain ⟨letters, mid⟩ := p
    obtain ⟨c, more, rfl⟩ := List.exists_cons_of_ne_nil (ne_nil_of_readOptionLetters h)
    change _ ↔ ∃ x rest, optionsEnd r.options letters (c :: more) = .ok (x, rest) ∧ _
    change (if !optionLettersOk letters then _ else _) = _ ↔ _
    rw [optionsEnd]
    cases optionLettersOk letters with
    | false => simp
    | true =>
      by_cases hc : c = ')'
      · subst hc
        cases hempty : letters.isEmpty with
        | true => simp
        | false => simp [Reading.take]
      · simp [hc, Reading.take]

private theorem readGroup_eq_ok : r.readGroup cs = .ok r' ↔
    ∃ x rest, readGroup r.options (skip r.options cs) = .ok (x, rest) ∧ r.take rest x = .ok r' := by
  have hlook : ∀ {text : List Char}, StartsLookAround text →
      ((.error .lookAround : Except PatternError Reading) = .ok r' ↔
        ∃ x rest, readGroup r.options text = .ok (x, rest) ∧ r.take rest x = .ok r') := by
    intro text htext
    rw [readGroup, if_pos htext]
    simp
  rw [Reading.readGroup]
  generalize skip r.options cs = text
  split
  · exact hlook (.inl ⟨_, rfl⟩)
  · exact hlook (.inr (.inl ⟨_, rfl⟩))
  · exact hlook (.inr (.inr (.inl ⟨_, rfl⟩)))
  · exact hlook (.inr (.inr (.inr ⟨_, rfl⟩)))
  · exact openNamed_eq_ok
  · rename_i rest hequal hexclaim
    have hno : ¬StartsLookAround ('?' :: '<' :: rest) := by
      rintro (⟨more, h⟩ | ⟨more, h⟩ | ⟨more, h⟩ | ⟨more, h⟩)
      · exact absurd (List.cons.inj (List.cons.inj h).2).1 (by decide)
      · exact absurd (List.cons.inj (List.cons.inj h).2).1 (by decide)
      · exact hequal more (List.cons.inj (List.cons.inj h).2).2.symm
      · exact hexclaim more (List.cons.inj (List.cons.inj h).2).2.symm
    rw [readGroup, if_neg hno, if_neg (by simp), if_pos ⟨rest, rfl⟩]
    exact openNamed_eq_ok
  · rename_i rest hequal hexclaim hangleEqual hangleExclaim hnamed hangle
    have hno : ¬StartsLookAround ('?' :: rest) := by
      rintro (⟨more, h⟩ | ⟨more, h⟩ | ⟨more, h⟩ | ⟨more, h⟩)
      · exact hequal more (List.cons.inj h).2.symm
      · exact hexclaim more (List.cons.inj h).2.symm
      · exact hangle _ (List.cons.inj h).2.symm
      · exact hangle _ (List.cons.inj h).2.symm
    have hnamed' : ¬['?', 'P', '<'] <+: '?' :: rest := by
      rintro ⟨more, h⟩
      exact hnamed more (List.cons.inj h).2.symm
    have hangle' : ¬['?', '<'] <+: '?' :: rest := by
      rintro ⟨more, h⟩
      exact hangle more (List.cons.inj h).2.symm
    rw [readGroup, if_neg hno, if_neg hnamed', if_neg hangle', if_pos ⟨rest, rfl⟩]
    exact readOptions_eq_ok
  · rename_i hquestion
    have hno : ∀ u : List Char, ¬ '?' :: u <+: text := by
      rintro u ⟨more, rfl⟩
      exact hquestion (u ++ more) rfl
    have hlook : ¬StartsLookAround text := by
      rintro (h | h | h | h)
      all_goals exact hno _ h
    rw [readGroup, if_neg hlook, if_neg (hno _), if_neg (hno _), if_neg (hno _)]
    exact take_eq_ok (.group r.options none) text

private theorem repeatable_of_repeatLast {greedy : Bool} {least : Nat} {most : Option Nat}
    (h : r.repeatLast greedy least most rest = .ok r') :
    r.pieces.head?.any (·.repeatable) = true := by
  rw [Reading.repeatLast] at h
  split at h
  · cases h
  · rename_i p ps hpieces
    dsimp only at h
    split at h
    · cases h
    · rw [hpieces]
      simp_all

private theorem readBounds_eq_ok :
    (if r.pieces.head?.any (·.repeatable) then
        readBounds r.options cs >>= fun p =>
          r.repeatLast (readGreed p.2).1 p.1.1 p.1.2 (readGreed p.2).2
      else .error .nothingToRepeat) = .ok r' ↔
      ∃ x rest, (readBounds r.options cs >>= fun p => readRepetition p.1.1 p.1.2 p.2) =
        .ok (x, rest) ∧ r.take rest x = .ok r' := by
  have hread : (readBounds r.options cs >>= fun p =>
      r.repeatLast (readGreed p.2).1 p.1.1 p.1.2 (readGreed p.2).2) = .ok r' ↔
      ∃ x rest, (readBounds r.options cs >>= fun p => readRepetition p.1.1 p.1.2 p.2) =
        .ok (x, rest) ∧ r.take rest x = .ok r' := by
    cases readBounds r.options cs with
    | error e => simp [bind, Except.bind]
    | ok p => exact take_eq_ok (.repetition ..) _
  by_cases hlast : r.pieces.head?.any (·.repeatable) = true
  · rw [if_pos hlast]
    exact hread
  · rw [if_neg hlast, ← hread]
    refine iff_of_false (fun h => by cases h) fun h => hlast ?_
    obtain ⟨p, -, h⟩ := Outcome.bind_eq_ok.mp h
    exact repeatable_of_repeatLast h

private theorem readEscape_eq_ok :
    (readEscape r.options cs >>= fun p =>
      match p.1 with
      | .literal c => .ok (r.pushRegex (literalRegex r.options c) p.2)
      | .class s => .ok (r.pushRegex (.chars s) p.2)
      | .look l => .ok (r.pushRegex (.look l) p.2)) = .ok r' ↔
      ∃ x rest, ((readEscape r.options cs).map fun p =>
        (.piece ⟨p.1.regex r.options, 0, 1, true⟩, p.2)) = .ok (x, rest) ∧
          r.take rest x = .ok r' := by
  refine Iff.trans ?_ (bind_take_eq_ok (readEscape r.options cs) fun e =>
    .piece ⟨e.regex r.options, 0, 1, true⟩)
  suffices hpush : ∀ p : Rest Escape, (match p.1 with
      | .literal c => .ok (r.pushRegex (literalRegex r.options c) p.2)
      | .class s => .ok (r.pushRegex (.chars s) p.2)
      | .look l => .ok (r.pushRegex (.look l) p.2)) =
        r.take p.2 (.piece ⟨p.1.regex r.options, 0, 1, true⟩) by
    simp only [hpush]
  rintro ⟨e, rest⟩
  cases e <;> rfl

theorem step_eq_ok {c : Char} : r.step c cs = .ok r' ↔
    ∃ x rest, construct r.options c cs = .ok (x, rest) ∧ r.take rest x = .ok r' := by
  rw [Reading.step.eq_def]
  split
  · exact readGroup_eq_ok
  · exact take_eq_ok .close cs
  · exact take_eq_ok .branch cs
  · exact bind_take_eq_ok (readClass r.options (2 * cs.length + 2) cs) fun y =>
      .piece ⟨.chars y.1, y.2, 1, true⟩
  · exact take_eq_ok (.repetition ..) _
  · exact take_eq_ok (.repetition ..) _
  · exact take_eq_ok (.repetition ..) _
  · exact readBounds_eq_ok
  · exact readEscape_eq_ok
  · exact take_eq_ok (.piece _) _
  · exact take_eq_ok (.piece _) _
  · exact take_eq_ok (.piece _) _
  · rw [construct]
    · exact take_eq_ok (.piece _) _
    all_goals assumption

end Steps

end PredictiveParsing.Regex
