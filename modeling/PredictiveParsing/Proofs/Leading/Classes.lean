import PredictiveParsing.Proofs.Leading.Escapes
import PredictiveParsing.Proofs.Leading.Legible

/-!
# Classes

The members that the scan finds for a legible class, compared with the class that is read from the
same text. The two walk through the text side by side; between two members the set that the scan has
so far meets what is demanded of it.
-/

namespace PredictiveParsing.Leading

open Unicode

/-! ## What the scan of a class does -/

/-- The text behind the hyphen of a range, which ends with `y`. -/
def EndsWith (y : Char) (cs rest : List Char) : Prop :=
  (∃ more, cs = '\\' :: more ∧ scanEscapedChar more = some (y, rest)) ∨
    (cs = y :: rest ∧ y ≠ '\\')

private theorem scanRange_cases {s s' : LeadingSet} {x : Char} {cs rest : List Char}
    (h : scanRange s x cs = some (s', rest)) :
    (startsRange cs = false ∧ s' = s.insert x ∧ rest = cs) ∨
      ∃ more y, cs = '-' :: more ∧ startsRange cs = true ∧ EndsWith y more rest ∧
        s' = s.insertRange x y := by
  rw [scanRange] at h
  split at h
  · rename_i hstarts
    cases cs with
    | nil => cases hstarts
    | cons c more =>
      have hc : c = '-' := by
        simp only [startsRange] at hstarts
        split at hstarts
        · cases hstarts
        · rename_i heq
          exact (List.cons.inj heq).1
        · cases hstarts
      subst hc
      refine .inr ⟨more, ?_⟩
      rw [List.drop_one, List.tail_cons] at h
      split at h
      · cases h
      · obtain ⟨⟨y, rest'⟩, hy, h⟩ := Option.bind_eq_some_iff.mp h
        obtain ⟨rfl, rfl⟩ := Prod.mk.inj (Option.some.inj h)
        exact ⟨y, rfl, hstarts, .inl ⟨_, rfl, hy⟩, rfl⟩
      · rename_i y rest' hne
        obtain ⟨rfl, rfl⟩ := Prod.mk.inj (Option.some.inj h)
        exact ⟨y, rfl, hstarts, .inr ⟨rfl, fun hy => hne hy⟩, rfl⟩
  · rename_i hstarts
    obtain ⟨rfl, rfl⟩ := Prod.mk.inj (Option.some.inj h)
    exact .inl ⟨by simpa using hstarts, rfl, rfl⟩

/-- What a member adds does not depend on the members before it. -/
theorem scanRange_empty {s s' : LeadingSet} {x : Char} {cs rest : List Char}
    (h : scanRange s x cs = some (s', rest)) :
    ∃ t, scanRange .empty x cs = some (t, rest) ∧
      ∀ c, s'.contains c = (s.contains c || t.contains c) := by
  unfold scanRange at h ⊢
  split at h
  · rename_i hstarts
    rw [if_pos hstarts]
    split at h
    · cases h
    · obtain ⟨⟨y, _⟩, hy, h⟩ := Option.bind_eq_some_iff.mp h
      obtain ⟨rfl, rfl⟩ := Prod.mk.inj (Option.some.inj h)
      exact ⟨_, by simp [hy], fun _ => LeadingSet.contains_insertRange_empty⟩
    · obtain ⟨rfl, rfl⟩ := Prod.mk.inj (Option.some.inj h)
      exact ⟨_, rfl, fun _ => LeadingSet.contains_insertRange_empty⟩
  · rename_i hstarts
    rw [if_neg hstarts]
    obtain ⟨rfl, rfl⟩ := Prod.mk.inj (Option.some.inj h)
    exact ⟨_, rfl, fun _ => LeadingSet.contains_insert_empty⟩

/-- What the scan does with the first character of the rest of a class. -/
inductive MemberScan (fuel : Nat) (s s' : LeadingSet) (rest : List Char) :
    Char → List Char → Prop
  | close (hs : s' = s) : MemberScan fuel s s' rest ']' rest
  | named {more front after : List Char} (hup : upTo? ']' (':' :: more) = some (front, after))
      (hmore : scanMembers fuel false .all after = some (s', rest)) :
      MemberScan fuel s s' rest '[' (':' :: more)
  | letter {e : Char} {more after : List Char} {t : LeadingSet} (he : isClassLetter e = true)
      (hset : scanEscapeSet (e :: more) = some (t, after))
      (hmore : scanMembers fuel false (s.union t) after = some (s', rest)) :
      MemberScan fuel s s' rest '\\' (e :: more)
  | escaped {e x : Char} {more after after' : List Char} {s₁ : LeadingSet}
      (he : isClassLetter e = false) (hchar : scanEscapedChar (e :: more) = some (x, after))
      (hrange : scanRange s x after = some (s₁, after'))
      (hmore : scanMembers fuel false s₁ after' = some (s', rest)) :
      MemberScan fuel s s' rest '\\' (e :: more)
  | plain {c : Char} {cs after : List Char} {s₁ : LeadingSet} (hclose : c ≠ ']') (hopen : c ≠ '[')
      (hescape : c ≠ '\\') (hdouble : ¬ ((c = '&' ∨ c = '-' ∨ c = '~') ∧ cs.head? = some c))
      (hrange : scanRange s c cs = some (s₁, after))
      (hmore : scanMembers fuel false s₁ after = some (s', rest)) : MemberScan fuel s s' rest c cs

theorem memberScan {fuel : Nat} {s s' : LeadingSet} {c : Char} {cs rest : List Char}
    (h : scanMembers (fuel + 1) false s (c :: cs) = some (s', rest)) :
    MemberScan fuel s s' rest c cs := by
  simp only [scanMembers] at h
  split at h
  · rename_i hc
    obtain rfl : c = ']' := by simpa using hc
    obtain ⟨rfl, rfl⟩ := Prod.mk.inj (Option.some.inj h)
    exact .close rfl
  · rename_i hclose
    split at h
    · rename_i hc
      subst hc
      split at h
      · obtain ⟨⟨front, after⟩, hup, h⟩ := Option.bind_eq_some_iff.mp h
        exact .named hup h
      · cases h
    · rename_i hopen
      split at h
      · cases h
      · rename_i hdouble
        split at h
        · rename_i hc
          subst hc
          split at h
          · cases h
          · split at h
            · rename_i he
              obtain ⟨⟨t, after⟩, hset, h⟩ := Option.bind_eq_some_iff.mp h
              exact .letter he hset h
            · rename_i he
              obtain ⟨⟨x, after⟩, hchar, h⟩ := Option.bind_eq_some_iff.mp h
              obtain ⟨⟨s₁, after'⟩, hrange, h⟩ := Option.bind_eq_some_iff.mp h
              exact .escaped (by simpa using he) hchar hrange h
        · rename_i hescape
          obtain ⟨⟨s₁, after⟩, hrange, h⟩ := Option.bind_eq_some_iff.mp h
          refine .plain ?_ hopen hescape ?_ hrange h
          · simpa using hclose
          · simpa [or_assoc] using hdouble

/-! ## Named classes -/

/-- The names of classes are made of letters. -/
theorem isAlpha_of_lookup_asciiClasses {name : List Char} {ranges : List (Char × Char)}
    (h : Regex.asciiClasses.lookup (String.ofList name) = some ranges) :
    ∀ c ∈ name, c.isAlpha = true := by
  have hall : ∀ p ∈ Regex.asciiClasses, ∀ c ∈ p.1.toList, c.isAlpha = true := by
    simp [Regex.asciiClasses]
  obtain ⟨front, back, heq, _⟩ := List.lookup_eq_some_iff.mp h
  have hmem : (String.ofList name, ranges) ∈ Regex.asciiClasses := by
    rw [heq]
    exact List.mem_append_right _ List.mem_cons_self
  simpa using hall _ hmem

def namedText (negated : Bool) (name rest : List Char) : List Char :=
  ':' :: ((if negated then ['^'] else []) ++ (name ++ ':' :: ']' :: rest))

/-- A named class behind its colon and the sign that negates it. -/
def namedClass? (negated : Bool) (body : List Char) : Option (Rest CharClass) :=
  match body.dropWhile (· != ':'),
      Regex.asciiClasses.lookup (String.ofList (body.takeWhile (· != ':'))) with
  | ':' :: ']' :: rest, some ranges => some (.negatedIf negated (.ofRanges ranges), rest)
  | _, _ => none

private theorem namedClass?_eq_some {negated : Bool} {body rest : List Char} {k : CharClass} :
    namedClass? negated body = some (k, rest) ↔
      ∃ name ranges, body = name ++ ':' :: ']' :: rest ∧ ':' ∉ name ∧
        Regex.asciiClasses.lookup (String.ofList name) = some ranges ∧
        k = .negatedIf negated (.ofRanges ranges) := by
  constructor
  · intro h
    rw [namedClass?] at h
    split at h
    · rename_i rest' ranges hdrop hlookup
      obtain ⟨rfl, rfl⟩ := Prod.mk.inj (Option.some.inj h)
      refine ⟨body.takeWhile (· != ':'), ranges, ?_, ?_, hlookup, rfl⟩
      · rw [← hdrop, List.takeWhile_append_dropWhile]
      · intro hmem
        have hall := List.all_eq_true.mp List.all_takeWhile ':' hmem
        simp at hall
    · cases h
  · rintro ⟨name, ranges, rfl, hname, hlookup, rfl⟩
    have hfront : ∀ c ∈ name, (c != ':') = true := fun c hc => by
      rw [bne_iff_ne]
      rintro rfl
      exact hname hc
    have hdrop : (name ++ ':' :: ']' :: rest).dropWhile (· != ':') = ':' :: ']' :: rest := by
      rw [List.dropWhile_append_of_pos hfront]
      simp
    have htake : (name ++ ':' :: ']' :: rest).takeWhile (· != ':') = name := by
      rw [List.takeWhile_append_of_pos hfront]
      simp
    rw [namedClass?, hdrop, htake, hlookup]
    rfl

private theorem asciiClass?_negated (cs : List Char) :
    Regex.asciiClass? .none (':' :: '^' :: cs) = namedClass? true cs := rfl

private theorem asciiClass?_of_head? {cs : List Char} (h : cs.head? ≠ some '^') :
    Regex.asciiClass? .none (':' :: cs) = namedClass? false cs := by
  rw [Regex.asciiClass?]
  · rfl
  · rintro rest rfl
    exact h rfl

private theorem asciiClass?_eq_some {cs rest : List Char} {k : CharClass} :
    Regex.asciiClass? .none cs = some (k, rest) ↔
      ∃ negated name ranges, cs = namedText negated name rest ∧ ':' ∉ name ∧
        Regex.asciiClasses.lookup (String.ofList name) = some ranges ∧
        k = .negatedIf negated (.ofRanges ranges) := by
  constructor
  · intro h
    rcases cs with _ | ⟨c, cs⟩
    · cases h
    obtain rfl : c = ':' := by
      by_contra hc
      simp [Regex.asciiClass?, hc] at h
    by_cases hsign : cs.head? = some '^'
    · obtain ⟨body, rfl⟩ := List.head?_eq_some_iff.mp hsign
      rw [asciiClass?_negated] at h
      obtain ⟨name, ranges, rfl, hmore⟩ := namedClass?_eq_some.mp h
      exact ⟨true, name, ranges, rfl, hmore⟩
    · rw [asciiClass?_of_head? hsign] at h
      obtain ⟨name, ranges, rfl, hmore⟩ := namedClass?_eq_some.mp h
      exact ⟨false, name, ranges, rfl, hmore⟩
  · rintro ⟨negated, name, ranges, rfl, hname, hlookup, rfl⟩
    have hbody : namedClass? negated (name ++ ':' :: ']' :: rest) =
        some (.negatedIf negated (.ofRanges ranges), rest) :=
      namedClass?_eq_some.mpr ⟨name, ranges, rfl, hname, hlookup, rfl⟩
    cases negated with
    | true => exact (asciiClass?_negated _).trans hbody
    | false =>
      refine (asciiClass?_of_head? ?_).trans hbody
      cases name with
      | nil => simp
      | cons c name =>
        intro hsign
        obtain rfl : c = '^' := Option.some.inj hsign
        cases isAlpha_of_lookup_asciiClasses hlookup '^' List.mem_cons_self

private theorem of_asciiClass? {cs rest : List Char} {k : CharClass}
    (h : Regex.asciiClass? .none cs = some (k, rest)) :
    ∃ front, cs = front ++ ']' :: rest ∧ ']' ∉ front ∧
      ∀ rest', Regex.asciiClass? .none (front ++ ']' :: rest') = some (k, rest') := by
  obtain ⟨negated, name, ranges, rfl, hname, hlookup, rfl⟩ := asciiClass?_eq_some.mp h
  have htext : ∀ rest', namedText negated name rest' =
      ':' :: ((if negated then ['^'] else []) ++ (name ++ [':'])) ++ ']' :: rest' := by
    intro rest'
    simp [namedText]
  refine ⟨_, htext rest, ?_, fun rest' => ?_⟩
  · have hbracket : ']' ∉ name := fun h => by
      cases isAlpha_of_lookup_asciiClasses hlookup _ h
    cases negated <;> simp [hbracket]
  · rw [← htext]
    exact asciiClass?_eq_some.mpr ⟨negated, name, ranges, rfl, hname, hlookup, rfl⟩

/-! ## What is demanded of a set -/

variable [Regex.Dialect]

/-- Whether a set is what is demanded of it for a class. -/
def Demand.Met (s : LeadingSet) (k : CharClass) : Demand → Prop
  | free => True
  | atLeast => ∀ c, k.contains c = true → s.contains c = true
  | atMost => ∀ c, isAscii c = true → s.contains c = true → k.contains c = true

/-- Whether the set of the members so far is what is demanded of it. The only operation that the
scan lets pass is the difference, and this not where the set must not have too much. -/
def Demand.MetBy (s : LeadingSet) (left : Option (Regex.ClassOperation × CharClass))
    (members : CharClass) : Demand → Prop
  | free => True
  | atLeast =>
    (∀ op a, left = some (op, a) →
      op = .difference ∧ ∀ c, a.contains c = true → s.contains c = true) ∧
      ∀ c, members.contains c = true → s.contains c = true
  | atMost => left = none ∧ ∀ c, isAscii c = true → s.contains c = true → members.contains c = true

section

variable {d : Demand} {s s₁ t : LeadingSet} {k members : CharClass}
  {left : Option (Regex.ClassOperation × CharClass)}

theorem Demand.MetBy.union (h : d.MetBy s left members) (ht : d.Met t k)
    (hs : ∀ c, s₁.contains c = (s.contains c || t.contains c)) :
    d.MetBy s₁ left (members.union k) := by
  cases d with
  | free => trivial
  | atLeast =>
    refine ⟨fun op a hleft => ⟨(h.1 op a hleft).1, fun c hc => ?_⟩, fun c hc => ?_⟩
    · rw [hs, (h.1 op a hleft).2 c hc, Bool.true_or]
    · rw [hs]
      rcases Bool.or_eq_true_iff.mp hc with hc | hc
      · rw [h.2 c hc, Bool.true_or]
      · rw [ht c hc, Bool.or_true]
  | atMost =>
    refine ⟨h.1, fun c hascii hc => ?_⟩
    rw [hs, Bool.or_eq_true] at hc
    rw [CharClass.contains, Bool.or_eq_true]
    rcases hc with hc | hc
    · exact .inl (h.2 c hascii hc)
    · exact .inr (ht c hascii hc)

theorem Demand.Met.metBy (h : d.Met s k) : d.MetBy s none k := by
  cases d with
  | free => trivial
  | atLeast => exact ⟨fun _ _ heq => (by cases heq), h⟩
  | atMost => exact ⟨rfl, h⟩

/-- At the end of a class the set is what is demanded of it for the whole class. -/
theorem Demand.MetBy.met (h : d.MetBy s left members) :
    d.Met s (Regex.combine .none left members) := by
  cases d with
  | free => trivial
  | atLeast =>
    intro c hc
    cases left with
    | none => exact h.2 c hc
    | some p =>
      obtain ⟨op, a⟩ := p
      obtain ⟨rfl, ha⟩ := h.1 op a rfl
      exact ha c (Bool.and_eq_true_iff.mp hc).1
  | atMost =>
    obtain ⟨rfl, h⟩ := h
    exact h

private theorem Demand.met_empty : d.Met .empty .empty := by
  cases d with
  | free => trivial
  | atLeast => exact fun c hc => (by cases hc)
  | atMost =>
    intro c _ hc
    rw [LeadingSet.not_contains_empty] at hc
    cases hc

theorem Demand.met_single {x : Char} : d.Met (LeadingSet.empty.insert x) (.single x) := by
  cases d with
  | free => trivial
  | atLeast =>
    intro c hc
    obtain ⟨hle, hge⟩ : x ≤ c ∧ c ≤ x := by simpa [CharClass.single, CharClass.contains] using hc
    exact LeadingSet.contains_insert.mpr (.inr (.inl (Char.le_antisymm hge hle)))
  | atMost =>
    intro c hascii hc
    rw [LeadingSet.contains_insert, LeadingSet.not_contains_empty] at hc
    have heq : c = x := by simpa [hascii] using hc
    simp [heq, CharClass.single, CharClass.contains]

private theorem Demand.met_range {x y : Char} :
    d.Met (LeadingSet.empty.insertRange x y) (.range x y) := by
  cases d with
  | free => trivial
  | atLeast =>
    intro c hc
    have hc : x ≤ c ∧ c ≤ y := by simpa [CharClass.contains] using hc
    exact LeadingSet.contains_insertRange.mpr (.inr (.inl hc))
  | atMost =>
    intro c hascii hc
    rw [LeadingSet.contains_insertRange, LeadingSet.not_contains_empty] at hc
    have hc : x ≤ c ∧ c ≤ y := by simpa [hascii] using hc
    simpa [CharClass.contains] using hc

end

/-! ## Members side by side -/

section

variable {d : Demand} {s s₁ : LeadingSet} {k members : CharClass} {x : Char}
  {left : Option (Regex.ClassOperation × CharClass)} {cs rest after : List Char}

private theorem readRange_cases (hmember : Regex.readMember .none cs = .ok (.literal x, rest))
    (h : Regex.readRange .none cs = .ok (k, after)) :
    (Regex.startsRange .none rest = false ∧ k = .single x ∧ after = rest) ∨
      ∃ y, Regex.startsRange .none rest = true ∧
        Regex.readMember .none (rest.drop 1) = .ok (.literal y, after) ∧ k = .range x y := by
  rw [Regex.readRange] at h
  rw [hmember] at h
  obtain ⟨_, heq, h⟩ := Outcome.bind_eq_ok.mp h
  obtain rfl := Except.ok.inj heq
  dsimp only [Regex.skip_none] at h
  rw [Outcome.unless_eq_ok] at h
  obtain ⟨_, h⟩ := h
  split at h
  · rename_i hstarts
    rw [Outcome.unless_eq_ok] at h
    obtain ⟨⟨last, after'⟩, hlast, h⟩ := Outcome.bind_eq_ok.mp h.2
    cases last with
    | literal y =>
      dsimp only at h
      split at h
      · obtain ⟨rfl, rfl⟩ := Prod.mk.inj (Except.ok.inj h)
        exact .inr ⟨y, hstarts, hlast, rfl⟩
      · cases h
    | «class» _ => cases h
    | look _ => cases h
  · rename_i hstarts
    obtain ⟨rfl, rfl⟩ := Prod.mk.inj (Except.ok.inj h)
    exact .inl ⟨by simpa using hstarts, rfl, rfl⟩

omit [Regex.Dialect] in
private theorem startsRange_agrees (hhyphen : ∀ more, cs ≠ '-' :: '-' :: more)
    (hlone : cs ≠ ['-']) : Regex.startsRange .none (cs ++ [')']) = startsRange cs := by
  cases cs with
  | nil => rfl
  | cons c cs =>
    by_cases hc : c = '-'
    · subst hc
      cases cs with
      | nil => exact absurd rfl hlone
      | cons c' cs =>
        have hne : c' ≠ '-' := fun h => hhyphen cs (h ▸ rfl)
        by_cases hc' : c' = ']'
        · subst hc'
          rfl
        · simp [Regex.startsRange, startsRange, hne, hc']
    · simp [Regex.startsRange, startsRange, hc]

/-- The end of a range is the same for the scan and the pattern. -/
theorem EndsWith.agrees {y : Char} {e : Regex.Escape} (h : EndsWith y cs rest)
    (hread : Regex.readMember .none (cs ++ [')']) = .ok (e, after)) :
    after = rest ++ [')'] ∧ (e = .literal y ∨ ∃ l, e = .look l) := by
  rcases h with ⟨more, rfl, hchar⟩ | ⟨rfl, hne⟩
  · exact scanEscapedChar_agrees hchar hread
  · simp only [Regex.readMember] at hread
    split at hread
    · cases hread
    · rename_i heq
      exact absurd (List.cons.inj heq).1 hne
    · rename_i heq
      obtain ⟨rfl, rfl⟩ := Prod.mk.inj (Except.ok.inj hread)
      obtain ⟨rfl, rfl⟩ := List.cons.inj heq
      exact ⟨rfl, .inl rfl⟩

omit [Regex.Dialect] in
private theorem legible_double (h : legibleHyphen d false x ('-' :: '-' :: cs) = true) :
    d = .free ∨ (d = .atLeast ∧ x ≤ '-') := by
  simpa [legibleHyphen] using h

/-- Two hyphens behind a member that the range up to the hyphen has: no member before them is lost,
whatever is taken away afterwards. -/
theorem metBy_difference (hd : d = .free ∨ (d = .atLeast ∧ x ≤ '-')) (h : d.MetBy s left members) :
    d.MetBy (s.insertRange x '-')
      (some (.difference, Regex.combine .none left (.union members (.single x)))) .empty := by
  rcases hd with rfl | ⟨rfl, hx⟩
  · trivial
  · have hsingle : Demand.atLeast.Met (LeadingSet.empty.insertRange x '-') (.single x) := by
      intro c hc
      obtain ⟨hle, hge⟩ : x ≤ c ∧ c ≤ x := by simpa [CharClass.single, CharClass.contains] using hc
      exact LeadingSet.contains_insertRange.mpr (.inr (.inl ⟨hle, Char.le_trans hge hx⟩))
    refine ⟨?_, fun c hc => by cases hc⟩
    intro op a heq
    obtain ⟨rfl, rfl⟩ := Prod.mk.inj (Option.some.inj heq)
    exact ⟨rfl, (h.union hsingle fun _ => LeadingSet.contains_insertRange_empty).met⟩

/-- Where a single character, or the range that it starts, is next in a class, both go on with the
same text. -/
theorem member_agrees {m depth : Nat} {result : Rest (CharClass × Nat)}
    (hmember : Regex.readMember .none cs = .ok (.literal x, rest ++ [')']))
    (hscan : scanRange s x rest = some (s₁, after))
    (hlegible : legibleHyphen d false x rest = true) (hmet : d.MetBy s left members)
    (hread : (Regex.readRange .none cs >>= fun (k, rest) =>
      Regex.readMembers .none m left (.union members k) depth rest) = .ok result) :
    ∃ m' left' members', d.MetBy s₁ left' members' ∧
      Regex.readMembers .none m' left' members' depth (after ++ [')']) = .ok result := by
  obtain ⟨⟨k, rest'⟩, hrange, hread⟩ := Outcome.bind_eq_ok.mp hread
  dsimp only at hread
  obtain ⟨t, ht, hs⟩ := scanRange_empty hscan
  by_cases hdouble : ∃ more, rest = '-' :: '-' :: more
  · obtain ⟨more, rfl⟩ := hdouble
    obtain ⟨rfl, rfl⟩ := Prod.mk.inj (Option.some.inj hscan)
    rcases readRange_cases hmember hrange with ⟨_, rfl, rfl⟩ | ⟨_, hcontra, _⟩
    · cases m with
      | zero => cases hread
      | succ m =>
        refine ⟨m, _, .empty, ?_, hread⟩
        exact metBy_difference (legible_double hlegible) hmet
    · cases hcontra
  · have hhyphen : ∀ more, rest ≠ '-' :: '-' :: more := fun more h => hdouble ⟨more, h⟩
    rcases scanRange_cases ht with ⟨hstarts, rfl, rfl⟩ | ⟨more, y, rfl, hstarts, hend, rfl⟩
    · have hlone : after ≠ ['-'] := by
        rintro rfl
        cases hstarts
      have hagrees := startsRange_agrees hhyphen hlone
      rcases readRange_cases hmember hrange with ⟨_, rfl, rfl⟩ | ⟨_, hcontra, _⟩
      · exact ⟨m, left, _, hmet.union Demand.met_single hs, hread⟩
      · rw [hagrees, hstarts] at hcontra
        cases hcontra
    · have hlone : '-' :: more ≠ ['-'] := by
        intro h
        obtain rfl := (List.cons.inj h).2
        rcases hend with ⟨_, h, _⟩ | ⟨h, _⟩ <;> cases h
      have hagrees := startsRange_agrees hhyphen hlone
      rcases readRange_cases hmember hrange with ⟨hcontra, _⟩ | ⟨y', _, hlast, rfl⟩
      · rw [hagrees, hstarts] at hcontra
        cases hcontra
      · obtain ⟨rfl, heq | ⟨l, heq⟩⟩ := hend.agrees hlast
        · obtain rfl := Regex.Escape.literal.inj heq
          exact ⟨m, left, _, hmet.union Demand.met_range hs, hread⟩
        · cases heq

/-- A step of the pattern that is neither the end of the class, nor a class in it, nor an
operation. -/
theorem readMembers_range {m depth : Nat} {c : Char} (hclose : c ≠ ']') (hopen : c ≠ '[')
    (hdouble : ¬ ((c = '&' ∨ c = '-' ∨ c = '~') ∧ cs.head? = some c)) :
    Regex.readMembers .none (m + 1) left members depth (c :: cs) =
      (Regex.readRange .none (c :: cs) >>= fun (k, rest) =>
        Regex.readMembers .none m left (.union members k) depth rest) := by
  rw [Regex.readMembers]
  split
  · rename_i heq
    cases heq
  · rename_i heq
    exact absurd (List.cons.inj heq).1 hclose
  · rename_i heq
    exact absurd (List.cons.inj heq).1 hopen
  · rename_i heq
    obtain ⟨rfl, rfl⟩ := List.cons.inj heq
    exact absurd ⟨.inl rfl, rfl⟩ hdouble
  · rename_i heq
    obtain ⟨rfl, rfl⟩ := List.cons.inj heq
    exact absurd ⟨.inr (.inl rfl), rfl⟩ hdouble
  · rename_i heq
    obtain ⟨rfl, rfl⟩ := List.cons.inj heq
    exact absurd ⟨.inr (.inr rfl), rfl⟩ hdouble
  · rfl

private theorem readMembers_named {m depth : Nat}
    (h : Regex.asciiClass? .none cs = some (k, rest)) :
    Regex.readMembers .none (m + 1) left members depth ('[' :: cs) =
      Regex.readMembers .none m left (.union members k) depth rest := by
  rw [Regex.readMembers]
  simp only [Regex.skip_none, h]

private theorem readMember_plain (h : x ≠ '\\') :
    Regex.readMember .none (x :: cs) = .ok (.literal x, cs) := by
  unfold Regex.readMember
  split
  · rename_i heq
    cases heq
  · rename_i heq
    exact absurd (List.cons.inj heq).1 h
  · rename_i heq
    obtain ⟨rfl, rfl⟩ := List.cons.inj heq
    rfl

private theorem readMember_of_readRange (h : Regex.readRange .none cs = .ok (k, after)) :
    ∃ e rest, Regex.readMember .none cs = .ok (e, rest) ∧ ∀ l, e ≠ .look l := by
  obtain ⟨⟨e, rest⟩, he, h⟩ := Outcome.bind_eq_ok.mp h
  refine ⟨e, rest, he, ?_⟩
  rintro l rfl
  dsimp only [Regex.skip_none] at h
  rw [Outcome.unless_eq_ok] at h
  obtain ⟨_, h⟩ := h
  split at h
  · rw [Outcome.unless_eq_ok] at h
    obtain ⟨_, _, h⟩ := Outcome.bind_eq_ok.mp h.2
    cases h
  · cases h

private theorem readRange_letter {e : Char} {s : LeadingSet} (he : isClassLetter e = true)
    (hset : scanEscapeSet (e :: cs) = some (s, rest))
    (hread : Regex.readRange .none ('\\' :: e :: cs ++ [')']) = .ok (k, after)) :
    after = rest ++ [')'] ∧ Agrees e s (.class k) := by
  obtain ⟨⟨first, rest'⟩, hfirst, hread⟩ := Outcome.bind_eq_ok.mp hread
  have hfirst : Regex.readEscape .none (e :: cs ++ [')']) = .ok (first, rest') := hfirst
  obtain ⟨rfl, hagrees⟩ := scanEscapeSet_agrees hset hfirst
  obtain ⟨k', rfl⟩ := class_of_isClassLetter he hfirst
  dsimp only [Regex.skip_none] at hread
  rw [Outcome.unless_eq_ok] at hread
  obtain ⟨_, hread⟩ := hread
  split at hread
  · rw [Outcome.unless_eq_ok] at hread
    obtain ⟨_, _, hread⟩ := Outcome.bind_eq_ok.mp hread.2
    cases hread
  · obtain ⟨rfl, rfl⟩ := Prod.mk.inj (Except.ok.inj hread)
    exact ⟨rfl, hagrees⟩

section

omit [Regex.Dialect]

private theorem legible_named {n : Nat} (h : legibleMembers d (n + 1) false ('[' :: cs) = true) :
    d ≠ .atMost ∧ ∃ k rest, Regex.asciiClass? .none cs = some (k, rest) ∧
      legibleMembers d n false rest = true := by
  simpa [legibleMembers, Option.any_eq_true] using h

private theorem legible_letter {n : Nat} {e : Char} {t : LeadingSet} (he : isClassLetter e = true)
    (hset : scanEscapeSet (e :: cs) = some (t, rest))
    (h : legibleMembers d (n + 1) false ('\\' :: e :: cs) = true) :
    (d = .atMost → e ≠ 'p' ∧ e ≠ 'P') ∧ legibleMembers d n false rest = true := by
  simpa [legibleMembers, he, hset, ← imp_iff_not_or] using h

private theorem legible_escaped {n : Nat} {e : Char} {t : LeadingSet} (he : isClassLetter e = false)
    (hchar : scanEscapedChar (e :: cs) = some (x, rest))
    (hrange : scanRange .empty x rest = some (t, after))
    (h : legibleMembers d (n + 1) false ('\\' :: e :: cs) = true) :
    legibleHyphen d false x rest = true ∧ legibleMembers d n false after = true := by
  simpa [legibleMembers, he, hchar, hrange] using h

theorem legible_plain {n : Nat} {t : LeadingSet} (hclose : x ≠ ']') (hopen : x ≠ '[')
    (hescape : x ≠ '\\') (hrange : scanRange .empty x rest = some (t, after))
    (h : legibleMembers d (n + 1) false (x :: rest) = true) :
    legibleHyphen d false x rest = true ∧ legibleMembers d n false after = true := by
  simpa [legibleMembers, hclose, hopen, hescape, hrange] using h

end

theorem Agrees.met {e : Char} (h : Agrees e s (.class k)) (hd : d = .atMost → e ≠ 'p' ∧ e ≠ 'P') :
    d.Met s k := by
  cases d with
  | free => trivial
  | atLeast => exact h.2.1
  | atMost => exact h.2.2 (hd rfl).1 (hd rfl).2

/-- The members that the scan finds in the rest of a legible class are what is demanded of them, and
the scan ends where the class does. -/
theorem members_agree {fuel n m depth : Nat} {result : Rest (CharClass × Nat)}
    (hscan : scanMembers fuel false s cs = some (s₁, rest))
    (hlegible : legibleMembers d n false cs = true) (hmet : d.MetBy s left members)
    (hread : Regex.readMembers .none m left members depth (cs ++ [')']) = .ok result) :
    result.2 = rest ++ [')'] ∧ d.Met s₁ result.1.1 := by
  induction fuel generalizing n m s cs left members depth with
  | zero => cases hscan
  | succ fuel ih =>
    cases cs with
    | nil => cases hscan
    | cons c cs =>
      cases n with
      | zero => cases hlegible
      | succ n =>
        cases m with
        | zero => cases hread
        | succ m =>
          cases memberScan hscan with
          | close hs =>
            obtain rfl := hs
            obtain rfl := Except.ok.inj hread
            exact ⟨rfl, hmet.met⟩
          | named hup hmore =>
            obtain ⟨hd, k, after, hnamed, hrest⟩ := legible_named hlegible
            obtain ⟨front, heq, hnot, hany⟩ := of_asciiClass? hnamed
            rw [heq, upTo?_append hnot] at hup
            obtain ⟨rfl, rfl⟩ := Prod.mk.inj (Option.some.inj hup)
            rw [heq, List.cons_append, List.append_assoc, List.cons_append,
              readMembers_named (hany _)] at hread
            refine ih hmore hrest (hmet.union (t := .all) ?_ fun c => ?_) hread
            · cases d with
              | free => trivial
              | atLeast => exact fun c _ => LeadingSet.contains_all
              | atMost => exact absurd rfl hd
            · rw [LeadingSet.contains_all, Bool.or_true]
          | letter he hset hmore =>
            rw [List.cons_append, readMembers_range (by decide) (by decide) (by simp)] at hread
            obtain ⟨⟨k, after⟩, hrange, hread⟩ := Outcome.bind_eq_ok.mp hread
            obtain ⟨rfl, hagrees⟩ := readRange_letter he hset hrange
            obtain ⟨hd, hrest⟩ := legible_letter he hset hlegible
            refine ih hmore hrest (hmet.union (hagrees.met hd) fun c => ?_) hread
            exact LeadingSet.contains_union
          | escaped he hchar hrange hmore =>
            rw [List.cons_append, readMembers_range (by decide) (by decide) (by simp)] at hread
            obtain ⟨t, ht, _⟩ := scanRange_empty hrange
            obtain ⟨hhyphen, hrest⟩ := legible_escaped he hchar ht hlegible
            obtain ⟨⟨_, _⟩, hone, _⟩ := Outcome.bind_eq_ok.mp hread
            obtain ⟨first, after, hmember, hlook⟩ := readMember_of_readRange hone
            obtain ⟨rfl, rfl | ⟨l, rfl⟩⟩ := scanEscapedChar_agrees hchar hmember
            · obtain ⟨m', left', members', hmet', hread'⟩ :=
                member_agrees hmember hrange hhyphen hmet hread
              exact ih hmore hrest hmet' hread'
            · exact absurd rfl (hlook l)
          | plain hclose hopen hescape hdouble hrange hmore =>
            obtain ⟨t, ht, _⟩ := scanRange_empty hrange
            obtain ⟨hhyphen, hrest⟩ := legible_plain hclose hopen hescape ht hlegible
            have hdouble' : ¬ ((c = '&' ∨ c = '-' ∨ c = '~') ∧ (cs ++ [')']).head? = some c) := by
              rintro ⟨hc, hhead⟩
              cases cs with
              | nil =>
                obtain rfl := Option.some.inj hhead
                simp at hc
              | cons c' cs => exact hdouble ⟨hc, hhead⟩
            rw [List.cons_append, readMembers_range hclose hopen hdouble'] at hread
            obtain ⟨m', left', members', hmet', hread'⟩ :=
              member_agrees (readMember_plain hescape) hrange hhyphen hmet hread
            exact ih hmore hrest hmet' hread'

/-! ## Openings of classes -/

section

omit [Regex.Dialect]

private theorem scanMembers_first {fuel : Nat} (hx : x ≠ ']') :
    scanMembers fuel true s (x :: cs) = scanMembers fuel false s (x :: cs) := by
  cases fuel with
  | zero => rfl
  | succ fuel => simp [scanMembers, hx]

private theorem legibleMembers_first {n : Nat} (hx : x ≠ ']') :
    legibleMembers d n true (x :: cs) = legibleMembers d n false (x :: cs) := by
  cases n with
  | zero => rfl
  | succ n => simp [legibleMembers, legibleHyphen, hx]

theorem scanRange_single (h : startsRange cs = false) :
    scanRange s x cs = some (s.insert x, cs) := by
  rw [scanRange, h]
  rfl

theorem startsRange_eq_false (h : cs.head? ≠ some '-') : startsRange cs = false := by
  simp only [startsRange]
  split
  · rfl
  · exact absurd rfl h
  · rfl

private theorem readOpening_hyphen (h : cs.head? ≠ some '-') :
    Regex.readOpening .none .empty ('-' :: cs ++ [')']).length ('-' :: cs ++ [')']) =
      (.union .empty (.single '-'), cs ++ [')']) := by
  cases cs with
  | nil => rfl
  | cons c cs =>
    have hc : c ≠ '-' := fun heq => h (heq ▸ rfl)
    by_cases hclose : c = ']'
    · subst hclose
      rfl
    · simp [Regex.readOpening, hc, hclose]

end

/-- Behind what stands for itself at the start of a class, the scan and the pattern go on with the
same text. -/
theorem opening_agrees {fuel n : Nat} (hscan : scanMembers fuel true .empty cs = some (s₁, rest))
    (hlegible : legibleMembers d n true cs = true) :
    ∃ fuel' n' s cs' members, scanMembers fuel' false s cs' = some (s₁, rest) ∧
      legibleMembers d n' false cs' = true ∧ d.MetBy s none members ∧
      Regex.readOpening .none .empty (cs ++ [')']).length (cs ++ [')']) =
        (members, cs' ++ [')']) := by
  cases fuel with
  | zero => cases hscan
  | succ fuel =>
    cases n with
    | zero => cases hlegible
    | succ n =>
      cases cs with
      | nil => cases hscan
      | cons c cs =>
        by_cases hclose : c = ']'
        · subst hclose
          have hlegible : startsRange cs = false ∧ legibleMembers d n false cs = true := by
            cases hstarts : startsRange cs with
            | true => simp [legibleMembers, legibleHyphen, hstarts] at hlegible
            | false => exact ⟨rfl, by
                simpa [legibleMembers, scanRange_single hstarts, legibleHyphen, hstarts] using
                  (Bool.and_eq_true_iff.mp hlegible).2⟩
          have hscan : scanMembers fuel false (LeadingSet.empty.insert ']') cs =
              some (s₁, rest) := by
            simpa [scanMembers, scanRange_single hlegible.1] using hscan
          exact ⟨fuel, n, _, cs, _, hscan, hlegible.2, Demand.met_single.metBy, rfl⟩
        · rw [scanMembers_first hclose] at hscan
          rw [legibleMembers_first hclose] at hlegible
          by_cases hhyphen : c = '-'
          · subst hhyphen
            cases memberScan hscan with
            | plain _ _ _ hdouble hrange hmore =>
              have hhead : cs.head? ≠ some '-' := fun h => hdouble ⟨.inr (.inl rfl), h⟩
              have hsingle := scanRange_single (s := .empty) (x := '-') (startsRange_eq_false hhead)
              obtain ⟨rfl, rfl⟩ := Prod.mk.inj (Option.some.inj (hsingle.symm.trans hrange))
              obtain ⟨_, hrest⟩ :=
                legible_plain (by decide) (by decide) (by decide) hsingle hlegible
              refine ⟨fuel, n, _, cs, _, hmore, hrest,
                Demand.met_empty.metBy.union Demand.met_single fun _ =>
                  LeadingSet.contains_insert_empty, ?_⟩
              exact readOpening_hyphen hhead
          · exact ⟨_, _, .empty, c :: cs, .empty, hscan, hlegible, Demand.met_empty.metBy, by
              simp [Regex.readOpening, hclose, hhyphen]⟩

/-- The rest of a class behind its opening bracket and the sign that negates it. -/
def readBody (negated : Bool) (m : Nat) (cs : List Char) :
    Except Regex.PatternError (Rest (CharClass × Nat)) :=
  let (members, cs) := Regex.readOpening .none .empty cs.length cs
  (Regex.readMembers .none m none members 0 cs).map fun ((k, depth), rest) =>
    ((.negatedIf negated k, depth + 1), rest)

private theorem readBody_agrees (negated : Bool) {fuel n m : Nat} {result : Rest (CharClass × Nat)}
    (hscan : scanMembers fuel true .empty cs = some (s₁, rest))
    (hlegible : legibleMembers d n true cs = true)
    (hread : readBody negated m (cs ++ [')']) = .ok result) :
    result.2 = rest ++ [')'] ∧ ∃ k, d.Met s₁ k ∧ result.1.1 = .negatedIf negated k := by
  obtain ⟨fuel', n', s, cs', members, hscan', hlegible', hmet, hopening⟩ :=
    opening_agrees hscan hlegible
  rw [readBody, hopening] at hread
  obtain ⟨inner, hinner, rfl⟩ := Outcome.map_eq_ok.mp hread
  obtain ⟨hrest, hk⟩ := members_agree hscan' hlegible' hmet hinner
  exact ⟨hrest, _, hk, rfl⟩

private theorem readClass_eq {m : Nat} (h : cs.head? ≠ some '^') :
    Regex.readClass .none (m + 1) cs = readBody false m cs := by
  rw [Regex.readClass]
  dsimp only [Regex.skip_none]
  split
  · exact absurd rfl h
  · rfl

/-- The scan of a legible class ends where the class does, and finds at least its members where a
match can begin with it. -/
theorem scanClass_agrees {leading : Bool} {s : LeadingSet} {m : Nat}
    {result : Rest (CharClass × Nat)} (hscan : scanClass cs = some (s, rest))
    (hlegible : legibleClass leading cs = true)
    (hread : Regex.readClass .none m (cs ++ [')']) = .ok result) :
    result.2 = rest ++ [')'] ∧
      (leading = true → ∀ c, result.1.1.contains c = true → s.contains c = true) := by
  cases m with
  | zero => cases hread
  | succ m =>
    simp only [scanClass] at hscan
    split at hscan
    · rename_i body
      obtain ⟨⟨s₀, _⟩, hmembers, hscan⟩ := Option.map_eq_some_iff.mp hscan
      obtain ⟨rfl, rfl⟩ := Prod.mk.inj hscan
      obtain ⟨hrest, k, hk, heq⟩ := readBody_agrees true hmembers hlegible hread
      refine ⟨hrest, ?_⟩
      rintro rfl c hc
      rw [LeadingSet.contains_negated]
      have hk : Demand.atMost.Met s₀ k := hk
      have hc : (!k.contains c) = true := by rwa [heq] at hc
      cases hascii : isAscii c with
      | false => rfl
      | true =>
        cases hs : s₀.contains c with
        | false => rfl
        | true =>
          rw [hk c hascii hs] at hc
          cases hc
    · rename_i hne
      have hplain : (cs ++ [')']).head? ≠ some '^' := by
        cases cs with
        | nil => simp
        | cons c cs =>
          intro heq
          exact hne cs (Option.some.inj heq ▸ rfl)
      rw [readClass_eq hplain] at hread
      have hlegible' :
          legibleMembers (if leading then .atLeast else .free) (cs.length + 1) true cs = true := by
        unfold legibleClass at hlegible
        split at hlegible
        · exact absurd rfl (hne _)
        · exact hlegible
      obtain ⟨hrest, k, hk, heq⟩ := readBody_agrees false hscan hlegible' hread
      refine ⟨hrest, ?_⟩
      rintro rfl c hc
      rw [heq] at hc
      exact hk c hc

end

end PredictiveParsing.Leading
