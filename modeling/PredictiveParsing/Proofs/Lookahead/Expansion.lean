import PredictiveParsing.Lookahead.Expansion

/-!
# What the search for expansions finds

The ways through a stack of phrases as a relation, without a limit on their number or length. A
search that does not give up finds exactly these, cut at the depth in question.
-/

namespace PredictiveParsing

/-- A way through the phrases on a stack, nearest first, that enters no repetition again: what it
consumes, and whether it went to the end or was cut. -/
inductive Expands (g : Grammar) : List Phrase → CategoryPath → (ended : Bool) → Prop
  | cut {stack} : Expands g stack [] false
  | done : Expands g [] [] true
  | nil {stack w e} (h : Expands g stack w e) : Expands g (.nil :: stack) w e
  | terminal {c i rest stack w e} (h : Expands g (rest :: stack) w e) :
      Expands g (.terminal c i rest :: stack) (c :: w) e
  | call {r i p rest stack w e} (hp : g.phrase? r = some p)
      (h : Expands g (p :: rest :: stack) w e) : Expands g (.call r i rest :: stack) w e
  | undefined {r i rest stack} (hp : g.phrase? r = none) :
      Expands g (.call r i rest :: stack) [] true
  | skip {i body rest stack w e} (h : Expands g (rest :: stack) w e) :
      Expands g (.option i body rest :: stack) w e
  | take {i body rest stack w e} (h : Expands g (body :: rest :: stack) w e) :
      Expands g (.option i body rest :: stack) w e
  | pass {i body rest stack w e} (h : Expands g (rest :: stack) w e) :
      Expands g (.repetition i false body rest :: stack) w e
  | enter {i b body rest stack w e} (h : Expands g (body :: rest :: stack) w e) :
      Expands g (.repetition i b body rest :: stack) w e
  | choose {n i rest stack w e} {gated : Fin n → Bool} {body : Fin n → Phrase} (k : Fin n)
      (h : Expands g (body k :: rest :: stack) w e) :
      Expands g (.choice i gated body rest :: stack) w e
  | none {i rest stack w e} {gated : Fin 0 → Bool} {body : Fin 0 → Phrase}
      (h : Expands g (rest :: stack) w e) : Expands g (.choice i gated body rest :: stack) w e

namespace Expands

variable {g : Grammar} {stack : List Phrase} {w : CategoryPath} {e : Bool}

theorem take_of_le (h : Expands g stack w e) {n : Nat} (hn : n ≤ w.length) :
    Expands g stack (w.take n) false := by
  induction h generalizing n with
  | cut => rw [List.take_nil]; exact .cut
  | done => rw [List.take_nil]; exact .cut
  | nil _ ih => exact .nil (ih hn)
  | terminal _ ih =>
    cases n with
    | zero => exact .cut
    | succ n => exact .terminal (ih (Nat.le_of_succ_le_succ hn))
  | call hp _ ih => exact .call hp (ih hn)
  | undefined _ => rw [List.take_nil]; exact .cut
  | skip _ ih => exact .skip (ih hn)
  | take _ ih => exact .take (ih hn)
  | pass _ ih => exact .pass (ih hn)
  | enter _ ih => exact .enter (ih hn)
  | choose k _ ih => exact .choose k (ih hn)
  | none _ ih => exact .none (ih hn)

/-! ## The ways by the first piece -/

theorem empty_iff : Expands g [] w e ↔ w = [] := by
  constructor
  · intro h
    cases h <;> rfl
  · rintro rfl
    cases e with
    | false => exact .cut
    | true => exact .done

theorem nil_iff : Expands g (.nil :: stack) w e ↔ Expands g stack w e := by
  constructor
  · intro h
    cases h with
    | cut => exact .cut
    | nil h => exact h
  · exact .nil

theorem terminal_iff {c : CategoryId} {i : Nat} {rest : Phrase} :
    Expands g (.terminal c i rest :: stack) w e ↔
      (w = [] ∧ e = false) ∨ ∃ w', w = c :: w' ∧ Expands g (rest :: stack) w' e := by
  constructor
  · intro h
    cases h with
    | cut => exact .inl ⟨rfl, rfl⟩
    | terminal h => exact .inr ⟨_, rfl, h⟩
  · rintro (⟨rfl, rfl⟩ | ⟨w', rfl, h⟩)
    · exact .cut
    · exact .terminal h

theorem call_iff {r : String} {i : Nat} {rest p : Phrase} (hp : g.phrase? r = some p) :
    Expands g (.call r i rest :: stack) w e ↔ Expands g (p :: rest :: stack) w e := by
  constructor
  · intro h
    cases h with
    | cut => exact .cut
    | call hp' h => rw [hp] at hp'; exact Option.some.inj hp' ▸ h
    | undefined hp' => rw [hp] at hp'; cases hp'
  · exact .call hp

theorem undefined_iff {r : String} {i : Nat} {rest : Phrase} (hp : g.phrase? r = Option.none) :
    Expands g (.call r i rest :: stack) w e ↔ w = [] := by
  constructor
  · intro h
    cases h with
    | cut => rfl
    | call hp' h => rw [hp] at hp'; cases hp'
    | undefined hp' => rfl
  · rintro rfl
    cases e with
    | false => exact .cut
    | true => exact .undefined hp

theorem option_iff {i : Nat} {body rest : Phrase} :
    Expands g (.option i body rest :: stack) w e ↔
      Expands g (rest :: stack) w e ∨ Expands g (body :: rest :: stack) w e := by
  constructor
  · intro h
    cases h with
    | cut => exact .inl .cut
    | skip h => exact .inl h
    | take h => exact .inr h
  · rintro (h | h)
    · exact .skip h
    · exact .take h

theorem many_iff {i : Nat} {body rest : Phrase} :
    Expands g (.repetition i false body rest :: stack) w e ↔
      Expands g (rest :: stack) w e ∨ Expands g (body :: rest :: stack) w e := by
  constructor
  · intro h
    cases h with
    | cut => exact .inl .cut
    | pass h => exact .inl h
    | enter h => exact .inr h
  · rintro (h | h)
    · exact .pass h
    · exact .enter h

theorem atLeastOne_iff {i : Nat} {body rest : Phrase} :
    Expands g (.repetition i true body rest :: stack) w e ↔
      Expands g (body :: rest :: stack) w e := by
  constructor
  · intro h
    cases h with
    | cut => exact .cut
    | enter h => exact h
  · exact .enter

theorem choice_iff {n i : Nat} {gated : Fin n → Bool} {body : Fin n → Phrase} {rest : Phrase}
    (hn : n ≠ 0) : Expands g (.choice i gated body rest :: stack) w e ↔
      ∃ k, Expands g (body k :: rest :: stack) w e := by
  constructor
  · intro h
    cases h with
    | cut => exact ⟨⟨0, Nat.pos_of_ne_zero hn⟩, .cut⟩
    | choose k h => exact ⟨k, h⟩
    | none h => exact absurd rfl hn
  · rintro ⟨k, h⟩
    exact .choose k h

theorem noChoice_iff {i : Nat} {gated : Fin 0 → Bool} {body : Fin 0 → Phrase} {rest : Phrase} :
    Expands g (.choice i gated body rest :: stack) w e ↔ Expands g (rest :: stack) w e := by
  constructor
  · intro h
    cases h with
    | cut => exact .cut
    | choose k h => exact k.elim0
    | none h => exact h
  · exact .none

end Expands

namespace Expansion

/-- The expansion of a way to a number of categories. -/
def IsOf (g : Grammar) (depth : Nat) (path : CategoryPath) (stack : List Phrase) (x : Expansion) :
    Prop :=
  ∃ w, x.path = path.reverse ++ w ∧ Expands g stack w x.ended ∧
    if x.ended then path.length + w.length < depth else path.length + w.length = depth

theorem mem_inTurn {p : Phrase} {ps : List Phrase} : p ∈ inTurn ps ↔ p ∈ ps := by
  cases ps with
  | nil => rfl
  | cons q ps => simp [inTurn]

theorem inTurn_eq_nil {ps : List Phrase} : inTurn ps = [] ↔ ps = [] := by
  cases ps <;> simp [inTurn]

private theorem mem_insert {x y : Expansion} {found : ExpansionSet} :
    y ∈ found.insert x ↔ y = x ∨ y ∈ found := by
  rw [Std.TreeSet.mem_insert, Std.LawfulEqCmp.compare_eq_iff_eq, eq_comm]

private theorem mem_exploreEach {explore : Nat → ExpansionSet → Phrase → Option ExpansionSet}
    {R : Phrase → Expansion → Prop} {ps : List Phrase} {waiting : Nat} {found found' : ExpansionSet}
    (hex : ∀ p ∈ ps, ∀ waiting found found', explore waiting found p = some found' →
      ∀ x, x ∈ found' ↔ x ∈ found ∨ R p x)
    (h : exploreEach explore waiting found ps = some found') (x : Expansion) :
    x ∈ found' ↔ x ∈ found ∨ ∃ p ∈ ps, R p x := by
  induction ps generalizing found with
  | nil => simp_all [exploreEach]
  | cons p ps ih =>
    rw [exploreEach, Option.bind_eq_some_iff] at h
    obtain ⟨middle, hm, h⟩ := h
    rw [ih (fun q hq => hex q (List.mem_cons_of_mem p hq)) h, hex p List.mem_cons_self _ _ _ hm]
    simp only [List.mem_cons, exists_eq_or_imp, or_assoc]

private theorem isOf_of_length_eq {g : Grammar} {depth : Nat} {path : CategoryPath}
    {stack : List Phrase} (h : path.length = depth) {x : Expansion} :
    x.IsOf g depth path stack ↔ x = ⟨path.reverse, false⟩ := by
  constructor
  · rintro ⟨w, hp, -, hl⟩
    obtain ⟨xp, xe⟩ := x
    cases xe with
    | true => simp only [if_true] at hl; omega
    | false =>
      have hw : w = [] := List.length_eq_zero_iff.1 (by simpa [h] using hl)
      simpa [hw] using hp
  · rintro rfl
    exact ⟨[], (List.append_nil _).symm, .cut, by simpa using h⟩

private theorem isOf_of_forall {g : Grammar} {depth : Nat} {path : CategoryPath}
    {s s' : List Phrase} (h : ∀ w e, Expands g s w e ↔ Expands g s' w e) {x : Expansion} :
    x.IsOf g depth path s ↔ x.IsOf g depth path s' := by
  simp only [IsOf, h]

private theorem isOf_or {g : Grammar} {depth : Nat} {path : CategoryPath} {s s₁ s₂ : List Phrase}
    (h : ∀ w e, Expands g s w e ↔ Expands g s₁ w e ∨ Expands g s₂ w e) {x : Expansion} :
    x.IsOf g depth path s ↔ x.IsOf g depth path s₁ ∨ x.IsOf g depth path s₂ := by
  simp only [IsOf, h, or_and_right, and_or_left, exists_or]

private theorem isOf_of_nothing {g : Grammar} {depth : Nat} {path : CategoryPath} {s : List Phrase}
    (hlt : path.length < depth) (h : ∀ w e, Expands g s w e ↔ w = []) {x : Expansion} :
    x.IsOf g depth path s ↔ x = ⟨path.reverse, true⟩ := by
  obtain ⟨xp, xe⟩ := x
  simp only [IsOf, h]
  constructor
  · rintro ⟨_, hp, rfl, hl⟩
    cases xe with
    | false => simp at hl; omega
    | true => simpa using hp
  · rintro ⟨⟩
    exact ⟨[], by simp, rfl, by simpa using hlt⟩

private theorem isOf_terminal {g : Grammar} {depth : Nat} {path : CategoryPath} {c : CategoryId}
    {i : Nat} {rest : Phrase} {stack : List Phrase} (hlt : path.length < depth) {x : Expansion} :
    x.IsOf g depth path (.terminal c i rest :: stack) ↔
      x.IsOf g depth (c :: path) (rest :: stack) := by
  simp only [IsOf, Expands.terminal_iff]
  constructor
  · rintro ⟨w, hp, ⟨rfl, he⟩ | ⟨w, rfl, h⟩, hl⟩
    · simp [he] at hl
      omega
    · refine ⟨w, by simpa using hp, h, ?_⟩
      simpa [Nat.add_assoc, Nat.add_comm 1] using hl
  · rintro ⟨w, hp, h, hl⟩
    refine ⟨c :: w, by simpa using hp, .inr ⟨w, rfl, h⟩, ?_⟩
    simpa [Nat.add_assoc, Nat.add_comm 1] using hl

private theorem isOf_choice {g : Grammar} {depth : Nat} {path : CategoryPath} {n i : Nat}
    {gated : Fin n → Bool} {body : Fin n → Phrase} {rest : Phrase} {stack : List Phrase}
    (hn : n ≠ 0) {x : Expansion} :
    x.IsOf g depth path (.choice i gated body rest :: stack) ↔
      ∃ p ∈ List.ofFn body, x.IsOf g depth path (p :: rest :: stack) := by
  simp only [IsOf, Expands.choice_iff hn, List.mem_ofFn]
  constructor
  · rintro ⟨w, hp, ⟨k, h⟩, hl⟩
    exact ⟨_, ⟨k, rfl⟩, w, hp, h, hl⟩
  · rintro ⟨_, ⟨k, rfl⟩, w, hp, h, hl⟩
    exact ⟨w, hp, ⟨k, h⟩, hl⟩

private theorem mem_explore {g : Grammar} {depth fuel waiting : Nat} {found found' : ExpansionSet}
    {path : CategoryPath} {stack : List Phrase} (hd : path.length ≤ depth)
    (h : explore g depth fuel waiting found path stack = some found') (x : Expansion) :
    x ∈ found' ↔ x ∈ found ∨ x.IsOf g depth path stack := by
  induction fuel generalizing waiting found found' path stack x with
  | zero => cases h
  | succ fuel ih =>
    have both : ∀ {s₁ s₂ s : List Phrase},
        (∀ w e, Expands g s w e ↔ Expands g s₁ w e ∨ Expands g s₂ w e) →
        (explore g depth fuel (waiting + 1) found path s₁).bind (fun found =>
          explore g depth fuel waiting found path s₂) = some found' →
        (x ∈ found' ↔ x ∈ found ∨ x.IsOf g depth path s) := by
      intro s₁ s₂ s hs h
      obtain ⟨middle, hm, h⟩ := Option.bind_eq_some_iff.1 h
      rw [ih hd h, ih hd hm, isOf_or hs, or_assoc]
    simp only [explore] at h
    split at h
    · cases h
    · split at h
      · rename_i hdepth
        rw [← Option.some.inj h, mem_insert, isOf_of_length_eq hdepth, or_comm]
      · have hlt : path.length < depth := by omega
        split at h
        · rw [← Option.some.inj h, mem_insert, or_comm,
            isOf_of_nothing hlt fun _ _ => Expands.empty_iff]
        · rw [ih hd h, isOf_of_forall fun _ _ => Expands.nil_iff]
        · have hd' : ∀ c : CategoryId, (c :: path).length ≤ depth := fun _ => hlt
          rw [ih (hd' _) h, isOf_terminal hlt]
        · split at h
          · rename_i hp
            rw [← Option.some.inj h, mem_insert, or_comm,
              isOf_of_nothing hlt fun _ _ => Expands.undefined_iff hp]
          · rename_i hp
            rw [ih hd h, isOf_of_forall fun _ _ => Expands.call_iff hp]
        · exact both (fun _ _ => Expands.option_iff) h
        · exact both (fun _ _ => Expands.many_iff) h
        · rw [ih hd h, isOf_of_forall fun _ _ => Expands.atLeastOne_iff]
        · rename_i n i gated body rest stack _
          split at h
          · rename_i hbodies
            have hn : n = 0 := by simpa using inTurn_eq_nil.1 hbodies
            subst hn
            rw [ih hd h, isOf_of_forall fun _ _ => Expands.noChoice_iff]
          · rename_i hbodies
            have hn : n ≠ 0 := by
              rintro rfl
              exact hbodies rfl
            rw [mem_exploreEach (fun p _ _ _ _ hp => ih hd hp) h, isOf_choice hn]
            simp only [mem_inTurn]

/-- All expansions of a stack to a number of categories, where the search does not give up. -/
theorem mem_all? {g : Grammar} {depth : Nat} {stack : List Phrase} {found : ExpansionSet}
    (h : all? g depth stack = some found) (x : Expansion) :
    x ∈ found ↔ Expands g stack x.path x.ended
      ∧ if x.ended then x.path.length < depth else x.path.length = depth := by
  rw [mem_explore (Nat.zero_le depth) h, or_iff_right Std.TreeSet.not_mem_emptyc]
  simp only [IsOf, List.reverse_nil, List.nil_append, List.length_nil, Nat.zero_add]
  exact ⟨fun ⟨w, hp, hw⟩ => hp ▸ hw, fun hw => ⟨x.path, rfl, hw⟩⟩

private theorem exists_of_exploreEach {explore : Nat → ExpansionSet → Phrase → Option ExpansionSet}
    {ps : List Phrase} {waiting : Nat} {found found' : ExpansionSet}
    (h : exploreEach explore waiting found ps = some found') {p : Phrase} (hp : p ∈ ps) :
    ∃ waiting before after, explore waiting before p = some after := by
  induction ps generalizing found with
  | nil => cases hp
  | cons q ps ih =>
    rw [exploreEach, Option.bind_eq_some_iff] at h
    obtain ⟨middle, hm, h⟩ := h
    rcases List.mem_cons.1 hp with rfl | hp
    · exact ⟨_, _, _, hm⟩
    · exact ih h hp

/-- What a way consumes can be continued up to a number of categories, or up to the end. -/
def GoesOn (g : Grammar) (depth : Nat) (path : CategoryPath) (stack : List Phrase)
    (w : CategoryPath) : Prop :=
  ∃ v e, w <+: v ∧ Expands g stack v e
    ∧ if e then path.length + v.length < depth else path.length + v.length = depth

theorem GoesOn.mono {g : Grammar} {depth : Nat} {path w : CategoryPath} {s s' : List Phrase}
    (h : GoesOn g depth path s w) (hs : ∀ v e, Expands g s v e → Expands g s' v e) :
    GoesOn g depth path s' w := by
  obtain ⟨v, e, hp, hv, hl⟩ := h
  exact ⟨v, e, hp, hs v e hv, hl⟩

theorem GoesOn.terminal {g : Grammar} {depth : Nat} {path w : CategoryPath} {c : CategoryId}
    {i : Nat} {rest : Phrase} {stack : List Phrase}
    (h : GoesOn g depth (c :: path) (rest :: stack) w) :
    GoesOn g depth path (.terminal c i rest :: stack) (c :: w) := by
  obtain ⟨v, e, hp, hv, hl⟩ := h
  refine ⟨c :: v, e, List.cons_prefix_cons.2 ⟨rfl, hp⟩, .terminal hv, ?_⟩
  simpa [Nat.add_assoc, Nat.add_comm 1] using hl

private theorem GoesOn.of_isPrefix {g : Grammar} {depth : Nat} {path v w : CategoryPath}
    {stack : List Phrase} (h : GoesOn g depth path stack w) (hv : v <+: w) :
    GoesOn g depth path stack v := by
  obtain ⟨u, e, hp, hu⟩ := h
  exact ⟨u, e, hv.trans hp, hu⟩

private theorem goesOn_of_explore {g : Grammar} {depth fuel waiting : Nat}
    {found found' : ExpansionSet} {path : CategoryPath} {stack : List Phrase}
    (h : explore g depth fuel waiting found path stack = some found') {w : CategoryPath}
    (hw : Expands g stack w false) (hl : path.length + w.length ≤ depth) :
    GoesOn g depth path stack w := by
  induction fuel generalizing waiting found found' path stack w with
  | zero => cases h
  | succ fuel ih =>
    simp only [explore] at h
    split at h
    · cases h
    · split at h
      · rename_i hdepth
        obtain rfl : w = [] := List.length_eq_zero_iff.1 (by omega)
        exact ⟨[], false, List.prefix_rfl, .cut, hdepth⟩
      · have hlt : path.length < depth := by omega
        have hend : ∀ {s : List Phrase}, w = [] → Expands g s [] true →
            GoesOn g depth path s w := by
          rintro s rfl hs
          exact ⟨[], true, List.prefix_rfl, hs, hlt⟩
        split at h
        · exact hend (Expands.empty_iff.1 hw) .done
        · exact (ih h (Expands.nil_iff.1 hw) hl).mono fun _ _ => .nil
        · rcases Expands.terminal_iff.1 hw with ⟨rfl, -⟩ | ⟨w, rfl, hw'⟩
          · exact (ih h .cut hlt).terminal.of_isPrefix List.nil_prefix
          · exact (ih h hw' (by simp only [List.length_cons] at hl ⊢; omega)).terminal
        · split at h
          · rename_i hp
            exact hend ((Expands.undefined_iff hp).1 hw) (.undefined hp)
          · rename_i hp
            exact (ih h ((Expands.call_iff hp).1 hw) hl).mono fun _ _ => .call hp
        · obtain ⟨middle, hm, h⟩ := Option.bind_eq_some_iff.1 h
          rcases Expands.option_iff.1 hw with hw | hw
          · exact (ih hm hw hl).mono fun _ _ => .skip
          · exact (ih h hw hl).mono fun _ _ => .take
        · obtain ⟨middle, hm, h⟩ := Option.bind_eq_some_iff.1 h
          rcases Expands.many_iff.1 hw with hw | hw
          · exact (ih hm hw hl).mono fun _ _ => .pass
          · exact (ih h hw hl).mono fun _ _ => .enter
        · exact (ih h (Expands.atLeastOne_iff.1 hw) hl).mono fun _ _ => .enter
        · rename_i n i gated body rest stack _
          split at h
          · rename_i hbodies
            have hn : n = 0 := by simpa using inTurn_eq_nil.1 hbodies
            subst hn
            exact (ih h (Expands.noChoice_iff.1 hw) hl).mono fun _ _ => .none
          · rename_i hbodies
            have hn : n ≠ 0 := by
              rintro rfl
              exact hbodies rfl
            obtain ⟨k, hw⟩ := (Expands.choice_iff hn).1 hw
            obtain ⟨_, _, _, hk⟩ := exists_of_exploreEach h
              (mem_inTurn.2 (List.mem_ofFn.2 ⟨k, rfl⟩))
            exact (ih hk hw hl).mono fun _ _ => .choose k

/-- Where the search for one category more does not give up every way ends or goes on with one. -/
theorem ended_or_exists_append {g : Grammar} {stack : List Phrase} {w : CategoryPath}
    {found : ExpansionSet} (h : all? g (w.length + 1) stack = some found)
    (hw : Expands g stack w false) :
    Expands g stack w true ∨ ∃ c, Expands g stack (w ++ [c]) false := by
  obtain ⟨v, e, ⟨u, rfl⟩, hv, hl⟩ := goesOn_of_explore h hw (by simp)
  rw [List.length_nil, Nat.zero_add, List.length_append] at hl
  cases e with
  | true =>
    obtain rfl : u = [] := List.length_eq_zero_iff.1 (by simp only [if_true] at hl; omega)
    exact .inl (List.append_nil w ▸ hv)
  | false =>
    obtain ⟨c, rfl⟩ := List.length_eq_one_iff.1
      (by simp only [Bool.false_eq_true, if_false] at hl; omega : u.length = 1)
    exact .inr ⟨c, hv⟩

end Expansion

end PredictiveParsing
