import PredictiveParsing.Proofs.Grammar.LeftRecursion
import PredictiveParsing.Proofs.Lookahead.Collisions

/-!
# Courses

A course is what a way through phrases consumes in all: a list of categories if the way comes to the
end, or a sequence that never ends. In a grammar without left recursion no way gets stuck, so that
whatever a way has consumed so far begins a course.
-/

namespace PredictiveParsing

/-- A step of a way through the phrases on a stack, nearest first: a token of a category is
consumed, or a piece is entered or passed over. No repetition is entered again. -/
inductive WayStep (g : Grammar) : List Phrase → Option CategoryId → List Phrase → Prop
  | nil {stack} : WayStep g (.nil :: stack) none stack
  | terminal {c i rest stack} : WayStep g (.terminal c i rest :: stack) (some c) (rest :: stack)
  | call {r i p rest stack} (hp : g.phrase? r = some p) :
      WayStep g (.call r i rest :: stack) none (p :: rest :: stack)
  | skip {i body rest stack} : WayStep g (.option i body rest :: stack) none (rest :: stack)
  | take {i body rest stack} : WayStep g (.option i body rest :: stack) none (body :: rest :: stack)
  | pass {i body rest stack} :
      WayStep g (.repetition i false body rest :: stack) none (rest :: stack)
  | enter {i b body rest stack} :
      WayStep g (.repetition i b body rest :: stack) none (body :: rest :: stack)
  | choose {n i rest stack} {gated : Fin n → Bool} {body : Fin n → Phrase} (k : Fin n) :
      WayStep g (.choice i gated body rest :: stack) none (body k :: rest :: stack)

/-- A way from a stack to what is left of it, and what it consumes. -/
inductive Way (g : Grammar) : List Phrase → CategoryPath → List Phrase → Prop
  | refl {stack} : Way g stack [] stack
  | pass {s s' s'' w} (h : WayStep g s none s') (hw : Way g s' w s'') : Way g s w s''
  | consume {s s' s'' c w} (h : WayStep g s (some c) s') (hw : Way g s' w s'') :
      Way g s (c :: w) s''

/-- What a way consumes in all. -/
inductive Course where
  | ending (w : CategoryPath)
  | endless (w : Nat → CategoryId)

namespace Course

def take (n : Nat) : Course → CategoryPath
  | ending w => w.take n
  | endless w => (List.range n).map w

/-- The course has at least so many categories. -/
def Reaches (n : Nat) : Course → Prop
  | ending w => n ≤ w.length
  | endless _ => True

/-- The course of a way through a stack. -/
def IsOf (g : Grammar) (stack : List Phrase) : Course → Prop
  | ending w => Way g stack w []
  | endless w => ∃ left : Nat → List Phrase, left 0 = stack
      ∧ ∀ n, Way g (left n) [w n] (left (n + 1))

def cons (c : CategoryId) : Course → Course
  | ending w => ending (c :: w)
  | endless w => endless fun
    | 0 => c
    | n + 1 => w n

end Course

variable {g : Grammar} {s s' s'' : List Phrase} {v w : CategoryPath} {c : CategoryId} {e : Bool}
  {course : Course} {n : Nat}

namespace Way

theorem trans (h : Way g s v s') (h' : Way g s' w s'') : Way g s (v ++ w) s'' := by
  induction h with
  | refl => exact h'
  | pass hs _ ih => exact .pass hs (ih h')
  | consume hs _ ih => exact .consume hs (ih h')

private theorem exists_of_cons (h : Way g s (c :: w) s'') :
    ∃ s', Way g s [c] s' ∧ Way g s' w s'' := by
  generalize hv : c :: w = v at h
  induction h with
  | refl => cases hv
  | pass hs _ ih =>
    obtain ⟨s', hs', hw⟩ := ih hv
    exact ⟨s', .pass hs hs', hw⟩
  | consume hs hw _ =>
    cases hv
    exact ⟨_, .consume hs .refl, hw⟩

/-- A way can be cut, and one to the end has ended. -/
theorem expands (h : Way g s w s') (he : e = true → s' = []) : Expands g s w e := by
  induction h with
  | refl =>
    cases e with
    | true => exact he rfl ▸ .done
    | false => exact .cut
  | pass hs _ ih =>
    cases hs with
    | nil => exact .nil (ih he)
    | call hp => exact .call hp (ih he)
    | skip => exact .skip (ih he)
    | take => exact .take (ih he)
    | pass => exact .pass (ih he)
    | enter => exact .enter (ih he)
    | choose k => exact .choose k (ih he)
  | consume hs _ ih =>
    cases hs with
    | terminal => exact .terminal (ih he)

end Way

/-! ## Phrases that a way can go through -/

namespace Phrase

/-- Every choice has a branch and every rule that is called exists. -/
structure Grounded (g : Grammar) (p : Phrase) : Prop where
  branches : p.HasBranches
  calls (name : String) (idx : Nat) :
    (Occurrence.call name, idx) ∈ p.occurrences → ∃ q, g.phrase? name = some q

theorem Hereditary.grounded (g : Grammar) : Hereditary (Phrase.Grounded g) where
  terminal h := ⟨h.branches, fun name idx hc => h.calls name idx (List.mem_cons_of_mem _ hc)⟩
  call h := ⟨h.branches, fun name idx hc => h.calls name idx (List.mem_cons_of_mem _ hc)⟩
  option h := ⟨⟨h.branches.1, fun name idx hc => h.calls name idx (by simp [occurrences, hc])⟩,
    h.branches.2, fun name idx hc => h.calls name idx (by simp [occurrences, hc])⟩
  repetition h := ⟨⟨h.branches.1, fun name idx hc => h.calls name idx (by simp [occurrences, hc])⟩,
    h.branches.2, fun name idx hc => h.calls name idx (by simp [occurrences, hc])⟩
  choice h := by
    refine ⟨fun k => ⟨h.branches.1.2 k, fun name idx hc => h.calls name idx ?_⟩,
      h.branches.2, fun name idx hc => h.calls name idx (by simp [occurrences, hc])⟩
    simp only [occurrences, List.mem_cons, List.mem_append, List.mem_flatten, List.mem_ofFn]
    exact .inr (.inl ⟨_, ⟨k, rfl⟩, hc⟩)

theorem Grounded.exists_phrase? {r : String} {i : Nat} {rest : Phrase}
    (h : (Phrase.call r i rest).Grounded g) : ∃ p, g.phrase? r = some p :=
  h.calls r i List.mem_cons_self

end Phrase

/-- Every rule is grounded. -/
def Grammar.Grounded (g : Grammar) : Prop := ∀ name p, g.phrase? name = some p → p.Grounded g

/-- Whatever is expanded is a way. -/
theorem Expands.exists_way (hg : g.Grounded) (h : Expands g s w e) (hs : ∀ p ∈ s, p.Grounded g) :
    ∃ s', Way g s w s' ∧ (∀ p ∈ s', p.Grounded g) ∧ (e = true → s' = []) := by
  have hP := Phrase.Hereditary.grounded g
  have step : ∀ {s t : List Phrase} {w : CategoryPath} {e : Bool}, WayStep g s Option.none t →
      (∃ s', Way g t w s' ∧ (∀ p ∈ s', p.Grounded g) ∧ (e = true → s' = [])) →
      ∃ s', Way g s w s' ∧ (∀ p ∈ s', p.Grounded g) ∧ (e = true → s' = []) :=
    fun hs ⟨s', hw, h⟩ => ⟨s', .pass hs hw, h⟩
  induction h with
  | @cut stack => exact ⟨stack, .refl, hs, nofun⟩
  | done => exact ⟨[], .refl, hs, fun _ => rfl⟩
  | nil _ ih => exact step .nil (ih (List.forall_mem_cons.mp hs).2)
  | terminal _ ih =>
    obtain ⟨hp, hs⟩ := List.forall_mem_cons.mp hs
    obtain ⟨s', hw, h⟩ := ih (List.forall_mem_cons.mpr ⟨hP.terminal hp, hs⟩)
    exact ⟨s', .consume .terminal hw, h⟩
  | call hq _ ih =>
    obtain ⟨hp, hs⟩ := List.forall_mem_cons.mp hs
    exact step (.call hq) (ih (List.forall_mem_cons.mpr ⟨hg _ _ hq,
      List.forall_mem_cons.mpr ⟨hP.call hp, hs⟩⟩))
  | undefined hq =>
    obtain ⟨p, hp⟩ := (List.forall_mem_cons.mp hs).1.exists_phrase?
    rw [hq] at hp
    cases hp
  | skip _ ih =>
    obtain ⟨hp, hs⟩ := List.forall_mem_cons.mp hs
    exact step .skip (ih (List.forall_mem_cons.mpr ⟨(hP.option hp).2, hs⟩))
  | take _ ih =>
    obtain ⟨hp, hs⟩ := List.forall_mem_cons.mp hs
    exact step .take (ih (List.forall_mem_cons.mpr ⟨(hP.option hp).1,
      List.forall_mem_cons.mpr ⟨(hP.option hp).2, hs⟩⟩))
  | pass _ ih =>
    obtain ⟨hp, hs⟩ := List.forall_mem_cons.mp hs
    exact step .pass (ih (List.forall_mem_cons.mpr ⟨(hP.repetition hp).2, hs⟩))
  | enter _ ih =>
    obtain ⟨hp, hs⟩ := List.forall_mem_cons.mp hs
    exact step .enter (ih (List.forall_mem_cons.mpr ⟨(hP.repetition hp).1,
      List.forall_mem_cons.mpr ⟨(hP.repetition hp).2, hs⟩⟩))
  | choose k _ ih =>
    obtain ⟨hp, hs⟩ := List.forall_mem_cons.mp hs
    exact step (.choose k) (ih (List.forall_mem_cons.mpr ⟨(hP.choice hp).1 k,
      List.forall_mem_cons.mpr ⟨(hP.choice hp).2, hs⟩⟩))
  | none _ _ => exact absurd rfl (List.forall_mem_cons.mp hs).1.branches.1.1

/-! ## No way gets stuck -/

/-- The phrase can be passed over, or else a token can be consumed in it, whatever lies behind. -/
def Phrase.Moves (g : Grammar) (p : Phrase) : Prop :=
  p.Vanishes g ∨ ∀ stack, ∃ c s', Way g (p :: stack) [c] s'

private theorem Phrase.Derives.way_of_eq_nil {d : Nat} {p : Phrase} (h : p.Derives g d w)
    (hw : w = []) (stack : List Phrase) : Way g (p :: stack) [] stack := by
  induction h generalizing stack with
  | nil => exact .pass .nil .refl
  | terminal _ _ => cases hw
  | @call d r i rest p v w hp _ _ ihv ihw =>
    obtain ⟨hv, hw⟩ := List.append_eq_nil_iff.mp hw
    exact .pass (.call hp) ((ihv hv (rest :: stack)).trans (ihw hw stack))
  | skip _ ih => exact .pass .skip (ih hw stack)
  | take _ _ _ ihw => exact .pass .skip (ihw (List.append_eq_nil_iff.mp hw).2 stack)
  | @repetition d i b body rest w vs hn _ _ ihv ihw =>
    obtain ⟨hvs, hw'⟩ := List.append_eq_nil_iff.mp hw
    rcases eq_false_or_nil_mem hn hvs with rfl | hnil
    · exact .pass .pass (ihw hw' stack)
    · exact .pass .enter ((ihv [] hnil rfl (rest :: stack)).trans (ihw hw' stack))
  | @choice d n i rest v w gated body k _ _ ihv ihw =>
    obtain ⟨hv, hw⟩ := List.append_eq_nil_iff.mp hw
    exact .pass (.choose k) ((ihv hv (rest :: stack)).trans (ihw hw stack))

theorem Phrase.Vanishes.way {p : Phrase} (h : p.Vanishes g) (stack : List Phrase) :
    Way g (p :: stack) [] stack := by
  obtain ⟨d, h⟩ := h
  exact h.way_of_eq_nil rfl stack

namespace Phrase

/-- A phrase in front of which another one can be passed over, or a token be consumed in that. -/
theorem Moves.behind {p q rest : Phrase} (hq : q.Moves g) (hrest : q.Vanishes g → rest.Moves g)
    (hv : q.Vanishes g → rest.Vanishes g → p.Vanishes g)
    (hs : ∀ stack, WayStep g (p :: stack) none (q :: rest :: stack)) : p.Moves g := by
  rcases hq with hq | hq
  · rcases hrest hq with hr | hr
    · exact .inl (hv hq hr)
    · refine .inr fun stack => ?_
      obtain ⟨c, s', hw⟩ := hr stack
      exact ⟨c, s', .pass (hs stack) ((hq.way (rest :: stack)).trans hw)⟩
  · refine .inr fun stack => ?_
    obtain ⟨c, s', hw⟩ := hq (rest :: stack)
    exact ⟨c, s', .pass (hs stack) hw⟩

theorem Moves.past {p rest : Phrase} (hrest : rest.Moves g)
    (hv : rest.Vanishes g → p.Vanishes g)
    (hs : ∀ stack, WayStep g (p :: stack) none (rest :: stack)) : p.Moves g := by
  refine hrest.imp hv fun hr stack => ?_
  obtain ⟨c, s', hw⟩ := hr stack
  exact ⟨c, s', .pass (hs stack) hw⟩

/-- A phrase does not get stuck if the rules do not that it can call first. -/
theorem moves_of_callsFirst {p : Phrase} (hp : p.Grounded g)
    (h : ∀ name q, p.CallsFirst g name → g.phrase? name = some q → q.Moves g) : p.Moves g := by
  have hP := Hereditary.grounded g
  induction p with
  | nil => exact .inl .nil
  | terminal c i rest ih => exact .inr fun stack => ⟨c, _, .consume .terminal .refl⟩
  | call r i rest ih =>
    obtain ⟨q, hq⟩ := hp.exists_phrase?
    refine (h r q .call hq).behind (fun hv => ?_) (fun hv => .call hq hv) fun stack => .call hq
    exact ih (hP.call hp) fun name t hc => h name t (.behindCall hq hv hc)
  | option i body rest ihb ih =>
    refine (ih (hP.option hp).2 fun name t hc => h name t (.behindOption hc)).past ?_
      fun stack => .skip
    exact .option
  | repetition i b body rest ihb ih =>
    cases b with
    | false =>
      refine (ih (hP.repetition hp).2 fun name t hc =>
        h name t (.behindRepetition (.inl rfl) hc)).past ?_ fun stack => .pass
      exact .repetition (.inl rfl)
    | true =>
      refine (ihb (hP.repetition hp).1 fun name t hc => h name t (.inRepetition hc)).behind
        (fun hv => ?_) (fun hv => .repetition (.inr hv)) fun stack => .enter
      exact ih (hP.repetition hp).2 fun name t hc => h name t (.behindRepetition (.inr hv) hc)
  | @choice n i gated body rest ihb ih =>
    let k : Fin n := ⟨0, Nat.pos_of_ne_zero hp.branches.1.1⟩
    refine (ihb k ((hP.choice hp).1 k) fun name t hc => h name t (.inChoice k hc)).behind
      (fun hv => ?_) (fun hv => .choice k hv) fun stack => .choose k
    exact ih (hP.choice hp).2 fun name t hc => h name t (.behindChoice k hv hc)

end Phrase

namespace Grammar

variable {rules : List Production}

theorem search_of_leftCycle? (h : (RuleFacts.ofGrammar (ofList rules)).leftCycle? = none) :
    ∃ visited, LeftCycle.search (RuleFacts.ofGrammar (ofList rules)).leads = .ok visited := by
  rw [RuleFacts.leftCycle?] at h
  split at h
  · rename_i visited hsearch
    exact ⟨visited, hsearch⟩
  · rename_i hsearch
    exact (LeftCycle.isCycle_of_search closed_leads hsearch).elim
  · cases h

/-- Without left recursion no rule gets stuck, by induction on the first calls. -/
theorem moves_of_leftCycle? (hg : (ofList rules).Grounded)
    (h : (RuleFacts.ofGrammar (ofList rules)).leftCycle? = none) {name : String} {p : Phrase}
    (hp : (ofList rules).phrase? name = some p) : p.Moves (ofList rules) := by
  obtain ⟨visited, hsearch⟩ := search_of_leftCycle? h
  obtain ⟨i, production, hi, hproduction, rfl⟩ := exists_of_phrase? hp
  have hends := LeftCycle.ends_of_search closed_leads hsearch i
  induction hends generalizing name production with
  | intro i _ ih =>
    refine Phrase.moves_of_callsFirst (hg name _ hp) fun callee q hc hq => ?_
    obtain ⟨j, production', hj, hproduction', rfl⟩ := exists_of_phrase? hq
    exact ih j (edge_leads_iff.mpr ⟨production, callee, hproduction, hc, hj⟩) production' hj
      hproduction' hq

end Grammar

/-- No way through the rules of the grammar gets stuck. -/
def Grammar.Moves (g : Grammar) : Prop := ∀ name p, g.phrase? name = some p → p.Moves g

theorem Phrase.Grounded.moves {p : Phrase} (hp : p.Grounded g) (hg : g.Moves) : p.Moves g :=
  moves_of_callsFirst hp fun name q _ => hg name q

private theorem Way.ends_or_consumes (hg : g.Moves) (hs : ∀ p ∈ s, p.Grounded g) :
    Way g s [] [] ∨ ∃ c s', Way g s [c] s' := by
  induction s with
  | nil => exact .inl .refl
  | cons p s ih =>
    obtain ⟨hp, hs⟩ := List.forall_mem_cons.mp hs
    rcases hp.moves hg with hv | hc
    · rcases ih hs with hw | ⟨c, s', hw⟩
      · exact .inl ((hv.way s).trans hw)
      · exact .inr ⟨c, s', (hv.way s).trans hw⟩
    · exact .inr (hc s)

namespace Course

private theorem IsOf.of_way (h : Way g s [] s') (hc : course.IsOf g s') : course.IsOf g s := by
  cases course with
  | ending w => exact h.trans hc
  | endless w =>
    obtain ⟨left, rfl, hstep⟩ := hc
    refine ⟨fun | 0 => s | n + 1 => left (n + 1), rfl, fun n => ?_⟩
    cases n with
    | zero => exact h.trans (hstep 0)
    | succ n => exact hstep (n + 1)

theorem IsOf.cons (h : Way g s [c] s') (hc : course.IsOf g s') : (course.cons c).IsOf g s := by
  cases course with
  | ending w => exact h.trans hc
  | endless w =>
    obtain ⟨left, rfl, hstep⟩ := hc
    refine ⟨fun | 0 => s | n + 1 => left n, rfl, fun n => ?_⟩
    cases n with
    | zero => exact h
    | succ n => exact hstep n

private theorem take_cons : (course.cons c).take (n + 1) = c :: course.take n := by
  cases course with
  | ending w => rfl
  | endless w =>
    simp only [take, Course.cons, List.range_succ_eq_map, List.map_cons, List.map_map]
    rfl

private theorem reaches_cons : (course.cons c).Reaches (n + 1) ↔ course.Reaches n := by
  cases course with
  | ending w => exact Nat.succ_le_succ_iff
  | endless w => exact Iff.rfl

theorem length_take (h : course.Reaches n) : (course.take n).length = n := by
  cases course with
  | ending w => exact List.length_take_of_le h
  | endless w => rw [take, List.length_map, List.length_range]

/-- What a course begins with is on a way. -/
theorem IsOf.expands (h : course.IsOf g s) (hn : course.Reaches n) :
    Expands g s (course.take n) false := by
  cases course with
  | ending w =>
    have hw : Expands g s w true := Way.expands h fun _ => rfl
    exact hw.take_of_le hn
  | endless w =>
    obtain ⟨left, rfl, hstep⟩ := h
    have hway : Way g (left 0) ((List.range n).map w) (left n) := by
      clear hn
      induction n with
      | zero => exact .refl
      | succ n ih =>
        rw [List.range_succ, List.map_append, List.map_singleton]
        exact ih.trans (hstep n)
    exact hway.expands nofun

private theorem exists_isOf (hg : g.Grounded) (hm : g.Moves) (hs : ∀ p ∈ s, p.Grounded g) :
    ∃ course : Course, course.IsOf g s := by
  by_cases hend : ∃ w, Way g s w []
  · obtain ⟨w, hw⟩ := hend
    exact ⟨ending w, hw⟩
  · -- no way from here ends, so each can be continued, time and again
    let State := { s' : List Phrase // (∃ w, Way g s w s') ∧ ∀ p ∈ s', p.Grounded g }
    have hnext : ∀ x : State, ∃ c, ∃ y : State, Way g x.1 [c] y.1 := by
      rintro ⟨s', ⟨w, hw⟩, hs'⟩
      rcases Way.ends_or_consumes hm hs' with hdone | ⟨c, s'', hc⟩
      · exact absurd ⟨w, by simpa using hw.trans hdone⟩ hend
      · obtain ⟨t, ht, hground, -⟩ := (hc.expands (e := false) nofun).exists_way hg hs'
        exact ⟨c, ⟨t, ⟨w ++ [c], hw.trans ht⟩, hground⟩, ht⟩
    choose category next hstep using hnext
    let states : Nat → State := fun n => n.rec ⟨s, ⟨[], .refl⟩, hs⟩ fun _ x => next x
    exact ⟨endless fun n => category (states n), fun n => (states n).1, rfl,
      fun n => hstep (states n)⟩

/-- What a way has consumed so far begins a course. -/
theorem exists_isOf_of_expands (hg : g.Grounded) (hm : g.Moves) (hs : ∀ p ∈ s, p.Grounded g)
    (hw : Expands g s w false) :
    ∃ course : Course, course.IsOf g s ∧ course.Reaches w.length ∧ course.take w.length = w := by
  obtain ⟨s', hway, hs', -⟩ := hw.exists_way hg hs
  obtain ⟨course, hcourse⟩ := exists_isOf hg hm hs'
  clear hw hs hs'
  induction w generalizing s with
  | nil =>
    refine ⟨course, hcourse.of_way hway, ?_, ?_⟩
    · cases course <;> simp [Reaches]
    · cases course <;> simp [take]
  | cons c w ih =>
    obtain ⟨t, hc, ht⟩ := hway.exists_of_cons
    obtain ⟨course, hcourse, hreach, htake⟩ := ih ht
    exact ⟨course.cons c, hcourse.cons hc, reaches_cons.mpr hreach, by
      rw [List.length_cons, take_cons, htake]⟩

end Course

end PredictiveParsing
