import PredictiveParsing.Proofs.Parsing.Deeds

/-!
# Why a step fails

A step that fails does so in front of the token at which it was begun, and for one of a few causes.
-/

namespace PredictiveParsing

open Parse ParseContext

variable {V : Type} {c : ParseContext V} {s : ParseState}

/-- Where the part fails, it fails in the state in which it was begun, for a cause of a kind. -/
def Parse.FailsFor {α : Type} (c : ParseContext V) (x : Parse α) (s : ParseState)
    (P : Failure.Cause → Prop) : Prop :=
  ∀ f t, x s = .error f t → t = s ∧ ∃ cause, P cause ∧ f = c.failure s cause

/-- The causes for which the first step of a body can fail in a state. -/
inductive Body.Cause (c : ParseContext V) (s : ParseState) : Body V → Failure.Cause → Prop
  | mismatch {idx : Nat} {category : CategoryId} {rest : Body V} :
    Cause c s (.consume idx category rest) (.mismatch [category])
  | unknownRule {idx : Nat} {name : String} {rest : Body V} (h : c.registry.find? name = none) :
    Cause c s (.subrule idx name rest) (.unknownRule name)
  | unrecordedOption {idx : Nat} {body rest : Body V} (h : c.decision? s .option idx = none) :
    Cause c s (.option idx body rest) (.unrecorded DecisionKind.option.keyword idx)
  | unrecordedRepetition {idx : Nat} {atLeastOne : Bool} {body rest : Body V}
    (h : c.decision? s (.ofRepetition atLeastOne) idx = none) :
    Cause c s (.repetition idx atLeastOne body rest)
      (.unrecorded (DecisionKind.ofRepetition atLeastOne).keyword idx)
  | earlyExit {idx : Nat} {body rest : Body V} (expected : List CategoryId) :
    Cause c s (.repetition idx true body rest) (.earlyExit expected)
  | unrecordedChoice {n idx : Nat} {expecting : Option String} {gate : Fin n → Option Gate}
    {body : Fin n → Body V} {rest : Body V}
    (h : ∀ d, c.decision? s .or idx = some d → d.alternatives.length ≠ n) :
    Cause c s (.choice idx expecting gate body rest) (.unrecorded DecisionKind.or.keyword idx)
  | noAlternative {n idx : Nat} {expecting : Option String} {gate : Fin n → Option Gate}
    {body : Fin n → Body V} {rest : Body V} (expected : List CategoryId) :
    Cause c s (.choice idx expecting gate body rest) (.noAlternative expected expecting)
  | failed {phase : Phase} {cause : Failure.Cause} {rest : Body V}
    (h : phase.covers false = true) : Cause c s (.fail phase cause rest) cause

namespace Parse.FailsFor

variable {α β : Type} {x : Parse α} {P R : Failure.Cause → Prop}

theorem discard (hx : FailsFor c x s P) : FailsFor c (Functor.discard x : Parse Unit) s P := by
  intro f t h
  refine hx f t ?_
  simp only [Functor.discard, Functor.mapConst, Function.comp, EStateM.map] at h
  cases hs : x s with
  | ok a u => rw [hs] at h; cases h
  | error e u =>
    rw [hs] at h
    obtain ⟨rfl, rfl⟩ := EStateM.Result.error.inj h
    rfl

theorem mono (hx : FailsFor c x s P) (h : ∀ cause, P cause → R cause) : FailsFor c x s R := by
  intro f t hf
  obtain ⟨ht, cause, hcause, rfl⟩ := hx f t hf
  exact ⟨ht, cause, h cause hcause, rfl⟩

private theorem of_ok {a : α} {t : ParseState} (h : x s = .ok a t) : FailsFor c x s P := by
  intro f u hf
  rw [h] at hf
  cases hf

/-- A part behind one that leaves the state alone. -/
theorem bind {f : α → Parse β} (hx : FailsFor c x s P)
    (hsteady : ∀ a t, x s = .ok a t → t = s) (hf : ∀ a t, x s = .ok a t → FailsFor c (f a) s P) :
    FailsFor c (x >>= f) s P := by
  intro e u hu
  simp only [Bind.bind, EStateM.bind] at hu
  cases hs : x s with
  | ok a t =>
    rw [hs] at hu
    obtain rfl := hsteady a t hs
    exact hf a _ hs e u hu
  | error e' t =>
    rw [hs] at hu
    obtain ⟨rfl, rfl⟩ := EStateM.Result.error.inj hu
    exact hx _ _ hs

private theorem bind_pure {f : α → β} (hx : FailsFor c x s P) :
    FailsFor c (x >>= fun a => pure (f a)) s P := by
  intro e u hu
  simp only [Bind.bind, EStateM.bind] at hu
  cases hs : x s with
  | ok a t =>
    rw [hs] at hu
    cases hu
  | error e' t =>
    rw [hs] at hu
    obtain ⟨rfl, rfl⟩ := EStateM.Result.error.inj hu
    exact hx _ _ hs

end Parse.FailsFor

namespace ParseContext

private theorem failsFor_consume (idx : Nat) (category : CategoryId) :
    FailsFor c (c.consume idx category) s (· = .mismatch [category]) := by
  intro f t h
  rw [consume] at h
  split at h
  · cases h
  · split at h
    · rename_i repair hrepair
      cases repair <;> cases h
    · obtain ⟨rfl, rfl⟩ := EStateM.Result.error.inj h
      exact ⟨rfl, _, rfl, rfl⟩

theorem failsFor_decision (kind : DecisionKind) (idx : Nat) :
    FailsFor c (c.decision kind idx) s fun cause =>
      c.decision? s kind idx = none ∧ cause = .unrecorded kind.keyword idx := by
  intro f t h
  rw [decision] at h
  split at h
  · cases h
  · rename_i hnone
    obtain ⟨rfl, rfl⟩ := EStateM.Result.error.inj h
    exact ⟨rfl, _, ⟨hnone, rfl⟩, rfl⟩

theorem decision_eq_ok {kind : DecisionKind} {idx : Nat} {d : Decision} {t : ParseState}
    (h : c.decision kind idx s = .ok d t) : t = s ∧ c.decision? s kind idx = some d := by
  rw [decision] at h
  split at h
  · obtain ⟨rfl, rfl⟩ := EStateM.Result.ok.inj h
    exact ⟨rfl, ‹_›⟩
  · cases h

theorem choiceDecision_eq_ok {idx n : Nat} {d : Decision} {t : ParseState}
    (h : c.choiceDecision idx n s = .ok d t) :
    t = s ∧ c.decision? s .or idx = some d ∧ d.alternatives.length = n := by
  simp only [choiceDecision, Bind.bind, EStateM.bind] at h
  cases hs : c.decision .or idx s with
  | error e u => rw [hs] at h; cases h
  | ok d' u =>
    rw [hs] at h
    obtain ⟨rfl, hd⟩ := decision_eq_ok hs
    simp only at h
    split at h
    · obtain ⟨rfl, rfl⟩ := EStateM.Result.ok.inj h
      exact ⟨rfl, hd, ‹_›⟩
    · cases h

private theorem failsFor_choiceDecision (idx n : Nat) :
    FailsFor c (c.choiceDecision idx n) s fun cause =>
      (∀ d, c.decision? s .or idx = some d → d.alternatives.length ≠ n)
        ∧ cause = .unrecorded DecisionKind.or.keyword idx := by
  refine FailsFor.bind ((failsFor_decision .or idx).mono ?_) (fun d t h => (decision_eq_ok h).1)
    fun d t hd => ?_
  · rintro _ ⟨hnone, rfl⟩
    exact ⟨fun d hd => (nomatch hnone.symm.trans hd), rfl⟩
  · intro f u hu
    split at hu
    · cases hu
    · rename_i hother
      obtain ⟨rfl, rfl⟩ := EStateM.Result.error.inj hu
      refine ⟨rfl, _, ⟨fun d' hd' => ?_, rfl⟩, rfl⟩
      obtain rfl := Option.some.inj ((decision_eq_ok hd).2.symm.trans hd')
      exact hother

private theorem failsFor_enterOnce (idx : Nat) (d : Decision) :
    FailsFor c (c.enterOnce idx d) s fun cause => ∃ expected, cause = .earlyExit expected := by
  intro f t h
  simp only [enterOnce_eq] at h
  split at h
  · cases h
  · split at h
    · cases h
    · obtain ⟨rfl, rfl⟩ := EStateM.Result.error.inj h
      exact ⟨rfl, _, ⟨_, rfl⟩, rfl⟩

private theorem failsFor_choose {n : Nat} (idx : Nat) (expecting : Option String)
    (gate : Fin n → Option Gate) (d : Decision) :
    FailsFor c (c.choose idx expecting gate d) s fun cause =>
      ∃ expected, cause = .noAlternative expected expecting := by
  intro f t h
  simp only [choose_eq] at h
  split at h
  · cases h
  · split at h
    · cases h
    · obtain ⟨rfl, rfl⟩ := EStateM.Result.error.inj h
      exact ⟨rfl, _, ⟨_, rfl⟩, rfl⟩

end ParseContext

namespace Body

/-- A step fails in the state in which it is begun, for one of its causes. -/
theorem failsFor_opening (body : Body V) (s : ParseState) :
    FailsFor c (body.opening c) s (Body.Cause c s body) := by
  cases body with
  | done => exact .of_ok rfl
  | consume idx category rest =>
    exact (failsFor_consume idx category).discard.mono fun _ h => h ▸ .mismatch
  | subrule idx name rest =>
    intro f t h
    simp only [opening, resolve] at h
    split at h
    · cases h
    · rename_i hnone
      obtain ⟨rfl, rfl⟩ := EStateM.Result.error.inj h
      exact ⟨rfl, _, .unknownRule hnone, rfl⟩
  | option idx body rest =>
    refine (failsFor_decision .option idx).discard.mono ?_
    rintro _ ⟨hnone, rfl⟩
    exact .unrecordedOption hnone
  | repetition idx atLeastOne body rest =>
    cases atLeastOne with
    | false =>
      refine (failsFor_decision .many idx).discard.mono ?_
      rintro _ ⟨hnone, rfl⟩
      exact .unrecordedRepetition hnone
    | true =>
      refine FailsFor.discard (FailsFor.bind ((failsFor_decision .atLeastOne idx).mono ?_)
        (fun d t h => (decision_eq_ok h).1) fun d t _ => ?_)
      · rintro _ ⟨hnone, rfl⟩
        exact .unrecordedRepetition hnone
      · refine (failsFor_enterOnce idx d).bind_pure.mono ?_
        rintro _ ⟨expected, rfl⟩
        exact .earlyExit expected
  | choice idx expecting gate body rest =>
    refine FailsFor.discard (FailsFor.bind ((failsFor_choiceDecision idx _).mono ?_)
      (fun d t h => (choiceDecision_eq_ok h).1) fun d t _ => ?_)
    · rintro _ ⟨hother, rfl⟩
      exact .unrecordedChoice hother
    · refine (failsFor_choose idx expecting gate d).mono ?_
      rintro _ ⟨expected, rfl⟩
      exact .noAlternative expected
  | action value rest => exact .of_ok rfl
  | observe value rest => exact .of_ok rfl
  | fail phase cause rest =>
    intro f t h
    simp only [opening] at h
    split at h
    · rename_i hphase
      obtain ⟨rfl, rfl⟩ := EStateM.Result.error.inj h
      exact ⟨rfl, _, .failed hphase, rfl⟩
    · cases h
  | during phase body rest => exact .of_ok rfl
  | attempt body rest => exact .of_ok rfl

end Body

end PredictiveParsing
