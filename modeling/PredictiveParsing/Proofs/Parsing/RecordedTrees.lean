import Mathlib.Data.Fin.Tuple.Reflection
import Mathlib.Data.List.FinRange
import PredictiveParsing.Proofs.Parsing.History

/-!
# What is recorded

Whatever frames there are when a body is recorded, its pieces go to the end of the frame at hand and
all frames are there again at the end, also when the recording fails. A plain body is recorded as
the tree of its calls, whatever the gates in it say. A step that fails, however deep inside, makes
the whole recording fail, but the other branches of the choices around it are still recorded.
-/

namespace PredictiveParsing

namespace Recording

/-- From every recorder the recording ends in the same way and adds the same pieces to the frame at
hand. -/
def Leaves (part : Recording) (result : Except Failure Unit) (p : Phrase) : Prop :=
  ∀ r, part r = (result, ⟨r.current ++ p, r.outer⟩)

def outcome : Option Failure → Except Failure Unit
  | none => .ok ()
  | some f => .error f

def behind (failure : Option Failure) (p : Phrase) : Phrase := if failure.isNone then p else .nil

def choiceFailure? {n : Nat} (failures : Fin n → Option Failure) : Option Failure :=
  if n = 0 then some ⟨noAlternatives, .eof .start⟩ else (List.ofFn failures).findSome? id

private theorem firstFailure?_ofFn {n : Nat} (failures : Fin n → Option Failure)
    (phrases : Fin n → Phrase) :
    firstFailure? (List.ofFn fun k => (outcome (failures k), phrases k)) =
      (List.ofFn failures).findSome? id := by
  rw [firstFailure?, List.ofFn_eq_map, List.ofFn_eq_map, List.findSome?_map, List.findSome?_map]
  congr 1
  funext k
  cases h : failures k <;> simp [outcome, h]

private theorem firstFailure?_singleton (failure : Option Failure) (p : Phrase) :
    firstFailure? [(outcome failure, p)] = failure := by
  cases failure <;> rfl

namespace Leaves

variable {part rest : Recording} {failure failure' : Option Failure} {p q : Phrase}

theorem push (h : rest.Leaves (outcome failure) q) (piece : Phrase) :
    Leaves (fun r => rest (r.push piece)) (outcome failure) (piece ++ q) := fun r =>
  (h _).trans (congrArg (Prod.mk _) (congrArg (Recorder.mk · r.outer) (Phrase.append_assoc ..)))

/-- Goes on behind a step unless the step has failed. -/
theorem andThen (h : rest.Leaves (outcome failure') q) (failure : Option Failure)
    (piece : Phrase) :
    Leaves (fun r => Recording.andThen failure rest (r.push piece)) (outcome (failure.or failure'))
      (piece ++ behind failure q) := by
  cases failure with
  | none => exact h.push piece
  | some f =>
    intro r
    rw [behind, Option.isNone_some, if_neg Bool.false_ne_true, Phrase.append_nil]
    rfl

theorem nested_eq {result : Except Failure Unit} (h : part.Leaves result p) (r : Recorder) :
    nested part r = (result, p, r) := by
  rw [nested, h]
  rfl

private theorem each_eq {parts : List Recording} {ends : List (Except Failure Unit × Phrase)}
    (h : List.Forall₂ (fun part e => part.Leaves e.1 e.2) parts ends) (r : Recorder) :
    each parts r = (ends, r) := by
  induction h with
  | nil => rfl
  | cons hpart _ ih => simp only [each, hpart.nested_eq, ih]

end Leaves

end Recording

namespace Body

variable {V : Type}

open Recording

/-- The failure with which the recording of a body ends, if it does. -/
def failure? : Body V → Option Failure
  | done => none
  | consume _ _ rest => rest.failure?
  | subrule _ _ rest => rest.failure?
  | option _ body rest => body.failure?.or rest.failure?
  | repetition _ _ body rest => body.failure?.or rest.failure?
  | choice _ _ _ body rest => (choiceFailure? fun k => (body k).failure?).or rest.failure?
  | action _ rest => rest.failure?
  | observe _ rest => rest.failure?
  | fail phase cause rest =>
    if phase.covers true then some ⟨cause, .eof .start⟩ else rest.failure?
  | during phase body rest =>
    if phase.covers true then body.failure?.or rest.failure? else rest.failure?
  | attempt _ rest => rest.failure?

/-- The pieces that are recorded of a body: all up to its end or to the step that fails. -/
def trace : Body V → Phrase
  | done => .nil
  | consume idx c rest => .terminal c idx rest.trace
  | subrule idx r rest => .call r idx rest.trace
  | option idx body rest => .option idx body.trace (behind body.failure? rest.trace)
  | repetition idx b body rest => .repetition idx b body.trace (behind body.failure? rest.trace)
  | choice idx _ gate body rest =>
    .choice idx (fun k => (gate k).isSome) (fun k => (body k).trace)
      (behind (choiceFailure? fun k => (body k).failure?) rest.trace)
  | action _ rest => rest.trace
  | observe _ rest => rest.trace
  | fail phase _ rest => if phase.covers true then .nil else rest.trace
  | during phase body rest =>
    if phase.covers true then body.trace ++ behind body.failure? rest.trace else rest.trace
  | attempt body rest => body.trace ++ rest.trace

/-- However a body is made up, its recording leaves all frames as they were, apart from the pieces
in the frame at hand. -/
theorem leaves_record (body : Body V) : body.record.Leaves (outcome body.failure?) body.trace := by
  induction body with
  | done => exact fun r => congrArg (Prod.mk _) (congrArg (Recorder.mk · r.outer)
      (Phrase.append_nil r.current).symm)
  | consume idx c rest ih => exact ih.push (.terminal c idx .nil)
  | subrule idx name rest ih => exact ih.push (.call name idx .nil)
  | option idx body rest ihb ih =>
    intro r
    simp only [record, ihb.nested_eq, firstFailure?_singleton]
    exact ih.andThen _ (.option idx body.trace .nil) r
  | repetition idx b body rest ihb ih =>
    intro r
    simp only [record, ihb.nested_eq, firstFailure?_singleton]
    exact ih.andThen _ (.repetition idx b body.trace .nil) r
  | @choice n idx expecting gate body rest ihb ih =>
    intro r
    have hends : List.Forall₂ (fun part e => Leaves part e.1 e.2)
        (List.ofFn fun k => (body k).record)
        (List.ofFn fun k => (outcome (body k).failure?, (body k).trace)) := by
      rw [List.forall₂_iff_get]
      simp only [List.length_ofFn, List.get_ofFn, true_and]
      exact fun i hi _ => ihb ⟨i, hi⟩
    have htraces : (fun k : Fin n => ((List.ofFn fun k => (outcome (body k).failure?,
        (body k).trace)).map Prod.snd).toArray[k.val]?.getD .nil) = fun k => (body k).trace := by
      funext k
      simp
    simp only [record, Leaves.each_eq hends, htraces, firstFailure?_ofFn]
    exact ih.andThen _ (.choice idx (fun k => (gate k).isSome) (fun k => (body k).trace) .nil) r
  | action value rest ih => exact ih
  | observe value rest ih => exact ih
  | fail phase cause rest ih =>
    intro r
    rw [record, failure?, trace]
    cases phase.covers true with
    | true => exact congrArg (Prod.mk _) (congrArg (Recorder.mk · r.outer)
        (Phrase.append_nil r.current).symm)
    | false => exact ih r
  | during phase body rest ihb ih =>
    intro r
    rw [record, failure?, trace]
    cases phase.covers true with
    | true =>
      simp only [if_true, ihb r, firstFailure?_singleton]
      exact ih.andThen _ body.trace r
    | false => exact ih r
  | attempt body rest ihb ih =>
    intro r
    simp only [record, ihb r]
    exact ih.push body.trace r

theorem recorded_eq_outcome (body : Body V) : body.recorded =
    match body.failure? with
    | none => .ok body.trace
    | some f => .error f := by
  rw [recorded, leaves_record body]
  cases body.failure? <;> rfl

private theorem leaves_record_of_noBranches (idx : Nat) (expecting : Option String)
    (gate : Fin 0 → Option Gate) (branch : Fin 0 → Body V) (rest : Body V) :
    (choice idx expecting gate branch rest).record.Leaves (.error ⟨noAlternatives, .eof .start⟩)
      (.choice idx (fun j => (gate j).isSome) (fun j => (branch j).phrase) .nil) := by
  have htrace : (fun j => (branch j).trace) = fun j => (branch j).phrase :=
    funext fun j => j.elim0
  rw [← htrace]
  exact (choice idx expecting gate branch rest).leaves_record

/-! ## Trees of calls -/

/-- A plain body is recorded as the tree of its calls, as long as every choice has a branch. -/
theorem trace_of_isPlain {body : Body V} (h : body.isPlain = true)
    (hb : body.phrase.HasBranches) : body.failure? = none ∧ body.trace = body.phrase := by
  induction body with
  | done => exact ⟨rfl, rfl⟩
  | consume idx c rest ih => exact ⟨(ih h hb).1, congrArg (Phrase.terminal c idx) (ih h hb).2⟩
  | subrule idx name rest ih => exact ⟨(ih h hb).1, congrArg (Phrase.call name idx) (ih h hb).2⟩
  | option idx body rest ihb ih =>
    rw [isPlain, Bool.and_eq_true] at h
    obtain ⟨hnone, htrace⟩ := ihb h.1 hb.1
    obtain ⟨hrest, htrace'⟩ := ih h.2 hb.2
    simp [failure?, trace, phrase, behind, hnone, htrace, hrest, htrace']
  | repetition idx b body rest ihb ih =>
    rw [isPlain, Bool.and_eq_true] at h
    obtain ⟨hnone, htrace⟩ := ihb h.1 hb.1
    obtain ⟨hrest, htrace'⟩ := ih h.2 hb.2
    simp [failure?, trace, phrase, behind, hnone, htrace, hrest, htrace']
  | @choice n idx expecting gate body rest ihb ih =>
    simp only [isPlain, Bool.and_eq_true, List.all_eq_true, List.forall_mem_ofFn_iff, id] at h
    obtain ⟨⟨hn, hbranches⟩, hb⟩ := hb
    have hbodies := fun k => ihb k (h.1 k) (hbranches k)
    obtain ⟨hrest, htrace⟩ := ih h.2 hb
    have hnone : choiceFailure? (fun _ : Fin n => none) = none := by simp [choiceFailure?, hn]
    simp [failure?, trace, phrase, behind, hbodies, hnone, hrest, htrace]
  | action | observe | fail | during | attempt => cases h

private theorem failure?_of_isPlain {body : Body V} (h : body.isPlain = true) {f : Failure}
    (hf : body.failure? = some f) : f = ⟨noAlternatives, .eof .start⟩ := by
  induction body with
  | done => cases hf
  | consume idx c rest ih => exact ih h hf
  | subrule idx name rest ih => exact ih h hf
  | option idx body rest ihb ih =>
    rw [isPlain, Bool.and_eq_true] at h
    rcases Option.or_eq_some_iff.mp hf with hf | ⟨-, hf⟩
    · exact ihb h.1 hf
    · exact ih h.2 hf
  | repetition idx b body rest ihb ih =>
    rw [isPlain, Bool.and_eq_true] at h
    rcases Option.or_eq_some_iff.mp hf with hf | ⟨-, hf⟩
    · exact ihb h.1 hf
    · exact ih h.2 hf
  | choice idx expecting gate body rest ihb ih =>
    simp only [isPlain, Bool.and_eq_true, List.all_eq_true, List.forall_mem_ofFn_iff, id] at h
    rcases Option.or_eq_some_iff.mp hf with hf | ⟨-, hf⟩
    · rw [choiceFailure?] at hf
      split at hf
      · exact (Option.some.inj hf).symm
      · obtain ⟨_, hmem, hf⟩ := List.exists_of_findSome?_eq_some hf
        obtain ⟨k, rfl⟩ := List.mem_ofFn.mp hmem
        exact ihb k (h.1 k) hf
    · exact ih h.2 hf
  | action | observe | fail | during | attempt => cases h

private theorem recorded_of_not_hasBranches {body : Body V} (h : body.isPlain = true)
    (hb : ¬body.phrase.HasBranches) :
    body.recorded = .error ⟨noAlternatives, .eof .start⟩ := by
  rw [recorded_eq_outcome]
  cases hf : body.failure? with
  | some f => rw [failure?_of_isPlain h hf]
  | none =>
    have hok : body.recorded = .ok body.trace := by rw [recorded_eq_outcome, hf]
    obtain ⟨hprop, htree⟩ := propagates_of_isPlain h
    obtain ⟨heq, hhas⟩ := recorded_eq hprop hok
    rw [heq, htree] at hhas
    exact absurd hhas hb

/-- The body with other conditions in its gates, other things to see in the parse and other values
of its actions. -/
def adapted (gate : Gate → Gate) (view : (View → V) → View → V) (act : V → V) : Body V → Body V
  | done => .done
  | consume idx c rest => .consume idx c (rest.adapted gate view act)
  | subrule idx name rest => .subrule idx name (rest.adapted gate view act)
  | option idx body rest =>
    .option idx (body.adapted gate view act) (rest.adapted gate view act)
  | repetition idx b body rest =>
    .repetition idx b (body.adapted gate view act) (rest.adapted gate view act)
  | choice idx expecting conditions body rest =>
    .choice idx expecting (fun k => (conditions k).map gate)
      (fun k => (body k).adapted gate view act) (rest.adapted gate view act)
  | action value rest => .action (act value) (rest.adapted gate view act)
  | observe value rest => .observe (view value) (rest.adapted gate view act)
  | fail phase cause rest => .fail phase cause (rest.adapted gate view act)
  | during phase body rest =>
    .during phase (body.adapted gate view act) (rest.adapted gate view act)
  | attempt body rest => .attempt (body.adapted gate view act) (rest.adapted gate view act)

/-- Recording opens no gates, looks at no tokens and takes no actions: whatever these would give,
the same is recorded. -/
theorem record_adapted (gate : Gate → Gate) (view : (View → V) → View → V) (act : V → V)
    (body : Body V) : (body.adapted gate view act).record = body.record := by
  induction body with
  | done => rfl
  | consume idx c rest ih => simp only [adapted, record, ih]
  | subrule idx name rest ih => simp only [adapted, record, ih]
  | option idx body rest ihb ih => simp only [adapted, record, ihb, ih]
  | repetition idx b body rest ihb ih => simp only [adapted, record, ihb, ih]
  | choice idx expecting conditions body rest ihb ih =>
    simp only [adapted, record, ihb, ih, Option.isSome_map]
  | action value rest ih => exact ih
  | observe value rest ih => exact ih
  | fail phase cause rest ih => simp only [adapted, record, ih]
  | during phase body rest ihb ih => simp only [adapted, record, ihb, ih]
  | attempt body rest ihb ih => simp only [adapted, record, ihb, ih]

/-! ## Failures inside of a body -/

/-- The bodies inside of a body that are recorded with it and of which no failure is caught, each
before those inside of it. -/
def innerBodies : Body V → List (Body V)
  | done => []
  | consume _ _ rest => rest.innerBodies
  | subrule _ _ rest => rest.innerBodies
  | option _ body rest =>
    body :: body.innerBodies ++ if body.failure?.isNone then rest.innerBodies else []
  | repetition _ _ body rest =>
    body :: body.innerBodies ++ if body.failure?.isNone then rest.innerBodies else []
  | choice _ _ _ body rest =>
    (List.ofFn fun k => body k :: (body k).innerBodies).flatten
      ++ if (choiceFailure? fun k => (body k).failure?).isNone then rest.innerBodies else []
  | action _ rest => rest.innerBodies
  | observe _ rest => rest.innerBodies
  | fail phase _ rest => if phase.covers true then [] else rest.innerBodies
  | during phase body rest =>
    if phase.covers true then
      body :: body.innerBodies ++ if body.failure?.isNone then rest.innerBodies else []
    else rest.innerBodies
  | attempt _ rest => rest.innerBodies

private theorem isSome_or_of_mem {step rest : Option Failure} {inner more : List (Body V)}
    {part : Body V} (hinner : part ∈ inner → step.isSome = true)
    (hmore : part ∈ more → rest.isSome = true)
    (h : part ∈ inner ++ if step.isNone then more else []) : (step.or rest).isSome = true := by
  rw [Option.isSome_or, Bool.or_eq_true]
  rcases List.mem_append.mp h with h | h
  · exact .inl (hinner h)
  · split at h
    · exact .inr (hmore h)
    · cases h

theorem isSome_choiceFailure? {n : Nat} {failures : Fin n → Option Failure} {k : Fin n}
    (h : (failures k).isSome = true) : (choiceFailure? failures).isSome = true := by
  rw [choiceFailure?]
  split
  · rfl
  · rw [List.isSome_findSome?, List.any_eq_true]
    exact ⟨_, List.mem_ofFn.mpr ⟨k, rfl⟩, h⟩

private theorem isSome_failure?_of_mem_innerBodies {body part : Body V}
    (hpart : part ∈ body.innerBodies) (hf : part.failure?.isSome = true) :
    body.failure?.isSome = true := by
  have hbody : ∀ {b : Body V}, (part ∈ b.innerBodies → b.failure?.isSome = true) →
      part ∈ b :: b.innerBodies → b.failure?.isSome = true := by
    intro b ih h
    rcases List.mem_cons.mp h with rfl | h
    · exact hf
    · exact ih h
  induction body with
  | done => cases hpart
  | consume idx c rest ih => exact ih hpart
  | subrule idx name rest ih => exact ih hpart
  | option idx body rest ihb ih => exact isSome_or_of_mem (hbody ihb) ih hpart
  | repetition idx b body rest ihb ih => exact isSome_or_of_mem (hbody ihb) ih hpart
  | choice idx expecting gate body rest ihb ih =>
    refine isSome_or_of_mem (fun h => ?_) ih hpart
    obtain ⟨_, hmem, h⟩ := List.mem_flatten.mp h
    obtain ⟨k, rfl⟩ := List.mem_ofFn.mp hmem
    exact isSome_choiceFailure? (hbody (ihb k) h)
  | action value rest ih => exact ih hpart
  | observe value rest ih => exact ih hpart
  | fail phase cause rest ih =>
    rw [innerBodies] at hpart
    rw [failure?]
    split at hpart
    · cases hpart
    · rw [if_neg ‹_›]
      exact ih hpart
  | during phase body rest ihb ih =>
    rw [innerBodies] at hpart
    rw [failure?]
    split at hpart
    · rw [if_pos ‹_›]
      exact isSome_or_of_mem (hbody ihb) ih hpart
    · rw [if_neg ‹_›]
      exact ih hpart
  | attempt body rest ihb ih => exact ih hpart

end Body

namespace Registry

variable {V : Type} {r : Registry V}

theorem record_eq_match (rule : Rule V) : r.record rule =
    match rule.body.failure? with
    | none => .ok ⟨rule.name, rule.body.trace⟩
    | some f => .error (.recordingFailed rule.name (f.describe r.model)) := by
  rw [record, Body.recorded_eq_outcome]
  cases rule.body.failure? <;> rfl

private theorem grammar_of_plain
    (h : ∀ rule ∈ r.rules, rule.body.isPlain = true ∧ rule.body.phrase.HasBranches) :
    r.grammar = .ok (.ofList r.productions) := by
  have hrecords : List.Forall₂ (fun rule p => r.record rule = .ok p) r.rules.toList r.productions :=
      by
    rw [productions, List.forall₂_map_right_iff, List.forall₂_same]
    intro rule hrule
    obtain ⟨hplain, hb⟩ := h rule (Array.mem_toList_iff.mp hrule)
    obtain ⟨hnone, htrace⟩ := Body.trace_of_isPlain hplain hb
    rw [record_eq_match, hnone, htrace]
    rfl
  rw [grammar, Outcome.mapM_eq_ok.mpr hrecords]
  rfl

private theorem grammar_of_failure? {before after : List (Rule V)} {rule : Rule V} {f : Failure}
    (hrules : r.rules.toList = before ++ rule :: after)
    (hbefore : ∀ x ∈ before, x.body.failure? = none) (hf : rule.body.failure? = some f) :
    r.grammar = .error (.recordingFailed rule.name (f.describe r.model)) := by
  have hmap : (before ++ rule :: after).mapM r.record =
      .error (.recordingFailed rule.name (f.describe r.model)) := by
    clear hrules
    induction before with
    | nil => rw [List.nil_append, List.mapM_cons, record_eq_match, hf]; rfl
    | cons x before ih =>
      rw [List.forall_mem_cons] at hbefore
      rw [List.cons_append, List.mapM_cons, record_eq_match, hbefore.1, ih hbefore.2]
      rfl
  rw [grammar, hrules, hmap]
  rfl

end Registry

private theorem Body.isSome_failure?_of_error {V : Type} {body : Body V} {r : Recorder}
    {f : Failure} (h : (body.record r).1 = .error f) : body.failure?.isSome = true := by
  rw [body.leaves_record r] at h
  cases hf : body.failure? with
  | none => rw [hf] at h; cases h
  | some f => rfl

open Recording Body in
/-- Plain bodies are recorded as the trees of their calls, as long as every choice has a branch:
with all indices, categories, names and marks, at the end of the frame at hand, and without a look
at tokens, gates or other rules. When a body fails that is recorded inside of another one, the
frames are as they were, the other branches of a choice are recorded like any, and the failure is
one of the body around it. A choice without branches is recorded, too, and fails. So the rules are
analyzed as these trees, unless one of them fails; then the first of those is reported. -/
theorem recordings_are_trees {V : Type} :
    (∀ body : Body V, body.isPlain = true → body.phrase.HasBranches →
      body.record.Leaves (.ok ()) body.phrase ∧ body.recorded = .ok body.phrase)
    ∧ (∀ body : Body V, body.isPlain = true → ¬body.phrase.HasBranches →
      body.recorded = .error ⟨noAlternatives, .eof .start⟩)
    ∧ (∀ (idx : Nat) (expecting : Option String) (gate : Fin 0 → Option Gate)
        (branch : Fin 0 → Body V) (rest : Body V),
      (Body.choice idx expecting gate branch rest).record.Leaves
        (.error ⟨noAlternatives, .eof .start⟩)
        (.choice idx (fun j => (gate j).isSome) (fun j => (branch j).phrase) .nil))
    ∧ (∀ (body : Body V) (gate : Gate → Gate) (view : (View → V) → View → V) (act : V → V),
      (body.adapted gate view act).record = body.record)
    ∧ (∀ (body part : Body V) (r : Recorder) (f : Failure), part ∈ body.innerBodies →
      (part.record r).1 = .error f → ∃ g p, body.record.Leaves (.error g) p)
    ∧ (∀ (n idx : Nat) (expecting : Option String) (gate : Fin n → Option Gate)
        (branch : Fin n → Body V) (rest : Body V) (k : Fin n) (r : Recorder) (f : Failure),
      ((branch k).record r).1 = .error f →
        ∃ (g : Failure) (results : Fin n → Except Failure Unit) (phrases : Fin n → Phrase),
          (∀ j, (branch j).record.Leaves (results j) (phrases j)) ∧
          (Body.choice idx expecting gate branch rest).record.Leaves (.error g)
            (.choice idx (fun j => (gate j).isSome) phrases .nil))
    ∧ (∀ r : Registry V, r.Built →
      (∀ rule ∈ r.rules, rule.body.isPlain = true ∧ rule.body.phrase.HasBranches) →
        r.finalize.outcome =
          some ((Grammar.ofList r.productions).analyze r.model r.preferences.lookaheadLimit))
    ∧ (∀ (r : Registry V) (before after : List (Rule V)) (rule : Rule V) (part : Body V)
        (s : Recorder) (f : Failure), r.Built → r.rules.toList = before ++ rule :: after →
      (∀ x ∈ before, ∃ p, x.body.recorded = .ok p) → part ∈ rule.body :: rule.body.innerBodies →
        (part.record s).1 = .error f → ∃ g : Failure,
          r.finalize.outcome =
            some (.error (.recordingFailed rule.name (g.describe r.model)))) := by
  refine ⟨fun body hplain hb => ?_, fun body => recorded_of_not_hasBranches,
    leaves_record_of_noBranches, fun body gate view act => record_adapted gate view act body,
    fun body part r f hpart hf => ?_, fun n idx expecting gate branch rest k r f hf => ?_,
    fun r hr hrules => ?_, fun r before after rule part s f hr hrules hbefore hpart hf => ?_⟩
  · obtain ⟨hnone, htrace⟩ := trace_of_isPlain hplain hb
    have hleaves := body.leaves_record
    rw [hnone, htrace] at hleaves
    refine ⟨hleaves, ?_⟩
    rw [recorded_eq_outcome, hnone, htrace]
  · have hsome := isSome_failure?_of_mem_innerBodies hpart (isSome_failure?_of_error hf)
    obtain ⟨g, hg⟩ := Option.isSome_iff_exists.mp hsome
    have hleaves := body.leaves_record
    rw [hg] at hleaves
    exact ⟨g, body.trace, hleaves⟩
  · have hsome : (choiceFailure? fun k => (branch k).failure?).isSome = true :=
      isSome_choiceFailure? (isSome_failure?_of_error hf)
    obtain ⟨g, hg⟩ := Option.isSome_iff_exists.mp hsome
    refine ⟨g, fun j => outcome (branch j).failure?, fun j => (branch j).trace,
      fun j => (branch j).leaves_record, ?_⟩
    have hleaves := (Body.choice idx expecting gate branch rest).leaves_record
    rwa [failure?, trace, hg] at hleaves
  · rw [Registry.outcome_finalize hr.wellFormed, Registry.analyze, Registry.grammar_of_plain hrules]
    rfl
  · have hbefore' : ∀ x ∈ before, x.body.failure? = none := by
      intro x hx
      obtain ⟨p, hp⟩ := hbefore x hx
      rw [recorded_eq_outcome] at hp
      cases hx : x.body.failure? with
      | none => rfl
      | some f => rw [hx] at hp; cases hp
    have hsome : rule.body.failure?.isSome = true := by
      rcases List.mem_cons.mp hpart with rfl | hpart
      · exact isSome_failure?_of_error hf
      · exact isSome_failure?_of_mem_innerBodies hpart (isSome_failure?_of_error hf)
    obtain ⟨g, hg⟩ := Option.isSome_iff_exists.mp hsome
    refine ⟨g, ?_⟩
    rw [Registry.outcome_finalize hr.wellFormed, Registry.analyze,
      Registry.grammar_of_failure? hrules hbefore' hg]
    rfl

namespace Registry

/-- An item with a tail, where a gate is open, or a tail that may be missing. -/
def groupRule : Rule Unit where
  name := "group"
  body := .choice 1 none ![some (.constant false), none]
    ![.consume 1 1 (.subrule 1 "tail" .done), .option 1 (.subrule 2 "tail" .done) .done] .done
  value _ := ()

def tailRule : Rule Unit where
  name := "tail"
  body := .repetition 1 true (.consume 1 2 (.subrule 1 "group" .done)) .done
  value _ := ()

def brokenOption : Body Unit := .option 1 (.fail .recording (.unknownRule "group") .done) .done

/-- A choice that fails in an option in its first branch, and a comma behind it. -/
def brokenRule : Rule Unit where
  name := "broken"
  body := .choice 1 none ![none, none] ![brokenOption, .consume 1 1 .done] (.consume 2 2 .done)
  value _ := ()

def groups : Registry Unit :=
  ((Registry.empty itemModel ⟨4, true, 100⟩ ()).define groupRule).2.define tailRule |>.2

def brokenGroups : Registry Unit := (groups.define brokenRule).2

private theorem built_groups : groups.Built :=
  .define _ (.define _ (.empty (.define _ _ _ _ (.define _ _ _ _ (.tagged 0))) _ _))

set_option maxRecDepth 4000 in
private theorem rules_groups : groups.rules = #[groupRule, tailRule] := by cbv

set_option maxRecDepth 4000 in
private theorem rules_brokenGroups :
    brokenGroups.rules = #[groupRule, tailRule, brokenRule] := by cbv

theorem recordings_are_trees_groups :
    groupRule.body.isPlain = true ∧ groupRule.body.phrase.HasBranches
      ∧ groupRule.body.record.Leaves (.ok ()) groupRule.body.phrase
      ∧ groups.Built
      ∧ groups.finalize.outcome =
        some ((Grammar.ofList groups.productions).analyze groups.model
          groups.preferences.lookaheadLimit)
      ∧ brokenGroups.Built
      ∧ (brokenOption.record .empty).1 = .error ⟨.unknownRule "group", .eof .start⟩
      ∧ (∃ (g : Failure) (results : Fin 2 → Except Failure Unit) (phrases : Fin 2 → Phrase),
        (∀ j, ((![brokenOption, .consume 1 1 .done] : Fin 2 → Body Unit) j).record.Leaves
          (results j) (phrases j))
          ∧ brokenRule.body.record.Leaves (.error g)
            (.choice 1 (fun j => (![none, none] j : Option Gate).isSome) phrases .nil))
      ∧ ∃ g : Failure, brokenGroups.finalize.outcome =
        some (.error (.recordingFailed "broken" (g.describe brokenGroups.model))) := by
  have hmain := recordings_are_trees (V := Unit)
  have hplain : ∀ rule ∈ groups.rules, rule.body.isPlain = true ∧ rule.body.phrase.HasBranches := by
    simp [rules_groups, groupRule, tailRule, Body.isPlain, Body.phrase, Phrase.HasBranches,
      Fin.forall_fin_succ]
  have hgroup := hplain groupRule (by simp [rules_groups])
  have hbroken : (brokenOption.record .empty).1 = .error ⟨.unknownRule "group", .eof .start⟩ := rfl
  have hbefore : ∀ x ∈ [groupRule, tailRule], ∃ p, x.body.recorded = .ok p := fun x hx =>
    have hx := hplain x (by simpa [rules_groups] using hx)
    ⟨_, (hmain.1 _ hx.1 hx.2).2⟩
  have hpart : brokenOption ∈ brokenRule.body :: brokenRule.body.innerBodies := by
    simp [brokenRule, Body.innerBodies]
  exact ⟨hgroup.1, hgroup.2, (hmain.1 _ hgroup.1 hgroup.2).1, built_groups,
    hmain.2.2.2.2.2.2.1 groups built_groups hplain, .define _ built_groups, hbroken,
    hmain.2.2.2.2.2.1 2 1 none ![none, none] ![brokenOption, .consume 1 1 .done]
      (.consume 2 2 .done) 0 .empty _ hbroken,
    hmain.2.2.2.2.2.2.2 brokenGroups [groupRule, tailRule] [] brokenRule brokenOption .empty _
      (.define _ built_groups) (by rw [rules_brokenGroups]; rfl) hbefore hpart hbroken⟩

def emptyChoice : Body Unit := .choice 1 none Fin.elim0 Fin.elim0 (.consume 1 1 .done)

/-- Not every plain body is recorded as the tree of its calls: a choice without branches fails. -/
theorem not_forall_recorded_eq_phrase :
    ¬∀ body : Body Unit, body.isPlain = true → body.recorded = .ok body.phrase := by
  intro hall
  have hfails : emptyChoice.recorded = .error ⟨Recording.noAlternatives, .eof .start⟩ := rfl
  have hok := hall emptyChoice rfl
  rw [hfails] at hok
  cases hok

end Registry

end PredictiveParsing
