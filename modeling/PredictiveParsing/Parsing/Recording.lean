import PredictiveParsing.Parsing.Body

/-!
# Recording

A recorder keeps the pieces of the body that is being recorded in frames, one for the body itself
and one for each part of it that is being recorded. Recording reads no tokens, opens no gates and
runs no other rules.
-/

namespace PredictiveParsing

/-- The pieces recorded so far: those of the innermost part, and those around it from the inside
out. -/
structure Recorder where
  current : Phrase
  outer : List Phrase

namespace Recorder

def empty : Recorder := ⟨.nil, []⟩

def push (r : Recorder) (piece : Phrase) : Recorder := { r with current := r.current ++ piece }

def enter (r : Recorder) : Recorder := ⟨.nil, r.current :: r.outer⟩

def leave (r : Recorder) : Phrase × Recorder :=
  match r.outer with
  | [] => (.nil, r)
  | p :: outer => (r.current, ⟨p, outer⟩)

end Recorder

/-- A recording ends well or with a failure. -/
abbrev Recording := Recorder → Except Failure Unit × Recorder

namespace Recording

def nested (part : Recording) (r : Recorder) : Except Failure Unit × Phrase × Recorder :=
  let (result, r) := part r.enter
  let (phrase, r) := r.leave
  (result, phrase, r)

/-- Records several parts, also behind one that failed. -/
def each : List Recording → Recorder → List (Except Failure Unit × Phrase) × Recorder
  | [], r => ([], r)
  | part :: parts, r =>
    let (result, phrase, r) := nested part r
    let (others, r) := each parts r
    ((result, phrase) :: others, r)

def firstFailure? (results : List (Except Failure Unit × Phrase)) : Option Failure :=
  results.findSome? fun (result, _) =>
    match result with
    | .ok _ => none
    | .error f => some f

/-- What is wrong with a choice that has nothing to choose from. -/
def noAlternatives : Failure.Cause := .noAlternative [] (some "a choice without alternatives")

def andThen (failure : Option Failure) (rest : Recording) : Recording := fun r =>
  match failure with
  | some f => (.error f, r)
  | none => rest r

end Recording

namespace Body

variable {V : Type}

open Recording in
/-- Records a body for a rule; all tokens that a body can see are the end of an empty input. -/
def record : Body V → Recording
  | done => fun r => (.ok (), r)
  | consume idx c rest => fun r => rest.record (r.push (.terminal c idx .nil))
  | subrule idx rule rest => fun r => rest.record (r.push (.call rule idx .nil))
  | option idx body rest => fun r =>
    let (result, phrase, r) := nested body.record r
    andThen (firstFailure? [(result, phrase)]) rest.record (r.push (.option idx phrase .nil))
  | repetition idx b body rest => fun r =>
    let (result, phrase, r) := nested body.record r
    andThen (firstFailure? [(result, phrase)]) rest.record (r.push (.repetition idx b phrase .nil))
  | choice (n := n) idx _ gate body rest => fun r =>
    let (results, r) := each (List.ofFn fun k => (body k).record) r
    let phrases := (results.map Prod.snd).toArray
    let failure :=
      if n = 0 then some ⟨noAlternatives, .eof .start⟩ else firstFailure? results
    andThen failure rest.record
      (r.push (.choice idx (fun k => (gate k).isSome) (fun k => phrases[k.val]?.getD .nil) .nil))
  | action _ rest => rest.record
  | observe _ rest => rest.record
  | fail phase cause rest =>
    andThen (if phase.covers true then some ⟨cause, .eof .start⟩ else none) rest.record
  | during phase body rest => fun r =>
    if phase.covers true then
      let (result, r) := body.record r
      andThen (firstFailure? [(result, .nil)]) rest.record r
    else rest.record r
  | attempt body rest => fun r => rest.record (body.record r).2

/-- The phrase that was recorded for a body, or why it cannot be recorded. -/
def recorded (body : Body V) : Except Failure Phrase :=
  match body.record .empty with
  | (.ok _, r) => .ok (r.outer.getLastD r.current)
  | (.error f, _) => .error f

end Body

end PredictiveParsing
