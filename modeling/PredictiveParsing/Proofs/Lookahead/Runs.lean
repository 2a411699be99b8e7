import PredictiveParsing.Lookahead.Decision
import PredictiveParsing.Proofs.Lookahead.Expansion

/-!
# Runs of a rule

What a run consumes from a place to the end of its rule, where options are taken or passed over,
every repetition makes any number of further rounds and calls stand for the called rules. Up to its
first further round a run goes a way that the search for expansions goes, too.
-/

namespace PredictiveParsing

/-- What a run does: it consumes a token of a category, or begins a further round, which is
`none`. -/
abbrev Trace := List (Option CategoryId)

/-- The categories that a run consumes. -/
def Trace.word (t : Trace) : CategoryPath := t.filterMap id

namespace Frame

/-- The runs through what is still to come, up to the end of the rule. -/
inductive Runs (g : Grammar) : List Frame → Trace → Prop
  | done : Runs g [] []
  | nil {after t} (h : Runs g after t) : Runs g (.rest .nil :: after) t
  | terminal {c i p after t} (h : Runs g (.rest p :: after) t) :
      Runs g (.rest (.terminal c i p) :: after) (some c :: t)
  | call {r i q p after t} (hq : g.phrase? r = some q)
      (h : Runs g (.rest q :: .rest p :: after) t) : Runs g (.rest (.call r i p) :: after) t
  | skip {i body p after t} (h : Runs g (.rest p :: after) t) :
      Runs g (.rest (.option i body p) :: after) t
  | take {i body p after t} (h : Runs g (.rest body :: .rest p :: after) t) :
      Runs g (.rest (.option i body p) :: after) t
  | pass {i body p after t} (h : Runs g (.rest p :: after) t) :
      Runs g (.rest (.repetition i false body p) :: after) t
  | enter {i b body p after t} (h : Runs g (.rest body :: .again body :: .rest p :: after) t) :
      Runs g (.rest (.repetition i b body p) :: after) t
  | choose {n i p after t} {gated : Fin n → Bool} {body : Fin n → Phrase} (k : Fin n)
      (h : Runs g (.rest (body k) :: .rest p :: after) t) :
      Runs g (.rest (.choice i gated body p) :: after) t
  | leave {body after t} (h : Runs g after t) : Runs g (.again body :: after) t
  | again {body after t} (h : Runs g (.rest body :: .again body :: after) t) :
      Runs g (.again body :: after) (none :: t)

def phrases (frames : List Frame) : List Phrase :=
  frames.filterMap fun
    | .rest p => some p
    | .again _ => none

/-- There is a way from every point of the stack to the end. -/
def Completes (g : Grammar) (frames : List Frame) : Prop :=
  ∀ s, s <:+ frames → ∃ w, Expands g (phrases s) w true

private theorem Completes.of_suffix {g : Grammar} {frames s : List Frame} (h : Completes g frames)
    (hs : s <:+ frames) : Completes g s := fun s' hs' => h s' (hs'.trans hs)

theorem Completes.cons {g : Grammar} {f : Frame} {after : List Frame} {w : CategoryPath}
    (hw : Expands g (phrases (f :: after)) w true) (h : Completes g after) :
    Completes g (f :: after) := by
  intro s hs
  rcases List.suffix_cons_iff.1 hs with rfl | hs
  · exact ⟨w, hw⟩
  · exact h s hs

end Frame

/-- Up to its first further round a run consumes what the path says. -/
def Trace.Agrees : Trace → CategoryPath → Prop
  | [], w => w = []
  | some c :: t, w => ∃ w', w = c :: w' ∧ Agrees t w'
  | none :: _, _ => True

namespace Frame

private theorem expands_step {g : Grammar} {f : Frame} {after : List Frame} {t t' : Trace}
    (front : List Frame)
    (ih : (∃ w, Expands g (phrases (front ++ after)) w true ∧ t.Agrees w)
      ∧ Completes g (front ++ after))
    (hf : ∀ w, Expands g (phrases (front ++ after)) w true → t.Agrees w →
      ∃ w', Expands g (phrases (f :: after)) w' true ∧ t'.Agrees w') :
    (∃ w, Expands g (phrases (f :: after)) w true ∧ t'.Agrees w) ∧ Completes g (f :: after) := by
  obtain ⟨⟨w, hw, ha⟩, hc⟩ := ih
  obtain ⟨w', hw', ha'⟩ := hf w hw ha
  exact ⟨⟨w', hw', ha'⟩, .cons hw' (hc.of_suffix (List.suffix_append front after))⟩

/-- A run goes a way without further rounds as far as it makes none. -/
theorem Runs.exists_expands {g : Grammar} {frames : List Frame} {t : Trace}
    (h : Runs g frames t) :
    (∃ w, Expands g (phrases frames) w true ∧ t.Agrees w) ∧ Completes g frames := by
  induction h with
  | done =>
    refine ⟨⟨[], .done, rfl⟩, fun s hs => ?_⟩
    rw [List.suffix_nil.1 hs]
    exact ⟨[], .done⟩
  | nil h ih => exact expands_step [] ih fun w hw ha => ⟨w, .nil hw, ha⟩
  | @terminal c i p after t h ih =>
    exact expands_step [.rest p] ih fun w hw ha => ⟨c :: w, .terminal hw, w, rfl, ha⟩
  | @call r i q p after t hq h ih =>
    exact expands_step [.rest q, .rest p] ih fun w hw ha => ⟨w, .call hq hw, ha⟩
  | @skip i body p after t h ih =>
    exact expands_step [.rest p] ih fun w hw ha => ⟨w, .skip hw, ha⟩
  | @take i body p after t h ih =>
    exact expands_step [.rest body, .rest p] ih fun w hw ha => ⟨w, .take hw, ha⟩
  | @pass i body p after t h ih =>
    exact expands_step [.rest p] ih fun w hw ha => ⟨w, .pass hw, ha⟩
  | @enter i b body p after t h ih =>
    exact expands_step [.rest body, .again body, .rest p] ih fun w hw ha => ⟨w, .enter hw, ha⟩
  | @choose n i p after t gated body k h ih =>
    exact expands_step [.rest (body k), .rest p] ih fun w hw ha => ⟨w, .choose k hw, ha⟩
  | leave h ih => exact expands_step [] ih fun w hw ha => ⟨w, hw, ha⟩
  | @again body after t h ih =>
    -- the way leaves the repetition where the run goes on with it
    obtain ⟨w, hw⟩ := ih.2 after ⟨[.rest body, .again body], rfl⟩
    exact expands_step [.rest body, .again body] ih fun _ _ _ => ⟨w, hw, trivial⟩

end Frame

/-- A path that begins a way on which a run agrees begins what the run consumes, or goes beyond all
that the run consumes before its first further round. -/
theorem Trace.Agrees.of_isPrefix {t : Trace} {w p : CategoryPath} (h : t.Agrees w) (hp : p <+: w) :
    p <+: t.word ∨ ∃ u v, t = u.map some ++ none :: v ∧ u <+: p := by
  induction t generalizing w p with
  | nil =>
    obtain rfl : w = [] := h
    exact .inl hp
  | cons x t ih =>
    cases x with
    | none => exact .inr ⟨[], t, rfl, List.nil_prefix⟩
    | some c =>
      obtain ⟨w, rfl, h⟩ := h
      cases p with
      | nil => exact .inl List.nil_prefix
      | cons d p =>
        obtain ⟨rfl, hpw⟩ := List.cons_prefix_cons.1 hp
        rcases ih h hpw with hp | ⟨u, v, rfl, hu⟩
        · exact .inl (List.cons_prefix_cons.2 ⟨rfl, hp⟩)
        · exact .inr ⟨d :: u, v, rfl, List.cons_prefix_cons.2 ⟨rfl, hu⟩⟩

namespace Place

/-- What is to come for each way to go on at a place: behind its first piece come the pieces of the
part that is taken, further rounds of it if it is repeated, and what lies behind the piece. -/
def ways (place : Place) : List (List Frame) :=
  match place.phrase with
  | .option _ body _ => [.rest body :: place.after, place.after]
  | .repetition _ _ body _ => [.rest body :: .again body :: place.after, place.after]
  | .choice _ _ body _ => List.ofFn fun k => .rest (body k) :: place.after
  | _ => []

theorem stack_of_ways {place : Place} {kind : DecisionKind} {idx : Nat} {branches : List Branch}
    (hb : place.branches? = some (kind, idx, branches)) :
    branches.map (·.stack) = place.ways.map Frame.phrases := by
  obtain ⟨phrase, after⟩ := place
  cases phrase with
  | nil => cases hb
  | terminal c i p => cases hb
  | call r i p => cases hb
  | option i body p => cases hb; rfl
  | repetition i b body p => cases hb; rfl
  | choice i gated body p =>
    cases hb
    simp only [ways, List.map_ofFn]
    rfl

end Place

end PredictiveParsing
