import PredictiveParsing.Proofs.Parsing.Deeds

/-!
# What holds of all deeds of a parse

What holds of the state and the body at a step of a parse holds at all later ones, if it goes over
to the parts of the body, to the bodies of the rules that are called, and to later states in the
same rule. The same goes for what holds of the failures.
-/

namespace PredictiveParsing

open Parse ParseContext

variable {V : Type}

/-- A rule is called by a step that has the property in the state. -/
def ParseContext.Calls (c : ParseContext V) (Q : ParseState → Body V → Prop) (s : ParseState)
    (id : RuleId) (rule : Rule V) : Prop :=
  ∃ idx name rest, Q s (.subrule idx name rest) ∧ c.registry.find? name = some (id, rule)

/-- `Q` can hold of all states with the bodies that are run in them, and `E` of all states with the
failures that occur in them. -/
structure ParseContext.Invariant (c : ParseContext V) (Q : ParseState → Body V → Prop)
    (E : ParseState → Failure → Prop) : Prop where
  onward {s t : ParseState} {body : Body V} : Q s body → s.Onward t → Q t body
  part {s : ParseState} {body b : Body V} : Q s body → b ∈ body.parts → Q s b
  call {s : ParseState} {id : RuleId} {rule : Rule V} : c.Calls Q s id rule →
    Q { s with stack := id :: s.stack } rule.body
  opening {s t : ParseState} {body : Body V} {f : Failure} : Q s body →
    body.opening c s = .error f t → E t f
  tooDeep {s : ParseState} {id : RuleId} {rule : Rule V} : c.Calls Q s id rule →
    E s (c.failure s (.tooDeep s.stack.length))
  leave {s : ParseState} {f : Failure} : E s f → E (leave s) f

/-- What the invariant says of a deed inside of the start rule. -/
def Deed.Meets (c : ParseContext V) (Q : ParseState → Body V → Prop)
    (E : ParseState → Failure → Prop) (d : Deed V) : Prop :=
  match d.act with
  | .step body => Q d.state body
  | .enter id => ∃ rule, c.Calls Q d.state id rule
  | .leave => ∃ id rule, d.state.stack.head? = some id ∧ c.Calls Q (leave d.state) id rule
  | .settle id f => E d.state f ∧ d.state.stack.head? = some id
    ∧ ∃ rule, c.Calls Q (leave d.state) id rule
  | .finish => False

/-- The deeds of a part in a state meet an invariant, and so does its failure. -/
def Parse.Meets {α : Type} (c : ParseContext V) (Q : ParseState → Body V → Prop)
    (E : ParseState → Failure → Prop) (x : Parse α) (here : ParseState → List (Deed V))
    (s : ParseState) : Prop :=
  (∀ d ∈ here s, d.Meets c Q E) ∧ ∀ f t, x s = .error f t → E t f

namespace Parse.Meets

variable {c : ParseContext V} {Q : ParseState → Body V → Prop} {E : ParseState → Failure → Prop}
  {α β : Type} {x : Parse α} {here : ParseState → List (Deed V)} {s : ParseState}

theorem bind {f : α → Parse β} {behind : α → ParseState → List (Deed V)} (hx : Meets c Q E x here s)
    (hf : ∀ a t, x s = .ok a t → Meets c Q E (f a) (behind a) t) :
    Meets c Q E (x >>= f) (deedsOf x here behind) s := by
  simp only [Meets, deedsOf, Bind.bind, EStateM.bind, List.forall_mem_append]
  cases h : x s with
  | ok a t => exact ⟨⟨hx.1, (hf a t h).1⟩, (hf a t h).2⟩
  | error e t =>
    refine ⟨⟨hx.1, List.forall_mem_nil _⟩, fun f u hu => ?_⟩
    obtain ⟨rfl, rfl⟩ := EStateM.Result.error.inj hu
    exact hx.2 _ _ h

theorem bind_pure {f : α → β} (hx : Meets c Q E x here s) :
    Meets c Q E (x >>= fun a => pure (f a)) here s := by
  refine ⟨hx.1, fun e t h => ?_⟩
  simp only [Bind.bind, EStateM.bind] at h
  cases hs : x s with
  | ok a u => rw [hs] at h; cases h
  | error e' u =>
    rw [hs] at h
    obtain ⟨rfl, rfl⟩ := EStateM.Result.error.inj h
    exact hx.2 _ _ hs

theorem catching (hx : Meets c Q E x here s) : Meets c Q E (Parse.catching x) here s := by
  refine ⟨hx.1, fun f t h => ?_⟩
  simp only [Parse.catching] at h
  split at h <;> cases h

private theorem get_bind {f : ParseState → Parse α} (h : Meets c Q E (f s) here s) :
    Meets c Q E (get >>= f) here s := h

private theorem behind_begun {body : Body V} (hs : Q s body) (hx : Meets c Q E x here s) :
    Meets c Q E x (fun s => body.begun s ++ here s) s :=
  ⟨List.forall_mem_append.mpr ⟨List.forall_mem_singleton.mpr hs, hx.1⟩, hx.2⟩

private theorem of_opening (h : c.Invariant Q E) {body : Body V} (hs : Q s body)
    (hx : body.opening c = discard x) : Meets c Q E x body.begun s := by
  refine ⟨List.forall_mem_singleton.mpr hs, fun f t ht => h.opening hs ?_⟩
  rw [hx]
  simp only [discard, Functor.mapConst, Function.comp, EStateM.map, ht]

theorem repeatWhile (h : c.Invariant Q E) {body : Body V}
    (hx : ∀ s, Q s body → Meets c Q E x here s) (ho : x.Onward) (enters : ParseState → Bool)
    (fuel : Nat) (done : List α) (hs : Q s body) :
    Meets c Q E (Parse.repeatWhile enters x fuel done) (deedsWhile enters x here fuel) s := by
  induction fuel generalizing done s with
  | zero => exact ⟨List.forall_mem_nil _, fun _ _ h => by cases h⟩
  | succ fuel ih =>
    obtain ⟨hdeeds, hfails⟩ := hx s hs
    simp only [Meets, Parse.repeatWhile, deedsWhile]
    split
    · simp only [deedsOf, List.forall_mem_append]
      cases hround : x s with
      | error f t =>
        refine ⟨⟨hdeeds, List.forall_mem_nil _⟩, fun e u hu => ?_⟩
        obtain ⟨rfl, rfl⟩ := EStateM.Result.error.inj hu
        exact hfails _ _ hround
      | ok a t =>
        simp only
        split
        · exact ⟨⟨hdeeds, List.forall_mem_nil _⟩, fun _ _ h => by cases h⟩
        · have hlater := ih (a :: done) (h.onward hs (ho.of_ok hround))
          exact ⟨⟨hdeeds, hlater.1⟩, hlater.2⟩
    · exact ⟨List.forall_mem_nil _, fun _ _ h => by cases h⟩

end Parse.Meets

namespace ParseContext

variable {c : ParseContext V}

theorem onward_entrance (idx : Nat) : Onward (c.entrance idx) :=
  (c.onward_decision .atLeastOne idx).bind fun d =>
    (c.onward_enterOnce idx d).bind fun _ => .pure d

private theorem onward_selection {n : Nat} (idx : Nat) (expecting : Option String)
    (gate : Fin n → Option Gate) : Onward (c.selection idx expecting gate) :=
  (c.onward_choiceDecision idx n).bind fun d => c.onward_choose idx expecting gate d

variable {Q : ParseState → Body V → Prop} {E : ParseState → Failure → Prop}

theorem Calls.onward (h : c.Invariant Q E) {s t : ParseState} {id : RuleId} {rule : Rule V}
    (hs : c.Calls Q s id rule) (ht : s.Onward t) : c.Calls Q t id rule := by
  obtain ⟨idx, name, rest, hq, hrule⟩ := hs
  exact ⟨idx, name, rest, h.onward hq ht, hrule⟩

/-- A part of a body is run later. -/
theorem Invariant.next (h : c.Invariant Q E) {s t : ParseState} {body b : Body V} (hs : Q s body)
    (hb : b ∈ body.parts) (ht : s.Onward t) : Q t b :=
  h.onward (h.part hs hb) ht

private theorem meets_callNamed {call : RuleId → Rule V → Parse V}
    {inside : RuleId → Rule V → ParseState → List (Deed V)} {s : ParseState} (h : c.Invariant Q E)
    (hcall : ∀ id rule, c.Calls Q s id rule → Meets c Q E (call id rule) (inside id rule) s)
    {idx : Nat} {name : String} {rest : Body V} (hs : Q s (.subrule idx name rest)) :
    Meets c Q E (c.callNamed call name) (c.deedsOfNamed inside name) s := by
  simp only [Meets, callNamed, deedsOfNamed]
  cases hrule : c.registry.find? name with
  | some found => exact hcall found.1 found.2 ⟨idx, name, rest, hs, hrule⟩
  | none =>
    refine ⟨List.forall_mem_nil _, fun f t ht => h.opening hs ?_⟩
    simp only [Body.opening, resolve, hrule]
    obtain ⟨rfl, rfl⟩ := EStateM.Result.error.inj ht
    rfl

private theorem settle_eq_error {id : RuleId} {f f' : Failure} {s t : ParseState}
    (h : c.settle id f s = .error f' t) : f' = f ∧ t = leave s := by
  rw [settle_eq] at h
  split at h
  · cases h
  · split at h
    · cases h
    · obtain ⟨rfl, rfl⟩ := EStateM.Result.error.inj h
      exact ⟨rfl, rfl⟩

end ParseContext

namespace ParseContext.Invariant

variable {c : ParseContext V} {Q : ParseState → Body V → Prop} {E : ParseState → Failure → Prop}

private theorem meets_seq (h : c.Invariant Q E) {α β γ : Type} {x : Parse α} {y : Parse β}
    {here behind : ParseState → List (Deed V)} {rest : Body V} {s : ParseState}
    (hx : Meets c Q E x here s) (ho : x.Onward) (hrest : Q s rest)
    (hy : ∀ {t}, Q t rest → Meets c Q E y behind t) (g : α → β → γ) :
    Meets c Q E (x >>= fun a => y >>= fun b => pure (g a b)) (deedsOf x here fun _ => behind) s :=
  hx.bind fun _ _ ht => (hy (h.onward hrest (ho.of_ok ht))).bind_pure

/-- The deeds of a body meet an invariant if those of the rules that it calls do. -/
theorem meets_run (h : c.Invariant Q E) {call : RuleId → Rule V → Parse V}
    {inside : RuleId → Rule V → ParseState → List (Deed V)}
    (ho : ∀ id rule, (call id rule).Onward)
    (hcall : ∀ s id rule, c.Calls Q s id rule → Meets c Q E (call id rule) (inside id rule) s)
    (body : Body V) {s : ParseState} (hs : Q s body) :
    Meets c Q E (body.run c call) (body.deeds c call inside) s := by
  have hrun := Body.onward_run c ho
  induction body generalizing s with
  | done => exact ⟨List.forall_mem_nil _, fun _ _ h => by cases h⟩
  | consume idx category rest ih =>
    exact h.meets_seq (.of_opening h hs rfl) (c.onward_consume idx category)
      (h.part hs (by simp [Body.parts])) ih _
  | subrule idx name rest ih =>
    exact h.meets_seq ((meets_callNamed h (hcall s) hs).behind_begun hs)
      (c.onward_callNamed ho name) (h.part hs (by simp [Body.parts])) ih _
  | option idx body rest ihb ih =>
    refine Meets.bind (.of_opening h hs rfl) fun d t ht => Meets.get_bind ?_
    have ht := (c.onward_decision _ idx).of_ok ht
    have hrest : Q t rest := h.next hs (by simp [Body.parts]) ht
    simp only [Meets]
    split
    · rw [bind_map_left]
      exact h.meets_seq (ihb (h.next hs (by simp [Body.parts]) ht)) (hrun body) hrest ih _
    · rw [pure_bind]
      exact (ih hrest).bind_pure
  | repetition idx atLeastOne body rest ihb ih =>
    have hrounds {d : Decision} {t : ParseState} (hbody : Q t body) :
        Meets c Q E (c.rounds d (body.run c call))
          (c.deedsOfRounds d (body.run c call) (body.deeds c call inside)) t :=
      Meets.repeatWhile h (fun s hs => ihb hs) (hrun body) _ _ _ hbody
    cases atLeastOne with
    | false =>
      refine Meets.bind (.of_opening h hs rfl) fun d t ht => ?_
      have ht := (c.onward_decision _ idx).of_ok ht
      exact h.meets_seq (hrounds (h.next hs (by simp [Body.parts]) ht))
        (c.onward_rounds d (hrun body)) (h.next hs (by simp [Body.parts]) ht) ih _
    | true =>
      rw [Body.run_repetition]
      refine Meets.bind (.of_opening h hs rfl) fun d t ht => ?_
      have ht := (onward_entrance idx).of_ok ht
      have hbody : Q t body := h.next hs (by simp [Body.parts]) ht
      refine (ihb hbody).bind fun first u hu => ?_
      have hu := (hrun body).of_ok hu
      exact h.meets_seq (hrounds (h.onward hbody hu)) (c.onward_rounds d (hrun body))
        (h.next hs (by simp [Body.parts]) (ht.trans hu)) ih _
  | choice idx expecting gate body rest ihb ih =>
    rw [Body.run_choice]
    refine Meets.bind (.of_opening h hs rfl) fun k t ht => ?_
    have ht := (onward_selection idx expecting gate).of_ok ht
    exact h.meets_seq (ihb k (h.next hs (by simp [Body.parts]) ht)) (hrun (body k))
      (h.next hs (by simp [Body.parts]) ht) ih _
  | action value rest ih =>
    exact (ih (h.part hs (by simp [Body.parts]))).bind_pure.behind_begun hs
  | observe value rest ih =>
    exact .get_bind ((ih (h.part hs (by simp [Body.parts]))).bind_pure.behind_begun hs)
  | fail phase cause rest ih =>
    simp only [Body.run, Body.deeds]
    refine .behind_begun hs ?_
    split
    · rename_i hphase
      refine ⟨List.forall_mem_nil _, fun f t hf => h.opening hs ?_⟩
      simp only [Body.opening, hphase, if_true]
      obtain ⟨rfl, rfl⟩ := EStateM.Result.error.inj hf
      rfl
    · exact (ih (h.part hs (by simp [Body.parts]))).bind_pure
  | during phase body rest ihb ih =>
    have hrest : Q s rest := h.part hs (by cases hc : phase.covers false <;> simp [Body.parts, hc])
    simp only [Body.run, Body.deeds]
    refine .behind_begun hs ?_
    split
    · rename_i hphase
      rw [bind_map_left]
      exact h.meets_seq (ihb (h.part hs (by simp [Body.parts, hphase]))) (hrun body) hrest ih _
    · rw [pure_bind]
      exact (ih hrest).bind_pure
  | attempt body rest ihb ih =>
    have hrest : Q s rest := h.part hs (by simp [Body.parts])
    simp only [Body.run, Body.deeds]
    refine .behind_begun hs ((ihb (h.part hs (by simp [Body.parts]))).catching.bind
      fun result u hu => ?_)
    have hrest := h.onward hrest ((hrun body).catching.of_ok hu)
    cases result <;> exact (ih hrest).bind_pure

private theorem meets_callRule (h : c.Invariant Q E) (left : Nat) {id : RuleId} {rule : Rule V}
    {s : ParseState} (hs : c.Calls Q s id rule) :
    Meets c Q E (c.callRule left id rule) (c.deedsOfCall left id rule) s := by
  induction left generalizing id rule s with
  | zero =>
    refine ⟨List.forall_mem_nil _, fun f t ht => ?_⟩
    obtain ⟨rfl, rfl⟩ := EStateM.Result.error.inj ht
    exact h.tooDeep hs
  | succ left ih =>
    obtain ⟨hdeeds, hfails⟩ := h.meets_run (c.onward_callRule left)
      (fun s id rule hs => ih hs) rule.body (h.call hs)
    have hrun := Body.onward_run c (c.onward_callRule left) rule.body
    simp only [Meets, deedsOfCall, callRule, List.cons_append, List.forall_mem_cons,
      List.forall_mem_append]
    cases hend : rule.body.run c (c.callRule left) { s with stack := id :: s.stack } with
    | ok ys t =>
      have ht := hrun.of_ok hend
      have hleave := hs.onward h (onward_leave ht)
      have hhead : t.stack.head? = some id := by rw [ht.stack_eq, List.head?_cons]
      exact ⟨⟨⟨rule, hs⟩, hdeeds, ⟨id, rule, hhead, hleave⟩, List.forall_mem_nil _⟩,
        fun _ _ h => by cases h⟩
    | error f t =>
      have ht := hrun.of_error hend
      have hleave := hs.onward h (onward_leave ht)
      have hhead : t.stack.head? = some id := by rw [ht.stack_eq, List.head?_cons]
      have hf : E t f := hfails f t hend
      refine ⟨⟨⟨rule, hs⟩, hdeeds, ⟨hf, hhead, rule, hleave⟩, List.forall_mem_nil _⟩,
        fun e u hu => ?_⟩
      obtain ⟨rfl, rfl⟩ := settle_eq_error hu
      exact h.leave hf

/-- A parse enters the start rule, does what meets the invariant, brings the start rule to an end
and looks for tokens that are left. -/
theorem exists_deeds (h : c.Invariant Q E) {id : RuleId} {rule : Rule V} {s : ParseState}
    (hs : Q { c.startState rule s with stack := [id] } rule.body) :
    ∃ inner last t u, c.deeds id rule s = ⟨c.startState rule s, .enter id⟩ :: inner
          ++ [⟨t, last⟩, ⟨u, .finish⟩]
        ∧ (∀ d ∈ inner, d.Meets c Q E) ∧ t.stack = [id]
        ∧ (last = .leave ∨ ∃ f, last = .settle id f ∧ E t f) := by
  obtain ⟨left, hleft⟩ : ∃ left, Limits.maxParseDepth = left + 1 := ⟨_, rfl⟩
  obtain ⟨hdeeds, hfails⟩ := h.meets_run (c.onward_callRule left)
    (fun s id rule hs => h.meets_callRule left hs) rule.body hs
  have hrun := Body.onward_run c (c.onward_callRule left) rule.body
    { c.startState rule s with stack := [id] }
  rw [deeds, hleft]
  simp only [deedsOfCall, List.cons_append, List.append_assoc]
  refine ⟨_, (ending (V := V) id _).act, (ending (V := V) id _).state, _, rfl, hdeeds, ?_⟩
  have hend : { c.startState rule s with stack := id :: (c.startState rule s).stack }
      = { c.startState rule s with stack := [id] } := rfl
  rw [hend]
  cases hbody : rule.body.run c (c.callRule left) { c.startState rule s with stack := [id] } with
  | ok ys t => exact ⟨(after_eq_of_ok hbody ▸ hrun).stack_eq, .inl rfl⟩
  | error f t =>
    exact ⟨(after_eq_of_error hbody ▸ hrun).stack_eq, .inr ⟨f, rfl, hfails f t hbody⟩⟩

end ParseContext.Invariant

end PredictiveParsing
