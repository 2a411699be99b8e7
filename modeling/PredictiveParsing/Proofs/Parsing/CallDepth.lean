import PredictiveParsing.Proofs.Lookahead.Analysis
import PredictiveParsing.Proofs.Lookahead.Courses
import PredictiveParsing.Proofs.Parsing.CleanParse
import PredictiveParsing.Proofs.Parsing.Moments

/-!
# How deep calls nest

A rule that is called where its caller was called is called first by the caller, since whatever lies
in front of the call has consumed nothing. Without left recursion no rule is called inside itself at
the same place, so that the number of rules bounds how many calls there are at each place.
-/

namespace PredictiveParsing

/-- How a call lies directly inside another one: further on, or at the same place by a first call of
the rule. -/
def Activation.Inside (g : Grammar) (x y : Activation) : Prop :=
  y.entered < x.entered
    ∨ (y.entered = x.entered ∧ LeftCycle.Edge (RuleFacts.ofGrammar g).leads y.rule x.rule)

def Activation.Within (g : Grammar) (x y : Activation) : Prop :=
  y.entered < x.entered ∨ (y.entered = x.entered
    ∧ Relation.TransGen (LeftCycle.Edge (RuleFacts.ofGrammar g).leads) y.rule x.rule)

namespace Activation.Within

variable {g : Grammar} {x y z : Activation}

theorem inside (h : x.Inside g y) : x.Within g y := h.imp_right (And.imp_right .single)

theorem trans (h : x.Within g y) (h' : y.Within g z) : x.Within g z := by
  rcases h with hlt | ⟨heq, hedges⟩
  · rcases h' with hlt' | ⟨heq', -⟩
    · exact .inl (hlt'.trans hlt)
    · exact .inl (heq' ▸ hlt)
  · rcases h' with hlt' | ⟨heq', hedges'⟩
    · exact .inl (heq ▸ hlt')
    · exact .inr ⟨heq'.trans heq, hedges'.trans hedges⟩

end Activation.Within

variable {V α β : Type} {c : ParseContext V}

/-- The calls are those of the rules being parsed, and lie inside of each other. -/
structure Moment.Sound (c : ParseContext V) (m : Moment) : Prop where
  rules : m.calls.map (·.rule) = m.state.stack
  inside : m.calls.IsChain (Activation.Inside (.ofList c.registry.productions))
  entered_le : ∀ x ∈ m.calls, x.entered ≤ m.state.cursor
  registered : ∀ x ∈ m.calls, x.rule < c.registry.size

theorem Moment.Sound.onward {s t : ParseState} {calls : List Activation}
    (h : Sound c ⟨s, calls⟩) (ho : s.Onward t) : Sound c ⟨t, calls⟩ where
  rules := h.rules.trans ho.stack_eq.symm
  inside := h.inside
  entered_le x hx := (h.entered_le x hx).trans ho.cursor_le
  registered := h.registered

/-! ## The calls to come -/

/-- Where nothing has been reported, each of the names can be called inside of the calls. -/
def ParseContext.Ready (c : ParseContext V) (calls : List Activation) (s : ParseState)
    (names : String → Prop) : Prop :=
  s.diagnostics = #[] → Moment.Sound c ⟨s, calls⟩
    ∧ ∀ name, names name → ∀ id, (Grammar.ofList c.registry.productions).ruleId? name = some id →
      ∀ x ∈ calls.head?, Activation.Inside (.ofList c.registry.productions) ⟨id, s.cursor⟩ x

namespace ParseContext.Ready

variable {calls : List Activation} {s t : ParseState} {names names' : String → Prop}

theorem mono (h : c.Ready calls s names) (hn : ∀ name, names' name → names name) :
    c.Ready calls s names' :=
  fun hs => ⟨(h hs).1, fun name hname => (h hs).2 name (hn name hname)⟩

/-- Further on every name can be called. -/
theorem onward (h : c.Ready calls s names) (ho : s.Onward t)
    (hn : t.diagnostics = #[] → t.cursor = s.cursor → ∀ name, names' name → names name) :
    c.Ready calls t names' := by
  intro ht
  obtain ⟨hs, hcall⟩ := h (ho.clean ht)
  refine ⟨hs.onward ho, fun name hname id hid x hx => ?_⟩
  by_cases hmoved : t.cursor = s.cursor
  · rw [hmoved]
    exact hcall name (hn ht hmoved name hname) id hid x hx
  · have hle := hs.entered_le x (List.mem_of_mem_head? hx)
    exact .inl (hle.trans_lt (Nat.lt_of_le_of_ne ho.cursor_le (Ne.symm hmoved)))

/-- Behind a part the names can be called that could be called in front of it, at least if the part
can consume nothing. -/
theorem behind {x : Parse α} {a : α} {L : List CategoryId → Prop} (h : c.Ready calls s names)
    (ho : x.Onward) (hx : Parse.Clean c x L) (hrun : x s = .ok a t)
    (hn : L [] → ∀ name, names' name → names name) : c.Ready calls t names' := by
  refine h.onward (ho.of_ok hrun) fun ht hcursor => hn ?_
  obtain ⟨-, w, hw, hspells⟩ := hx s a t hrun ht
  have hlength := hspells.eq_add
  obtain rfl : w = [] := List.length_eq_zero_iff.mp (by omega)
  exact hw

end ParseContext.Ready

/-! ## Moments in front of the first report -/

namespace Traced

/-- The moments of the part without a diagnostic are sound, and none comes behind a diagnostic. -/
def Safe (c : ParseContext V) (calls : List Activation) (x : Traced α) (s : ParseState) : Prop :=
  ∀ m ∈ x.moments calls s, m.state.diagnostics = #[] → s.diagnostics = #[] ∧ m.Sound c

namespace Safe

variable {calls : List Activation} {s : ParseState} {names names' : String → Prop}
  {x : Traced α} {f : α → Traced β}

theorem pure (a : α) : Safe c calls (Pure.pure a : Traced α) s := fun _ hm => by cases hm

theorem bind (hx : Safe c calls x s)
    (hf : ∀ a t, x.run s = .ok a t → s.Onward t ∧ Safe c calls (f a) t) :
    Safe c calls (x >>= f) s := by
  intro m hm hclean
  rcases List.mem_append.mp hm with hm | hm
  · exact hx m hm hclean
  · split at hm
    · rename_i a t hrun
      obtain ⟨ho, hsafe⟩ := hf a t hrun
      obtain ⟨ht, hsound⟩ := hsafe m hm hclean
      exact ⟨ho.clean ht, hsound⟩
    · cases hm

private theorem bind_pure {f : α → β} (hx : Safe c calls x s) :
    Safe c calls (x >>= fun a => Pure.pure (f a)) s := by
  intro m hm hclean
  rcases List.mem_append.mp hm with hm | hm
  · exact hx m hm hclean
  · split at hm <;> cases hm

theorem step {x : Parse α} (h : c.Ready calls s names) (ho : x.Onward) :
    Safe c calls (step x) s := by
  intro m hm hclean
  obtain rfl := List.mem_singleton.mp hm
  have hs := (ho s).clean hclean
  exact ⟨hs, (h hs).1.onward (ho s)⟩

/-- A part and what comes behind it. -/
theorem seq {L : List CategoryId → Prop} (h : c.Ready calls s names) (hx : Safe c calls x s)
    (ho : x.run.Onward) (hc : Parse.Clean c x.run L)
    (hn : L [] → ∀ name, names' name → names name)
    (hf : ∀ a t, c.Ready calls t names' → Safe c calls (f a) t) : Safe c calls (x >>= f) s :=
  hx.bind fun a t hrun => ⟨ho.of_ok hrun, hf a t (h.behind ho hc hrun hn)⟩

/-- A step that consumes nothing, and what comes behind it. -/
theorem steady {x : Parse α} (h : c.Ready calls s names) (ho : x.Onward)
    (hc : Parse.Clean c x (· = [])) (hf : ∀ a t, c.Ready calls t names → Safe c calls (f a) t) :
    Safe c calls (Traced.step x >>= f) s :=
  seq h (.step h ho) ho hc (fun _ _ hname => hname) hf

/-- Each round begins where its body can begin: behind a round that moved on anything can be called.
-/
theorem repeatWhile (hx : ∀ s, c.Ready calls s names → Safe c calls x s) (ho : x.run.Onward)
    (enters : ParseState → Bool) (fuel : Nat) (done : List α) (h : c.Ready calls s names) :
    Safe c calls (Traced.repeatWhile enters x fuel done) s := by
  induction fuel generalizing s done with
  | zero => exact .pure _
  | succ fuel ih =>
    have hget : Parse.Onward (get : Parse ParseState) := .get
    refine (Safe.step h hget).bind fun s' s'' hs => ⟨hget.of_ok hs, ?_⟩
    cases hs
    split
    · refine (hx s h).bind fun a t hround => ⟨ho.of_ok hround, ?_⟩
      have ht : c.Ready calls t fun name => t.cursor ≠ s.cursor ∧ names name :=
        h.onward (ho.of_ok hround) fun _ _ _ hname => hname.2
      refine (Safe.step ht hget).bind fun t' t'' hs => ⟨hget.of_ok hs, ?_⟩
      cases hs
      split
      · exact .pure _
      · rename_i hmoved
        exact ih (a :: done) (h.onward (ho.of_ok hround) fun _ hcursor => absurd hcursor hmoved)
    · exact .pure _

theorem rounds (hx : ∀ s, c.Ready calls s names → Safe c calls x s) (ho : x.run.Onward)
    (d : Decision) (h : c.Ready calls s names) : Safe c calls (c.tracedRounds d x) s :=
  (repeatWhile hx ho (c.enters · d) (c.tokens.endIndex - s.cursor + 1) [] h :)

end Safe

end Traced

/-- The calls that a body makes inside of the calls are safe, and spell what their rules derive. -/
structure ParseContext.SafeCalls (c : ParseContext V) (d : Nat)
    (call : RuleId → Rule V → Traced V) (calls : List Activation) : Prop where
  isA_eof : ∀ x, c.isA CategoryId.eof x = true → x = CategoryId.eof
  onward : ∀ id rule, (call id rule).run.Onward
  clean : ∀ name, Parse.Clean c (c.tracedNamed call name).run fun w =>
    ∃ e p, (Grammar.ofList c.registry.productions).phrase? name = some p ∧ e < d
      ∧ p.Derives (.ofList c.registry.productions) e w
  safe : ∀ name s, c.Ready calls s (· = name) → Traced.Safe c calls (c.tracedNamed call name) s

namespace ParseContext.SafeCalls

open Traced

variable {d : Nat} {call : RuleId → Rule V → Traced V} {calls : List Activation}

private theorem onward_tracedNamed (h : c.SafeCalls d call calls) (name : String) :
    (c.tracedNamed call name).run.Onward := by
  rw [run_tracedNamed]
  exact c.onward_callNamed h.onward name

theorem onward_traced (h : c.SafeCalls d call calls) (body : Body V) :
    (body.traced c call).run.Onward := by
  rw [Body.run_traced]
  exact Body.onward_run c h.onward body

theorem clean_traced (h : c.SafeCalls d call calls) {body : Body V} (hp : body.isPlain = true)
    (he : ¬body.phrase.Consumes CategoryId.eof) : Parse.Clean c (body.traced c call).run
      (body.phrase.Derives (.ofList c.registry.productions) d) := by
  rw [Body.run_traced]
  refine Body.clean_run h.isA_eof (fun name => ?_) hp he
  rw [← run_tracedNamed]
  exact h.clean name

private theorem seq_call (h : c.SafeCalls d call calls) {s : ParseState} {i : Nat} {name : String}
    {rest : Phrase} {f : V → Traced β}
    (hs : c.Ready calls s ((Phrase.call name i rest).CallsFirst (.ofList c.registry.productions)))
    (hf : ∀ v t, c.Ready calls t (rest.CallsFirst (.ofList c.registry.productions)) →
      Safe c calls (f v) t) :
    Safe c calls (c.tracedNamed call name >>= f) s := by
  have hcall := h.safe name s (hs.mono fun _ hname => hname ▸ .call)
  refine .seq hs hcall (h.onward_tracedNamed name) (h.clean name) (fun hnil _ hname => ?_) hf
  obtain ⟨e, p, hphrase, -, hderives⟩ := hnil
  exact .behindCall hphrase ⟨e, hderives⟩ hname

private theorem seq_rounds (h : c.SafeCalls d call calls) {body : Body V} (hp : body.isPlain = true)
    (he : ¬body.phrase.Consumes CategoryId.eof)
    (hbody : ∀ s, c.Ready calls s (body.phrase.CallsFirst (.ofList c.registry.productions)) →
      Safe c calls (body.traced c call) s)
    (decision : Decision) {s : ParseState} {i : Nat} {rest : Phrase}
    {f : List (List (Yield V)) → Traced β}
    (hs : c.Ready calls s
      ((Phrase.repetition i false body.phrase rest).CallsFirst (.ofList c.registry.productions)))
    (hf : ∀ ys t, c.Ready calls t (rest.CallsFirst (.ofList c.registry.productions)) →
      Safe c calls (f ys) t) :
    Safe c calls (c.tracedRounds decision (body.traced c call) >>= f) s := by
  have hrounds : (c.tracedRounds decision (body.traced c call)).run.Onward := by
    rw [run_tracedRounds]
    exact c.onward_rounds decision (h.onward_traced body)
  have hclean := clean_rounds decision (h.clean_traced hp he)
  rw [← run_tracedRounds] at hclean
  have hsafe := Safe.rounds hbody (h.onward_traced body) decision
    (hs.mono fun _ => .inRepetition)
  exact .seq hs hsafe hrounds hclean (fun _ _ => .behindRepetition (.inl rfl)) hf

end ParseContext.SafeCalls

namespace Body

open Traced ParseContext

/-- A body that begins where its first calls can be made makes each of its calls where it can be
made. -/
theorem safe_traced {d : Nat} {call : RuleId → Rule V → Traced V} {calls : List Activation}
    (hcalls : c.SafeCalls d call calls) {body : Body V} (hp : body.isPlain = true)
    (he : ¬body.phrase.Consumes CategoryId.eof) {s : ParseState}
    (h : c.Ready calls s (body.phrase.CallsFirst (.ofList c.registry.productions))) :
    Safe c calls (body.traced c call) s := by
  induction body generalizing s with
  | done => exact .pure _
  | consume idx category rest ih =>
    rw [phrase, Phrase.consumes_terminal, not_or] at he
    have hno : c.isA CategoryId.eof category = false :=
      Bool.eq_false_iff.mpr fun h => he.1 (hcalls.isA_eof category h).symm
    have ho := c.onward_consume idx category
    exact .seq h (.step h ho) ho (clean_consume idx hno) (fun hnil => by cases hnil)
      fun _ _ ht => (ih hp he.2 ht).bind_pure
  | subrule idx name rest ih =>
    rw [phrase, Phrase.consumes_call] at he
    exact hcalls.seq_call h fun _ _ ht => (ih hp he ht).bind_pure
  | option idx body rest ihb ih =>
    simp only [isPlain, Bool.and_eq_true] at hp
    rw [phrase, Phrase.consumes_option, not_or] at he
    refine .steady h (c.onward_decision .option idx) (clean_decision .option idx) fun d s h => ?_
    refine .steady h .get .get fun s' s h => ?_
    have hrest : ∀ t, c.Ready calls t ((Phrase.option idx body.phrase rest.phrase).CallsFirst
        (.ofList c.registry.productions)) → Safe c calls (rest.traced c call) t :=
      fun t ht => ih hp.2 he.2 (ht.mono fun _ => .behindOption)
    simp only
    split
    · refine .seq h (.bind_pure (ihb hp.1 he.1 (h.mono fun _ => .inOption)))
        (hcalls.onward_traced body).map (hcalls.clean_traced hp.1 he.1).map
        (fun _ _ hname => hname) fun _ t ht => (hrest t ht).bind_pure
    · refine (Safe.pure Yield.nothing).bind fun _ t hrun => ?_
      cases hrun
      exact ⟨.rfl, (hrest s h).bind_pure⟩
  | repetition idx atLeastOne body rest ihb ih =>
    simp only [isPlain, Bool.and_eq_true] at hp
    rw [phrase, Phrase.consumes_repetition, not_or] at he
    rw [phrase] at h
    have hbody := fun s => @ihb hp.1 he.1 s
    cases atLeastOne with
    | false =>
      refine .steady h (c.onward_decision .many idx) (clean_decision .many idx) fun d s h => ?_
      exact hcalls.seq_rounds hp.1 he.1 hbody d h fun _ _ ht => (ih hp.2 he.2 ht).bind_pure
    | true =>
      refine .steady h (c.onward_decision .atLeastOne idx) (clean_decision .atLeastOne idx)
        fun d s h => ?_
      refine .steady h (c.onward_enterOnce idx d) (clean_enterOnce idx d) fun _ s h => ?_
      have hfirst := hbody s (h.mono fun _ => .inRepetition)
      refine .seq h hfirst (hcalls.onward_traced body) (hcalls.clean_traced hp.1 he.1)
        (fun hnil name hname => ?_) fun _ t ht =>
          hcalls.seq_rounds (i := idx) hp.1 he.1 hbody d ht fun _ _ ht =>
            (ih hp.2 he.2 ht).bind_pure
      -- where the first round has consumed nothing the further ones stand in its place
      cases hname with
      | inRepetition hname => exact .inRepetition hname
      | behindRepetition _ hname => exact .behindRepetition (.inr ⟨_, hnil⟩) hname
  | @choice n idx expecting gate body rest ihb ih =>
    simp only [isPlain, Bool.and_eq_true, List.all_eq_true, List.forall_mem_ofFn_iff, id] at hp
    rw [phrase, Phrase.consumes_choice, not_or, not_exists] at he
    rw [phrase] at h
    refine .steady h (c.onward_choiceDecision idx n) (clean_choiceDecision idx n) fun d s h => ?_
    refine .steady h (c.onward_choose idx expecting gate d) (clean_choose idx expecting gate d)
      fun k s h => ?_
    have hbranch := ihb k (hp.1 k) (he.1 k) (h.mono fun _ hname => .inChoice k hname)
    exact .seq h hbranch (hcalls.onward_traced (body k))
      (hcalls.clean_traced (hp.1 k) (he.1 k)) (fun hnil _ => .behindChoice k ⟨_, hnil⟩)
      fun _ _ ht => (ih hp.2 he.2 ht).bind_pure
  | action value rest ih => cases hp
  | observe value rest ih => cases hp
  | fail phase cause rest ih => cases hp
  | during phase body rest ihb ih => cases hp
  | attempt body rest ihb ih => cases hp

end Body

namespace ParseContext

open Traced

variable {a : AnalyzedGrammar}

/-- Where a rule can be called its body can begin, with a call of the rule inside of the others. -/
theorem Ready.inside (hr : c.registry.WellFormed) {name : String} {id : RuleId} {rule : Rule V}
    (hf : c.registry.find? name = some (id, rule)) {calls : List Activation} {s : ParseState}
    (h : c.Ready calls s (· = name)) :
    c.Ready (⟨id, s.cursor⟩ :: calls) { s with stack := id :: s.stack }
      (rule.body.phrase.CallsFirst (.ofList c.registry.productions)) := by
  intro hclean
  obtain ⟨hs, hcall⟩ := h hclean
  obtain ⟨hrule, hname⟩ := hr.find?_eq_some.mp hf
  have hid := hr.ruleId?_eq_some.mpr ⟨rule, hrule, hname⟩
  refine ⟨⟨congrArg (id :: ·) hs.rules, ?_, ?_, ?_⟩, fun callee hcallee j hj x hx => ?_⟩
  · exact List.isChain_cons.mpr ⟨hcall name rfl id hid, hs.inside⟩
  · exact List.forall_mem_cons.mpr ⟨Nat.le_refl _, hs.entered_le⟩
  · exact List.forall_mem_cons.mpr ⟨(Array.getElem?_eq_some_iff.mp hrule).1, hs.registered⟩
  · obtain rfl := Option.some.inj hx
    refine .inr ⟨rfl, Grammar.edge_leads_iff.mpr ⟨rule.production, callee, ?_, hcallee, hj⟩⟩
    rw [Registry.getElem?_productions, hrule]
    rfl

private theorem safeCalls_tracedCall (hr : c.registry.Finalized a) (he : c.registry.EofApart)
    (left : Nat) {calls : List Activation}
    (h : ∀ name s, c.Ready calls s (· = name) →
      Safe c calls (c.tracedNamed (c.tracedCall left) name) s) :
    c.SafeCalls left (c.tracedCall left) calls where
  isA_eof := isA_eof hr he
  onward id rule := by
    rw [run_tracedCall]
    exact c.onward_callRule left id rule
  clean name := by
    rw [run_tracedNamed_tracedCall]
    exact clean_call hr he left name
  safe := h

private theorem safe_tracedNamed (hr : c.registry.Finalized a) (he : c.registry.EofApart)
    (left : Nat) {name : String} {calls : List Activation} {s : ParseState}
    (h : c.Ready calls s (· = name)) : Safe c calls (c.tracedNamed (c.tracedCall left) name) s := by
  have hwell := hr.built.wellFormed
  induction left generalizing name calls s with
  | zero =>
    rw [tracedNamed]
    split
    · exact .step h (c.onward_callRule 0 _ _)
    · exact .step h fun _ => .rfl
  | succ left ih =>
    rw [tracedNamed]
    split
    · rename_i id rule hf
      have hinside := h.inside hwell hf
      have hmem := Array.mem_of_getElem? (hwell.find?_eq_some.mp hf).1
      have hcalls : c.SafeCalls left (c.tracedCall left) (⟨id, s.cursor⟩ :: calls) :=
        safeCalls_tracedCall hr he left fun _ _ => ih
      have hbody := Body.safe_traced hcalls (hr.plain rule hmem) (he.not_consumed rule hmem) hinside
      intro m hm hclean
      rcases List.mem_cons.mp hm with rfl | hm
      · exact ⟨hclean, (hinside hclean).1⟩
      rcases List.mem_append.mp hm with hm | hm
      · exact hbody m hm hclean
      · obtain rfl := List.mem_singleton.mp hm
        have ho := c.onward_callRule (left + 1) id rule s
        exact ⟨ho.clean hclean, (h (ho.clean hclean)).1.onward ho⟩
    · exact .step h fun _ => .rfl

private theorem sound_of_mem_moments (hr : c.registry.Finalized a) (he : c.registry.EofApart)
    {start : String} {id : RuleId} {rule : Rule V} (hf : c.registry.find? start = some (id, rule))
    {s : ParseState} {m : Moment} (hm : m ∈ c.moments id rule s)
    (hclean : m.state.diagnostics = #[]) : m.Sound c := by
  have hstart : Moment.Sound c ⟨c.startState rule s, []⟩ :=
    ⟨rfl, .nil, nofun, nofun⟩
  have hready : c.Ready [] (c.startState rule s) (· = start) := fun _ => ⟨hstart, nofun⟩
  have hcall : c.tracedNamed (c.tracedCall Limits.maxParseDepth) start
      = c.tracedCall Limits.maxParseDepth id rule := by
    simp only [tracedNamed, hf]
  rcases List.mem_cons.mp hm with rfl | hm
  · exact hstart
  rcases List.mem_append.mp hm with hm | hm
  · have hsafe := safe_tracedNamed hr he Limits.maxParseDepth hready
    rw [hcall] at hsafe
    exact (hsafe m hm hclean).2
  rcases List.mem_cons.mp hm with rfl | hm
  · exact hstart.onward (c.onward_parseRule id rule _)
  · obtain rfl := List.mem_singleton.mp hm
    exact hstart.onward (c.onward_parseAll id rule s)

end ParseContext

/-! ## The bound -/

namespace Moment.Sound

variable {m : Moment}

theorem nodup (h : m.Sound c)
    (hcycle : (RuleFacts.ofGrammar (.ofList c.registry.productions)).leftCycle? = none) :
    m.calls.Nodup := by
  obtain ⟨visited, hsearch⟩ := Grammar.search_of_leftCycle? hcycle
  have hends := LeftCycle.ends_of_search Grammar.closed_leads hsearch
  have hwithin : m.calls.IsChain (Activation.Within (.ofList c.registry.productions)) :=
    h.inside.imp fun _ _ => .inside
  have htrans : IsTrans Activation (Activation.Within (.ofList c.registry.productions)) :=
    ⟨fun _ _ _ => .trans⟩
  refine hwithin.pairwise.imp fun {x y} hxy => ?_
  rintro rfl
  rcases hxy with hlt | ⟨-, hedges⟩
  · exact Nat.lt_irrefl _ hlt
  · exact (hends x.rule).not_transGen hedges

private theorem length_le (h : m.Sound c) (hn : m.calls.Nodup) :
    m.state.stack.length ≤ c.registry.size * (m.state.cursor + 1) := by
  have hpairs : (m.calls.map fun x => (x.rule, x.entered)).Nodup :=
    hn.map fun x y hxy => by cases x; cases y; simpa using hxy
  have hsub : (m.calls.map fun x => (x.rule, x.entered))
      ⊆ List.range c.registry.size ×ˢ List.range (m.state.cursor + 1) := by
    intro pair hpair
    obtain ⟨x, hx, rfl⟩ := List.mem_map.mp hpair
    have hle := h.entered_le x hx
    exact List.mem_product.mpr ⟨List.mem_range.mpr (h.registered x hx),
      List.mem_range.mpr (Nat.lt_succ_of_le hle)⟩
  have hlength := (hpairs.subperm hsub).length_le
  rw [← h.rules]
  simpa [List.length_product] using hlength

end Moment.Sound

namespace Session

/-- Up to the first diagnostic of a parse no rule is called inside itself at the same place, so that
no more calls are under way than there are rules for each token passed and for the next one. -/
theorem calls_bounded {r : Registry V} {a : AnalyzedGrammar} (hr : r.Finalized a)
    (he : r.EofApart) {tokens : TokenStream} {s : Session V} (hs : s.context = ⟨r, a, tokens⟩)
    {start : String} {m : Moment} (hm : m ∈ s.moments start)
    (hclean : m.state.diagnostics = #[]) :
    m.calls.map (·.rule) = m.state.stack ∧ m.calls.Nodup
      ∧ m.state.stack.length ≤ r.size * (m.state.cursor + 1) := by
  obtain ⟨g, hg, ha⟩ := hr.exists_grammar
  obtain ⟨rfl, -⟩ := Registry.grammar_eq hr.plain hg
  rw [moments, hs] at hm
  simp only at hm
  split at hm
  · cases hm
  · rename_i id rule hf
    have hsound := ParseContext.sound_of_mem_moments (c := ⟨r, a, tokens⟩) hr he hf hm hclean
    have hnodup := hsound.nodup (Grammar.leftCycle?_of_analyze ha)
    exact ⟨hsound.rules, hnodup, hsound.length_le hnodup⟩

open Registry

set_option maxRecDepth 4000 in
private theorem moment_itemSession : ((itemSession.moments "list")[8]?).map (fun m =>
    (m.calls, m.state.stack, m.state.cursor, m.state.diagnostics.size)) =
      some ([⟨1, 2⟩, ⟨0, 0⟩], [1, 0], 2, 0) := by
  cbv

/-- In front of the second item it is called inside of the list. -/
theorem calls_bounded_itemSession : ∃ m ∈ itemSession.moments "list", m.state.diagnostics = #[]
    ∧ m.state.stack = [1, 0] ∧ m.calls.Nodup
    ∧ m.state.stack.length ≤ itemList.size * (2 + 1) := by
  obtain ⟨m, hm, h⟩ := Option.map_eq_some_iff.mp moment_itemSession
  obtain ⟨-, hstack, hcursor, hsize⟩ : m.calls = [⟨1, 2⟩, ⟨0, 0⟩] ∧ m.state.stack = [1, 0]
      ∧ m.state.cursor = 2 ∧ m.state.diagnostics.size = 0 := by simpa using h
  have hmem := List.mem_of_getElem? hm
  have hclean := Array.size_eq_zero_iff.mp hsize
  have hs : itemSession.context = ⟨itemList, itemAnalysis, itemTokens⟩ := rfl
  obtain ⟨-, hnodup, hle⟩ := calls_bounded finalized_itemList eofApart_itemList hs hmem hclean
  exact ⟨m, hmem, hclean, hstack, hnodup, hcursor ▸ hle⟩

end Session

end PredictiveParsing
