import PredictiveParsing.Proofs.Parsing.CleanParse

/-!
# Recovery leaves right input alone

Repairs are made only where a parse would fail without them, and each of them leaves a diagnostic.
So a parse without diagnostics goes the same way whether or not failures are repaired.
-/

namespace PredictiveParsing

/-- The state with other events that have not been written yet. -/
def ParseState.withEvents (s : ParseState) (e : List Log.Event) : ParseState :=
  { s with events := e }

/-- The states are in front of the same token and in the same rules. -/
structure ParseState.SamePlace (s s' : ParseState) : Prop where
  cursor : s'.cursor = s.cursor
  stack : s'.stack = s.stack

@[simp] theorem ParseState.cursor_withEvents (s : ParseState) (e : List Log.Event) :
    (s.withEvents e).cursor = s.cursor := rfl

theorem ParseState.samePlace_withEvents (s : ParseState) (e : List Log.Event) :
    s.SamePlace (s.withEvents e) :=
  ⟨rfl, rfl⟩

/-- The other part does what this one does wherever this one leaves no diagnostic, whatever events
have been noted before. -/
def Parse.CarriesOver {α : Type} (x x' : Parse α) : Prop :=
  ∀ s a t, x s = .ok a t → t.diagnostics = #[] → s.diagnostics = #[]
    ∧ ∀ e, ∃ e', x' (s.withEvents e) = .ok a (t.withEvents e')

namespace Parse.CarriesOver

variable {α β : Type} {x x' y y' : Parse α}

/-- A part that leaves the state alone. -/
theorem of_steady (h : ∀ s a t, x s = .ok a t →
    t = s ∧ ∀ e, x' (s.withEvents e) = .ok a (s.withEvents e)) : CarriesOver x x' := by
  intro s a t hx ht
  obtain ⟨rfl, h'⟩ := h s a t hx
  exact ⟨ht, fun e => ⟨e, h' e⟩⟩

theorem pure (a : α) : CarriesOver (Pure.pure a) (Pure.pure a) :=
  of_steady fun s b t h => by cases h; exact ⟨rfl, fun _ => rfl⟩

theorem bind {f f' : α → Parse β} (hx : CarriesOver x x') (hf : ∀ a, CarriesOver (f a) (f' a)) :
    CarriesOver (x >>= f) (x' >>= f') := by
  intro s b u h hu
  simp only [Bind.bind, EStateM.bind] at h ⊢
  split at h
  · rename_i a t ht
    obtain ⟨hclean, hlater⟩ := hf a t b u h hu
    obtain ⟨hs, hfirst⟩ := hx s a t ht hclean
    refine ⟨hs, fun e => ?_⟩
    obtain ⟨e₁, h₁⟩ := hfirst e
    obtain ⟨e₂, h₂⟩ := hlater e₁
    exact ⟨e₂, by rw [h₁]; exact h₂⟩
  · cases h

/-- Both look at the state in the same way. -/
theorem ite {p p' : ParseState → Bool} (hp : ∀ s e, p' (s.withEvents e) = p s)
    (hx : CarriesOver x x') (hy : CarriesOver y y') :
    CarriesOver (MonadState.get >>= fun s => if p s then x else y)
      (MonadState.get >>= fun s => if p' s then x' else y') := by
  intro s a t h ht
  change (if p s then x else y) s = .ok a t at h
  change _ ∧ ∀ e, ∃ e', (if p' (s.withEvents e) then x' else y') (s.withEvents e) = _
  simp only [hp]
  split at h
  · rename_i hs
    simp only [hs, if_true]
    exact hx s a t h ht
  · rename_i hs
    simp only [hs]
    exact hy s a t h ht

theorem repeatWhile {enters enters' : ParseState → Bool}
    (he : ∀ s e, enters' (s.withEvents e) = enters s) (hx : CarriesOver x x') (fuel : Nat)
    (done : List α) :
    CarriesOver (Parse.repeatWhile enters x fuel done)
      (Parse.repeatWhile enters' x' fuel done) := by
  induction fuel generalizing done with
  | zero => exact of_steady fun s a t h => by cases h; exact ⟨rfl, fun _ => rfl⟩
  | succ fuel ih =>
    intro s as u h hu
    simp only [Parse.repeatWhile] at h ⊢
    simp only [he]
    split at h
    · rename_i hs
      simp only [hs, if_true]
      split at h
      · cases h
      · rename_i a t ht
        split at h
        · rename_i hcursor
          cases h
          obtain ⟨hclean, hround⟩ := hx s a _ ht hu
          refine ⟨hclean, fun e => ?_⟩
          obtain ⟨e', h'⟩ := hround e
          exact ⟨e', by simp [h', hcursor]⟩
        · rename_i hcursor
          obtain ⟨hclean, hlater⟩ := ih (a :: done) t as u h hu
          obtain ⟨hs, hround⟩ := hx s a t ht hclean
          refine ⟨hs, fun e => ?_⟩
          obtain ⟨e₁, h₁⟩ := hround e
          obtain ⟨e₂, h₂⟩ := hlater e₁
          exact ⟨e₂, by simp [h₁, hcursor, h₂]⟩
    · rename_i hs
      cases h
      simp only [hs]
      exact ⟨hu, fun e => ⟨e, rfl⟩⟩

end Parse.CarriesOver

namespace ParseContext

variable {V : Type}

/-- What a parse depends on that makes no repairs. -/
structure Alike (c c' : ParseContext V) : Prop where
  model : c'.registry.model = c.registry.model
  find? (name : String) : c'.registry.find? name = c.registry.find? name
  ruleName : c'.registry.ruleName = c.registry.ruleName
  analysis : c'.analysis = c.analysis
  tokens : c'.tokens = c.tokens

namespace Alike

variable {c c' : ParseContext V}

theorem refl : c.Alike c := ⟨rfl, fun _ => rfl, rfl, rfl, rfl⟩

theorem symm (h : c.Alike c') : c'.Alike c where
  model := h.model.symm
  find? name := (h.find? name).symm
  ruleName := h.ruleName.symm
  analysis := h.analysis.symm
  tokens := h.tokens.symm

theorem isA (h : c.Alike c') : c'.isA = c.isA := by
  funext actual expected
  rw [ParseContext.isA, ParseContext.isA, h.model]

section

variable (h : c.Alike c') {s s' : ParseState} (hs : s.SamePlace s')

include h hs

theorem ahead : c'.ahead s' = c.ahead s := by
  funext n
  rw [ParseContext.ahead, ParseContext.ahead, h.tokens, hs.cursor]

theorem ruleNames : c'.ruleNames s' = c.ruleNames s := by
  rw [ParseContext.ruleNames, ParseContext.ruleNames, h.ruleName, hs.stack]

theorem outlook : c'.outlook s' = c.outlook s := by
  rw [ParseContext.outlook, ParseContext.outlook, hs.cursor, h.ruleNames hs, h.ahead hs]

theorem decision? : c'.decision? s' = c.decision? s := by
  funext kind idx
  rw [ParseContext.decision?, ParseContext.decision?, h.analysis, ParseState.currentRule, hs.stack]
  rfl

theorem isAhead : c'.isAhead s' = c.isAhead s := by
  funext a
  simp only [ParseContext.isAhead, h.isA, h.ahead hs]

theorem enters (d : Decision) : c'.enters s' d = c.enters s d := by
  rw [ParseContext.enters, ParseContext.enters, h.isAhead hs]

theorem select? (hdiagnostics : s'.diagnostics = s.diagnostics) {n : Nat}
    (gate : Fin n → Option Gate) (d : Decision) : c'.select? gate d s' = c.select? gate d s := by
  simp only [ParseContext.select?, h.isAhead hs, view, h.outlook hs, hdiagnostics]

end

end Alike

/-- A relation between parts of two parses that the steps have, with gates of a kind, and that goes
over to what they are put together to. -/
structure Congruence (c c' : ParseContext V) (G : Gate → Prop)
    (P : ∀ α : Type, Parse α → Parse α → Prop) : Prop where
  pure {α : Type} (a : α) : P α (pure a) (pure a)
  bind {α β : Type} {x x' : Parse α} {f f' : α → Parse β} : P α x x' → (∀ a, P β (f a) (f' a)) →
    P β (x >>= f) (x' >>= f')
  ite {α : Type} (d : Decision) {x x' y y' : Parse α} : P α x x' → P α y y' →
    P α (get >>= fun s => if c.enters s d then x else y)
      (get >>= fun s => if c'.enters s d then x' else y')
  consume (idx : Nat) (category : CategoryId) :
    P Token (c.consume idx category) (c'.consume idx category)
  decision (kind : DecisionKind) (idx : Nat) :
    P Decision (c.decision kind idx) (c'.decision kind idx)
  rounds {α : Type} (d : Decision) {x x' : Parse α} : P α x x' →
    P (List α) (c.rounds d x) (c'.rounds d x')
  enterOnce (idx : Nat) (d : Decision) : P Unit (c.enterOnce idx d) (c'.enterOnce idx d)
  choiceDecision (idx n : Nat) : P Decision (c.choiceDecision idx n) (c'.choiceDecision idx n)
  choose {n : Nat} (idx : Nat) (expecting : Option String) {gate : Fin n → Option Gate}
    (hgate : ∀ k, ∀ g ∈ gate k, G g) (d : Decision) :
    P (Fin n) (c.choose idx expecting gate d) (c'.choose idx expecting gate d)

open Parse ParseState

section

variable {c c' : ParseContext V} (h : c.Alike c')

include h

private theorem carriesOver_advance : CarriesOver c.advance c'.advance := by
  intro s t u hx hu
  obtain ⟨rfl, rfl⟩ := EStateM.Result.ok.inj hx
  simp only [advance, h.ahead (samePlace_withEvents _ _), h.tokens]
  by_cases hlt : s.cursor < c.tokens.endIndex
  · rw [if_pos hlt] at hu ⊢
    exact ⟨hu, fun e => ⟨e, by rw [s.cursor_withEvents, if_pos hlt]; rfl⟩⟩
  · rw [if_neg hlt] at hu ⊢
    exact ⟨hu, fun e => ⟨e, by rw [s.cursor_withEvents, if_neg hlt]⟩⟩

private theorem carriesOver_consume (idx : Nat) (category : CategoryId) :
    CarriesOver (c.consume idx category) (c'.consume idx category) := by
  intro s t u hx hu
  simp only [consume] at hx ⊢
  simp only [h.isA, h.ahead (samePlace_withEvents _ _)]
  split at hx
  · rename_i hm
    simp only [hm, if_true]
    exact carriesOver_advance h s t u hx hu
  · split at hx
    · exact absurd hu (diagnostics_repairToken_ne hx)
    · cases hx

theorem carriesOver_decision (kind : DecisionKind) (idx : Nat) :
    CarriesOver (c.decision kind idx) (c'.decision kind idx) := by
  refine .of_steady fun s d t hx => ?_
  simp only [decision] at hx ⊢
  simp only [h.decision? (samePlace_withEvents _ _)]
  split at hx
  · cases hx
    exact ⟨rfl, fun _ => rfl⟩
  · cases hx

private theorem carriesOver_choiceDecision (idx n : Nat) :
    CarriesOver (c.choiceDecision idx n) (c'.choiceDecision idx n) := by
  refine (carriesOver_decision h .or idx).bind fun d => ?_
  split
  · exact .pure d
  · exact .of_steady fun s d' t hx => by cases hx

private theorem carriesOver_rounds {α : Type} (d : Decision) {part part' : Parse α}
    (hx : CarriesOver part part') : CarriesOver (c.rounds d part) (c'.rounds d part') := by
  intro s
  have henters : ∀ s e, c'.enters (s.withEvents e) d = c.enters s d :=
    fun s e => h.enters (s.samePlace_withEvents e) d
  simp only [rounds, h.tokens]
  exact hx.repeatWhile henters (c.tokens.endIndex - s.cursor + 1) [] s

private theorem carriesOver_enterOnce (idx : Nat) (d : Decision) :
    CarriesOver (c.enterOnce idx d) (c'.enterOnce idx d) := by
  intro s a t hx ht
  simp only [enterOnce_eq] at hx ⊢
  simp only [h.enters (samePlace_withEvents _ _)]
  split at hx
  · rename_i hs
    cases hx
    exact ⟨ht, fun e => ⟨e, by simp only [hs, if_true]⟩⟩
  · split at hx
    · cases hx
      exact absurd ht (diagnostics_passed_ne _ _ _ _)
    · cases hx

private theorem carriesOver_choose {n : Nat} (idx : Nat) (expecting : Option String)
    (gate : Fin n → Option Gate) (d : Decision) :
    CarriesOver (c.choose idx expecting gate d) (c'.choose idx expecting gate d) := by
  intro s a t hx ht
  simp only [choose_eq] at hx ⊢
  simp only [h.select? (samePlace_withEvents _ _) rfl]
  split at hx
  · rename_i hs
    cases hx
    exact ⟨ht, fun e => ⟨e, by simp only⟩⟩
  · split at hx
    · cases hx
      exact absurd ht (diagnostics_passed_ne _ _ _ _)
    · cases hx

private theorem carriesOver_congruence : c.Congruence c' (fun _ => True) fun _ => CarriesOver where
  pure := .pure
  bind := .bind
  ite d := .ite fun s e => h.enters (s.samePlace_withEvents e) d
  consume := carriesOver_consume h
  decision := carriesOver_decision h
  rounds := carriesOver_rounds h
  enterOnce := carriesOver_enterOnce h
  choiceDecision := carriesOver_choiceDecision h
  choose idx expecting _ _ d := carriesOver_choose h idx expecting _ d

private theorem carriesOver_callNamed {call call' : RuleId → Rule V → Parse V} {name : String}
    (hcall : ∀ id rule, c.registry.find? name = some (id, rule) →
      CarriesOver (call id rule) (call' id rule)) :
    CarriesOver (c.callNamed call name) (c'.callNamed call' name) := by
  intro s v t hx ht
  simp only [callNamed, h.find?] at hx ⊢
  cases hfind : c.registry.find? name with
  | some found =>
    simp only [hfind] at hx
    exact hcall found.1 found.2 hfind s v t hx ht
  | none =>
    simp only [hfind] at hx
    cases hx

end

end ParseContext

namespace Body

variable {V : Type} {c c' : ParseContext V}

open Parse ParseContext

/-- All gates in the body are of a kind. -/
def EveryGate (G : Gate → Prop) : Body V → Prop
  | done => True
  | consume _ _ rest => rest.EveryGate G
  | subrule _ _ rest => rest.EveryGate G
  | option _ body rest => body.EveryGate G ∧ rest.EveryGate G
  | repetition _ _ body rest => body.EveryGate G ∧ rest.EveryGate G
  | choice _ _ gate body rest =>
    (∀ k, ∀ g ∈ gate k, G g) ∧ (∀ k, (body k).EveryGate G) ∧ rest.EveryGate G
  | action _ rest => rest.EveryGate G
  | observe _ rest => rest.EveryGate G
  | fail _ _ rest => rest.EveryGate G
  | during _ body rest => body.EveryGate G ∧ rest.EveryGate G
  | attempt body rest => body.EveryGate G ∧ rest.EveryGate G

private theorem everyGate_of_forall {G : Gate → Prop} (h : ∀ g, G g) (body : Body V) :
    body.EveryGate G := by
  induction body <;> simp_all [EveryGate]

/-- Bodies of steps on tokens and rules are related if the steps are, and the rules that they call.
-/
theorem related_run {G : Gate → Prop} {P : ∀ α : Type, Parse α → Parse α → Prop}
    (h : c.Congruence c' G P) {call call' : RuleId → Rule V → Parse V}
    (hcall : ∀ name, P V (c.callNamed call name) (c'.callNamed call' name)) {body : Body V}
    (hp : body.isPlain = true) (hg : body.EveryGate G) :
    P (List (Yield V)) (body.run c call) (body.run c' call') := by
  have hcons : ∀ {α : Type} {x x' : Parse α} (f : α → List (Yield V)), P α x x' →
      P _ (x >>= fun a => pure (f a)) (x' >>= fun a => pure (f a)) :=
    fun f hx => h.bind hx fun a => h.pure (f a)
  induction body with
  | done => exact h.pure []
  | consume idx category rest ih =>
    exact h.bind (h.consume idx category) fun _ => hcons _ (ih hp hg)
  | subrule idx name rest ih => exact h.bind (hcall name) fun _ => hcons _ (ih hp hg)
  | option idx body rest ihb ih =>
    simp only [isPlain, Bool.and_eq_true] at hp
    have hrest := fun y : Yield V => hcons (y :: ·) (ih hp.2 hg.2)
    refine h.bind (h.decision .option idx) fun d => h.ite d ?_ (h.bind (h.pure _) hrest)
    rw [map_eq_pure_bind, map_eq_pure_bind]
    exact h.bind (h.bind (ihb hp.1 hg.1) fun ys => h.pure (Yield.items ys)) hrest
  | repetition idx atLeastOne body rest ihb ih =>
    simp only [isPlain, Bool.and_eq_true] at hp
    have hrounds := fun d => h.rounds d (ihb hp.1 hg.1)
    cases atLeastOne with
    | false =>
      exact h.bind (h.decision .many idx) fun d => h.bind (hrounds d) fun _ =>
        hcons _ (ih hp.2 hg.2)
    | true =>
      exact h.bind (h.decision .atLeastOne idx) fun d => h.bind (h.enterOnce idx d) fun _ =>
        h.bind (ihb hp.1 hg.1) fun _ => h.bind (hrounds d) fun _ => hcons _ (ih hp.2 hg.2)
  | choice idx expecting gate body rest ihb ih =>
    simp only [isPlain, Bool.and_eq_true, List.all_eq_true, List.forall_mem_ofFn_iff, id] at hp
    obtain ⟨hgate, hbody, hrest⟩ := hg
    exact h.bind (h.choiceDecision idx _) fun d => h.bind (h.choose idx expecting hgate d) fun k =>
      h.bind (ihb k (hp.1 k) (hbody k)) fun _ => hcons _ (ih hp.2 hrest)
  | action value rest ih => cases hp
  | observe value rest ih => cases hp
  | fail phase cause rest ih => cases hp
  | during phase body rest ihb ih => cases hp
  | attempt body rest ihb ih => cases hp

end Body

namespace ParseContext

variable {V : Type} {c c' : ParseContext V}

open Parse

private theorem callRule_of_run {left : Nat} {id : RuleId} {rule : Rule V} {s t : ParseState}
    {ys : List (Yield V)}
    (h : rule.body.run c (c.callRule left) { s with stack := id :: s.stack } = .ok ys t) :
    c.callRule (left + 1) id rule s = .ok (rule.value ys) (leave t) := by
  simp only [callRule, h]

private theorem carriesOver_callRule (h : c.Alike c')
    (hp : ∀ name id rule, c.registry.find? name = some (id, rule) → rule.body.isPlain = true)
    (left : Nat) {name : String} {id : RuleId} {rule : Rule V}
    (hf : c.registry.find? name = some (id, rule)) :
    CarriesOver (c.callRule left id rule) (c'.callRule left id rule) := by
  induction left generalizing name id rule with
  | zero => exact fun s v t hx => by cases hx
  | succ left ih =>
    have hcall : ∀ name, CarriesOver (c.callNamed (c.callRule left) name)
        (c'.callNamed (c'.callRule left) name) :=
      fun name => carriesOver_callNamed h fun id rule hf => ih hf
    have hbody := Body.related_run (carriesOver_congruence h) hcall (hp name id rule hf)
      (Body.everyGate_of_forall (fun _ => trivial) _)
    intro s v u hx hu
    simp only [callRule] at hx
    split at hx
    · rename_i ys t ht
      obtain ⟨rfl, rfl⟩ := EStateM.Result.ok.inj hx
      obtain ⟨hs, hrun⟩ := hbody _ ys t ht hu
      refine ⟨hs, fun e => ?_⟩
      obtain ⟨e', h'⟩ := hrun e
      exact ⟨e', callRule_of_run (s := s.withEvents e) (t := t.withEvents e') h'⟩
    · exact absurd hu (diagnostics_settle_ne hx)

/-- What a parse of all tokens leaves where the start rule can be called without a diagnostic. -/
theorem parseAll_of_callRule {id : RuleId} {rule : Rule V} {v : V} {t : ParseState}
    (hcall : ∀ e, ∃ e', c.callRule Limits.maxParseDepth id rule (ParseState.start.withEvents e)
      = .ok v (t.withEvents e'))
    (hend : (c.ahead t 1).isEof = true) (s : ParseState) :
    (c.parseAll id rule s).1 = v ∧ (c.parseAll id rule s).2.diagnostics = t.diagnostics
      ∧ (c.parseAll id rule s).2.cursor = t.cursor := by
  let started : Log.Event := .debug "Parse started"
    [("start", rule.name), ("tokens", toString c.tokens.size)]
  obtain ⟨e, h⟩ := hcall (started :: s.events)
  have hrule : c.parseRule id rule (s.rewind.note started) = (v, t.withEvents e) := by
    change c.parseRule id rule (ParseState.start.withEvents (started :: s.events)) = _
    simp only [parseRule, h]
  have hrest : c.reportRest (t.withEvents e) = t.withEvents e := if_pos hend
  rw [parseAll, hrule]
  exact ⟨rfl, (congrArg ParseState.diagnostics hrest :), (congrArg ParseState.cursor hrest :)⟩

/-- A parse of all tokens without diagnostics takes the same course in the other context. -/
theorem Alike.parseAll_of_clean (h : c.Alike c')
    (hp : ∀ name id rule, c.registry.find? name = some (id, rule) → rule.body.isPlain = true)
    {start : String} {id : RuleId} {rule : Rule V} (hf : c.registry.find? start = some (id, rule))
    {s : ParseState} (hclean : (c.parseAll id rule s).2.diagnostics = #[]) (s' : ParseState) :
    (c'.parseAll id rule s').2.diagnostics = #[]
      ∧ (c'.parseAll id rule s').1 = (c.parseAll id rule s).1
      ∧ (c'.parseAll id rule s').2.cursor = (c.parseAll id rule s).2.cursor := by
  change (c.reportRest (c.parseRule id rule (s.rewind.note _)).2).diagnostics = #[] at hclean
  obtain ⟨hend, hrest⟩ := isEof_of_reportRest hclean
  rw [hrest] at hclean
  have hv := callRule_of_parseRule hclean
  have hrun := fun {c'} (h : c.Alike c') => (carriesOver_callRule h hp _ hf _ _ _ hv hclean).2
  obtain ⟨hv₁, hd₁, hc₁⟩ := parseAll_of_callRule (hrun .refl) hend s
  obtain ⟨hv₂, hd₂, hc₂⟩ := parseAll_of_callRule (hrun h) ((h.ahead ⟨rfl, rfl⟩).symm ▸ hend) s'
  exact ⟨hd₂.trans hclean, hv₂.trans hv₁.symm, hc₂.trans hc₁.symm⟩

end ParseContext

namespace Registry

variable {V : Type}

/-- Registries with the same rules and the same analysis, whatever they hold on repairs. -/
structure Alike (r r' : Registry V) : Prop where
  model : r'.model = r.model
  rules : r'.rules = r.rules
  maxLookahead : r'.preferences.maxLookahead = r.preferences.maxLookahead

variable {r r' : Registry V} {a a' : AnalyzedGrammar}

theorem Alike.find? (h : r.Alike r') (hr : r.WellFormed) (hr' : r'.WellFormed) (name : String) :
    r'.find? name = r.find? name := by
  refine Option.ext fun ⟨id, rule⟩ => ?_
  rw [hr.find?_eq_some, hr'.find?_eq_some, h.rules]

theorem WellFormed.exists_find? (hr : r.WellFormed) {name : String} (h : name ∈ r.names) :
    ∃ id rule, r.find? name = some (id, rule) := by
  obtain ⟨id, hid⟩ := List.getElem?_of_mem h
  rw [names, List.getElem?_map, Array.getElem?_toList, Option.map_eq_some_iff] at hid
  obtain ⟨rule, hrule⟩ := hid
  exact ⟨id, rule, hr.find?_eq_some.2 hrule⟩

theorem Finalized.isPlain_of_find? (hr : r.Finalized a) (name : String) (id : RuleId)
    (rule : Rule V) (h : r.find? name = some (id, rule)) : rule.body.isPlain = true :=
  hr.plain rule (Array.mem_of_getElem? (hr.built.wellFormed.find?_eq_some.1 h).1)

theorem Alike.context (h : r.Alike r') (hr : r.Finalized a) (hr' : r'.Finalized a')
    (tokens : TokenStream) :
    ParseContext.Alike ⟨r, a, tokens⟩ ⟨r', a', tokens⟩ where
  model := h.model
  find? := h.find? hr.built.wellFormed hr'.built.wellFormed
  ruleName := by
    funext id
    rw [ruleName, ruleName, h.rules]
  analysis := by
    have ho := hr.built.wellFormed.outcome _ hr.analyzed
    have ho' := hr'.built.wellFormed.outcome _ hr'.analyzed
    rw [analyze_congr h.model h.rules h.maxLookahead, ← ho] at ho'
    exact Except.ok.inj ho'
  tokens := rfl

end Registry

namespace Session

variable {V : Type}

theorem invoke_of_find? {s : Session V} {c : ParseContext V} (hs : s.context = c) {start : String}
    {id : RuleId} {rule : Rule V} (hf : c.registry.find? start = some (id, rule)) :
    s.invoke start =
      (.ok ⟨(c.parseAll id rule s.state).1, s.lexical,
          (c.parseAll id rule s.state).2.diagnostics.toList,
          (c.parseAll id rule s.state).2.suppressed⟩,
        { s with
          lexical := []
          state := { (c.parseAll id rule s.state).2 with diagnostics := #[] } }) := by
  subst hs
  simp only [invoke, hf]

/-- Whether failures are repaired makes no difference where there are none: a parse leaves no
syntactic diagnostic with recovery if and only if it leaves none without, and then it comes to the
same value and stops at the same place. -/
theorem recovery_agrees_on_clean {r r' : Registry V} {a a' : AnalyzedGrammar} (hr : r.Finalized a)
    (hr' : r'.Finalized a') (h : r.Alike r') {tokens : TokenStream} {s s' : Session V}
    (hs : s.context = ⟨r, a, tokens⟩) (hs' : s'.context = ⟨r', a', tokens⟩) {start : String}
    (hstart : start ∈ r.names) :
    ∃ out t out' t', s.invoke start = (.ok out, t) ∧ s'.invoke start = (.ok out', t')
      ∧ (out.syntactic = [] ↔ out'.syntactic = [])
      ∧ (out.syntactic = [] → out.value = out'.value ∧ t.state.cursor = t'.state.cursor) := by
  obtain ⟨id, rule, hf⟩ := hr.built.wellFormed.exists_find? hstart
  have hf' : r'.find? start = some (id, rule) :=
    (h.find? hr.built.wellFormed hr'.built.wellFormed start).trans hf
  have halike := h.context hr hr' tokens
  refine ⟨_, _, _, _, invoke_of_find? hs hf, invoke_of_find? hs' hf', ?_, fun hclean => ?_⟩
  · simp only [Array.toList_eq_nil_iff]
    exact ⟨fun hclean => (halike.parseAll_of_clean hr.isPlain_of_find? hf hclean _).1,
      fun hclean => (halike.symm.parseAll_of_clean hr'.isPlain_of_find? hf' hclean _).1⟩
  · have hcourse := halike.parseAll_of_clean hr.isPlain_of_find? hf
      (Array.toList_eq_nil_iff.mp hclean) s'.state
    exact ⟨hcourse.2.1.symm, hcourse.2.2.symm⟩

end Session

/-! ## An example -/

namespace Registry

def strictItemList : Registry Unit :=
  (((Registry.empty itemModel ⟨4, false, 100⟩ ()).define listRule).2.define itemRule).2.finalize

def strictItemAnalysis : AnalyzedGrammar := strictItemList.analysis?.getD ⟨0, #[], []⟩

set_option maxRecDepth 4000 in
theorem rules_strictItemList : strictItemList.rules = #[listRule, itemRule] := by cbv

set_option maxRecDepth 4000 in
private theorem finalized_strictItemList : strictItemList.Finalized strictItemAnalysis where
  built := .finalize (.define _ (.define _ (.empty
    (.define _ _ _ _ (.define _ _ _ _ (.tagged 0))) _ _)))
  plain := by simp [rules_strictItemList, listRule, itemRule, Body.isPlain]
  analyzed := by cbv

set_option maxRecDepth 4000 in
private theorem alike_itemList : itemList.Alike strictItemList where
  model := by cbv
  rules := rules_strictItemList.trans rules_itemList.symm
  maxLookahead := by cbv

end Registry

namespace Session

open Registry

def strictItemSession : Session Unit :=
  ⟨⟨strictItemList, strictItemAnalysis, itemTokens⟩, [], .start⟩

set_option maxRecDepth 4000 in
/-- Two items with a comma between them. -/
theorem recovery_agrees_on_clean_itemList :
    itemList.preferences.recoveryEnabled = true ∧ strictItemList.preferences.recoveryEnabled = false
      ∧ ∃ out t, strictItemSession.invoke "list" = (.ok out, t) ∧ out.syntactic = []
        ∧ t.state.cursor = 3 := by
  have hstart : "list" ∈ itemList.names := by simp [names, rules_itemList, listRule]
  have hs : itemSession.context = ⟨itemList, itemAnalysis, itemTokens⟩ := rfl
  have hs' : strictItemSession.context = ⟨strictItemList, strictItemAnalysis, itemTokens⟩ := rfl
  obtain ⟨out, t, out', t', h, h', hiff, hsame⟩ := recovery_agrees_on_clean finalized_itemList
    finalized_strictItemList alike_itemList hs hs' hstart
  have hout : (itemSession.invoke "list").1 = .ok ⟨(), [], [], 0⟩ := by cbv
  have hcursor : (itemSession.invoke "list").2.state.cursor = 3 := by cbv
  rw [h] at hout hcursor
  have hclean : out.syntactic = [] := congrArg ParseResult.syntactic (Except.ok.inj hout)
  exact ⟨by cbv, by cbv, out', t', h', hiff.mp hclean, (hsame hclean).2.symm.trans hcursor⟩

end Session

end PredictiveParsing
