import Mathlib.Data.Fin.Tuple.Reflection
import PredictiveParsing.Proofs.Parsing.TokenAccount

/-!
# The limit on diagnostics

Nothing but gates looks at what has been reported in a parse. Where they do not either, a parse
takes the same course whatever the limit on its diagnostics is, and the limit only says how many of
the same reports are kept.
-/

namespace PredictiveParsing

/-! ## Gates that ignore what has been reported -/

/-- Whether the gate is open does not depend on the diagnostics so far. -/
def Gate.IgnoresReports (g : Gate) : Prop :=
  ∀ (v : View) (ds : Array Diagnostic), g.isOpen { v with reports := ds } = g.isOpen v

namespace Gate.IgnoresReports

protected theorem constant (b : Bool) : (Gate.constant b).IgnoresReports := fun _ _ => rfl

protected theorem image (n : Nat) (text : String) : (Gate.image n text).IgnoresReports :=
  fun _ _ => rfl

protected theorem category (n : Nat) (c : CategoryId) : (Gate.category n c).IgnoresReports :=
  fun _ _ => rfl

protected theorem depthAtMost (d : Nat) : (Gate.depthAtMost d).IgnoresReports := fun _ _ => rfl

protected theorem not {g : Gate} (h : g.IgnoresReports) : g.not.IgnoresReports :=
  fun v ds => congrArg (!·) (h v ds)

end Gate.IgnoresReports

/-- No gate of a rule looks at the diagnostics so far. -/
def Registry.IgnoresReports {V : Type} (r : Registry V) : Prop :=
  ∀ rule ∈ r.rules, rule.body.EveryGate Gate.IgnoresReports

namespace ParseState

/-- Since the start of a parse as many reports are kept as there may be, and none is lost. -/
theorem Reported.of_start {cap : Nat} {ds : List Diagnostic} {s : ParseState}
    (h : start.Reported cap ds s) :
    s.diagnostics.toList = ds.take cap ∧ s.diagnostics.size + s.suppressed = ds.length := by
  have hkept : s.diagnostics.toList = ds.take cap := h.kept
  have hsuppressed : s.suppressed = 0 + (ds.length - cap) := h.suppressed
  have hsize : s.diagnostics.size = min cap ds.length := by
    simpa using congrArg List.length hkept
  exact ⟨hkept, by omega⟩

/-- The states differ in how many of the same reports they have kept, and in their events. -/
structure Twin (cap cap' : Nat) (s s' : ParseState) : Prop extends s.SamePlace s' where
  repaired : s'.repaired = s.repaired
  reports : ∃ ds, start.Reported cap ds s ∧ start.Reported cap' ds s'

namespace Twin

variable {cap cap' : Nat} {s s' : ParseState}

/-- Both states go on with the same reports, if with any. -/
theorem goOn (h : Twin cap cap' s s') {t t' : ParseState} (hplace : t.SamePlace t')
    (hrepaired : t'.repaired = t.repaired) {ds : List Diagnostic} (ht : s.Reported cap ds t)
    (ht' : s'.Reported cap' ds t') : Twin cap cap' t t' := by
  obtain ⟨earlier, hs, hs'⟩ := h.reports
  exact ⟨hplace, hrepaired, earlier ++ ds, hs.append ht, hs'.append ht'⟩

theorem report (h : Twin cap cap' s s') (d : Diagnostic) :
    Twin cap cap' (s.report cap d) (s'.report cap' d) := by
  have hsame : ∀ (n : Nat) (t : ParseState), (t.report n d).cursor = t.cursor
      ∧ (t.report n d).stack = t.stack ∧ (t.report n d).repaired = t.repaired := by
    intro n t
    rw [ParseState.report]
    split <;> exact ⟨rfl, rfl, rfl⟩
  obtain ⟨hcursor, hstack, hrepaired⟩ := hsame cap s
  obtain ⟨hcursor', hstack', hrepaired'⟩ := hsame cap' s'
  refine h.goOn ⟨?_, ?_⟩ ?_ (s.reported_report cap d) (s'.reported_report cap' d)
  · rw [hcursor, hcursor', h.cursor]
  · rw [hstack, hstack', h.stack]
  · rw [hrepaired, hrepaired', h.repaired]

theorem currentRule (h : Twin cap cap' s s') : s'.currentRule = s.currentRule := by
  rw [ParseState.currentRule, ParseState.currentRule, h.stack]

theorem enter (h : Twin cap cap' s s') (id : RuleId) :
    Twin cap cap' { s with stack := id :: s.stack } { s' with stack := id :: s'.stack } :=
  h.goOn ⟨h.cursor, congrArg (id :: ·) h.stack⟩ h.repaired (.nothing rfl rfl) (.nothing rfl rfl)

theorem leave (h : Twin cap cap' s s') :
    Twin cap cap' (ParseContext.leave s) (ParseContext.leave s') :=
  h.goOn ⟨h.cursor, congrArg (List.drop 1) h.stack⟩ h.repaired (.nothing rfl rfl) (.nothing rfl rfl)

theorem skip (h : Twin cap cap' s s') (n : Nat) :
    Twin cap cap' { s with cursor := s.cursor + n } { s' with cursor := s'.cursor + n } :=
  h.goOn ⟨congrArg (· + n) h.cursor, h.stack⟩ h.repaired (.nothing rfl rfl) (.nothing rfl rfl)

theorem repair (h : Twin cap cap' s s') (site : RepairSite) :
    Twin cap cap' { s with repaired := site :: s.repaired }
      { s' with repaired := site :: s'.repaired } :=
  h.goOn ⟨h.cursor, h.stack⟩ (congrArg (site :: ·) h.repaired) (.nothing rfl rfl) (.nothing rfl rfl)

theorem note (h : Twin cap cap' s s') (e e' : Log.Event) :
    Twin cap cap' (s.note e) (s'.note e') :=
  h.goOn ⟨h.cursor, h.stack⟩ h.repaired (.nothing rfl rfl) (.nothing rfl rfl)

/-- Altogether there are as many reports, and what is kept under the lower limit is the beginning of
what is kept under the higher one. -/
theorem kept (h : Twin cap cap' s s') :
    s'.diagnostics.size + s'.suppressed = s.diagnostics.size + s.suppressed
      ∧ (cap ≤ cap' → s.diagnostics.toList <+: s'.diagnostics.toList)
      ∧ (cap' ≤ cap → s'.diagnostics.toList <+: s.diagnostics.toList) := by
  obtain ⟨ds, hreports, hreports'⟩ := h.reports
  obtain ⟨hkept, hcount⟩ := hreports.of_start
  obtain ⟨hkept', hcount'⟩ := hreports'.of_start
  rw [hcount, hcount', hkept, hkept']
  exact ⟨rfl, List.take_prefix_take_left, List.take_prefix_take_left⟩

end Twin

end ParseState

/-! ## Parts that do the same -/

namespace Parse

variable {α β : Type} {R : ParseState → ParseState → Prop}

/-- Both results are the same value or the same failure, in states with the relation. -/
inductive SameResult (R : ParseState → ParseState → Prop) :
    EStateM.Result Failure ParseState α → EStateM.Result Failure ParseState α → Prop
  | ok (a : α) {t t' : ParseState} (h : R t t') : SameResult R (.ok a t) (.ok a t')
  | error (f : Failure) {t t' : ParseState} (h : R t t') : SameResult R (.error f t) (.error f t')

/-- The parts come to the same results from states with the relation. -/
def Same (R : ParseState → ParseState → Prop) (x x' : Parse α) : Prop :=
  ∀ s s', R s s' → SameResult R (x s) (x' s')

namespace Same

variable {x x' y y' : Parse α}

theorem pure (a : α) : Same R (Pure.pure a) (Pure.pure a) := fun _ _ h => .ok a h

theorem bind {f f' : α → Parse β} (hx : Same R x x') (hf : ∀ a, Same R (f a) (f' a)) :
    Same R (x >>= f) (x' >>= f') := by
  intro s s' h
  have hresult := hx s s' h
  simp only [Bind.bind, EStateM.bind]
  generalize x s = result, x' s' = result' at hresult
  cases hresult with
  | ok a h => exact hf a _ _ h
  | error f h => exact .error f h

/-- Both look at the state in the same way. -/
theorem ite {p p' : ParseState → Bool} (hp : ∀ s s', R s s' → p' s' = p s) (hx : Same R x x')
    (hy : Same R y y') : Same R (MonadState.get >>= fun s => if p s then x else y)
      (MonadState.get >>= fun s => if p' s then x' else y') := by
  intro s s' h
  change SameResult R ((if p s then x else y) s) ((if p' s' then x' else y') s')
  rw [hp s s' h]
  split
  · exact hx s s' h
  · exact hy s s' h

theorem repeatWhile (hcursor : ∀ s s', R s s' → s'.cursor = s.cursor)
    {enters enters' : ParseState → Bool} (he : ∀ s s', R s s' → enters' s' = enters s)
    (hx : Same R x x') (fuel : Nat) (done : List α) :
    Same R (Parse.repeatWhile enters x fuel done) (Parse.repeatWhile enters' x' fuel done) := by
  induction fuel generalizing done with
  | zero => exact fun _ _ h => .ok _ h
  | succ fuel ih =>
    intro s s' h
    have hround := hx s s' h
    simp only [Parse.repeatWhile, he s s' h]
    split
    · generalize x s = result, x' s' = result' at hround
      cases hround with
      | ok a ht =>
        -- at the same token both go on or both stop
        simp only [hcursor _ _ ht, hcursor s s' h]
        split
        · exact .ok _ ht
        · exact ih (a :: done) _ _ ht
      | error f ht => exact .error f ht
    · exact .ok _ h

end Same

end Parse

/-! ## Parses of the same tokens -/

namespace ParseContext

open Parse

variable {V : Type} {c c' : ParseContext V}

/-- The parses may differ in the limit on diagnostics only. -/
structure Twin (c c' : ParseContext V) : Prop extends c.Alike c' where
  blank : c'.registry.blank = c.registry.blank
  mayInsert : c'.registry.mayInsert = c.registry.mayInsert
  recoveryEnabled :
    c'.registry.preferences.recoveryEnabled = c.registry.preferences.recoveryEnabled

/-- The states differ in how many of the same reports the parses have kept. -/
def TwinStates (c c' : ParseContext V) : ParseState → ParseState → Prop :=
  ParseState.Twin c.registry.preferences.diagnosticLimit c'.registry.preferences.diagnosticLimit

variable {s s' : ParseState}

namespace Twin

variable (h : c.Twin c') (hs : TwinStates c c' s s')

include h hs

theorem failure (cause : Failure.Cause) : c'.failure s' cause = c.failure s cause := by
  rw [ParseContext.failure, ParseContext.failure, h.ahead hs.toSamePlace]

theorem diagnosis (f : Failure) : c'.diagnosis s' f = c.diagnosis s f := by
  rw [ParseContext.diagnosis, ParseContext.diagnosis, h.ruleNames hs.toSamePlace, h.model]

theorem tokenRepair? (idx : Nat) (category : CategoryId) :
    c'.tokenRepair? s' idx category = c.tokenRepair? s idx category := by
  simp only [ParseContext.tokenRepair?, Registry.maySupply, h.recoveryEnabled, h.mayInsert,
    h.analysis, h.isA, h.ahead hs.toSamePlace, hs.currentRule, hs.repaired]
  rfl

theorem reportRepair (code : Code) (message : String) (expected : List CategoryId) (actual : Token)
    (recovery : Diagnostic.Recovery) :
    TwinStates c c' (c.reportRepair s code message expected actual recovery)
      (c'.reportRepair s' code message expected actual recovery) := by
  rw [ParseContext.reportRepair, ParseContext.reportRepair, h.ruleNames hs.toSamePlace]
  exact hs.report _

/-- Gates that ignore the reports select the same. -/
theorem select? {n : Nat} {gate : Fin n → Option Gate}
    (hgate : ∀ k, ∀ g ∈ gate k, g.IgnoresReports) (d : Decision) :
    c'.select? gate d s' = c.select? gate d s := by
  have hview : c'.view s' = { c.view s with reports := s'.diagnostics } := by
    rw [view, h.outlook hs.toSamePlace]
    rfl
  have hgates : ∀ k, (gate k).all (·.isOpen (c'.view s')) = (gate k).all (·.isOpen (c.view s)) := by
    intro k
    cases hk : gate k with
    | none => rfl
    | some g => exact hview ▸ hgate k g hk (c.view s) s'.diagnostics
  simp only [ParseContext.select?, hgates, h.isAhead hs.toSamePlace]

/-- A token may be passed over in both parses or in none, for the same decision. -/
theorem passage? {α : Type} {select select' : ParseState → Option α}
    (hselect : ∀ t t', TwinStates c c' t t' → select' t' = select t) (site : RepairSite) :
    c'.passage? site select' s' = c.passage? site select s := by
  have hbehind := hselect _ _ (hs.skip 1)
  have hsite : s'.repaired.contains site = s.repaired.contains site := by rw [hs.repaired]
  simp only [ParseContext.passage?, h.recoveryEnabled, h.ahead hs.toSamePlace, hsite, hbehind]

theorem passed (site : RepairSite) (code : Code) (expected : List CategoryId) :
    TwinStates c c' (c.passed site code expected s) (c'.passed site code expected s') := by
  rw [ParseContext.passed, ParseContext.passed, h.ahead hs.toSamePlace]
  exact h.reportRepair ((hs.skip 1).repair site) _ _ _ _ _

omit hs in
theorem resumption? (id : RuleId) (f : Failure) (i : Nat) :
    c'.resumption? id f i = c.resumption? id f i := by
  have hresumes : ∀ a t, c'.resumesAt a t = c.resumesAt a t := by
    intro a t
    rw [resumesAt, resumesAt, h.isA]
  simp only [ParseContext.resumption?, h.recoveryEnabled, h.analysis, h.tokens, hresumes]

theorem resumed (id : RuleId) (f : Failure) (n : Nat) :
    TwinStates c c' (c.resumed id f n s) (c'.resumed id f n s') := by
  rw [ParseContext.resumed, ParseContext.resumed, h.diagnosis hs]
  exact ((hs.skip n).note _ _).report _

theorem reportRest : TwinStates c c' (c.reportRest s) (c'.reportRest s') := by
  simp only [ParseContext.reportRest, h.ahead hs.toSamePlace]
  split
  · exact hs
  · exact hs.report _

end Twin

section

variable (h : c.Twin c')

include h

theorem same_advance : Same (TwinStates c c') c.advance c'.advance := by
  intro s s' hs
  have hbehind := hs.skip 1
  simp only [advance, h.ahead hs.toSamePlace, h.tokens]
  rw [hs.cursor] at hbehind ⊢
  refine .ok _ ?_
  split
  · exact hbehind
  · exact hs

private theorem same_repairToken (idx : Nat) (category : CategoryId) (repair : TokenRepair) :
    Same (TwinStates c c') (c.repairToken idx category repair)
      (c'.repairToken idx category repair) := by
  intro s s' hs
  simp only [repairToken, h.ahead hs.toSamePlace, h.model, hs.currentRule]
  cases repair with
  | delete =>
    have hbehind := (hs.skip 1).repair (.token s.currentRule category idx)
    have hnext := same_advance h _ _ hbehind
    simp only
    generalize c.advance _ = result, c'.advance _ = result' at hnext
    cases hnext with
    | ok t ht => exact .ok t (h.reportRepair ht _ _ _ _ _)
    | error f ht => exact .error f ht
  | insert => exact .ok _ (h.reportRepair (hs.repair _) _ _ _ _ _)

private theorem same_consume (idx : Nat) (category : CategoryId) :
    Same (TwinStates c c') (c.consume idx category) (c'.consume idx category) := by
  intro s s' hs
  simp only [consume, h.isA, h.ahead hs.toSamePlace, h.tokenRepair? hs, h.failure hs]
  split
  · exact same_advance h s s' hs
  · cases c.tokenRepair? s idx category with
    | some repair => exact same_repairToken h idx category repair s s' hs
    | none => exact .error _ hs

theorem same_decision (kind : DecisionKind) (idx : Nat) :
    Same (TwinStates c c') (c.decision kind idx) (c'.decision kind idx) := by
  intro s s' hs
  simp only [decision, h.decision? hs.toSamePlace, h.failure hs]
  cases c.decision? s kind idx with
  | some d => exact .ok d hs
  | none => exact .error _ hs

private theorem same_choiceDecision (idx n : Nat) :
    Same (TwinStates c c') (c.choiceDecision idx n) (c'.choiceDecision idx n) := by
  refine (same_decision h .or idx).bind fun d => ?_
  split
  · exact .pure d
  · intro s s' hs
    have hfailure := h.failure hs (.unrecorded DecisionKind.or.keyword idx)
    change SameResult _ (.error (c.failure s _) s) (.error (c'.failure s' _) s')
    rw [hfailure]
    exact .error _ hs

private theorem same_rounds {α : Type} (d : Decision) {part part' : Parse α}
    (hx : Same (TwinStates c c') part part') :
    Same (TwinStates c c') (c.rounds d part) (c'.rounds d part') := by
  intro s s' hs
  simp only [rounds, h.tokens, hs.cursor]
  have hcursor : ∀ t t', TwinStates c c' t t' → t'.cursor = t.cursor := fun _ _ ht => ht.cursor
  exact hx.repeatWhile hcursor (fun _ _ ht => h.enters ht.toSamePlace d) _ [] s s' hs

private theorem same_enterOnce (idx : Nat) (d : Decision) :
    Same (TwinStates c c') (c.enterOnce idx d) (c'.enterOnce idx d) := by
  intro s s' hs
  have henters : ∀ t t', TwinStates c c' t t' →
      (if c'.enters t' d then some () else none) = if c.enters t d then some () else none :=
    fun t t' ht => by rw [h.enters ht.toSamePlace]
  simp only [enterOnce_eq, h.enters hs.toSamePlace, h.passage? hs henters, hs.currentRule,
    h.failure hs]
  split
  · exact .ok () hs
  · split
    · exact .ok () (h.passed hs _ _ _)
    · exact .error _ hs

private theorem same_choose {n : Nat} (idx : Nat) (expecting : Option String)
    {gate : Fin n → Option Gate} (hgate : ∀ k, ∀ g ∈ gate k, g.IgnoresReports) (d : Decision) :
    Same (TwinStates c c') (c.choose idx expecting gate d) (c'.choose idx expecting gate d) := by
  intro s s' hs
  have hselect : ∀ t t', TwinStates c c' t t' → c'.select? gate d t' = c.select? gate d t :=
    fun t t' ht => h.select? ht hgate d
  simp only [choose_eq, hselect _ _ hs, h.passage? hs hselect, hs.currentRule, h.failure hs]
  split
  · exact .ok _ hs
  · split
    · exact .ok _ (h.passed hs _ _ _)
    · exact .error _ hs

private theorem same_congruence :
    c.Congruence c' Gate.IgnoresReports fun _ => Same (TwinStates c c') where
  pure := .pure
  bind := .bind
  ite d := .ite fun _ _ hs => h.enters hs.toSamePlace d
  consume := same_consume h
  decision := same_decision h
  rounds := same_rounds h
  enterOnce := same_enterOnce h
  choiceDecision := same_choiceDecision h
  choose := same_choose h

private theorem same_callNamed {call call' : RuleId → Rule V → Parse V} {name : String}
    (hcall : ∀ id rule, c.registry.find? name = some (id, rule) →
      Same (TwinStates c c') (call id rule) (call' id rule)) :
    Same (TwinStates c c') (c.callNamed call name) (c'.callNamed call' name) := by
  intro s s' hs
  simp only [callNamed, h.find?, h.failure hs]
  cases hfind : c.registry.find? name with
  | some found => exact hcall found.1 found.2 hfind s s' hs
  | none => exact .error _ hs

end

private theorem same_settle (h : c.Twin c') (id : RuleId) (f : Failure) {s s' : ParseState}
    (hs : TwinStates c c' s s') :
    SameResult (TwinStates c c') (c.settle id f s) (c'.settle id f s') := by
  simp only [settle_eq, hs.stack, hs.cursor, h.blank, h.diagnosis hs, h.resumption?]
  split
  · exact .ok _ (ParseState.Twin.leave (hs.report _))
  · split
    · exact .ok _ (ParseState.Twin.leave (h.resumed hs _ _ _))
    · exact .error f hs.leave

private theorem same_callRule (h : c.Twin c')
    (hp : ∀ name id rule, c.registry.find? name = some (id, rule) → rule.body.isPlain = true)
    (hg : ∀ name id rule, c.registry.find? name = some (id, rule) →
      rule.body.EveryGate Gate.IgnoresReports)
    (left : Nat) {name : String} {id : RuleId} {rule : Rule V}
    (hf : c.registry.find? name = some (id, rule)) :
    Same (TwinStates c c') (c.callRule left id rule) (c'.callRule left id rule) := by
  induction left generalizing name id rule with
  | zero =>
    intro s s' hs
    simp only [callRule, hs.stack, h.failure hs]
    exact .error _ hs
  | succ left ih =>
    -- calls inside of the body can nest less deep
    have hcall : ∀ name, Same (TwinStates c c') (c.callNamed (c.callRule left) name)
        (c'.callNamed (c'.callRule left) name) :=
      fun name => same_callNamed h fun id rule hf => ih hf
    intro s s' hs
    have hbody := Body.related_run (same_congruence h) hcall (hp name id rule hf)
      (hg name id rule hf) _ _ (hs.enter id)
    simp only [callRule]
    generalize rule.body.run c _ _ = result, rule.body.run c' _ _ = result' at hbody
    cases hbody with
    | ok ys ht => exact .ok _ ht.leave
    | error f ht => exact same_settle h id f ht

/-- Whatever the limit on its diagnostics is, a parse of all tokens comes to the same value and
leaves the same behind. -/
theorem Twin.parseAll (h : c.Twin c')
    (hp : ∀ name id rule, c.registry.find? name = some (id, rule) → rule.body.isPlain = true)
    (hg : ∀ name id rule, c.registry.find? name = some (id, rule) →
      rule.body.EveryGate Gate.IgnoresReports)
    {start : String} {id : RuleId} {rule : Rule V} (hf : c.registry.find? start = some (id, rule))
    (s s' : ParseState) :
    (c'.parseAll id rule s').1 = (c.parseAll id rule s).1
      ∧ TwinStates c c' (c.parseAll id rule s).2 (c'.parseAll id rule s').2 := by
  have hcall := same_callRule h hp hg Limits.maxParseDepth hf (c.startState rule s)
    (c'.startState rule s') ⟨⟨rfl, rfl⟩, rfl, [], .nothing rfl rfl, .nothing rfl rfl⟩
  have hrule : (c'.parseRule id rule (c'.startState rule s')).1
      = (c.parseRule id rule (c.startState rule s)).1 ∧
      TwinStates c c' (c.parseRule id rule (c.startState rule s)).2
        (c'.parseRule id rule (c'.startState rule s')).2 := by
    simp only [parseRule]
    generalize c.callRule _ _ _ _ = result, c'.callRule _ _ _ _ = result' at hcall
    cases hcall with
    | ok v ht => exact ⟨rfl, ht⟩
    | error f ht =>
      simp only [h.blank, h.diagnosis ht]
      exact ⟨trivial, ht.report _⟩
  obtain ⟨hvalue, ht⟩ := hrule
  refine ⟨hvalue, ParseState.Twin.note ?_ _ _⟩
  exact h.reportRest ht

end ParseContext

namespace Registry

variable {V : Type}

/-- The registries may differ in the limit on diagnostics only. -/
structure AlikeButLimit (r r' : Registry V) : Prop extends r.Alike r' where
  blank : r'.blank = r.blank
  mayInsert : r'.mayInsert = r.mayInsert
  recoveryEnabled : r'.preferences.recoveryEnabled = r.preferences.recoveryEnabled

variable {r r' : Registry V} {a a' : AnalyzedGrammar}

theorem AlikeButLimit.context (h : r.AlikeButLimit r') (hr : r.Finalized a) (hr' : r'.Finalized a')
    (tokens : TokenStream) : ParseContext.Twin ⟨r, a, tokens⟩ ⟨r', a', tokens⟩ where
  toAlike := h.toAlike.context hr hr' tokens
  blank := h.blank
  mayInsert := h.mayInsert
  recoveryEnabled := h.recoveryEnabled

private theorem IgnoresReports.of_find? (h : r.IgnoresReports) (hr : r.WellFormed) {name : String}
    {id : RuleId} {rule : Rule V} (hf : r.find? name = some (id, rule)) :
    rule.body.EveryGate Gate.IgnoresReports :=
  h rule (Array.mem_of_getElem? (hr.find?_eq_some.1 hf).1)

end Registry

namespace Session

variable {V : Type}

open Registry

/-- Only a parse in which nothing is reported leaves no diagnostic: there is room for one. -/
theorem reports_eq_nil {s t : Session V} {start : String} {id : RuleId} {rule : Rule V}
    {out : ParseResult V} (hf : s.context.registry.find? start = some (id, rule))
    (hs : s.invoke start = (.ok out, t)) (hnone : out.syntactic = []) :
    (s.deeds start).flatMap (·.reports s.context) = [] ∧ out.suppressed = 0 := by
  obtain ⟨out', t', u, hinvoke, hleads, hkept, hsuppressed, -⟩ := exists_leads hf
  obtain ⟨rfl, rfl⟩ : out = out' ∧ t = t' := by
    simpa using hs.symm.trans hinvoke
  obtain ⟨-, hreported⟩ := ParseContext.usedUp_of_leads hleads (Nat.zero_le _)
  have hroom := ParseContext.diagnosticLimit_pos s.context.registry.preferences
  have hreports : (s.deeds start).flatMap (·.reports s.context) = [] := by
    have htake : ((s.deeds start).flatMap (·.reports s.context)).take
        s.context.registry.preferences.diagnosticLimit = [] :=
      hreported.kept.symm.trans (hkept.symm.trans hnone)
    exact (List.take_eq_nil_iff.mp htake).resolve_left (Nat.ne_of_gt hroom)
  refine ⟨hreports, ?_⟩
  rw [hsuppressed, hreported.suppressed, hreports, List.length_nil, Nat.zero_sub]
  rfl

/-- The limit on diagnostics has no influence on a parse if no gate looks at them: under any two
limits it comes to the same value, stops at the same place and reports as much, of which the
beginning is kept. Where no diagnostic is left, nothing was reported. -/
theorem same_course_under_limits {r r' : Registry V} {a a' : AnalyzedGrammar} (hr : r.Finalized a)
    (hr' : r'.Finalized a') (h : r.AlikeButLimit r') (hgates : r.IgnoresReports)
    {tokens : TokenStream} {s s' : Session V} (hs : s.context = ⟨r, a, tokens⟩)
    (hs' : s'.context = ⟨r', a', tokens⟩) {start : String} (hstart : start ∈ r.names) :
    ∃ out t out' t', s.invoke start = (.ok out, t) ∧ s'.invoke start = (.ok out', t')
      ∧ out'.value = out.value ∧ t'.state.cursor = t.state.cursor
      ∧ out'.syntactic.length + out'.suppressed = out.syntactic.length + out.suppressed
      ∧ (r.preferences.diagnosticLimit ≤ r'.preferences.diagnosticLimit →
        out.syntactic <+: out'.syntactic)
      ∧ (r'.preferences.diagnosticLimit ≤ r.preferences.diagnosticLimit →
        out'.syntactic <+: out.syntactic)
      ∧ (out.syntactic = [] →
        (s.deeds start).flatMap (·.reports s.context) = [] ∧ out.suppressed = 0) := by
  obtain ⟨id, rule, hf⟩ := hr.built.wellFormed.exists_find? hstart
  have htwin := h.context hr hr' tokens
  have hf' : r'.find? start = some (id, rule) := (htwin.find? start).trans hf
  obtain ⟨hvalue, hstates⟩ := htwin.parseAll hr.isPlain_of_find?
    (fun _ _ _ => hgates.of_find? hr.built.wellFormed) hf s.state s'.state
  obtain ⟨hcount, hlow, hhigh⟩ := hstates.kept
  have hfind : s.context.registry.find? start = some (id, rule) := by rw [hs, hf]
  have hinvoke := invoke_of_find? hs hf
  exact ⟨_, _, _, _, hinvoke, invoke_of_find? hs' hf', hvalue, hstates.cursor, hcount, hlow, hhigh,
    reports_eq_nil hfind hinvoke⟩

end Session

/-! ## An example -/

namespace Registry

def itemListUpTo (limit : Nat) : Registry Unit :=
  (((Registry.empty itemModel ⟨4, true, limit⟩ ()).define listRule).2.define itemRule).2.finalize

variable (limit : Nat)

set_option maxRecDepth 4000 in
theorem rules_itemListUpTo : (itemListUpTo limit).rules = #[listRule, itemRule] := by cbv

set_option maxRecDepth 4000 in
private theorem finalized_itemListUpTo : (itemListUpTo limit).Finalized itemAnalysis where
  built := .finalize (.define _ (.define _ (.empty
    (.define _ _ _ _ (.define _ _ _ _ (.tagged 0))) _ _)))
  plain := by simp [rules_itemListUpTo, listRule, itemRule, Body.isPlain]
  analyzed := by cbv

set_option maxRecDepth 4000 in
private theorem alikeButLimit_itemListUpTo (limit' : Nat) :
    (itemListUpTo limit).AlikeButLimit (itemListUpTo limit') where
  model := by cbv
  rules := (rules_itemListUpTo limit').trans (rules_itemListUpTo limit).symm
  maxLookahead := by cbv
  blank := by cbv
  mayInsert := by cbv
  recoveryEnabled := by cbv

private theorem ignoresReports_itemListUpTo : (itemListUpTo limit).IgnoresReports := by
  simp [IgnoresReports, rules_itemListUpTo, listRule, itemRule, Body.EveryGate]

end Registry

namespace Session

open Registry

/-- Two items without a comma between them, but one in front. -/
def misplacedCommaTokens : TokenStream :=
  ⟨#[.placeholder 2 .start, .placeholder 1 .start, .placeholder 1 .start], .eof .start,
    Token.category_eof .start⟩

def misplacedCommaSession (limit : Nat) : Session Unit :=
  ⟨⟨itemListUpTo limit, itemAnalysis, misplacedCommaTokens⟩, [], .start⟩

set_option maxRecDepth 4000 in
/-- The comma and the second item are reported. Of the two reports one is kept where there is room
for one. -/
theorem same_course_under_limits_misplacedComma :
    (itemListUpTo 1).preferences.diagnosticLimit = 1
      ∧ (itemListUpTo 100).preferences.diagnosticLimit = 100
      ∧ (itemListUpTo 1).IgnoresReports
      ∧ ∃ out t out' t', (misplacedCommaSession 1).invoke "list" = (.ok out, t)
        ∧ (misplacedCommaSession 100).invoke "list" = (.ok out', t') ∧ out'.syntactic.length = 2
        ∧ out.syntactic <+: out'.syntactic ∧ out.syntactic.length + out.suppressed = 2
        ∧ t.state.cursor = 2 := by
  have hstart : "list" ∈ (itemListUpTo 1).names := by
    simp [names, rules_itemListUpTo, listRule]
  have hs : ∀ n, (misplacedCommaSession n).context
      = ⟨itemListUpTo n, itemAnalysis, misplacedCommaTokens⟩ := fun _ => rfl
  have hlimits : (itemListUpTo 1).preferences.diagnosticLimit = 1
      ∧ (itemListUpTo 100).preferences.diagnosticLimit = 100 := ⟨by cbv, by cbv⟩
  obtain ⟨out, t, out', t', h, h', -, hcursor, hcount, hkept, -⟩ := same_course_under_limits
    (finalized_itemListUpTo 1) (finalized_itemListUpTo 100) (alikeButLimit_itemListUpTo 1 100)
    (ignoresReports_itemListUpTo 1) (hs 1) (hs 100) hstart
  have hout : ((misplacedCommaSession 100).invoke "list").1.toOption.map (fun out =>
      (out.syntactic.length, out.suppressed)) = some (2, 0) := by cbv
  have hend : ((misplacedCommaSession 100).invoke "list").2.state.cursor = 2 := by cbv
  rw [h'] at hout hend
  obtain ⟨hlength, hsuppressed⟩ := Prod.mk.inj (Option.some.inj hout)
  exact ⟨hlimits.1, hlimits.2, ignoresReports_itemListUpTo 1, out, t, out', t', h, h', hlength,
    hkept (by omega), by omega, hcursor.symm.trans hend⟩

end Session

/-! ## A gate that looks at the diagnostics -/

namespace Registry

/-- Two items, and a third one if fewer than two diagnostics have been kept. The value is the
alternative. -/
def thirdItemRule : Rule Nat where
  name := "items"
  body := .consume 1 1 (.consume 2 1 (.choice 1 none ![some ⟨fun v => v.diagnostics < 2⟩, none]
    ![.consume 3 1 .done, .done] .done))
  value
    | [_, _, .chosen k _] => k
    | _ => 0

def thirdItemUpTo (limit : Nat) : Registry Nat :=
  ((Registry.empty itemModel ⟨4, true, limit⟩ 0).define thirdItemRule).2.finalize

def thirdItemAnalysis : AnalyzedGrammar := (thirdItemUpTo 1).analysis?.getD ⟨0, #[], []⟩

variable (limit : Nat)

set_option maxRecDepth 4000 in
theorem rules_thirdItemUpTo : (thirdItemUpTo limit).rules = #[thirdItemRule] := by cbv

set_option maxRecDepth 4000 in
private theorem finalized_thirdItemUpTo : (thirdItemUpTo limit).Finalized thirdItemAnalysis where
  built := .finalize (.define _ (.empty
    (.define _ _ _ _ (.define _ _ _ _ (.tagged 0))) _ _))
  plain := by
    simp [rules_thirdItemUpTo, thirdItemRule, Body.isPlain, List.ofFn_succ]
  analyzed := by cbv

set_option maxRecDepth 4000 in
private theorem alikeButLimit_thirdItemUpTo (limit' : Nat) :
    (thirdItemUpTo limit).AlikeButLimit (thirdItemUpTo limit') where
  model := by cbv
  rules := (rules_thirdItemUpTo limit').trans (rules_thirdItemUpTo limit).symm
  maxLookahead := by cbv
  blank := by cbv
  mayInsert := by cbv
  recoveryEnabled := by cbv

end Registry

namespace Session

open Registry

/-- Three items with a comma in front of the first and of the second one. -/
def strayCommaTokens : TokenStream :=
  ⟨#[.placeholder 2 .start, .placeholder 1 .start, .placeholder 2 .start, .placeholder 1 .start,
    .placeholder 1 .start], .eof .start, Token.category_eof .start⟩

def strayCommaSession (limit : Nat) : Session Nat :=
  ⟨⟨thirdItemUpTo limit, thirdItemAnalysis, strayCommaTokens⟩, [], .start⟩

set_option maxRecDepth 4000 in
/-- Two commas are reported in front of the gate. Where only one diagnostic is kept the gate is open
and the third item is taken, and where both are it is closed. -/
theorem not_forall_same_course_under_limits :
    ¬ ∀ (r r' : Registry Nat) (a a' : AnalyzedGrammar) (tokens : TokenStream)
        (s s' : Session Nat) (start : String), r.Finalized a → r'.Finalized a' →
      r.AlikeButLimit r' → s.context = ⟨r, a, tokens⟩ → s'.context = ⟨r', a', tokens⟩ →
      start ∈ r.names → ∃ out t out' t', s.invoke start = (.ok out, t)
        ∧ s'.invoke start = (.ok out', t') ∧ out'.value = out.value := by
  intro h
  have hstart : "items" ∈ (thirdItemUpTo 1).names := by
    simp [names, rules_thirdItemUpTo, thirdItemRule]
  obtain ⟨out, t, out', t', h₁, h₂, hvalue⟩ := h _ _ _ _ _ (strayCommaSession 1)
    (strayCommaSession 2) "items" (finalized_thirdItemUpTo 1) (finalized_thirdItemUpTo 2)
    (alikeButLimit_thirdItemUpTo 1 2) rfl rfl hstart
  have hopen : ((strayCommaSession 1).invoke "items").1.toOption.map (·.value) = some 0 := by cbv
  have hclosed : ((strayCommaSession 2).invoke "items").1.toOption.map (·.value) = some 1 := by cbv
  rw [h₁] at hopen
  rw [h₂] at hclosed
  have hzero : out.value = 0 := Option.some.inj hopen
  have hone : out'.value = 1 := Option.some.inj hclosed
  rw [hzero, hone] at hvalue
  cases hvalue

end Session

end PredictiveParsing
