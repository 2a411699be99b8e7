import PredictiveParsing.Proofs.Lookahead.Analysis
import PredictiveParsing.Proofs.Parsing.TokenAccount

/-!
# Repairs are made as a whole or not at all

An attempt to go on behind something wrong either makes its repair, which takes up the place of the
repair and leaves one report, or it leaves the state as it was.
-/

namespace PredictiveParsing

namespace ParseContext

variable {V : Type} (c : ParseContext V)

/-! ## What there is to a repair -/

/-- The first repair at its site, with one report that shows the next token. -/
structure Repairs (s : ParseState) (site : RepairSite) (x : Diagnostic) (t : ParseState) :
    Prop where
  on : c.registry.preferences.recoveryEnabled = true
  fresh : site ∉ s.repaired
  repaired : t.repaired = site :: s.repaired
  stack : t.stack = s.stack
  reported : s.Reported c.registry.preferences.diagnosticLimit [x] t
  about : x.IsAbout (c.ahead s 1)
  severity : x.severity = .recoverable
  ruleStack : x.ruleStack = c.ruleNames s

/-- A repair that passes over the next token, which is not the end of the input. -/
structure PassesOver (s : ParseState) (site : RepairSite) (x : Diagnostic) (t : ParseState) :
    Prop extends c.Repairs s site x t where
  recovery : x.recovery = .deleted
  inner : (c.ahead s 1).isEof = false
  cursor : t.cursor = s.cursor + 1

/-- The attempt to have a token of a category where there is none: the token to go on with, and the
state behind it. -/
def mend? (s : ParseState) (idx : Nat) (category : CategoryId) : Option (Token × ParseState) :=
  (c.tokenRepair? s idx category).bind fun repair =>
    match c.repairToken idx category repair s with
    | .ok t s => some (t, s)
    | .error _ _ => none

/-- What can come of an attempt to have a token. -/
inductive MendsTo (s : ParseState) (idx : Nat) (category : CategoryId) :
    Option (Token × ParseState) → Prop
  /-- The next token is deleted, and the one behind it, which is wanted, is taken. -/
  | delete {x : Diagnostic} {t : ParseState}
      (repairs : c.Repairs s (.token s.currentRule category idx) x t)
      (recovery : x.recovery = .deleted) (inner : (c.ahead s 1).isEof = false)
      (wanted : c.isA (c.ahead s 2).category category = true)
      (takes : c.tokens.Takes (s.cursor + 1) (some (c.ahead s 2)) t.cursor) :
      MendsTo s idx category (some (c.ahead s 2, t))
  /-- An empty token is supplied in front of the next one, and nothing moves. -/
  | insert {x : Diagnostic} {t : ParseState}
      (repairs : c.Repairs s (.token s.currentRule category idx) x t)
      (recovery : x.recovery = .inserted) (stays : t.cursor = s.cursor) :
      MendsTo s idx category (some (.placeholder category (c.ahead s 1).span.start, t))
  | refuse : MendsTo s idx category none

/-- What can come of a decision: it is made at once, or behind one token that is then reported, or
it fails where it was to be made. -/
inductive DecidesTo {α : Type} (s : ParseState) (site : RepairSite)
    (holds : ParseState → α → Prop) : EStateM.Result Failure ParseState α → Prop
  | here {a : α} (h : holds s a) : DecidesTo s site holds (.ok a s)
  | behind {a : α} {x : Diagnostic} {t : ParseState} (passes : c.PassesOver s site x t)
      (h : holds { s with cursor := s.cursor + 1 } a) : DecidesTo s site holds (.ok a t)
  | fail (f : Failure) (actual : f.actual = c.ahead s 1) : DecidesTo s site holds (.error f s)

/-- The parse can go on behind a rule at the end of the input and at what can follow the rule. -/
def GoesOnAt (a : AnalyzedRule) (t : Token) : Prop :=
  t.isEof = true ∨ ∃ category ∈ a.follow.toList, c.isA t.category category = true

/-- Whether the parse can go on behind a rule that failed, at a token that is not too far away. -/
def CanGoOn (s : ParseState) (a : AnalyzedRule) (f : Failure) : Prop :=
  c.registry.preferences.recoveryEnabled = true ∧ f.isLocal = true
    ∧ ∃ n ≤ Limits.maxRecoveryScan, c.GoesOnAt a (c.ahead s (n + 1))

/-- The tokens up to the first one at which the parse can go on are skipped, and reported with their
number. -/
structure SkipsTo (s : ParseState) (a : AnalyzedRule) (f : Failure) (n : Nat) (x : Diagnostic)
    (t : ParseState) : Prop where
  near : n ≤ Limits.maxRecoveryScan
  goesOn : c.GoesOnAt a (c.ahead s (n + 1))
  first : ∀ k < n, ¬c.GoesOnAt a (c.ahead s (k + 1))
  cursor : t.cursor = s.cursor + n
  repaired : t.repaired = s.repaired
  stack : t.stack = s.stack
  reported : s.Reported c.registry.preferences.diagnosticLimit [x] t
  recovery : x.recovery = .resynced n
  code : x.code = f.code
  about : x.IsAbout f.actual
  ruleStack : x.ruleStack = c.ruleNames s

variable {c} {s : ParseState}

theorem stack_report (s : ParseState) (x : Diagnostic) : (c.report s x).stack = s.stack := by
  rw [report, ParseState.report]
  split <;> rfl

theorem repaired_report (s : ParseState) (x : Diagnostic) :
    (c.report s x).repaired = s.repaired := by
  rw [report, ParseState.report]
  split <;> rfl

/-- A report is the only one since the state `s`. -/
theorem reported_of_eq {m : ParseState} (hdiagnostics : m.diagnostics = s.diagnostics)
    (hsuppressed : m.suppressed = s.suppressed) (x : Diagnostic) :
    s.Reported c.registry.preferences.diagnosticLimit [x] (c.report m x) :=
  (ParseState.Reported.nothing hdiagnostics hsuppressed).append (m.reported_report _ x)

/-- The report of a repair that was made in the state `m`, which is further on than `s`. -/
theorem exists_repairs {m : ParseState} {site : RepairSite}
    (hon : c.registry.preferences.recoveryEnabled = true) (hfresh : site ∉ s.repaired)
    (hrepaired : m.repaired = site :: s.repaired) (hstack : m.stack = s.stack)
    (hdiagnostics : m.diagnostics = s.diagnostics) (hsuppressed : m.suppressed = s.suppressed)
    (code : Code) (message : String) (expected : List CategoryId)
    (recovery : Diagnostic.Recovery) :
    ∃ x, x.recovery = recovery
      ∧ c.Repairs s site x (c.reportRepair m code message expected (c.ahead s 1) recovery)
      ∧ (c.reportRepair m code message expected (c.ahead s 1) recovery).cursor = m.cursor := by
  refine ⟨{ Diagnostic.syntactic code message expected (c.ahead s 1) with
    severity := .recoverable, recovery := recovery, ruleStack := c.ruleNames m }, rfl, ?_,
    m.cursor_report _ _⟩
  exact {
    on := hon
    fresh := hfresh
    repaired := (repaired_report m _).trans hrepaired
    stack := (stack_report m _).trans hstack
    reported := reported_of_eq hdiagnostics hsuppressed _
    about := ⟨rfl, rfl⟩
    severity := rfl
    ruleStack := by rw [ruleNames, ruleNames, hstack] }

/-! ## Tokens -/

/-- Taking the next token changes nothing but the place in the stream. -/
theorem advance_spec (s : ParseState) : ∃ t, c.advance s = .ok (c.ahead s 1) t
    ∧ t.repaired = s.repaired ∧ t.stack = s.stack ∧ t.diagnostics = s.diagnostics
    ∧ t.suppressed = s.suppressed
    ∧ c.tokens.Takes s.cursor (some (c.ahead s 1)) t.cursor := by
  refine ⟨_, rfl, ?_⟩
  split
  · exact ⟨rfl, rfl, rfl, rfl, .token ‹_›⟩
  · exact ⟨rfl, rfl, rfl, rfl, .last (Nat.le_of_not_lt ‹_›)⟩

theorem mendsTo_mend? (s : ParseState) (idx : Nat) (category : CategoryId) :
    c.MendsTo s idx category (c.mend? s idx category) := by
  cases h : c.tokenRepair? s idx category with
  | none =>
    rw [mend?, h]
    exact .refuse
  | some repair =>
    obtain ⟨hon, hfresh, -, hdelete⟩ := c.tokenRepair?_eq_some h
    rw [mend?, h]
    cases repair with
    | insert =>
      obtain ⟨x, hx, hrepairs, hcursor⟩ := exists_repairs hon hfresh
        (m := { s with repaired := .token s.currentRule category idx :: s.repaired }) rfl rfl rfl
        rfl Code.mismatchedToken
        s!"Missing {c.registry.model.name category} before {(c.ahead s 1).text}, token inserted"
        [category] .inserted
      exact .insert hrepairs hx hcursor
    | delete =>
      obtain ⟨m, hm, hrepaired, hstack, hdiagnostics, hsuppressed, htakes⟩ := c.advance_spec
        { s with
          cursor := s.cursor + 1
          repaired := .token s.currentRule category idx :: s.repaired }
      obtain ⟨x, hx, hrepairs, hcursor⟩ := exists_repairs hon hfresh hrepaired hstack hdiagnostics
        hsuppressed Code.mismatchedToken
        s!"Unexpected {(c.ahead s 1).text} before {c.registry.model.name category}, token deleted"
        [category] .deleted
      simp only [Option.bind_some, repairToken, hm]
      obtain ⟨hinner, hwanted⟩ := hdelete rfl
      exact .delete hrepairs hx hinner hwanted (hcursor ▸ htakes)

/-- A token is taken where there is one, or else the attempt to have one counts. -/
theorem consume_eq (s : ParseState) (idx : Nat) (category : CategoryId) :
    c.consume idx category s =
      if c.isA (c.ahead s 1).category category then c.advance s
      else
        match c.mend? s idx category with
        | some (t, s') => .ok t s'
        | none => .error (c.failure s (.mismatch [category])) s := by
  split
  · exact consume_of_isA ‹_›
  · have hno := Bool.eq_false_iff.mpr ‹_›
    cases h : c.tokenRepair? s idx category with
    | none => rw [consume_of_mismatch hno h, mend?, h, Option.bind_none]
    | some repair =>
      rw [consume_of_tokenRepair? hno h, mend?, h, Option.bind_some]
      cases repair with
      | delete => simp only [repairToken, advance]
      | insert => simp only [repairToken]

/-! ## Decisions -/

theorem passesOver_passed {α : Type} {site : RepairSite} {select : ParseState → Option α} {a : α}
    (h : c.passage? site select s = some a) (code : Code) (expected : List CategoryId) :
    ∃ x, c.PassesOver s site x (c.passed site code expected s)
      ∧ select { s with cursor := s.cursor + 1 } = some a := by
  obtain ⟨hon, hinner, hfresh, hselect⟩ := passage?_eq_some.mp h
  obtain ⟨x, hx, hrepairs, hcursor⟩ := exists_repairs hon hfresh
    (m := { s with cursor := s.cursor + 1, repaired := site :: s.repaired }) rfl rfl rfl rfl
    code s!"Unexpected {(c.ahead s 1).text}, token deleted" expected .deleted
  exact ⟨x, ⟨hrepairs, hx, hinner, hcursor⟩, hselect⟩

private theorem deleteFor_cases {α : Type} (s : ParseState) (site : RepairSite) (code : Code)
    (expected : List CategoryId) (select : ParseState → Option α) :
    (∃ a x t, c.deleteFor site code expected select s = (some a, t) ∧ c.PassesOver s site x t
        ∧ select { s with cursor := s.cursor + 1 } = some a)
      ∨ c.deleteFor site code expected select s = (none, s) := by
  rw [deleteFor_eq]
  cases h : c.passage? site select s with
  | none => exact .inr rfl
  | some a =>
    obtain ⟨x, hpasses, hselect⟩ := passesOver_passed h code expected
    exact .inl ⟨a, x, _, rfl, hpasses, hselect⟩

theorem enterOnce_decidesTo (s : ParseState) (idx : Nat) (d : Decision) :
    c.DecidesTo s (.decision s.currentRule .atLeastOne idx) (fun t _ => c.enters t d = true)
      (c.enterOnce idx d s) := by
  simp only [enterOnce_eq]
  split
  · exact .here ‹_›
  · split
    · rename_i a ha
      obtain ⟨x, hpasses, hselect⟩ := passesOver_passed ha Code.earlyExit _
      refine .behind hpasses ?_
      by_contra hno
      simp only [if_neg hno, reduceCtorEq] at hselect
    · exact .fail _ rfl

theorem choose_decidesTo {n : Nat} (s : ParseState) (idx : Nat) (expecting : Option String)
    (gate : Fin n → Option Gate) (d : Decision) :
    c.DecidesTo s (.decision s.currentRule .or idx) (fun t k => c.select? gate d t = some k)
      (c.choose idx expecting gate d s) := by
  simp only [choose_eq]
  split
  · exact .here ‹_›
  · split
    · rename_i k hk
      obtain ⟨x, hpasses, hselect⟩ := passesOver_passed hk Code.noViableAlternative _
      exact .behind hpasses hselect
    · exact .fail _ rfl

/-! ## The ends of rules -/

private theorem ahead_succ (s : ParseState) (n : Nat) :
    c.ahead s (n + 1) = c.tokens.get (s.cursor + n) := by
  rw [ahead, Nat.max_eq_left (Nat.le_add_left 1 n), Nat.add_sub_cancel]

theorem goesOnAt_ahead {a : AnalyzedRule} {n : Nat} :
    c.GoesOnAt a (c.ahead s (n + 1)) ↔ c.resumesAt a (c.tokens.get (s.cursor + n)) = true := by
  rw [GoesOnAt, resumesAt, Bool.or_eq_true, List.any_eq_true, ahead_succ]

private theorem skipsTo_resumed {id : RuleId} {a : AnalyzedRule}
    (ha : c.analysis.rules[id]? = some a) {f : Failure} {n : Nat}
    (h : c.resumption? id f s.cursor = some n) :
    c.SkipsTo s a f n { c.diagnosis s f with recovery := .resynced n } (c.resumed id f n s) := by
  obtain ⟨-, -, a', ha', hnear, hstop, hfirst⟩ := resumption?_eq_some.mp h
  obtain rfl := Option.some.inj (ha.symm.trans ha')
  exact {
    near := hnear
    goesOn := goesOnAt_ahead.mpr hstop
    first := fun k hk h => Bool.false_ne_true ((hfirst k hk).symm.trans (goesOnAt_ahead.mp h))
    cursor := ParseState.cursor_report _ _ _
    repaired := repaired_report _ _
    stack := stack_report _ _
    reported := reported_of_eq (by rfl) (by rfl) _
    recovery := rfl
    code := rfl
    about := ⟨rfl, rfl⟩
    ruleStack := rfl }

private theorem canGoOn_iff {id : RuleId} {a : AnalyzedRule} (ha : c.analysis.rules[id]? = some a)
    {f : Failure} : c.CanGoOn s a f ↔ (c.resumption? id f s.cursor).isSome = true := by
  simp only [CanGoOn, isSome_resumption? ha, goesOnAt_ahead]

private theorem resync_spec {id : RuleId} {a : AnalyzedRule} (ha : c.analysis.rules[id]? = some a)
    (s : ParseState) (f : Failure) :
    (c.CanGoOn s a f
        ∧ ∃ n x t, c.resync id f s = .ok c.registry.blank t ∧ c.SkipsTo s a f n x t)
      ∨ ¬c.CanGoOn s a f ∧ c.resync id f s = .error f s := by
  rw [canGoOn_iff ha, resync_eq]
  cases h : c.resumption? id f s.cursor with
  | none => exact .inr ⟨nofun, rfl⟩
  | some n => exact .inl ⟨rfl, n, _, _, rfl, skipsTo_resumed ha h⟩

end ParseContext

namespace Registry

variable {V : Type} {r : Registry V} {a : AnalyzedGrammar}

private theorem Built.exists_analyzed (hr : r.Built) (ho : r.outcome = some (.ok a)) {id : RuleId}
    {rule : Rule V} (hrule : r.rules[id]? = some rule) :
    ∃ analysis, a.rules[id]? = some analysis ∧ analysis.name = rule.name := by
  obtain ⟨g, hg, ha⟩ := hr.exists_grammar ho
  obtain ⟨ps, hps, hok⟩ := Outcome.bind_eq_ok.mp hg
  obtain rfl : Grammar.ofList ps = g := Except.ok.inj hok
  obtain ⟨hid, rfl⟩ := Array.getElem?_eq_some_iff.mp hrule
  obtain ⟨hlength, hrecord⟩ := List.forall₂_iff_get.mp (Outcome.mapM_eq_ok.mp hps)
  have hid' : id < ps.length := hlength ▸ hid
  have hp : (Grammar.ofList ps).productions[id]? = some ps[id] := by simp [Grammar.ofList, hid']
  refine ⟨_, Grammar.getElem?_rules ha hp, ?_⟩
  have hname := hrecord id hid hid'
  simp only [record, List.get_eq_getElem, Array.getElem_toList] at hname
  split at hname
  · exact congrArg Production.name (Except.ok.inj hname).symm
  · cases hname

end Registry

/-- In every state of a parse, over rules that have been analyzed, a repair is made as a whole or
not at all: for a token that is missing, for a decision that cannot be made, and behind a rule that
failed. -/
theorem ParseContext.repairs_as_a_whole {V : Type} {c : ParseContext V}
    (hr : c.registry.Built) (ho : c.registry.outcome = some (.ok c.analysis)) (s : ParseState) :
    (∀ idx category, c.MendsTo s idx category (c.mend? s idx category)
        ∧ c.consume idx category s =
          if c.isA (c.ahead s 1).category category then c.advance s
          else
            match c.mend? s idx category with
            | some (t, s') => .ok t s'
            | none => .error (c.failure s (.mismatch [category])) s)
      ∧ (∀ (α : Type) site code expected (select : ParseState → Option α),
        (∃ a x t, c.deleteFor site code expected select s = (some a, t) ∧ c.PassesOver s site x t
            ∧ select { s with cursor := s.cursor + 1 } = some a)
          ∨ c.deleteFor site code expected select s = (none, s))
      ∧ (∀ idx d, c.DecidesTo s (.decision s.currentRule .atLeastOne idx)
        (fun t _ => c.enters t d = true) (c.enterOnce idx d s))
      ∧ (∀ n idx expecting (gate : Fin n → Option Gate) d,
        c.DecidesTo s (.decision s.currentRule .or idx)
          (fun t k => c.select? gate d t = some k) (c.choose idx expecting gate d s))
      ∧ ∀ id rule f, c.registry.rules[id]? = some rule →
        ∃ a, c.analysis.rules[id]? = some a ∧ a.name = rule.name
          ∧ ((c.CanGoOn s a f
              ∧ ∃ n x t, c.resync id f s = .ok c.registry.blank t ∧ c.SkipsTo s a f n x t
                ∧ (s.stack.length ≠ 1 → c.settle id f s = .ok c.registry.blank (leave t)))
            ∨ ¬c.CanGoOn s a f ∧ c.resync id f s = .error f s
              ∧ (s.stack.length ≠ 1 → c.settle id f s = .error f (leave s))) := by
  refine ⟨fun idx category => ⟨mendsTo_mend? s idx category, consume_eq s idx category⟩,
    fun α => deleteFor_cases s, enterOnce_decidesTo s, fun n => choose_decidesTo s,
    fun id rule f hrule => ?_⟩
  obtain ⟨a, ha, hname⟩ := hr.exists_analyzed ho hrule
  refine ⟨a, ha, hname, ?_⟩
  rcases resync_spec ha s f with ⟨hgo, n, x, t, ht, hskips⟩ | ⟨hstuck, hstays⟩
  · refine .inl ⟨hgo, n, x, t, ht, hskips, fun hinner => ?_⟩
    simp only [settle, if_neg hinner, ht]
  · refine .inr ⟨hstuck, hstays, fun hinner => ?_⟩
    simp only [settle, if_neg hinner, hstays]

def ParseState.beforeComma : ParseState := { start with stack := [1, 0] }

open Registry Session in
set_option maxRecDepth 4000 in
/-- The comma is deleted and the item behind it taken. If the item were given up, the parse could go
on at the comma. -/
theorem ParseContext.repairs_as_a_whole_noisySession :
    itemList.Built ∧ itemList.outcome = some (.ok itemAnalysis)
      ∧ (∃ x t, noisySession.context.consume 1 1 .beforeComma
          = .ok (noisySession.context.ahead .beforeComma 2) t
        ∧ noisySession.context.Repairs .beforeComma (.token 1 1 1) x t ∧ x.recovery = .deleted
        ∧ t.cursor = 2)
      ∧ ∃ a x t, noisySession.context.SkipsTo .beforeComma a
          ⟨.mismatch [1], .placeholder 2 .start⟩ 0 x t
        ∧ noisySession.context.settle 1 ⟨.mismatch [1], .placeholder 2 .start⟩ .beforeComma
          = .ok () (leave t) := by
  have hr : noisySession.context.registry.Built := finalized_itemList.built
  have ho : noisySession.context.registry.outcome = some (.ok noisySession.context.analysis) :=
    finalized_itemList.analyzed
  have hitem : noisySession.context.registry.rules[1]? = some itemRule := by
    change itemList.rules[1]? = _
    rw [rules_itemList]
    rfl
  obtain ⟨htokens, -, -, -, hrules⟩ := repairs_as_a_whole hr ho .beforeComma
  refine ⟨hr, ho, ?_, ?_⟩
  · obtain ⟨hmends, hconsume⟩ := htokens 1 1
    have hcursor : (noisySession.context.mend? .beforeComma 1 1).map (·.2.cursor) = some 2 := by cbv
    have hwrong : noisySession.context.isA
        (noisySession.context.ahead .beforeComma 1).category 1 = false := by cbv
    rw [hwrong] at hconsume
    generalize noisySession.context.mend? .beforeComma 1 1 = mended at hmends hcursor hconsume
    cases hmends with
    | refuse => cases hcursor
    | insert repairs recovery stays =>
      have htwo := stays.symm.trans (Option.some.inj hcursor)
      cases htwo
    | delete repairs recovery inner wanted takes =>
      exact ⟨_, _, hconsume, repairs, recovery, Option.some.inj hcursor⟩
  · obtain ⟨a, ha, -, hsettle⟩ := hrules 1 itemRule ⟨.mismatch [1], .placeholder 2 .start⟩ hitem
    have hfollow : (noisySession.context.analysis.rules[1]?.map (·.follow.toList)) = some [2] := by
      cbv
    have hcomma : noisySession.context.isA
        (noisySession.context.ahead .beforeComma 1).category 2 = true := by cbv
    have hon : noisySession.context.registry.preferences.recoveryEnabled = true := by cbv
    rw [ha, Option.map_some, Option.some.injEq] at hfollow
    have hgo : noisySession.context.GoesOnAt a (noisySession.context.ahead .beforeComma 1) :=
      .inr ⟨2, hfollow ▸ List.mem_singleton_self 2, hcomma⟩
    rcases hsettle with ⟨-, n, x, t, -, hskips, hok⟩ | ⟨hstuck, -, -⟩
    · obtain rfl : n = 0 := by
        by_contra hne
        exact hskips.first 0 (Nat.pos_of_ne_zero hne) hgo
      exact ⟨a, x, t, hskips, hok (by decide)⟩
    · exact absurd ⟨hon, rfl, 0, Nat.zero_le _, hgo⟩ hstuck

end PredictiveParsing
