import PredictiveParsing.Parsing.Run

/-!
# Attempts to go on

An attempt to go on behind something wrong moves forward before it is known whether the parse can go
on there. If it cannot, the attempt goes back, and the state is as it was.
-/

namespace PredictiveParsing

/-- A search along the tokens ends at the first one at which to stop, or at the last one that it may
go to. -/
theorem skipTo_eq (stop : Token → Bool) (tokens : TokenStream) (i left skipped : Nat) :
    skipTo stop tokens left skipped (i + skipped) =
      match (List.range' skipped (left + 1)).find? fun k => stop (tokens.get (i + k)) with
      | some n => (some n, i + n)
      | none => (none, i + skipped + left) := by
  induction left generalizing skipped with
  | zero =>
    rw [skipTo, List.range'_succ, List.find?_cons, List.range'_zero, List.find?_nil]
    cases stop (tokens.get (i + skipped)) <;> rfl
  | succ left ih =>
    rw [skipTo, List.range'_succ, List.find?_cons]
    cases stop (tokens.get (i + skipped)) with
    | true => rfl
    | false =>
      refine (ih (skipped + 1)).trans ?_
      simp only [Nat.add_assoc, Nat.add_comm 1 left]

namespace ParseContext

variable {V : Type} (c : ParseContext V)

/-! ## Having a token -/

section

variable {c} {s : ParseState} {idx : Nat} {category : CategoryId}

theorem consume_of_isA (h : c.isA (c.ahead s 1).category category = true) :
    c.consume idx category s = c.advance s := by
  rw [consume, if_pos h]

theorem consume_of_tokenRepair? {repair : TokenRepair}
    (h : c.isA (c.ahead s 1).category category = false)
    (hr : c.tokenRepair? s idx category = some repair) :
    c.consume idx category s = c.repairToken idx category repair s := by
  simp only [consume, h, hr, Bool.false_eq_true, if_false]

theorem consume_of_mismatch (h : c.isA (c.ahead s 1).category category = false)
    (hr : c.tokenRepair? s idx category = none) :
    c.consume idx category s = .error (c.failure s (.mismatch [category])) s := by
  simp only [consume, h, hr, Bool.false_eq_true, if_false]

end

/-! ## Passing over one token -/

/-- What is decided behind the next token, if this may be passed over. -/
def passage? {α : Type} (site : RepairSite) (select : ParseState → Option α) (s : ParseState) :
    Option α :=
  if !c.registry.preferences.recoveryEnabled || (c.ahead s 1).isEof || s.repaired.contains site then
    none
  else select { s with cursor := s.cursor + 1 }

/-- The state behind the next token when this has been passed over. -/
def passed (site : RepairSite) (code : Code) (expected : List CategoryId) (s : ParseState) :
    ParseState :=
  c.reportRepair { s with cursor := s.cursor + 1, repaired := site :: s.repaired } code
    s!"Unexpected {(c.ahead s 1).text}, token deleted" expected (c.ahead s 1) .deleted

variable {c}

theorem deleteFor_eq {α : Type} (site : RepairSite) (code : Code) (expected : List CategoryId)
    (select : ParseState → Option α) (s : ParseState) :
    c.deleteFor site code expected select s =
      match c.passage? site select s with
      | some a => (some a, c.passed site code expected s)
      | none => (none, s) := by
  simp only [deleteFor, passage?]
  split
  · rfl
  · cases select { s with cursor := s.cursor + 1 } <;> rfl

theorem passage?_eq_some {α : Type} {site : RepairSite} {select : ParseState → Option α}
    {s : ParseState} {a : α} : c.passage? site select s = some a ↔
      c.registry.preferences.recoveryEnabled = true ∧ (c.ahead s 1).isEof = false
        ∧ site ∉ s.repaired ∧ select { s with cursor := s.cursor + 1 } = some a := by
  simp only [passage?, Option.ite_none_left_eq_some, Bool.or_eq_true, not_or, Bool.not_eq_true',
    Bool.not_eq_false, Bool.not_eq_true, List.contains_eq_mem, decide_eq_false_iff_not, and_assoc]

theorem enterOnce_eq (idx : Nat) (d : Decision) (s : ParseState) :
    c.enterOnce idx d s =
      let site := RepairSite.decision s.currentRule .atLeastOne idx
      let expected := Decision.startCategories (d.alternatives.take 1)
      if c.enters s d then .ok () s
      else
        match c.passage? site (fun s => if c.enters s d then some () else none) s with
        | some _ => .ok () (c.passed site Code.earlyExit expected s)
        | none => .error (c.failure s (.earlyExit expected)) s := by
  simp only [enterOnce, deleteFor_eq]
  split
  · rfl
  · cases c.passage? _ _ s <;> rfl

theorem choose_eq {n : Nat} (idx : Nat) (expecting : Option String) (gate : Fin n → Option Gate)
    (d : Decision) (s : ParseState) :
    c.choose idx expecting gate d s =
      let site := RepairSite.decision s.currentRule .or idx
      let expected := Decision.startCategories d.alternatives
      match c.select? gate d s with
      | some k => .ok k s
      | none =>
        match c.passage? site (c.select? gate d) s with
        | some k => .ok k (c.passed site Code.noViableAlternative expected s)
        | none => .error (c.failure s (.noAlternative expected expecting)) s := by
  simp only [choose, deleteFor_eq]
  cases c.select? gate d s with
  | some k => rfl
  | none => cases c.passage? _ _ s <;> rfl

/-! ## Giving up a rule -/

variable (c)

/-- The number of tokens from the one with index `i` on that are skipped when a rule is given up
there. -/
def resumption? (rule : RuleId) (f : Failure) (i : Nat) : Option Nat :=
  if !c.registry.preferences.recoveryEnabled || !f.isLocal then none
  else
    c.analysis.rules[rule]?.bind fun analysis =>
      (List.range (Limits.maxRecoveryScan + 1)).find? fun k =>
        c.resumesAt analysis (c.tokens.get (i + k))

/-- The state behind `n` tokens that have been skipped. -/
def resumed (rule : RuleId) (f : Failure) (n : Nat) (s : ParseState) : ParseState :=
  let e := .debug "Re-synchronized after failure"
    [("rule", c.registry.ruleName rule), ("skipped", toString n),
      ("resume", toString (s.cursor + n))]
  c.report ({ s with cursor := s.cursor + n }.note e)
    { c.diagnosis s f with recovery := .resynced n }

variable {c}

theorem resync_eq (rule : RuleId) (f : Failure) (s : ParseState) :
    c.resync rule f s =
      match c.resumption? rule f s.cursor with
      | some n => .ok c.registry.blank (c.resumed rule f n s)
      | none => .error f s := by
  simp only [resync, resumption?]
  split
  · rfl
  · cases c.analysis.rules[rule]? with
    | none => rfl
    | some analysis =>
      have hskip := skipTo_eq (c.resumesAt analysis) c.tokens s.cursor Limits.maxRecoveryScan 0
      rw [← List.range_eq_range'] at hskip
      simp only [Nat.add_zero] at hskip
      simp only [hskip, Option.bind_some]
      generalize List.find? _ _ = found
      cases found <;> rfl

theorem settle_eq (id : RuleId) (f : Failure) (s : ParseState) :
    c.settle id f s =
      if s.stack.length = 1 then .ok c.registry.blank (leave (c.report s (c.diagnosis s f)))
      else
        match c.resumption? id f s.cursor with
        | some n => .ok c.registry.blank (leave (c.resumed id f n s))
        | none => .error f (leave s) := by
  simp only [settle, resync_eq]
  split
  · rfl
  · cases c.resumption? id f s.cursor <;> rfl

theorem resumption?_eq_some {rule : RuleId} {f : Failure} {i n : Nat} :
    c.resumption? rule f i = some n ↔
      c.registry.preferences.recoveryEnabled = true ∧ f.isLocal = true
        ∧ ∃ a, c.analysis.rules[rule]? = some a ∧ n ≤ Limits.maxRecoveryScan
          ∧ c.resumesAt a (c.tokens.get (i + n)) = true
          ∧ ∀ k < n, c.resumesAt a (c.tokens.get (i + k)) = false := by
  simp only [resumption?, Option.ite_none_left_eq_some, Bool.or_eq_true, not_or,
    Bool.not_eq_true', Bool.not_eq_false, Option.bind_eq_some_iff, List.find?_range_eq_some,
    List.mem_range, Nat.lt_succ_iff, and_assoc]
  refine and_congr_right fun _ => and_congr_right fun _ => exists_congr fun a =>
    and_congr_right fun _ => ?_
  exact and_left_comm

/-- A rule that failed is given up exactly where the parse can go on near enough. -/
theorem isSome_resumption? {rule : RuleId} {f : Failure} {i : Nat} {a : AnalyzedRule}
    (ha : c.analysis.rules[rule]? = some a) : (c.resumption? rule f i).isSome = true ↔
      c.registry.preferences.recoveryEnabled = true ∧ f.isLocal = true
        ∧ ∃ n ≤ Limits.maxRecoveryScan, c.resumesAt a (c.tokens.get (i + n)) = true := by
  by_cases hoff : (!c.registry.preferences.recoveryEnabled || !f.isLocal) = true
  · rw [resumption?, if_pos hoff]
    simp only [Bool.or_eq_true, Bool.not_eq_true'] at hoff
    rcases hoff with h | h <;> simp [h]
  · rw [resumption?, if_neg hoff, ha, Option.bind_some, List.find?_isSome]
    simp only [Bool.or_eq_true, not_or, Bool.not_eq_true', Bool.not_eq_false] at hoff
    simp only [List.mem_range, Nat.lt_succ_iff, hoff, true_and]

end ParseContext

end PredictiveParsing
