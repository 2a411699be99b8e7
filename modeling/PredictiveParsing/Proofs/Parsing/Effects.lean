import PredictiveParsing.Proofs.Parsing.Deeds

/-!
# What a deed does

A deed goes forward in the stream by the tokens that it returns, deletes or skips, and leaves a
diagnostic of every repair that it makes.
-/

namespace PredictiveParsing

/-! ## Reports and the limit on them -/

namespace ParseState

/-- The state with nothing reported. -/
def cleared (s : ParseState) : ParseState := { s with diagnostics := #[], suppressed := 0 }

/-- Between the states the diagnostics are reported: those that there is room for are kept, and the
others are counted. -/
structure Reported (cap : Nat) (s : ParseState) (ds : List Diagnostic) (t : ParseState) : Prop where
  kept : t.diagnostics.toList = s.diagnostics.toList ++ ds.take (cap - s.diagnostics.size)
  suppressed : t.suppressed = s.suppressed + (ds.length - (cap - s.diagnostics.size))

namespace Reported

variable {cap : Nat} {s t u : ParseState} {xs ys : List Diagnostic}

theorem nothing (hd : t.diagnostics = s.diagnostics) (hs : t.suppressed = s.suppressed) :
    Reported cap s [] t where
  kept := by rw [hd, List.take_nil, List.append_nil]
  suppressed := by rw [hs, List.length_nil, Nat.zero_sub, Nat.add_zero]

theorem append (h : Reported cap s xs t) (h' : Reported cap t ys u) :
    Reported cap s (xs ++ ys) u := by
  have hsize : t.diagnostics.size = s.diagnostics.size + min (cap - s.diagnostics.size) xs.length :=
    by simpa using congrArg List.length h.kept
  have hroom : (ys.take (cap - t.diagnostics.size))
      = ys.take (cap - s.diagnostics.size - xs.length) := by
    congr 1
    omega
  refine ⟨?_, ?_⟩
  · rw [h'.kept, h.kept, List.take_append, hroom, List.append_assoc]
  · rw [h'.suppressed, h.suppressed, List.length_append]
    omega

end Reported

theorem cursor_report (cap : Nat) (s : ParseState) (d : Diagnostic) :
    (s.report cap d).cursor = s.cursor := by
  rw [report]
  split <;> rfl

theorem reported_report (cap : Nat) (s : ParseState) (d : Diagnostic) :
    s.Reported cap [d] (s.report cap d) := by
  rw [report]
  split
  · rename_i h
    have hroom : cap - s.diagnostics.size = 0 := Nat.sub_eq_zero_of_le h
    refine ⟨?_, ?_⟩
    · rw [hroom, List.take_zero, List.append_nil]
    · rw [hroom, List.length_singleton]
  · rename_i h
    obtain ⟨room, hroom⟩ : ∃ room, cap - s.diagnostics.size = room + 1 :=
      ⟨cap - s.diagnostics.size - 1, by omega⟩
    refine ⟨?_, ?_⟩
    · rw [hroom, List.take_succ_cons, List.take_nil, Array.toList_push]
    · rw [hroom, List.length_singleton]
      exact (by omega : s.suppressed = s.suppressed + (1 - (room + 1)))

end ParseState

/-! ## Deeds -/

/-- The diagnostic shows a token where another one should be. -/
def Diagnostic.IsAbout (d : Diagnostic) (t : Token) : Prop := d.actual = some t ∧ d.span = t.span

/-- The token with index `i` is taken, if any is, and `j` is the index of the next one. The end of
the input stays the next token when it is taken. -/
inductive TokenStream.Takes (tokens : TokenStream) (i : Nat) : Option Token → Nat → Prop
  | nothing : Takes tokens i none i
  | token (h : i < tokens.endIndex) : Takes tokens i (some (tokens.get i)) (i + 1)
  | last (h : tokens.endIndex ≤ i) : Takes tokens i (some (tokens.get i)) i

/-- The gate where `ds` have been reported. -/
def Gate.seeing (ds : Array Diagnostic) (g : Gate) : Gate :=
  ⟨fun v => g.isOpen { v with reports := ds }⟩

/-- The body, the gates of its first step as they are where `ds` have been reported. -/
def Body.seeing {V : Type} (ds : Array Diagnostic) : Body V → Body V
  | choice idx expecting gate body rest =>
    choice idx expecting (fun k => (gate k).map (·.seeing ds)) body rest
  | body => body

namespace Deed

variable {V : Type} (c : ParseContext V)

/-- The deed where nothing has been reported, but with gates that see what has been. -/
def cleared (d : Deed V) : Deed V where
  state := d.state.cleared
  act :=
    match d.act with
    | .step body => .step (body.seeing d.state.diagnostics)
    | act => act

/-- The diagnostics of a deed, also if there is no room for them: those that it leaves where nothing
has been reported. -/
def reports (d : Deed V) : List Diagnostic := (d.cleared.after c).diagnostics.toList

/-- The token that a step returns which consumes one. -/
def returned? (d : Deed V) : Option Token :=
  match d.act with
  | .step (.consume idx category _) =>
    match c.consume idx category d.state with
    | .ok t _ => some t
    | .error _ _ => none
  | _ => none

/-- The codes of diagnostics of deleted and supplied tokens. -/
def repairCodes : List Code :=
  [Code.mismatchedToken, Code.earlyExit, Code.noViableAlternative]

/-- What a deed reports, the token that it returns and the index of the token that comes next. -/
inductive Does (d : Deed V) : List Diagnostic → Option Token → Nat → Prop
  | goOn {t : Option Token} {j : Nat} (h : c.tokens.Takes d.state.cursor t j) : Does d [] t j
  /-- A token is deleted, and the one behind it may be taken. -/
  | delete (x : Diagnostic) (step : ∃ body, d.act = .step body)
      (on : c.registry.preferences.recoveryEnabled = true) (recovery : x.recovery = .deleted)
      (code : x.code ∈ repairCodes) (about : x.IsAbout (c.ahead d.state 1))
      (inside : d.state.cursor < c.tokens.endIndex)
      {t : Option Token} {j : Nat} (h : c.tokens.Takes (d.state.cursor + 1) t j) : Does d [x] t j
  /-- A token is supplied. -/
  | insert (x : Diagnostic) (step : ∃ body, d.act = .step body)
      (on : c.registry.preferences.recoveryEnabled = true) (recovery : x.recovery = .inserted)
      (code : x.code ∈ repairCodes) (about : x.IsAbout (c.ahead d.state 1)) {t : Token}
      (supplied : t.inserted = true) :
      Does d [x] (some t) d.state.cursor
  /-- The rest of a rule that failed is skipped. -/
  | resync (x : Diagnostic) {id : RuleId} {f : Failure} (act : d.act = .settle id f)
      (inner : d.state.stack.length ≠ 1) (on : c.registry.preferences.recoveryEnabled = true)
      (n : Nat) (recovery : x.recovery = .resynced n) (code : x.code = f.code)
      (about : x.IsAbout f.actual) (inside : d.state.cursor + n ≤ c.tokens.endIndex) :
      Does d [x] none (d.state.cursor + n)
  /-- The start rule has failed. -/
  | giveUp {id : RuleId} {f : Failure} (act : d.act = .settle id f)
      (outermost : d.state.stack.length = 1) :
      Does d [c.diagnosis d.state f] none d.state.cursor
  /-- There are tokens left. -/
  | leftOver (x : Diagnostic) (act : d.act = .finish) (code : x.code = Code.notAllInputParsed)
      (expected : x.expected = [CategoryId.eof]) (recovery : x.recovery = .none)
      (about : x.IsAbout (c.ahead d.state 1)) : Does d [x] none d.state.cursor

end Deed

theorem TokenStream.isEof_get {tokens : TokenStream} {i : Nat} (h : tokens.endIndex ≤ i) :
    (tokens.get i).isEof = true := by
  have hnone : tokens.before[i]? = none := Array.getElem?_eq_none h
  simp [get, hnone, Token.isEof, tokens.last_isEof]

namespace ParseContext

variable {V : Type} (c : ParseContext V)

theorem diagnosticLimit_pos (p : ParserPreferences) : 1 ≤ p.diagnosticLimit := Nat.le_max_left 1 _

private theorem diagnostics_report {s : ParseState} (h : s.diagnostics = #[]) (x : Diagnostic) :
    (c.report s x).diagnostics.toList = [x] := by
  have hroom := diagnosticLimit_pos c.registry.preferences
  rw [report, (s.reported_report _ x).kept, h]
  exact List.take_of_length_le hroom

private theorem leave_report (s : ParseState) (x : Diagnostic) :
    leave (c.report s x) = c.report (leave s) x := by
  by_cases h : c.registry.preferences.diagnosticLimit ≤ s.diagnostics.size
  · simp [report, ParseState.report, leave, h]
  · simp [report, ParseState.report, leave, h]

theorem lt_endIndex_of_isEof {s : ParseState} (h : (c.ahead s 1).isEof = false) :
    s.cursor < c.tokens.endIndex :=
  Nat.lt_of_not_le fun hge => Bool.false_ne_true (h.symm.trans (TokenStream.isEof_get hge))

/-- A token is repaired at a site that was analyzed and has not been repaired yet. It is deleted if
it is not the end of the input and the one behind it is wanted. -/
theorem tokenRepair?_eq_some {s : ParseState} {idx : Nat} {category : CategoryId}
    {repair : TokenRepair} (h : c.tokenRepair? s idx category = some repair) :
    c.registry.preferences.recoveryEnabled = true
      ∧ .token s.currentRule category idx ∉ s.repaired
      ∧ (∃ a x, c.analysis.rules[s.currentRule]? = some a ∧ a.site? category idx = some x)
      ∧ (repair = .delete → (c.ahead s 1).isEof = false
        ∧ c.isA (c.ahead s 2).category category = true) := by
  simp only [tokenRepair?] at h
  split at h
  · cases h
  · rename_i hopen
    simp only [Bool.or_eq_true, not_or, Bool.not_eq_true', Bool.not_eq_false,
      List.contains_iff_mem] at hopen
    obtain ⟨a, ha, h⟩ := Option.bind_eq_some_iff.mp h
    obtain ⟨x, hx, h⟩ := Option.bind_eq_some_iff.mp h
    refine ⟨hopen.1, hopen.2, ⟨a, x, ha, hx⟩, fun hdelete => ?_⟩
    subst hdelete
    split at h
    · rename_i hnoise
      simp only [Bool.and_eq_true, Bool.not_eq_true'] at hnoise
      exact ⟨hnoise.1.1, hnoise.2⟩
    · split at h <;> cases h

theorem recoveryEnabled_of_tokenRepair? {s : ParseState} {idx : Nat} {category : CategoryId}
    {repair : TokenRepair} (h : c.tokenRepair? s idx category = some repair) :
    c.registry.preferences.recoveryEnabled = true :=
  (c.tokenRepair?_eq_some h).1

private theorem isEof_of_tokenRepair? {s : ParseState} {idx : Nat} {category : CategoryId}
    (h : c.tokenRepair? s idx category = some .delete) : (c.ahead s 1).isEof = false :=
  ((c.tokenRepair?_eq_some h).2.2.2 rfl).1

end ParseContext

namespace Deed

variable {V : Type} {c : ParseContext V} {d : Deed V}

open ParseContext Parse

/-- What a deed reports is kept or counted, and it goes forward by what it returns and reports. -/
structure Effect (c : ParseContext V) (d : Deed V) : Prop where
  reported :
    d.state.Reported c.registry.preferences.diagnosticLimit (d.reports c) (d.after c)
  does : d.Does c (d.reports c) (d.returned? c) (d.after c).cursor

theorem Effect.of_quiet (hd : (d.after c).diagnostics = d.state.diagnostics)
    (hs : (d.after c).suppressed = d.state.suppressed)
    (hcleared : (d.cleared.after c).diagnostics = #[])
    (ht : c.tokens.Takes d.state.cursor (d.returned? c) (d.after c).cursor) : d.Effect c := by
  have hreports : d.reports c = [] := by rw [reports, hcleared]
  exact ⟨hreports ▸ .nothing hd hs, hreports ▸ .goOn ht⟩

/-- A deed that reports something, which is the same whatever has been reported. -/
theorem Effect.of_report {x x' : Diagnostic} {m m' : ParseState} (h : d.after c = c.report m x)
    (hcleared : d.cleared.after c = c.report m' x') (hx : x' = x)
    (hd : m.diagnostics = d.state.diagnostics) (hs : m.suppressed = d.state.suppressed)
    (hd' : m'.diagnostics = #[]) (hdoes : d.Does c [x] (d.returned? c) m.cursor) :
    d.Effect c := by
  have hreports : d.reports c = [x] := by rw [reports, hcleared, c.diagnostics_report hd', hx]
  refine ⟨?_, ?_⟩
  · rw [hreports, h]
    exact (ParseState.Reported.nothing hd hs).append (m.reported_report _ x)
  · rw [hreports, h, ParseContext.report, ParseState.cursor_report]
    exact hdoes

/-- A deed that leaves the state alone whatever has been reported, and returns no token. -/
theorem Effect.of_steady (h : d.after c = d.state)
    (hcleared : d.cleared.after c = d.state.cleared)
    (hreturned : d.returned? c = none) : d.Effect c := by
  refine .of_quiet (by rw [h]) (by rw [h]) (by rw [hcleared]; rfl) ?_
  rw [h, hreturned]
  exact .nothing

/-! ## Consuming -/

section

variable {s : ParseState} {idx : Nat} {category : CategoryId} {rest : Body V}

theorem after_consume (s : ParseState) :
    Deed.after c ⟨s, .step (.consume idx category rest)⟩ = (c.consume idx category).after s :=
  after_discard _ s

private theorem effect_of_isA (h : c.isA (c.ahead s 1).category category = true) :
    Effect c ⟨s, .step (.consume idx category rest)⟩ := by
  have hreturned : Deed.returned? c ⟨s, .step (.consume idx category rest)⟩
      = some (c.tokens.get s.cursor) := by
    simp only [returned?, consume_of_isA h, advance]
    rfl
  have hafter : ∀ m : ParseState, m.cursor = s.cursor →
      Deed.after c ⟨m, .step (.consume idx category rest)⟩
        = if s.cursor < c.tokens.endIndex then { m with cursor := s.cursor + 1 } else m := by
    intro m hm
    have hnext : c.ahead m 1 = c.ahead s 1 := by rw [ahead, hm, ahead]
    rw [after_consume, Parse.after, consume_of_isA (hnext ▸ h)]
    simp only [advance, hm, stateOf]
  have hs := hafter s rfl
  have hcleared := hafter s.cleared rfl
  by_cases hi : s.cursor < c.tokens.endIndex
  · rw [if_pos hi] at hs hcleared
    refine .of_quiet (by rw [hs]) (by rw [hs]) (congrArg ParseState.diagnostics hcleared) ?_
    rw [hs, hreturned]
    exact .token hi
  · rw [if_neg hi] at hs hcleared
    refine .of_quiet (by rw [hs]) (by rw [hs]) (congrArg ParseState.diagnostics hcleared) ?_
    rw [hs, hreturned]
    exact .last (Nat.le_of_not_lt hi)

private theorem effect_of_insert (h : c.isA (c.ahead s 1).category category = false)
    (hr : c.tokenRepair? s idx category = some .insert) :
    Effect c ⟨s, .step (.consume idx category rest)⟩ := by
  have hs : c.consume idx category s = c.repairToken idx category .insert s :=
    consume_of_tokenRepair? h hr
  have hcleared : c.consume idx category s.cleared
      = c.repairToken idx category .insert s.cleared := consume_of_tokenRepair? h hr
  have hreturned : Deed.returned? c ⟨s, .step (.consume idx category rest)⟩
      = some (.placeholder category (c.ahead s 1).span.start) := by
    simp only [returned?, hs, repairToken]
  refine .of_report ((after_consume s).trans (after_eq_of_ok (hs.trans rfl)))
    ((after_consume s.cleared).trans (after_eq_of_ok (hcleared.trans rfl))) rfl rfl rfl rfl ?_
  rw [hreturned]
  exact .insert _ ⟨_, rfl⟩ (c.recoveryEnabled_of_tokenRepair? hr) rfl List.mem_cons_self
    ⟨rfl, rfl⟩ rfl

private theorem effect_of_delete (h : c.isA (c.ahead s 1).category category = false)
    (hr : c.tokenRepair? s idx category = some .delete) :
    Effect c ⟨s, .step (.consume idx category rest)⟩ := by
  have hs : c.consume idx category s = c.repairToken idx category .delete s :=
    consume_of_tokenRepair? h hr
  have hcleared : c.consume idx category s.cleared
      = c.repairToken idx category .delete s.cleared := consume_of_tokenRepair? h hr
  have hreturned : Deed.returned? c ⟨s, .step (.consume idx category rest)⟩
      = some (c.tokens.get (s.cursor + 1)) := by
    simp only [returned?, hs, repairToken, advance]
    rfl
  have hinside := c.lt_endIndex_of_isEof (c.isEof_of_tokenRepair? hr)
  refine .of_report ((after_consume s).trans (after_eq_of_ok (hs.trans rfl)))
    ((after_consume s.cleared).trans (after_eq_of_ok (hcleared.trans rfl))) ?_ ?_ ?_ ?_ ?_
  · by_cases hi : s.cursor + 1 < c.tokens.endIndex
    · simp only [ParseState.cleared, hi, if_true]
      rfl
    · simp only [ParseState.cleared, hi, if_false]
      rfl
  · split <;> rfl
  · split <;> rfl
  · split <;> rfl
  · rw [hreturned]
    refine .delete _ ⟨_, rfl⟩ (c.recoveryEnabled_of_tokenRepair? hr) rfl List.mem_cons_self
      ⟨rfl, rfl⟩ hinside ?_
    split
    · exact .token ‹_›
    · exact .last (Nat.le_of_not_lt ‹_›)

private theorem effect_consume (s : ParseState) (idx : Nat) (category : CategoryId)
    (rest : Body V) : Effect c ⟨s, .step (.consume idx category rest)⟩ := by
  cases h : c.isA (c.ahead s 1).category category with
  | true => exact effect_of_isA h
  | false =>
    cases hr : c.tokenRepair? s idx category with
    | some repair =>
      cases repair with
      | delete => exact effect_of_delete h hr
      | insert => exact effect_of_insert h hr
    | none =>
      have hs : c.consume idx category s = .error (c.failure s (.mismatch [category])) s :=
        consume_of_mismatch h hr
      have hcleared : c.consume idx category s.cleared
          = .error (c.failure s (.mismatch [category])) s.cleared := consume_of_mismatch h hr
      refine .of_steady ((after_consume s).trans (after_eq_of_error hs))
        ((after_consume s.cleared).trans (after_eq_of_error hcleared)) ?_
      simp only [returned?, hs]

end

/-! ## Other steps -/

/-- In both states a token is passed over, with the same report. -/
structure Deletes (c : ParseContext V) (s t t' : ParseState) : Prop where
  on : c.registry.preferences.recoveryEnabled = true
  inside : s.cursor < c.tokens.endIndex
  passed : ∃ site code expected, code ∈ repairCodes ∧ t = c.passed site code expected s
    ∧ t' = c.passed site code expected s.cleared

theorem deletes_of_passage? {α : Type} {s : ParseState} {site : RepairSite}
    {select : ParseState → Option α} {a : α} (h : c.passage? site select s = some a) {code : Code}
    (hcode : code ∈ repairCodes) (expected : List CategoryId) :
    Deletes c s (c.passed site code expected s) (c.passed site code expected s.cleared) := by
  obtain ⟨hon, hinner, -, -⟩ := passage?_eq_some.mp h
  exact ⟨hon, c.lt_endIndex_of_isEof hinner, site, code, expected, hcode, rfl, rfl⟩

private theorem select?_seeing {n : Nat} (gate : Fin n → Option Gate) (d : Decision)
    (s : ParseState) : c.select? (fun k => (gate k).map (·.seeing s.diagnostics)) d s.cleared
      = c.select? gate d s := by
  have hgates : ∀ k, ((gate k).map (·.seeing s.diagnostics)).all (·.isOpen (c.view s.cleared))
      = (gate k).all (·.isOpen (c.view s)) := by
    intro k
    cases gate k <;> rfl
  simp only [select?, hgates]
  rfl

/-- The part leaves the state alone, whatever has been reported. -/
def Looks {α : Type} (x : Parse α) : Prop :=
  ∀ s : ParseState, (∃ a, x s = .ok a s ∧ x s.cleared = .ok a s.cleared)
    ∨ ∃ f, x s = .error f s ∧ x s.cleared = .error f s.cleared

/-- The parts leave the state alone or pass over one token, the one of them where nothing has been
reported. -/
def Mends {α : Type} (c : ParseContext V) (s : ParseState) (x x' : Parse α) : Prop :=
  (x.after s = s ∧ x'.after s.cleared = s.cleared)
    ∨ Deletes c s (x.after s) (x'.after s.cleared)

section

variable {α β : Type} {s : ParseState} {x x' : Parse α}

theorem Looks.bind {f : α → Parse β} (hx : Looks x) (hf : ∀ a, Looks (f a)) :
    Looks (x >>= f) := by
  intro s
  rcases hx s with ⟨a, h, h'⟩ | ⟨e, h, h'⟩
  · simp only [Bind.bind, EStateM.bind, h, h']
    exact hf a s
  · simp only [Bind.bind, EStateM.bind, h, h']
    exact .inr ⟨e, rfl, rfl⟩

theorem Looks.mends (hx : Looks x) (s : ParseState) : Mends c s x x := by
  rcases hx s with ⟨a, h, h'⟩ | ⟨e, h, h'⟩
  · exact .inl ⟨after_eq_of_ok h, after_eq_of_ok h'⟩
  · exact .inl ⟨after_eq_of_error h, after_eq_of_error h'⟩

private theorem Looks.bind_mends {f f' : α → Parse β} (hx : Looks x)
    (hf : ∀ a, Mends c s (f a) (f' a)) : Mends c s (x >>= f) (x >>= f') := by
  simp only [Mends, Parse.after]
  rcases hx s with ⟨a, h, h'⟩ | ⟨e, h, h'⟩
  · simp only [Bind.bind, EStateM.bind, h, h']
    exact hf a
  · simp only [Bind.bind, EStateM.bind, h, h']
    exact .inl ⟨rfl, rfl⟩

theorem Mends.congr {y y' : Parse β} (hx : Mends c s x x') (h : ∀ s, y.after s = x.after s)
    (h' : ∀ s, y'.after s = x'.after s) : Mends c s y y' := by
  rw [Mends, h, h']
  exact hx

theorem Mends.discard (hx : Mends c s x x') :
    Mends c s (Functor.discard x : Parse Unit) (Functor.discard x') :=
  hx.congr (after_discard x) (after_discard x')

end

theorem looks_decision (kind : DecisionKind) (idx : Nat) : Looks (c.decision kind idx) := by
  intro s
  cases h : c.decision? s kind idx with
  | some d =>
    have h' : c.decision? s.cleared kind idx = some d := h
    simp only [decision, h, h']
    exact .inl ⟨d, rfl, rfl⟩
  | none =>
    have h' : c.decision? s.cleared kind idx = none := h
    simp only [decision, h, h']
    exact .inr ⟨_, rfl, rfl⟩

theorem looks_choiceDecision (idx n : Nat) : Looks (c.choiceDecision idx n) := by
  refine (looks_decision .or idx).bind fun d => ?_
  split
  · exact fun s => .inl ⟨d, rfl, rfl⟩
  · exact fun s => .inr ⟨_, rfl, rfl⟩

theorem mends_enterOnce (s : ParseState) (idx : Nat) (d : Decision) :
    Mends c s (c.enterOnce idx d) (c.enterOnce idx d) := by
  have hcleared := enterOnce_eq (c := c) idx d s.cleared
  have hs := enterOnce_eq (c := c) idx d s
  cases h : c.enters s d with
  | true =>
    have h' : c.enters s.cleared d = true := h
    simp only [h, h', if_true] at hs hcleared
    exact .inl ⟨after_eq_of_ok hs, after_eq_of_ok hcleared⟩
  | false =>
    have h' : c.enters s.cleared d = false := h
    simp only [h, h', Bool.false_eq_true, if_false] at hs hcleared
    cases hp : c.passage? (.decision s.currentRule .atLeastOne idx)
        (fun s => if c.enters s d then some () else none) s with
    | none =>
      have hp' : c.passage? (.decision s.cleared.currentRule .atLeastOne idx)
        (fun s => if c.enters s d then some () else none) s.cleared = none := hp
      rw [hp] at hs
      rw [hp'] at hcleared
      exact .inl ⟨after_eq_of_error hs, after_eq_of_error hcleared⟩
    | some a =>
      have hp' : c.passage? (.decision s.cleared.currentRule .atLeastOne idx)
        (fun s => if c.enters s d then some () else none) s.cleared = some a := hp
      rw [hp] at hs
      rw [hp'] at hcleared
      refine .inr ?_
      rw [after_eq_of_ok hs, after_eq_of_ok hcleared]
      exact deletes_of_passage? hp (by simp [repairCodes]) _

theorem mends_choose (s : ParseState) {n : Nat} (idx : Nat) (expecting : Option String)
    (gate : Fin n → Option Gate) (d : Decision) :
    Mends c s (c.choose idx expecting gate d)
      (c.choose idx expecting (fun k => (gate k).map (·.seeing s.diagnostics)) d) := by
  have hcleared := choose_eq (c := c) idx expecting
    (fun k => (gate k).map (·.seeing s.diagnostics)) d s.cleared
  have hs := choose_eq (c := c) idx expecting gate d s
  simp only [select?_seeing] at hcleared
  cases h : c.select? gate d s with
  | some k =>
    simp only [h] at hs hcleared
    exact .inl ⟨after_eq_of_ok hs, after_eq_of_ok hcleared⟩
  | none =>
    -- behind the token, too, the gates see what has been reported
    have hp' : c.passage? (.decision s.cleared.currentRule .or idx)
        (c.select? (fun k => (gate k).map (·.seeing s.diagnostics)) d) s.cleared
          = c.passage? (.decision s.currentRule .or idx) (c.select? gate d) s :=
      congrArg (ite _ none) (select?_seeing gate d { s with cursor := s.cursor + 1 })
    simp only [h, hp'] at hs hcleared
    cases hp : c.passage? (.decision s.currentRule .or idx) (c.select? gate d) s with
    | none =>
      simp only [hp] at hs hcleared
      exact .inl ⟨after_eq_of_error hs, after_eq_of_error hcleared⟩
    | some k =>
      simp only [hp] at hs hcleared
      refine .inr ?_
      rw [after_eq_of_ok hs, after_eq_of_ok hcleared]
      exact deletes_of_passage? hp (by simp [repairCodes]) _

theorem looks_resolve (name : String) : Looks (c.resolve name) := by
  intro s
  cases h : c.registry.find? name with
  | some found =>
    exact .inl ⟨(), by simp only [resolve, h], by simp only [resolve, h]⟩
  | none =>
    simp only [resolve, h]
    exact .inr ⟨_, rfl, rfl⟩

private theorem looks_pure {α : Type} (a : α) : Looks (pure a) := fun _ => .inl ⟨a, rfl, rfl⟩

private theorem mends_opening {body : Body V}
    (h : ∀ idx category rest, body ≠ .consume idx category rest) (s : ParseState) :
    Mends c s (body.opening c) ((body.seeing s.diagnostics).opening c) := by
  cases body with
  | done => exact (looks_pure ()).mends s
  | consume idx category rest => exact absurd rfl (h idx category rest)
  | subrule idx name rest => exact (looks_resolve name).mends s
  | option idx body rest => exact ((looks_decision .option idx).mends s).discard
  | repetition idx atLeastOne body rest =>
    cases atLeastOne with
    | false => exact ((looks_decision .many idx).mends s).discard
    | true =>
      refine Mends.discard ((looks_decision .atLeastOne idx).bind_mends fun d => ?_)
      exact (mends_enterOnce s idx d).congr (after_bind_pure _ _) (after_bind_pure _ _)
  | choice idx expecting gate body rest =>
    exact Mends.discard ((looks_choiceDecision idx _).bind_mends fun d =>
      mends_choose s idx expecting gate d)
  | action value rest => exact (looks_pure ()).mends s
  | observe value rest => exact (looks_pure ()).mends s
  | fail phase cause rest =>
    have hopening : Looks ((Body.fail phase cause rest).opening c) := by
      intro s
      simp only [Body.opening]
      split
      · exact .inr ⟨_, rfl, rfl⟩
      · exact .inl ⟨(), rfl, rfl⟩
    exact hopening.mends s
  | during phase body rest => exact (looks_pure ()).mends s
  | attempt body rest => exact (looks_pure ()).mends s

private theorem effect_of_mends {s : ParseState} {body : Body V}
    (h : Mends c s (body.opening c) ((body.seeing s.diagnostics).opening c))
    (hreturned : Deed.returned? c ⟨s, .step body⟩ = none) : Effect c ⟨s, .step body⟩ := by
  rcases h with ⟨hs, hs'⟩ | ⟨on, inside, site, code, expected, hcode, ht, ht'⟩
  · exact .of_steady hs hs' hreturned
  · refine .of_report ht ht' rfl rfl rfl rfl ?_
    rw [hreturned]
    exact .delete _ ⟨_, rfl⟩ on rfl hcode ⟨rfl, rfl⟩ inside .nothing

theorem effect_step (s : ParseState) (body : Body V) : Effect c ⟨s, .step body⟩ := by
  cases body with
  | consume idx category rest => exact effect_consume s idx category rest
  | _ => exact effect_of_mends (mends_opening (by simp) s) rfl

/-! ## The ends of rules -/

/-- No token behind the end of the input is skipped: there the parse can go on behind every rule. -/
theorem resumption?_le {id : RuleId} {f : Failure} {i n : Nat}
    (h : c.resumption? id f i = some n) : i + n ≤ max i c.tokens.endIndex := by
  obtain ⟨-, -, a, -, -, -, hfirst⟩ := resumption?_eq_some.mp h
  refine Nat.le_of_not_lt fun hfar => ?_
  have hstop := hfirst (c.tokens.endIndex - i) (by omega)
  rw [resumesAt, TokenStream.isEof_get (by omega), Bool.true_or] at hstop
  cases hstop

private theorem effect_settle (s : ParseState) (id : RuleId) (f : Failure)
    (hi : s.cursor ≤ c.tokens.endIndex) : Effect c ⟨s, .settle id f⟩ := by
  have hafter : ∀ m : ParseState, Deed.after c ⟨m, .settle id f⟩ = stateOf _ :=
    fun m => congrArg stateOf (settle_eq id f m)
  have hs := hafter s
  have hcleared := hafter s.cleared
  by_cases hlast : s.stack.length = 1
  · have hlast' : s.cleared.stack.length = 1 := hlast
    simp only [hlast, hlast', if_true, stateOf] at hs hcleared
    refine .of_report (hs.trans (c.leave_report _ _)) (hcleared.trans (c.leave_report _ _))
      rfl rfl rfl rfl ?_
    exact .giveUp rfl hlast
  · have hlast' : ¬s.cleared.stack.length = 1 := hlast
    simp only [hlast, hlast', if_false] at hs hcleared
    cases hn : c.resumption? id f s.cursor with
    | none =>
      have hn' : c.resumption? id f s.cleared.cursor = none := hn
      simp only [hn, hn', stateOf] at hs hcleared
      refine .of_quiet (by rw [hs]; rfl) (by rw [hs]; rfl)
        ((congrArg ParseState.diagnostics hcleared).trans rfl) ?_
      rw [hs]
      exact .nothing
    | some n =>
      have hn' : c.resumption? id f s.cleared.cursor = some n := hn
      have hfar := Nat.le_trans (resumption?_le hn) (Nat.max_le.mpr ⟨hi, Nat.le_refl _⟩)
      obtain ⟨hon, -⟩ := resumption?_eq_some.mp hn
      simp only [hn, hn', stateOf] at hs hcleared
      refine .of_report (hs.trans (c.leave_report _ _)) (hcleared.trans (c.leave_report _ _))
        rfl rfl rfl rfl ?_
      exact .resync _ rfl hlast hon n rfl rfl ⟨rfl, rfl⟩ hfar

theorem effect_finish (s : ParseState) : Effect c ⟨s, .finish⟩ := by
  cases h : (c.ahead s 1).isEof with
  | true =>
    have hs : ∀ m : ParseState, m.cursor = s.cursor → Deed.after c ⟨m, .finish⟩ = m := by
      intro m hm
      have hnext : c.ahead m 1 = c.ahead s 1 := by rw [ahead, hm, ahead]
      simp only [Deed.after, reportRest, hnext, h, if_true]
    exact .of_steady (hs s rfl) (hs s.cleared rfl) rfl
  | false =>
    have h' : (c.ahead s.cleared 1).isEof = false := h
    have hs : Deed.after c ⟨s, .finish⟩ = _ := if_neg (by rw [h]; simp)
    have hcleared : Deed.after c ⟨s.cleared, .finish⟩ = _ := if_neg (by rw [h']; simp)
    exact .of_report hs hcleared rfl rfl rfl rfl (.leftOver _ rfl rfl rfl rfl ⟨rfl, rfl⟩)

/-- What every deed does. -/
theorem effect (d : Deed V) (hi : d.state.cursor ≤ c.tokens.endIndex) : d.Effect c := by
  obtain ⟨s, act⟩ := d
  cases act with
  | step body => exact effect_step s body
  | enter id => exact .of_quiet rfl rfl rfl .nothing
  | leave => exact .of_quiet rfl rfl rfl .nothing
  | settle id f => exact effect_settle s id f hi
  | finish => exact effect_finish s

end Deed

end PredictiveParsing
