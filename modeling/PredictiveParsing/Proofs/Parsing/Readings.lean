import PredictiveParsing.Proofs.Parsing.Attempts
import PredictiveParsing.Proofs.Parsing.Registration
import PredictiveParsing.Proofs.Parsing.Spelling

/-!
# Readings

How the rules read a list of tokens: what each piece of a body takes, what it leaves behind, and the
value that a rule has then. Every repair and every rule that is given up leaves a diagnostic, so the
value of a parse without diagnostics is that of a reading of all tokens.
-/

namespace PredictiveParsing

/-- What a body of tokens, rules and decisions leaves behind when it takes a list of tokens, where
`call` relates the tokens that rules take to their values. -/
inductive Body.Reads {V : Type} (isA : CategoryId → CategoryId → Bool)
    (call : String → List Token → V → Prop) : Body V → List Token → List (Yield V) → Prop
  | done : Reads isA call .done [] []
  | consume {idx x rest t ts ys} (ht : isA t.category x = true) (h : Reads isA call rest ts ys) :
      Reads isA call (.consume idx x rest) (t :: ts) (.token t :: ys)
  | subrule {idx name rest us ts v ys} (hv : call name us v) (h : Reads isA call rest ts ys) :
      Reads isA call (.subrule idx name rest) (us ++ ts) (.value v :: ys)
  | skip {idx body rest ts ys} (h : Reads isA call rest ts ys) :
      Reads isA call (.option idx body rest) ts (.nothing :: ys)
  | take {idx body rest us ts zs ys} (hbody : Reads isA call body us zs)
      (h : Reads isA call rest ts ys) :
      Reads isA call (.option idx body rest) (us ++ ts) (.items zs :: ys)
  | repetition {idx b body rest ts ys} {rounds : List (List (Yield V) × List Token)}
      (hne : b = true → rounds ≠ []) (hbody : ∀ x ∈ rounds, Reads isA call body x.2 x.1)
      (h : Reads isA call rest ts ys) :
      Reads isA call (.repetition idx b body rest) ((rounds.map Prod.snd).flatten ++ ts)
        (.items (rounds.map fun x => .items x.1) :: ys)
  | choice {n idx expecting rest us ts zs ys} {gate : Fin n → Option Gate} {body : Fin n → Body V}
      (k : Fin n) (hbody : Reads isA call (body k) us zs) (h : Reads isA call rest ts ys) :
      Reads isA call (.choice idx expecting gate body rest) (us ++ ts) (.chosen k zs :: ys)

/-- The value of a rule that takes a list of tokens, with calls that nest at most so deep, its own
included. -/
def Registry.Reads {V : Type} (r : Registry V) : (depth : Nat) → String → List Token → V → Prop
  | 0, _, _, _ => False
  | depth + 1, name, ts, v => ∃ id rule ys, r.find? name = some (id, rule)
      ∧ rule.body.Reads r.model.isA (r.Reads depth) ts ys ∧ v = rule.value ys

namespace ParseContext

variable {V : Type} (c : ParseContext V)

/-- The tokens from `i` on and in front of `j`. -/
def Holds (i : Nat) : List Token → (j : Nat) → Prop
  | [], j => i = j
  | t :: ts, j => i < c.tokens.endIndex ∧ c.tokens.get i = t ∧ Holds (i + 1) ts j

variable {c}

theorem holds_append {i k : Nat} {us ts : List Token} :
    c.Holds i (us ++ ts) k ↔ ∃ j, c.Holds i us j ∧ c.Holds j ts k := by
  induction us generalizing i with
  | nil => simp [Holds]
  | cons t us ih => simp [Holds, ih, and_assoc]

/-- A stretch spells the categories that its tokens belong to. -/
theorem spells_iff_holds {i j : Nat} {w : List CategoryId} : c.Spells i w j ↔
    ∃ ts, c.Holds i ts j ∧ List.Forall₂ (fun t x => c.isA t.category x = true) ts w := by
  induction w generalizing i with
  | nil => simp [Spells, Holds]
  | cons x w ih =>
    rw [Spells, ih]
    constructor
    · rintro ⟨hlt, hm, ts, hts, hall⟩
      exact ⟨_ :: ts, ⟨hlt, rfl, hts⟩, .cons hm hall⟩
    · rintro ⟨ts, hts, hall⟩
      cases hall with
      | cons hm hall =>
        obtain ⟨hlt, rfl, hts⟩ := hts
        exact ⟨hlt, hm, _, hts, hall⟩

private theorem Holds.le_endIndex {i j : Nat} {ts : List Token} (h : c.Holds i ts j)
    (hi : i ≤ c.tokens.endIndex) : j ≤ c.tokens.endIndex := by
  induction ts generalizing i with
  | nil => exact Eq.symm h ▸ hi
  | cons t ts ih => exact ih h.2.2 h.1

private theorem Holds.eq_drop {i : Nat} {ts : List Token} (h : c.Holds i ts c.tokens.endIndex) :
    ts = c.tokens.before.toList.drop i := by
  induction ts generalizing i with
  | nil =>
    obtain rfl : i = c.tokens.endIndex := h
    simp [TokenStream.endIndex]
  | cons t ts ih =>
    obtain ⟨hlt, rfl, hts⟩ := h
    have hlt' : i < c.tokens.before.toList.length := by simpa [TokenStream.endIndex] using hlt
    have hget : c.tokens.before[i]? = some c.tokens.before[i] := Array.getElem?_eq_getElem hlt
    rw [List.drop_eq_getElem_cons hlt', ← ih hts]
    simp [TokenStream.get, hget]

/-! ## Reports stay -/

theorem diagnostics_report_ne (s : ParseState) (d : Diagnostic) :
    (c.report s d).diagnostics ≠ #[] := by
  have hcap : 1 ≤ c.registry.preferences.diagnosticLimit := Nat.le_max_left 1 _
  unfold report ParseState.report
  split
  · rename_i hfull
    intro h
    rw [h] at hfull
    exact absurd (hcap.trans hfull) (by simp)
  · simp

theorem diagnostics_passed_ne (site : RepairSite) (code : Code) (expected : List CategoryId)
    (s : ParseState) : (c.passed site code expected s).diagnostics ≠ #[] :=
  diagnostics_report_ne _ _

theorem diagnostics_repairToken_ne {s s' : ParseState} {idx : Nat} {category : CategoryId}
    {repair : TokenRepair} {t : Token} (h : c.repairToken idx category repair s = .ok t s') :
    s'.diagnostics ≠ #[] := by
  cases repair with
  | delete =>
    obtain ⟨-, rfl⟩ := EStateM.Result.ok.inj h
    exact diagnostics_report_ne _ _
  | insert =>
    obtain ⟨-, rfl⟩ := EStateM.Result.ok.inj h
    exact diagnostics_report_ne _ _

theorem diagnostics_settle_ne {s s' : ParseState} {id : RuleId} {f : Failure} {v : V}
    (h : c.settle id f s = .ok v s') : s'.diagnostics ≠ #[] := by
  rw [settle_eq] at h
  split at h
  · obtain ⟨-, rfl⟩ := EStateM.Result.ok.inj h
    exact diagnostics_report_ne _ _
  · split at h
    · obtain ⟨-, rfl⟩ := EStateM.Result.ok.inj h
      exact diagnostics_report_ne _ _
    · cases h

end ParseContext

/-- Whenever the part leaves no diagnostic there was none before, and `R` relates its result to the
tokens in between. -/
def Parse.Reads {V α : Type} (c : ParseContext V) (x : Parse α) (R : α → List Token → Prop) :
    Prop :=
  ∀ s a s', x s = .ok a s' → s'.diagnostics = #[] →
    s.diagnostics = #[] ∧ ∃ ts, R a ts ∧ c.Holds s.cursor ts s'.cursor

namespace Parse.Reads

variable {V α β : Type} {c : ParseContext V} {R : α → List Token → Prop}
  {S : α → β → List Token → Prop} {T : β → List Token → Prop}

theorem mono {R' : α → List Token → Prop} {x : Parse α} (h : Reads c x R)
    (hw : ∀ a ts, R a ts → R' a ts) : Reads c x R' := by
  intro s a s' hx hd
  obtain ⟨hd, ts, hr, hs⟩ := h s a s' hx hd
  exact ⟨hd, ts, hw a ts hr, hs⟩

/-- A part that leaves the state alone takes nothing. -/
theorem of_steady {x : Parse α} (h : ∀ s a s', x s = .ok a s' → s' = s) :
    Reads c x fun _ ts => ts = [] := by
  intro s a s' hx hd
  obtain rfl := h s a s' hx
  exact ⟨hd, [], rfl, rfl⟩

theorem bind {x : Parse α} {f : α → Parse β} (hx : Reads c x R) (hf : ∀ a, Reads c (f a) (S a))
    (hw : ∀ a b us ts, R a us → S a b ts → T b (us ++ ts)) : Reads c (x >>= f) T := by
  intro s b s' h hd
  simp only [Bind.bind, EStateM.bind] at h
  split at h
  · rename_i a s₁ hs₁
    obtain ⟨hd₁, ts, hts, hst⟩ := hf a s₁ b s' h hd
    obtain ⟨hd₀, us, hus, hsu⟩ := hx s a s₁ hs₁ hd₁
    exact ⟨hd₀, us ++ ts, hw a b us ts hus hts, ParseContext.holds_append.2 ⟨_, hsu, hst⟩⟩
  · cases h

theorem after {x : Parse α} {f : α → Parse β} (hx : Reads c x fun _ ts => ts = [])
    (hf : ∀ a, Reads c (f a) T) : Reads c (x >>= f) T :=
  hx.bind hf fun _ _ us ts hu ht => by subst hu; exact ht

theorem pure (a : α) : Reads c (Pure.pure a) fun b ts => b = a ∧ ts = [] := by
  intro s b s' h hd
  cases h
  exact ⟨hd, [], ⟨rfl, rfl⟩, rfl⟩

theorem bind_pure {x : Parse α} (f : α → β) (hx : Reads c x R) :
    Reads c (x >>= fun a => Pure.pure (f a)) fun b ts => ∃ a, b = f a ∧ R a ts :=
  hx.bind (fun a => pure (f a)) fun a b us ts hu hb => by
    obtain ⟨rfl, rfl⟩ := hb
    exact ⟨a, rfl, by rwa [List.append_nil]⟩

theorem map {x : Parse α} (f : α → β) (hx : Reads c x R) :
    Reads c (f <$> x) fun b ts => ∃ a, b = f a ∧ R a ts := by
  rw [map_eq_pure_bind]
  exact hx.bind_pure f

theorem get : Reads c (MonadState.get : Parse ParseState) fun _ ts => ts = [] :=
  of_steady fun s a s' h => by cases h; rfl

end Parse.Reads

namespace ParseContext

variable {V : Type} {c : ParseContext V}

open Parse

private theorem lt_endIndex_of_isA {i : Nat} {category : CategoryId}
    (he : c.isA CategoryId.eof category = false)
    (hm : c.isA (c.tokens.get i).category category = true) : i < c.tokens.endIndex := by
  by_contra hge
  rw [category_get_of_le (Nat.le_of_not_lt hge), he] at hm
  cases hm

theorem reads_consume (idx : Nat) {category : CategoryId}
    (he : c.isA CategoryId.eof category = false) : Reads c (c.consume idx category)
      fun t ts => ts = [t] ∧ c.isA t.category category = true := by
  intro s t s' h hd
  rw [consume] at h
  split at h
  · rename_i hm
    have hlt : s.cursor < c.tokens.endIndex := lt_endIndex_of_isA he hm
    rw [advance] at h
    rw [if_pos hlt] at h
    obtain ⟨rfl, rfl⟩ := EStateM.Result.ok.inj h
    exact ⟨hd, _, ⟨rfl, hm⟩, hlt, rfl, rfl⟩
  · split at h
    · exact absurd hd (diagnostics_repairToken_ne h)
    · cases h

theorem reads_decision (kind : DecisionKind) (idx : Nat) :
    Reads c (c.decision kind idx) fun _ ts => ts = [] := by
  refine .of_steady fun s d s' h => ?_
  rw [decision] at h
  split at h
  · cases h; rfl
  · cases h

theorem reads_choiceDecision (idx n : Nat) :
    Reads c (c.choiceDecision idx n) fun _ ts => ts = [] := by
  refine (reads_decision .or idx).after fun d => .of_steady fun s d' s' h => ?_
  split at h
  · cases h; rfl
  · cases h

theorem reads_enterOnce (idx : Nat) (d : Decision) :
    Reads c (c.enterOnce idx d) fun _ ts => ts = [] := by
  intro s a s' h hd
  simp only [enterOnce_eq] at h
  split at h
  · cases h
    exact ⟨hd, [], rfl, rfl⟩
  · split at h
    · cases h
      exact absurd hd (diagnostics_passed_ne _ _ _ _)
    · cases h

theorem reads_choose {n : Nat} (idx : Nat) (expecting : Option String) (gate : Fin n → Option Gate)
    (d : Decision) : Reads c (c.choose idx expecting gate d) fun _ ts => ts = [] := by
  intro s a s' h hd
  simp only [choose_eq] at h
  split at h
  · cases h
    exact ⟨hd, [], rfl, rfl⟩
  · split at h
    · cases h
      exact absurd hd (diagnostics_passed_ne _ _ _ _)
    · cases h

private theorem reads_repeatWhile {α : Type} {enters : ParseState → Bool} {part : Parse α}
    {R : α → List Token → Prop} (hx : Reads c part R) (fuel : Nat) (done : List α) :
    Reads c (repeatWhile enters part fuel done) fun as ts =>
      ∃ rounds : List (α × List Token), (∀ x ∈ rounds, R x.1 x.2)
        ∧ as = done.reverse ++ rounds.map Prod.fst ∧ ts = (rounds.map Prod.snd).flatten := by
  induction fuel generalizing done with
  | zero =>
    intro s as s' h hd
    cases h
    exact ⟨hd, [], ⟨[], by simp, by simp, rfl⟩, rfl⟩
  | succ fuel ih =>
    intro s as s' h hd
    unfold repeatWhile at h
    split at h
    · simp only at h
      split at h
      · cases h
      · rename_i a s₁ hs₁
        split at h
        · cases h
          obtain ⟨hd₀, ts, hr, hst⟩ := hx s a _ hs₁ hd
          exact ⟨hd₀, ts, ⟨[(a, ts)], by simpa using hr, by simp, by simp⟩, hst⟩
        · obtain ⟨hd₁, _, ⟨rounds, hrounds, rfl, rfl⟩, hsr⟩ := ih (a :: done) s₁ as s' h hd
          obtain ⟨hd₀, ts, hr, hst⟩ := hx s a s₁ hs₁ hd₁
          exact ⟨hd₀, _, ⟨(a, ts) :: rounds, List.forall_mem_cons.2 ⟨hr, hrounds⟩, by simp, rfl⟩,
            holds_append.2 ⟨_, hst, hsr⟩⟩
    · cases h
      exact ⟨hd, [], ⟨[], by simp, by simp, rfl⟩, rfl⟩

/-- The rounds of a repetition take one list after the other. -/
theorem reads_rounds {α : Type} (d : Decision) {part : Parse α} {R : α → List Token → Prop}
    (hx : Reads c part R) : Reads c (c.rounds d part) fun as ts =>
      ∃ rounds : List (α × List Token), (∀ x ∈ rounds, R x.1 x.2)
        ∧ as = rounds.map Prod.fst ∧ ts = (rounds.map Prod.snd).flatten :=
  fun s => reads_repeatWhile hx _ [] s

private theorem reads_callNamed {call : RuleId → Rule V → Parse V} {name : String}
    {R : V → List Token → Prop}
    (h : ∀ id rule, c.registry.find? name = some (id, rule) → Reads c (call id rule) R) :
    Reads c (c.callNamed call name) R := by
  intro s v s' hx hd
  rw [callNamed] at hx
  split at hx
  · exact h _ _ ‹_› s v s' hx hd
  · cases hx

end ParseContext

namespace Body

variable {V : Type} {c : ParseContext V}

open Parse ParseContext

theorem reads_run {call : RuleId → Rule V → Parse V} {R : String → List Token → V → Prop}
    (heof : ∀ x, c.isA CategoryId.eof x = true → x = CategoryId.eof)
    (hcall : ∀ name, Parse.Reads c (c.callNamed call name) fun v ts => R name ts v)
    {body : Body V} (hp : body.isPlain = true) (he : ¬body.phrase.Consumes CategoryId.eof) :
    Parse.Reads c (body.run c call) fun ys ts => body.Reads c.isA R ts ys := by
  induction body with
  | done =>
    refine (Parse.Reads.pure _).mono fun ys ts h => ?_
    obtain ⟨rfl, rfl⟩ := h
    exact .done
  | consume idx category rest ih =>
    rw [phrase, Phrase.consumes_terminal, not_or] at he
    have hno : c.isA CategoryId.eof category = false :=
      Bool.eq_false_iff.2 fun h => he.1 (heof category h).symm
    rw [run]
    refine (reads_consume idx hno).bind (fun t => (ih hp he.2).bind_pure _) ?_
    rintro t ys us ts ⟨rfl, ht⟩ ⟨zs, rfl, hz⟩
    exact .consume ht hz
  | subrule idx name rest ih =>
    rw [phrase, Phrase.consumes_call] at he
    rw [run]
    refine (hcall name).bind (fun _ => (ih hp he).bind_pure _) ?_
    rintro v ys us ts hv ⟨zs, rfl, hz⟩
    exact .subrule hv hz
  | option idx body rest ihb ih =>
    simp only [isPlain, Bool.and_eq_true] at hp
    rw [phrase, Phrase.consumes_option, not_or] at he
    rw [run]
    refine (reads_decision .option idx).after fun d => Parse.Reads.get.after fun s => ?_
    simp only
    split
    · refine ((ihb hp.1 he.1).map _).bind (fun _ => (ih hp.2 he.2).bind_pure _) ?_
      rintro y ys us ts ⟨zs, rfl, hbody⟩ ⟨ys, rfl, hrest⟩
      exact .take hbody hrest
    · refine (Parse.Reads.pure _).bind (fun _ => (ih hp.2 he.2).bind_pure _) ?_
      rintro y ys us ts ⟨rfl, rfl⟩ ⟨ys, rfl, hrest⟩
      exact .skip hrest
  | repetition idx b body rest ihb ih =>
    simp only [isPlain, Bool.and_eq_true] at hp
    rw [phrase, Phrase.consumes_repetition, not_or] at he
    have hbody := ihb hp.1 he.1
    have hbehind : ∀ d (f : List (List (Yield V)) → List (Yield V) → List (Yield V)),
        Parse.Reads c (c.rounds d (body.run c call) >>= fun as => rest.run c call >>= fun zs =>
            Pure.pure (f as zs))
          fun ys ts => ∃ (rounds : List (List (Yield V) × List Token)) (ts' : List Token)
            (zs : List (Yield V)), (∀ x ∈ rounds, body.Reads c.isA R x.2 x.1)
              ∧ rest.Reads c.isA R ts' zs ∧ ys = f (rounds.map Prod.fst) zs
              ∧ ts = (rounds.map Prod.snd).flatten ++ ts' := by
      intro d f
      refine (reads_rounds d hbody).bind (fun _ => (ih hp.2 he.2).bind_pure _) ?_
      rintro as ys us ts ⟨rounds, hrounds, rfl, rfl⟩ ⟨zs, rfl, hz⟩
      exact ⟨rounds, ts, zs, hrounds, hz, rfl, rfl⟩
    cases b with
    | false =>
      rw [run]
      refine (reads_decision .many idx).after fun d => (hbehind d _).mono ?_
      rintro _ _ ⟨rounds, ts, zs, hrounds, hz, rfl, rfl⟩
      rw [List.map_map]
      exact .repetition (by simp) hrounds hz
    | true =>
      rw [run]
      refine (reads_decision .atLeastOne idx).after fun d => (reads_enterOnce idx d).after fun _ =>
        hbody.bind (fun _ => hbehind d _) ?_
      rintro first _ us _ hfirst ⟨rounds, ts, zs, hrounds, hz, rfl, rfl⟩
      have hall : ∀ x ∈ (first, us) :: rounds, body.Reads c.isA R x.2 x.1 :=
        List.forall_mem_cons.2 ⟨hfirst, hrounds⟩
      simpa [List.append_assoc, Function.comp_def] using
        Body.Reads.repetition (b := true) (by simp) hall hz
  | @choice n idx expecting gate body rest ihb ih =>
    simp only [isPlain, Bool.and_eq_true, List.all_eq_true, List.forall_mem_ofFn_iff, id] at hp
    rw [phrase, Phrase.consumes_choice, not_or, not_exists] at he
    rw [run]
    refine (reads_choiceDecision idx n).after fun d => (reads_choose idx expecting gate d).after
      fun k => (ihb k (hp.1 k) (he.1 k)).bind (fun _ => (ih hp.2 he.2).bind_pure _) ?_
    rintro zs ys us ts hbody ⟨ys, rfl, hrest⟩
    exact .choice k hbody hrest
  | action value rest ih => cases hp
  | observe value rest ih => cases hp
  | fail phase cause rest ih => cases hp
  | during phase body rest ihb ih => cases hp
  | attempt body rest ihb ih => cases hp

end Body

namespace ParseContext

variable {V : Type} {c : ParseContext V} {a : AnalyzedGrammar}

open Parse

theorem isA_eof (hr : c.registry.Finalized a) (he : c.registry.EofApart) (x : CategoryId)
    (h : c.isA CategoryId.eof x = true) : x = CategoryId.eof :=
  hr.built.wellFormed.model.eq_eof_of_isA he.no_parent h

/-- A call without a diagnostic returns the value of the rule on the tokens that it has taken. -/
theorem reads_call (hr : c.registry.Finalized a) (he : c.registry.EofApart) (left : Nat)
    (name : String) :
    Parse.Reads c (c.callNamed (c.callRule left) name)
      fun v ts => c.registry.Reads left name ts v := by
  induction left generalizing name with
  | zero => exact reads_callNamed fun id rule hrule s v s' h => by cases h
  | succ left ih =>
    apply reads_callNamed
    intro id rule hrule s v s' h hd
    have hmem : rule ∈ c.registry.rules :=
      Array.mem_of_getElem? (hr.built.wellFormed.find?_eq_some.1 hrule).1
    simp only [callRule] at h
    split at h
    · rename_i ys s₁ hs₁
      cases h
      obtain ⟨hd₀, ts, hts, hs⟩ := Body.reads_run (isA_eof hr he) ih (hr.plain rule hmem)
        (he.not_consumed rule hmem) _ ys s₁ hs₁ hd
      exact ⟨hd₀, ts, ⟨id, rule, ys, hrule, hts, rfl⟩, hs⟩
    · exact absurd hd (diagnostics_settle_ne h)

private theorem eq_endIndex_of_isEof (ht : ∀ t ∈ c.tokens.before, t.category ≠ CategoryId.eof)
    {i : Nat} (hi : i ≤ c.tokens.endIndex) (h : (c.tokens.get i).isEof = true) :
    i = c.tokens.endIndex := by
  refine Nat.le_antisymm hi (Nat.le_of_not_lt fun hlt => ?_)
  have hg : c.tokens.before[i]? = some c.tokens.before[i] := Array.getElem?_eq_getElem hlt
  rw [TokenStream.get, hg] at h
  exact ht _ (Array.getElem_mem hlt) (by simpa [Token.isEof] using h)

theorem callRule_of_parseRule {id : RuleId} {rule : Rule V} {s : ParseState}
    (h : (c.parseRule id rule s).2.diagnostics = #[]) :
    c.callRule Limits.maxParseDepth id rule s
      = .ok (c.parseRule id rule s).1 (c.parseRule id rule s).2 := by
  unfold parseRule at h ⊢
  split at h
  · rename_i v s₁ hs
    rw [hs]
  · exact absurd h (diagnostics_report_ne _ _)

theorem isEof_of_reportRest {s : ParseState} (h : (c.reportRest s).diagnostics = #[]) :
    (c.ahead s 1).isEof = true ∧ c.reportRest s = s := by
  simp only [reportRest] at h ⊢
  split at h
  · rename_i he
    exact ⟨he, if_pos he⟩
  · exact absurd h (diagnostics_report_ne _ _)

/-- A parse of all tokens that leaves no diagnostic returns the value of the start rule on them. -/
theorem reads_of_parseAll (hr : c.registry.Finalized a) (he : c.registry.EofApart)
    (ht : ∀ t ∈ c.tokens.before, t.category ≠ CategoryId.eof) {start : String} {id : RuleId}
    {rule : Rule V} (hf : c.registry.find? start = some (id, rule)) {s : ParseState}
    (h : (c.parseAll id rule s).2.diagnostics = #[]) :
    c.registry.Reads Limits.maxParseDepth start c.tokens.before.toList
      (c.parseAll id rule s).1 := by
  change (c.reportRest (c.parseRule id rule (s.rewind.note _)).2).diagnostics = #[] at h
  obtain ⟨hend, hrest⟩ := isEof_of_reportRest h
  rw [hrest] at h
  have hv := callRule_of_parseRule h
  have hcall : c.callNamed (c.callRule Limits.maxParseDepth) start
      = c.callRule Limits.maxParseDepth id rule := by
    funext s
    simp only [callNamed, hf]
  obtain ⟨-, ts, hts, hs⟩ := reads_call hr he _ start _ _ _ (hcall ▸ hv) h
  rw [eq_endIndex_of_isEof ht (hs.le_endIndex (Nat.zero_le _)) hend] at hs
  have hall : ts = c.tokens.before.toList := hs.eq_drop
  exact hall ▸ hts

end ParseContext

end PredictiveParsing
