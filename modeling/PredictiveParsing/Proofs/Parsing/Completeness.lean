import PredictiveParsing.Proofs.Parsing.CleanParse
import PredictiveParsing.Proofs.Parsing.Prediction

/-!
# Parses of sentences

Where one token decides everywhere, tokens that belong to the categories of a sentence are parsed
along its derivation: no decision goes another way, no token is wrong, and nothing is reported.
-/

namespace PredictiveParsing

namespace Parse

variable {α β : Type}

theorem bind_of_ok {x : Parse α} {f : α → Parse β} {s s' : ParseState} {a : α}
    (h : x s = .ok a s') : (x >>= f) s = f a s' := by
  simp only [Bind.bind, EStateM.bind, h]

private theorem get_bind (f : ParseState → Parse β) (s : ParseState) : (get >>= f) s = f s s := rfl

private theorem map_of_ok {x : Parse α} {f : α → β} {s s' : ParseState} {a : α}
    (h : x s = .ok a s') : (f <$> x) s = .ok (f a) s' := by
  rw [map_eq_pure_bind, bind_of_ok h]
  rfl

end Parse

namespace Body

variable {V : Type}

/-- No alternative has a condition besides its tokens. -/
def IsGateFree : Body V → Prop
  | done => True
  | consume _ _ rest => rest.IsGateFree
  | subrule _ _ rest => rest.IsGateFree
  | option _ body rest => body.IsGateFree ∧ rest.IsGateFree
  | repetition _ _ body rest => body.IsGateFree ∧ rest.IsGateFree
  | choice _ _ gate body rest => (∀ k, gate k = none ∧ (body k).IsGateFree) ∧ rest.IsGateFree
  | action _ rest => rest.IsGateFree
  | observe _ rest => rest.IsGateFree
  | fail _ _ rest => rest.IsGateFree
  | during _ body rest => body.IsGateFree ∧ rest.IsGateFree
  | attempt body rest => body.IsGateFree ∧ rest.IsGateFree

end Body

namespace ParseContext

variable {V : Type} {c : ParseContext V} {g : Grammar}

/-- What is behind a piece can come next in front of it, too, if the piece derives what lies in
between. -/
theorem Fits.rest (hg : g.Sound) {r : RuleId} {after : List Frame} {p : Phrase} (hp : p.Sound g)
    {d i j : Nat} {w : List CategoryId} (hw : p.Derives g d w) (hs : c.Spells i w j)
    (h : c.Fits g r after j) : c.Fits g r (.rest p :: after) i := by
  cases w with
  | nil =>
    obtain rfl : i = j := hs
    refine h.imp_right fun ⟨x, hx, hm⟩ => ⟨x, ?_, hm⟩
    have hn := hw.isNullable hg hp
    exact hx.imp (fun hx => Frame.mem_first_rest.2 (.inr ⟨hn, hx⟩))
      fun ⟨hend, hx⟩ => ⟨Frame.reachesEnd_rest.2 ⟨hn, hend⟩, hx⟩
  | cons x w =>
    exact .inr ⟨x, .inl (Frame.mem_first_rest.2 (.inl (hw.mem_first hg hp))), hs.2.1⟩

/-- Behind a round comes what comes behind the repetition. -/
theorem Fits.leave {r : RuleId} {after : List Frame} {body : Phrase} {i : Nat}
    (h : c.Fits g r after i) : c.Fits g r (.again body :: after) i :=
  h.imp_right fun ⟨x, hx, hm⟩ => ⟨x, hx.imp_left fun hx => Frame.mem_first_again.2 (.inr hx), hm⟩

/-- Behind a round comes another one. -/
theorem Fits.again (hg : g.Sound) {r : RuleId} {after : List Frame} {body : Phrase}
    (hb : body.Sound g) {d i j : Nat} {w : List CategoryId} (hne : w ≠ []) (hw : body.Derives g d w)
    (hs : c.Spells i w j) : c.Fits g r (.again body :: after) i := by
  cases w with
  | nil => exact absurd rfl hne
  | cons x w =>
    exact .inr ⟨x, .inl (Frame.mem_first_again.2 (.inl (hw.mem_first hg hb))), hs.2.1⟩

/-- A round fits in front of further rounds and what is behind them. -/
theorem Fits.rounds (hg : g.Sound) {r : RuleId} {after : List Frame} {body rest : Phrase}
    (hb : body.Sound g) (hrest : rest.Sound g)
    (hn : body.isNullable (RuleFacts.ofGrammar g).isNullable = false) {d i j : Nat}
    {vs : List (List CategoryId)} {w : List CategoryId} (hvs : ∀ v ∈ vs, body.Derives g d v)
    (hw : rest.Derives g d w) (hs : c.Spells i (vs.flatten ++ w) j) (h : c.Fits g r after j) :
    c.Fits g r (.again body :: .rest rest :: after) i := by
  cases vs with
  | nil => exact (h.rest hg hrest hw hs).leave
  | cons v vs =>
    rw [List.flatten_cons, List.append_assoc] at hs
    obtain ⟨k, hsv, -⟩ := spells_append.1 hs
    have hv := hvs v List.mem_cons_self
    exact .again hg hb (hv.ne_nil hg hb hn) hv hsv

private theorem repeatWhile_of_spells {α : Type} {enters : ParseState → Bool} {part : Parse α}
    {L : List CategoryId → Prop} {s : ParseState} {Good : Nat → Prop} {j : Nat}
    (hne : ∀ v, L v → v ≠ [])
    (henters : ∀ v i k, L v → c.Spells i v k → enters { s with cursor := i } = true)
    (hgood : ∀ v i k, L v → c.Spells i v k → Good i)
    (hpart : ∀ v i k, L v → c.Spells i v k → Good k →
      ∃ a, part { s with cursor := i } = .ok a { s with cursor := k })
    (hstop : enters { s with cursor := j } = false) (hend : Good j)
    {vs : List (List CategoryId)} (hvs : ∀ v ∈ vs, L v) {i fuel : Nat}
    (hs : c.Spells i vs.flatten j) (hf : j < i + fuel) (done : List α) :
    ∃ as, Parse.repeatWhile enters part fuel done { s with cursor := i }
      = .ok as { s with cursor := j } := by
  induction fuel generalizing vs i done with
  | zero =>
    have := hs.eq_add
    omega
  | succ fuel ih =>
    simp only [Parse.repeatWhile]
    cases vs with
    | nil =>
      obtain rfl : i = j := hs
      exact ⟨_, by rw [if_neg (by simp [hstop])]⟩
    | cons v vs =>
      obtain ⟨hv, hvs⟩ := List.forall_mem_cons.1 hvs
      obtain ⟨k, hsv, hsk⟩ := spells_append.1 hs
      have hk : Good k := by
        cases vs with
        | nil =>
          obtain rfl : k = j := hsk
          exact hend
        | cons v' vs =>
          obtain ⟨k', hsv', -⟩ := spells_append.1 hsk
          exact hgood v' k k' (hvs v' List.mem_cons_self) hsv'
      obtain ⟨a, ha⟩ := hpart v i k hv hsv hk
      have hlt : i < k := by
        have := hsv.eq_add
        have := List.length_pos_iff.2 (hne v hv)
        omega
      obtain ⟨as, has⟩ := ih hvs hsk (by omega) (a :: done)
      refine ⟨as, ?_⟩
      rw [if_pos (henters v i k hv hsv)]
      simp only [ha]
      rw [if_neg (by omega), has]

private theorem rounds_of_spells {α : Type} {d : Decision} {part : Parse α}
    {L : List CategoryId → Prop} {s : ParseState} {Good : Nat → Prop} {j : Nat}
    (hne : ∀ v, L v → v ≠ [])
    (henters : ∀ v i k, L v → c.Spells i v k → c.enters { s with cursor := i } d = true)
    (hgood : ∀ v i k, L v → c.Spells i v k → Good i)
    (hpart : ∀ v i k, L v → c.Spells i v k → Good k →
      ∃ a, part { s with cursor := i } = .ok a { s with cursor := k })
    (hstop : c.enters { s with cursor := j } d = false) (hend : Good j)
    {vs : List (List CategoryId)} (hvs : ∀ v ∈ vs, L v) {i : Nat} (hi : i ≤ c.tokens.endIndex)
    (hs : c.Spells i vs.flatten j) :
    ∃ as, c.rounds d part { s with cursor := i } = .ok as { s with cursor := j } := by
  have hj := hs.le_endIndex hi
  rw [rounds]
  exact repeatWhile_of_spells hne henters hgood hpart hstop hend hvs hs (by simp only; omega) []

end ParseContext

namespace ParseContext

variable {V : Type} {c : ParseContext V} {g : Grammar}

private theorem consume_inner {s : ParseState} {idx : Nat} {category : CategoryId}
    (hlt : s.cursor < c.tokens.endIndex)
    (hm : c.isA (c.tokens.get s.cursor).category category = true) :
    c.consume idx category s = .ok (c.ahead s 1) { s with cursor := s.cursor + 1 } := by
  rw [consume_of_isA hm, advance, if_pos hlt]

theorem decision_of_some {s : ParseState} {kind : DecisionKind} {idx : Nat} {d : Decision}
    (h : c.decision? s kind idx = some d) : c.decision kind idx s = .ok d s := by
  simp only [decision, h]

private theorem choiceDecision_of_some {s : ParseState} {idx n : Nat} {d : Decision}
    (h : c.decision? s .or idx = some d) (hn : d.alternatives.length = n) :
    c.choiceDecision idx n s = .ok d s := by
  rw [choiceDecision]
  rw [Parse.bind_of_ok (decision_of_some h), if_pos hn]
  rfl

private theorem enterOnce_of_enters {s : ParseState} {idx : Nat} {d : Decision}
    (h : c.enters s d = true) : c.enterOnce idx d s = .ok () s := by
  simp only [enterOnce, h, if_true]

private theorem choose_of_some {s : ParseState} {n idx : Nat} {expecting : Option String}
    {gate : Fin n → Option Gate} {d : Decision} {k : Fin n} (h : c.select? gate d s = some k) :
    c.choose idx expecting gate d s = .ok k s := by
  simp only [choose, h]

/-- Calls parse what the rules derive with calls that nest less deep. -/
def Parses (c : ParseContext V) (g : Grammar) (call : RuleId → Rule V → Parse V) (depth : Nat) :
    Prop :=
  ∀ (name : String) (callee : RuleId) (q : Phrase) (e : Nat) (w : List CategoryId) (s : ParseState)
    (j : Nat), g.ruleId? name = some callee → g.phrase? name = some q → e < depth →
    q.Derives g e w → s.cursor ≤ c.tokens.endIndex → c.Spells s.cursor w j → c.Fits g callee [] j →
    ∃ v, c.callNamed call name s = .ok v { s with cursor := j }

/-- A part of a rule parses what a phrase derives wherever the next token can come behind it. -/
def ParsesAs {α : Type} (c : ParseContext V) (g : Grammar) (d : Nat) (r : RuleId)
    (after : List Frame) (part : Parse α) (q : Phrase) : Prop :=
  ∀ (s : ParseState) (w : List CategoryId) (j : Nat), s.currentRule = r →
    s.cursor ≤ c.tokens.endIndex → q.Derives g d w → c.Spells s.cursor w j → c.Fits g r after j →
    ∃ a, part s = .ok a { s with cursor := j }

end ParseContext

/-! ## Parts of a rule -/

namespace ParseContext.ParsesAs

open Parse

variable {V : Type} {c : ParseContext V} {g : Grammar} {d i : Nat} {r : RuleId}
  {after : List Frame} {α β γ : Type} {q rest : Phrase}

theorem done (a : α) : c.ParsesAs g d r after (pure a) .nil := by
  intro s w j hr hi hw hs hf
  cases hw
  obtain rfl : s.cursor = j := hs
  exact ⟨a, rfl⟩

private theorem bind_pure {part : Parse α} {f : α → β} (h : c.ParsesAs g d r after part q) :
    c.ParsesAs g d r after (part >>= fun a => pure (f a)) q := by
  intro s w j hr hi hw hs hf
  obtain ⟨a, ha⟩ := h s w j hr hi hw hs hf
  exact ⟨f a, bind_of_ok ha⟩

theorem consume {x : CategoryId} {next : Token → Parse α}
    (h : ∀ t, c.ParsesAs g d r after (next t) rest) :
    c.ParsesAs g d r after (c.consume i x >>= next) (.terminal x i rest) := by
  intro s w j hr hi hw hs hf
  cases hw with
  | terminal hw =>
    obtain ⟨hlt, hm, hs⟩ := hs
    rw [bind_of_ok (consume_inner hlt hm)]
    exact h _ { s with cursor := s.cursor + 1 } _ j hr hlt hw hs hf

variable (hg : g.Analyzed c.registry.model c.analysis) {p : Production}
  (hp : g.productions[r]? = some p)

include hg hp

theorem subrule {call : RuleId → Rule V → Parse V} (hcall : c.Parses g call d) {name : String}
    (hplace : ⟨.call name i rest, .rest rest :: after⟩ ∈ p.phrase.places [])
    {next : V → Parse α} (h : ∀ v, c.ParsesAs g d r after (next v) rest) :
    c.ParsesAs g d r after (c.callNamed call name >>= next) (.call name i rest) := by
  intro s w j hr hi hw hs hf
  have hsound := (sound_of_place hg hp hplace).1
  cases hw with
  | @call d _ _ _ q v w hq hv hw =>
    obtain ⟨k, hsv, hsw⟩ := spells_append.1 hs
    obtain ⟨callee, q', hcallee, hq', rfl⟩ := Grammar.exists_of_phrase? hq
    have hfits : c.Fits g callee [] k :=
      (hf.rest hg.sound hsound.2 hw hsw).imp_right fun ⟨x, hx, hm⟩ =>
        ⟨x, RuleFacts.behind_of_call hp hplace rfl hcallee hq' hx, hm⟩
    obtain ⟨y, hy⟩ := hcall name callee _ d v s k hcallee hq (Nat.lt_succ_self d) hv hi hsv hfits
    rw [bind_of_ok hy]
    exact h y { s with cursor := k } w j hr (hsv.le_endIndex hi) hw hsw hf

theorem choice {n : Nat} {expecting : Option String} {gate : Fin n → Option Gate}
    {body : Fin n → Phrase} {gated : Fin n → Bool}
    (hplace : ⟨.choice i gated body rest, .rest rest :: after⟩ ∈ p.phrase.places [])
    (hgate : ∀ k, gate k = none) {part : Fin n → Parse α}
    (hpart : ∀ k, c.ParsesAs g d r (.rest rest :: after) (part k) (body k))
    {next : Fin n → α → Parse β} (h : ∀ k a, c.ParsesAs g d r after (next k a) rest) :
    c.ParsesAs g d r after
      (c.choiceDecision i n >>= fun d' => c.choose i expecting gate d' >>= fun k =>
        part k >>= next k) (.choice i gated body rest) := by
  intro s w j hr hi hw hs hf
  have hsound := (sound_of_place hg hp hplace).1
  obtain ⟨d', hd, hlength, hselect⟩ :=
    exists_decision_of_choice hg hp hplace rfl (hg.isLL1 r p hp _ hplace)
  cases hw with
  | @choice _ _ _ _ v w _ _ k hv hw =>
    obtain ⟨l, hsv, hsw⟩ := spells_append.1 hs
    obtain ⟨a, ha⟩ := hpart k s v l hr hi hv hsv (hf.rest hg.sound hsound.2 hw hsw)
    rw [bind_of_ok (choiceDecision_of_some (hd s hr) hlength),
      bind_of_ok (choose_of_some (hselect s gate k v l d hgate hv hsv)), bind_of_ok ha]
    exact h k a { s with cursor := l } w j hr (hsv.le_endIndex hi) hw hsw hf

variable (heof : ∀ x, c.isA CategoryId.eof x = true → x = CategoryId.eof)

include heof

theorem option (hplace : ⟨.option i q rest, .rest rest :: after⟩ ∈ p.phrase.places [])
    {part : Parse α} (hpart : c.ParsesAs g d r (.rest rest :: after) part q) {f : α → β}
    {skipped : β} {next : β → Parse γ} (h : ∀ b, c.ParsesAs g d r after (next b) rest) :
    c.ParsesAs g d r after
      (c.decision .option i >>= fun d' => get >>= fun s =>
        if c.enters s d' = true then f <$> part >>= next else pure skipped >>= next)
      (.option i q rest) := by
  intro s w j hr hi hw hs hf
  have hsound := (sound_of_place hg hp hplace).1
  obtain ⟨hn, hu⟩ := hg.isLL1 r p hp _ hplace
  obtain ⟨d', hd, henter, hpass⟩ := exists_decision_of_part hg heof hp hplace rfl hsound.1 hn hu
  rw [bind_of_ok (decision_of_some (hd s hr)), get_bind]
  cases hw with
  | skip hw =>
    have hno : ¬c.enters s d' = true := by simp [hpass s (hf.rest hg.sound hsound.2 hw hs)]
    rw [if_neg hno]
    exact h skipped s w j hr hi hw hs hf
  | @take _ _ _ _ v w hv hw =>
    obtain ⟨k, hsv, hsw⟩ := spells_append.1 hs
    obtain ⟨a, ha⟩ := hpart s v k hr hi hv hsv (hf.rest hg.sound hsound.2 hw hsw)
    rw [if_pos (henter s v k d hv hsv), bind_of_ok (map_of_ok ha)]
    exact h (f a) { s with cursor := k } w j hr (hsv.le_endIndex hi) hw hsw hf

omit hp heof in
theorem rounds (hq : q.Sound g) (hrest : rest.Sound g)
    (hn : q.isNullable (RuleFacts.ofGrammar g).isNullable = false) {d' : Decision}
    (henter : ∀ s w j e, q.Derives g e w → c.Spells s.cursor w j → c.enters s d' = true)
    (hpass : ∀ s, c.Fits g r (.rest rest :: after) s.cursor → c.enters s d' = false)
    {part : Parse α} (hpart : c.ParsesAs g d r (.again q :: .rest rest :: after) part q)
    {next : List α → Parse β} (h : ∀ as, c.ParsesAs g d r after (next as) rest) {s : ParseState}
    {vs : List (List CategoryId)} {w : List CategoryId} {j : Nat} (hr : s.currentRule = r)
    (hi : s.cursor ≤ c.tokens.endIndex) (hvs : ∀ v ∈ vs, q.Derives g d v) (hw : rest.Derives g d w)
    (hs : c.Spells s.cursor (vs.flatten ++ w) j) (hf : c.Fits g r after j) :
    ∃ b, (c.rounds d' part >>= next) s = .ok b { s with cursor := j } := by
  obtain ⟨k, hsv, hsw⟩ := spells_append.1 hs
  have hk := hsv.le_endIndex hi
  have hbehind := hf.rest hg.sound hrest hw hsw
  have hne : ∀ v, q.Derives g d v → v ≠ [] := fun v hv => hv.ne_nil hg.sound hq hn
  obtain ⟨as, has⟩ := rounds_of_spells (s := s) hne
    (fun v i k hv hs => henter { s with cursor := i } v k d hv hs)
    (fun v i k hv hs => Fits.again hg.sound hq (hne v hv) hv hs)
    (fun v i k hv hs hk =>
      hpart { s with cursor := i } v k hr (hs.lt_endIndex (hne v hv)).le hv hs hk)
    (hpass { s with cursor := k } hbehind) hbehind.leave hvs hi hsv
  rw [bind_of_ok has]
  exact h as { s with cursor := k } w j hr hk hw hsw hf

theorem many (hplace : ⟨.repetition i false q rest, .rest rest :: after⟩ ∈ p.phrase.places [])
    {part : Parse α} (hpart : c.ParsesAs g d r (.again q :: .rest rest :: after) part q)
    {next : List α → Parse β} (h : ∀ as, c.ParsesAs g d r after (next as) rest) :
    c.ParsesAs g d r after (c.decision .many i >>= fun d' => c.rounds d' part >>= next)
      (.repetition i false q rest) := by
  intro s w j hr hi hw hs hf
  have hsound := (sound_of_place hg hp hplace).1
  obtain ⟨hn, hu⟩ := hg.isLL1 r p hp _ hplace
  obtain ⟨d', hd, henter, hpass⟩ := exists_decision_of_part hg heof hp hplace rfl hsound.1 hn hu
  have hmany : c.decision? s .many i = some d' := hd s hr
  cases hw with
  | repetition hnil hvs hw =>
    rw [bind_of_ok (decision_of_some hmany)]
    exact rounds hg hsound.1 hsound.2 hn henter hpass hpart h hr hi hvs hw hs hf

theorem atLeastOne (hplace : ⟨.repetition i true q rest, .rest rest :: after⟩ ∈ p.phrase.places [])
    {part : Parse α} (hpart : c.ParsesAs g d r (.again q :: .rest rest :: after) part q)
    {next : α → List α → Parse β} (h : ∀ a as, c.ParsesAs g d r after (next a as) rest) :
    c.ParsesAs g d r after
      (c.decision .atLeastOne i >>= fun d' => c.enterOnce i d' >>= fun _ => part >>= fun a =>
        c.rounds d' part >>= next a) (.repetition i true q rest) := by
  intro s w j hr hi hw hs hf
  have hsound := (sound_of_place hg hp hplace).1
  obtain ⟨hn, hu⟩ := hg.isLL1 r p hp _ hplace
  obtain ⟨d', hd, henter, hpass⟩ := exists_decision_of_part hg heof hp hplace rfl hsound.1 hn hu
  have honce : c.decision? s .atLeastOne i = some d' := hd s hr
  cases hw with
  | @repetition _ _ _ _ _ w vs hnil hvs hw =>
    cases vs with
    | nil => exact absurd rfl (hnil rfl)
    | cons v vs =>
      obtain ⟨hv, hvs⟩ := List.forall_mem_cons.1 hvs
      rw [List.flatten_cons, List.append_assoc] at hs
      obtain ⟨k, hsv, hsk⟩ := spells_append.1 hs
      have hfits := Fits.rounds hg.sound hsound.1 hsound.2 hn hvs hw hsk hf
      obtain ⟨a, ha⟩ := hpart s v k hr hi hv hsv hfits
      rw [bind_of_ok (decision_of_some honce),
        bind_of_ok (enterOnce_of_enters (henter s v k d hv hsv)), bind_of_ok ha]
      exact rounds hg hsound.1 hsound.2 hn henter hpass hpart (h a) (s := { s with cursor := k }) hr
        (hsv.le_endIndex hi) hvs hw hsk hf

end ParseContext.ParsesAs

namespace Body

variable {V : Type} {c : ParseContext V} {g : Grammar}

open ParseContext Parse

private theorem parsesAs_run (hg : g.Analyzed c.registry.model c.analysis)
    (heof : ∀ x, c.isA CategoryId.eof x = true → x = CategoryId.eof) {r : RuleId} {p : Production}
    (hp : g.productions[r]? = some p) {d : Nat} {call : RuleId → Rule V → Parse V}
    (hcall : c.Parses g call d) {body : Body V} (hplain : body.isPlain = true)
    (hgate : body.IsGateFree) {after : List Frame}
    (hplaces : ∀ x ∈ body.phrase.places after, x ∈ p.phrase.places []) :
    c.ParsesAs g d r after (body.run c call) body.phrase := by
  induction body generalizing after with
  | done => exact .done []
  | consume idx category rest ih =>
    rw [run]
    exact .consume fun t => (ih hplain hgate fun x hx =>
      hplaces x (List.mem_cons_of_mem _ hx)).bind_pure
  | subrule idx name rest ih =>
    rw [run]
    exact .subrule hg hp hcall (hplaces _ List.mem_cons_self) fun v => (ih hplain hgate fun x hx =>
      hplaces x (List.mem_cons_of_mem _ hx)).bind_pure
  | option idx body rest ihb ih =>
    simp only [isPlain, Bool.and_eq_true] at hplain
    have hbody := ihb hplain.1 hgate.1 fun x hx =>
      hplaces x (List.mem_cons_of_mem _ (List.mem_append_left _ hx))
    have hrest := ih hplain.2 hgate.2 fun x hx =>
      hplaces x (List.mem_cons_of_mem _ (List.mem_append_right _ hx))
    rw [run]
    exact .option hg hp heof (hplaces _ List.mem_cons_self) hbody fun y => hrest.bind_pure
  | repetition idx b body rest ihb ih =>
    simp only [isPlain, Bool.and_eq_true] at hplain
    have hbody := ihb hplain.1 hgate.1 fun x hx =>
      hplaces x (List.mem_cons_of_mem _ (List.mem_append_left _ hx))
    have hrest := ih hplain.2 hgate.2 fun x hx =>
      hplaces x (List.mem_cons_of_mem _ (List.mem_append_right _ hx))
    cases b with
    | false =>
      rw [run]
      exact .many hg hp heof (hplaces _ List.mem_cons_self) hbody fun ys => hrest.bind_pure
    | true =>
      rw [run]
      exact .atLeastOne hg hp heof (hplaces _ List.mem_cons_self) hbody fun y ys => hrest.bind_pure
  | @choice n idx expecting gate body rest ihb ih =>
    simp only [isPlain, Bool.and_eq_true, List.all_eq_true, List.forall_mem_ofFn_iff, id] at hplain
    have hbody := fun k => ihb k (hplain.1 k) (hgate.1 k).2 fun x hx =>
      hplaces x (List.mem_cons_of_mem _ (List.mem_append_left _
        (List.mem_flatten.2 ⟨_, List.mem_ofFn.2 ⟨k, rfl⟩, hx⟩)))
    have hrest := ih hplain.2 hgate.2 fun x hx =>
      hplaces x (List.mem_cons_of_mem _ (List.mem_append_right _ hx))
    rw [run]
    exact .choice hg hp (hplaces _ List.mem_cons_self) (fun k => (hgate.1 k).1) hbody
      fun k ys => hrest.bind_pure
  | action value rest ih => cases hplain
  | observe value rest ih => cases hplain
  | fail phase cause rest ih => cases hplain
  | during phase body rest ihb ih => cases hplain
  | attempt body rest ihb ih => cases hplain

end Body

namespace Registry

variable {V : Type} {r : Registry V} {a : AnalyzedGrammar} {g : Grammar}

/-- No alternative of a rule has a condition besides its tokens. -/
def IsGateFree (r : Registry V) : Prop := ∀ rule ∈ r.rules, rule.body.IsGateFree

theorem Finalized.sound (hr : r.Finalized a) (he : r.EofApart) (hg : r.grammar = .ok g)
    (hd : g.formalDefect? r.model = none) {p : Production} (hp : p ∈ g.productions) :
    p.phrase.Sound g := by
  obtain ⟨rfl, hb⟩ := grammar_eq hr.plain hg
  have hp' : p ∈ r.productions := by simpa [Grammar.ofList] using hp
  obtain ⟨rule, hrule, rfl⟩ := List.mem_map.1 hp'
  have hrule := Array.mem_toList_iff.1 hrule
  refine Phrase.sound_of_hasBranches (hb rule hrule) (fun name idx hc => ?_)
    (he.not_consumed rule hrule)
  obtain ⟨i, hi⟩ := Grammar.exists_ruleId?_of_formalDefect? hd hp hc
  obtain ⟨callee, hcallee, hname⟩ := hr.built.wellFormed.ruleId?_eq_some.1 hi
  exact ⟨_, hr.built.wellFormed.phrase?_eq_some.2
    ⟨i, callee, hr.built.wellFormed.find?_eq_some.2 ⟨hcallee, hname⟩, rfl⟩⟩

theorem Finalized.analyzed_grammar (hr : r.Finalized a) (he : r.EofApart)
    (ha : a.isAmbiguous = false) (hg : r.grammar = .ok g) (hl : g.IsLL1 r.model) :
    g.Analyzed r.model a := by
  obtain ⟨g', hg', hok⟩ := hr.exists_grammar
  obtain rfl : g = g' := Except.ok.inj (hg.symm.trans hg')
  have hd := (Grammar.analyze_eq_ok hok).1
  refine ⟨hr.built.wellFormed.model, fun name p hp => ?_, ⟨_, hok⟩, ?_, fun r p hp => ?_, hl⟩
  · obtain ⟨i, q, -, hq, rfl⟩ := Grammar.exists_of_phrase? hp
    exact hr.sound he hg hd (Array.mem_of_getElem? hq)
  · simpa [AnalyzedGrammar.isAmbiguous] using ha
  · exact hr.sound he hg hd (Array.mem_of_getElem? hp)

end Registry

namespace ParseContext

variable {V : Type} {c : ParseContext V} {g : Grammar}

private theorem parses_callRule (hr : c.registry.Finalized c.analysis) (he : c.registry.EofApart)
    (hgate : c.registry.IsGateFree) (hg : g.Analyzed c.registry.model c.analysis)
    (hgr : c.registry.grammar = .ok g) (left : Nat) : c.Parses g (c.callRule left) left := by
  induction left with
  | zero => exact fun _ _ _ e _ _ _ _ _ h => absurd h (Nat.not_lt_zero e)
  | succ left ih =>
    intro name callee q e w s j hname hq hlt hw hi hs hf
    obtain ⟨rfl, -⟩ := Registry.grammar_eq hr.plain hgr
    obtain ⟨id, rule, hfind, rfl⟩ := hr.built.wellFormed.phrase?_eq_some.1 hq
    obtain ⟨hrule, hrn⟩ := hr.built.wellFormed.find?_eq_some.1 hfind
    obtain rfl : callee = id := Option.some.inj
      (hname.symm.trans (hr.built.wellFormed.ruleId?_eq_some.2 ⟨rule, hrule, hrn⟩))
    have hmem := Array.mem_of_getElem? hrule
    have hp : (Grammar.ofList c.registry.productions).productions[callee]? =
        some rule.production := by
      rw [Registry.getElem?_productions, hrule, Option.map_some]
    obtain ⟨ys, hys⟩ := Body.parsesAs_run hg (isA_eof hr he) hp ih (hr.plain rule hmem)
      (hgate rule hmem) (fun x hx => hx) { s with stack := callee :: s.stack } w j rfl hi
      (hw.mono (Nat.le_of_lt_succ hlt)) hs hf
    refine ⟨rule.value ys, ?_⟩
    simp only [callNamed, hfind, callRule, hys]
    rfl

/-- A sentence of the start rule is parsed to its end, and nothing is reported. -/
theorem parseAll_of_derives (hr : c.registry.Finalized c.analysis) (he : c.registry.EofApart)
    (hgate : c.registry.IsGateFree) (hg : g.Analyzed c.registry.model c.analysis)
    (hgr : c.registry.grammar = .ok g) {start : String} {w : List CategoryId}
    (hw : g.Derives Limits.maxParseDepth start w)
    (hm : List.Forall₂ (fun t x => c.isA t.category x = true) c.tokens.before.toList w)
    (s : ParseState) :
    ∃ id rule, c.registry.find? start = some (id, rule) ∧
      (c.parseAll id rule s).2.diagnostics = #[] ∧ (c.parseAll id rule s).2.suppressed = 0
        ∧ (c.parseAll id rule s).2.cursor = c.tokens.endIndex := by
  obtain ⟨q, e, hq, hlt, hw⟩ := hw
  obtain ⟨id, p, hid, -, -⟩ := Grammar.exists_of_phrase? hq
  have hs : c.Spells 0 w c.tokens.endIndex := (spells_endIndex_iff (Nat.zero_le _)).2 hm
  have hend : c.Fits g id [] c.tokens.endIndex := .inl (category_get_of_le le_rfl)
  have hcall := parses_callRule hr he hgate hg hgr Limits.maxParseDepth start id q e w
  obtain ⟨rfl, -⟩ := Registry.grammar_eq hr.plain hgr
  obtain ⟨rule, hrule, hn⟩ := hr.built.wellFormed.ruleId?_eq_some.1 hid
  have hfind := hr.built.wellFormed.find?_eq_some.2 ⟨hrule, hn⟩
  refine ⟨id, rule, hfind, ?_⟩
  generalize hs₀ : s.rewind.note (.debug "Parse started"
    [("start", rule.name), ("tokens", toString c.tokens.size)]) = s₀
  have hcursor : s₀.cursor = 0 := by rw [← hs₀]; rfl
  have hclean : s₀.diagnostics = #[] ∧ s₀.suppressed = 0 := by rw [← hs₀]; exact ⟨rfl, rfl⟩
  obtain ⟨v, hv⟩ := hcall s₀ _ hid hq hlt hw (by omega) (hcursor ▸ hs) hend
  simp only [callNamed, hfind] at hv
  have hrest : c.reportRest { s₀ with cursor := c.tokens.endIndex }
      = { s₀ with cursor := c.tokens.endIndex } := by
    rw [reportRest]
    rw [if_pos]
    simpa [Token.isEof, ahead] using category_get_of_le (c := c) le_rfl
  simp only [parseAll, hs₀, parseRule, hv, hrest]
  exact ⟨hclean.1, hclean.2, rfl⟩

end ParseContext

namespace Session

variable {V : Type}

/-- Where one token decides everywhere, tokens that belong, one by one, to the categories of a
sentence of the start rule are parsed up to the end of the input without diagnostics, whatever the
preferences are. -/
theorem clean_of_derives {r : Registry V} {a : AnalyzedGrammar} (hr : r.Finalized a)
    (he : r.EofApart) (hgate : r.IsGateFree) (ha : a.isAmbiguous = false) {g : Grammar}
    (hg : r.grammar = .ok g) (hl : g.IsLL1 r.model) {tokens : TokenStream} {s : Session V}
    (hs : s.context = ⟨r, a, tokens⟩) {start : String} {w : List CategoryId}
    (hw : g.Derives Limits.maxParseDepth start w)
    (hm : List.Forall₂ (fun t x => r.model.isA t.category x = true) tokens.before.toList w) :
    ∃ out s', s.invoke start = (.ok out, s') ∧ out.syntactic = [] ∧ out.suppressed = 0
      ∧ out.lexical = s.lexical ∧ s'.state.cursor = tokens.endIndex := by
  obtain ⟨id, rule, hfind, hd, hsup, hcursor⟩ :=
    @ParseContext.parseAll_of_derives V ⟨r, a, tokens⟩ g hr he hgate
      (hr.analyzed_grammar he ha hg hl) hg start w hw hm s.state
  generalize hp : ParseContext.parseAll ⟨r, a, tokens⟩ id rule s.state = parsed at hd hsup hcursor
  refine ⟨⟨parsed.1, s.lexical, parsed.2.diagnostics.toList, parsed.2.suppressed⟩,
    { s with lexical := [], state := { parsed.2 with diagnostics := #[] } }, ?_, by simp [hd], hsup,
    rfl, hcursor⟩
  simp only [invoke, hs, hfind, hp]

open Registry

private theorem grammar_itemList : itemList.grammar = .ok (.ofList itemList.productions) := by
  obtain ⟨g, hg, -⟩ := finalized_itemList.exists_grammar
  obtain ⟨rfl, -⟩ := grammar_eq finalized_itemList.plain hg
  exact hg

private theorem isGateFree_itemList : itemList.IsGateFree := by
  simp [IsGateFree, rules_itemList, listRule, itemRule, Body.IsGateFree]

private theorem productions_itemList :
    itemList.productions = [listRule.production, itemRule.production] := by
  simp [productions, rules_itemList]

set_option maxRecDepth 4000 in
private theorem follow_itemList :
    ((RuleFacts.ofGrammar (.ofList [listRule.production, itemRule.production])).follow[0]?).map
      (·.toList) = some [] := by cbv

private theorem isLL1_itemList : (Grammar.ofList itemList.productions).IsLL1 itemList.model := by
  rw [productions_itemList]
  intro r p hp place hplace
  rcases r with _ | _ | r
  · obtain rfl : listRule.production = p := Option.some.inj hp
    simp only [Rule.production, listRule, Body.phrase, Phrase.places, List.mem_cons,
      List.append_nil, List.not_mem_nil, or_false] at hplace
    rcases hplace with rfl | rfl | rfl | rfl
    · trivial
    · refine ⟨rfl, fun x y _ hy => ?_⟩
      rcases hy with hy | ⟨-, t, ht, hy⟩
      · rcases Frame.mem_first_rest.1 hy with hy | ⟨-, hy⟩ <;>
          exact absurd hy (CategorySet.not_mem_empty y)
      · have hnone := follow_itemList
        rw [ht, Option.map_some, Option.some.injEq] at hnone
        exact absurd (hnone ▸ hy : y ∈ []) List.not_mem_nil
    · trivial
    · trivial
  · obtain rfl : itemRule.production = p := Option.some.inj hp
    obtain rfl := List.mem_singleton.1 hplace
    trivial
  · cases hp

private theorem derives_itemList :
    (Grammar.ofList itemList.productions).Derives Limits.maxParseDepth "list" [1, 2, 1] := by
  have hr := finalized_itemList.built.wellFormed
  have hlist := hr.phrase?_eq_some.2
    ⟨0, listRule, hr.find?_eq_some.2 ⟨by rw [rules_itemList]; rfl, rfl⟩, rfl⟩
  have hitem := hr.phrase?_eq_some.2
    ⟨1, itemRule, hr.find?_eq_some.2 ⟨by rw [rules_itemList]; rfl, rfl⟩, rfl⟩
  have hcall : itemRule.body.phrase.Derives (.ofList itemList.productions) 0 [1] := .terminal .nil
  have hround : ∀ v ∈ [[2, 1]], (Phrase.terminal 2 1 (.call "item" 2 .nil)).Derives
      (.ofList itemList.productions) 1 v := by
    simpa using .terminal (.call hitem hcall .nil)
  have hrounds := Phrase.Derives.repetition (i := 1) (b := false) (by simp) hround .nil
  exact ⟨_, 1, hlist, by decide, .call hitem hcall hrounds⟩

set_option maxRecDepth 4000 in
/-- Two items with a comma between them. -/
theorem clean_of_derives_itemList :
    ∃ out s', invoke ⟨⟨itemList, itemAnalysis, itemTokens⟩, [], .start⟩ "list" = (.ok out, s')
      ∧ out.syntactic = [] ∧ out.suppressed = 0 ∧ out.lexical = []
      ∧ s'.state.cursor = itemTokens.endIndex := by
  have ha : itemAnalysis.isAmbiguous = false := by cbv
  have hm : List.Forall₂ (fun t x => itemList.model.isA t.category x = true)
      itemTokens.before.toList [1, 2, 1] := by
    refine .cons ?_ (.cons ?_ (.cons ?_ .nil)) <;> cbv
  exact clean_of_derives finalized_itemList eofApart_itemList isGateFree_itemList ha
    grammar_itemList isLL1_itemList rfl derives_itemList hm

end Session

end PredictiveParsing
