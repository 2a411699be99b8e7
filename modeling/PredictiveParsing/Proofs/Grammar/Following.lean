import PredictiveParsing.Proofs.Grammar.Saturation

/-!
# What comes behind a place

Wherever a rule is called, everything that can come behind the call can follow the rule.
-/

namespace PredictiveParsing

/-! ## What holds of all places of a phrase -/

def Frame.phrase : Frame → Phrase
  | rest p => p
  | again body => body

/-- What holds of a phrase and then of everything in it and behind its first piece. -/
structure Phrase.Hereditary (P : Phrase → Prop) : Prop where
  terminal {c i rest} : P (.terminal c i rest) → P rest
  call {r i rest} : P (.call r i rest) → P rest
  option {i body rest} : P (.option i body rest) → P body ∧ P rest
  repetition {i b body rest} : P (.repetition i b body rest) → P body ∧ P rest
  choice {n i rest} {gated : Fin n → Bool} {body : Fin n → Phrase} :
    P (.choice i gated body rest) → (∀ k, P (body k)) ∧ P rest

namespace Phrase.Hereditary

theorem of_mem_places {P : Phrase → Prop} (h : Hereditary P) {p : Phrase} {after : List Frame}
    {place : Place} (hx : place ∈ p.places after) (hp : P p) (ha : ∀ f ∈ after, P f.phrase) :
    P place.phrase ∧ ∀ f ∈ place.after, P f.phrase := by
  induction p generalizing after with
  | nil => cases hx
  | terminal c i rest ih =>
    rcases List.mem_cons.1 hx with rfl | hx
    · exact ⟨hp, List.forall_mem_cons.2 ⟨h.terminal hp, ha⟩⟩
    · exact ih hx (h.terminal hp) ha
  | call r i rest ih =>
    rcases List.mem_cons.1 hx with rfl | hx
    · exact ⟨hp, List.forall_mem_cons.2 ⟨h.call hp, ha⟩⟩
    · exact ih hx (h.call hp) ha
  | option i body rest ihb ih =>
    obtain ⟨hb, hr⟩ := h.option hp
    have ha' : ∀ f ∈ Frame.rest rest :: after, P f.phrase := List.forall_mem_cons.2 ⟨hr, ha⟩
    rcases List.mem_cons.1 hx with rfl | hx
    · exact ⟨hp, ha'⟩
    · rcases List.mem_append.1 hx with hx | hx
      · exact ihb hx hb ha'
      · exact ih hx hr ha
  | repetition i b body rest ihb ih =>
    obtain ⟨hb, hr⟩ := h.repetition hp
    have ha' : ∀ f ∈ Frame.rest rest :: after, P f.phrase := List.forall_mem_cons.2 ⟨hr, ha⟩
    rcases List.mem_cons.1 hx with rfl | hx
    · exact ⟨hp, ha'⟩
    · rcases List.mem_append.1 hx with hx | hx
      · exact ihb hx hb (List.forall_mem_cons.2 ⟨hb, ha'⟩)
      · exact ih hx hr ha
  | choice i gated body rest ihb ih =>
    obtain ⟨hb, hr⟩ := h.choice hp
    have ha' : ∀ f ∈ Frame.rest rest :: after, P f.phrase := List.forall_mem_cons.2 ⟨hr, ha⟩
    rcases List.mem_cons.1 hx with rfl | hx
    · exact ⟨hp, ha'⟩
    · rcases List.mem_append.1 hx with hx | hx
      · obtain ⟨l, hl, hx⟩ := List.mem_flatten.1 hx
        obtain ⟨k, rfl⟩ := List.mem_ofFn.1 hl
        exact ihb k hx (hb k) ha'
      · exact ih hx hr ha

/-- What holds of all the categories of the tokens. -/
theorem consumes (ok : CategoryId → Prop) : Hereditary fun p => ∀ c, p.Consumes c → ok c where
  terminal h c hc := h c (consumes_terminal.2 (.inr hc))
  call h c hc := h c (consumes_call.2 hc)
  option h := ⟨fun c hc => h c (consumes_option.2 (.inl hc)),
    fun c hc => h c (consumes_option.2 (.inr hc))⟩
  repetition h := ⟨fun c hc => h c (consumes_repetition.2 (.inl hc)),
    fun c hc => h c (consumes_repetition.2 (.inr hc))⟩
  choice h := ⟨fun k c hc => h c (consumes_choice.2 (.inl ⟨k, hc⟩)),
    fun c hc => h c (consumes_choice.2 (.inr hc))⟩

end Phrase.Hereditary

namespace Frame

private theorem consumes_of_mem_first {nullable : String → Bool} {f : String → CategorySet}
    {after : List Frame} {c : CategoryId} (hc : c ∈ first nullable f after) :
    (∃ x ∈ after, x.phrase.Consumes c) ∨ ∃ name, c ∈ f name := by
  induction after with
  | nil => exact absurd hc (CategorySet.not_mem_empty c)
  | cons x after ih =>
    have later : c ∈ first nullable f after →
        (∃ y ∈ x :: after, y.phrase.Consumes c) ∨ ∃ name, c ∈ f name := fun hc =>
      (ih hc).imp_left fun ⟨y, hy, h⟩ => ⟨y, List.mem_cons_of_mem x hy, h⟩
    have now : c ∈ x.phrase.first nullable f →
        (∃ y ∈ x :: after, y.phrase.Consumes c) ∨ ∃ name, c ∈ f name := fun hc =>
      (Phrase.consumes_of_mem_first hc).imp_left fun h => ⟨x, List.mem_cons_self, h⟩
    cases x with
    | rest p =>
      rw [first] at hc
      split at hc
      · exact (CategorySet.mem_union.1 hc).elim now later
      · exact now hc
    | again body => exact (CategorySet.mem_union.1 hc).elim now later

end Frame

/-! ## What follows a rule -/

namespace Grammar

variable {g : Grammar}

theorem mem_callSites {nullable : Array Bool} {first : Array CategorySet} {x : CallSite} :
    x ∈ g.callSites nullable first ↔ ∃ p place r i rest, g.productions[x.caller]? = some p
      ∧ place ∈ p.phrase.places [] ∧ place.phrase = .call r i rest ∧ g.ruleId? r = some x.callee
      ∧ x.follows = Frame.first (g.ofRule nullable false) (g.ofRule first .empty) place.after
      ∧ x.reachesEnd = Frame.reachesEnd (g.ofRule nullable false) place.after := by
  obtain ⟨caller, callee, follows, reachesEnd⟩ := x
  simp only [callSites, List.mem_flatMap, Prod.exists, List.mem_zipIdx_iff_getElem?,
    Array.getElem?_toList, List.mem_filterMap]
  constructor
  · rintro ⟨p, r, hp, ⟨phrase, after⟩, hplace, h⟩
    cases phrase with
    | call name i rest =>
      obtain ⟨callee, hc, h⟩ := Option.map_eq_some_iff.1 h
      cases h
      exact ⟨p, _, name, i, rest, hp, hplace, rfl, hc, rfl, rfl⟩
    | nil => cases h
    | terminal => cases h
    | option => cases h
    | repetition => cases h
    | choice => cases h
  · rintro ⟨p, ⟨phrase, after⟩, name, i, rest, hp, hplace, rfl, hc, rfl, rfl⟩
    exact ⟨p, caller, hp, _, hplace, by simp [hc]⟩

/-- Every entry of the one is among those of the other. -/
structure Within (x y : Array CategorySet) : Prop where
  size : x.size = y.size
  subset (i : Nat) (s t : CategorySet) : x[i]? = some s → y[i]? = some t → s ⊆ t

theorem Within.rfl {x : Array CategorySet} : Within x x where
  size := by rfl
  subset i s t hs ht c hc := Option.some.inj (hs.symm.trans ht) ▸ hc

theorem Within.trans {x y z : Array CategorySet} (h : Within x y) (h' : Within y z) :
    Within x z where
  size := h.size.trans h'.size
  subset i s t hs ht c hc := by
    have hi : i < y.size := by
      rw [h'.size]
      exact (Array.getElem?_eq_some_iff.1 ht).1
    have hy := Array.getElem?_eq_getElem hi
    exact h'.subset i _ t hy ht c (h.subset i s _ hs hy c hc)

theorem within_passOn (x : Array CategorySet) (site : CallSite) : Within x (passOn x site) where
  size := by simp [passOn]
  subset i s t hs ht c hc := by
    simp only [passOn, Array.getElem?_modify, hs] at ht
    split at ht
    · obtain rfl := Option.some.inj ht
      exact CategorySet.mem_union.2 (.inl (CategorySet.mem_union.2 (.inl hc)))
    · exact Option.some.inj ht ▸ hc

theorem within_foldl_passOn (calls : List CallSite) (x : Array CategorySet) :
    Within x (calls.foldl passOn x) := by
  induction calls generalizing x with
  | nil => exact .rfl
  | cons site calls ih => exact (within_passOn x site).trans (ih _)

/-- What a step to the follow sets keeps. -/
structure FollowGrows (g : Grammar) (x : Array CategorySet) : Prop where
  size : x.size = g.size
  consumed : ∀ s ∈ x, ∀ c ∈ s, c ∈ g.consumed

theorem FollowGrows.passOn {x : Array CategorySet} (hx : g.FollowGrows x) {site : CallSite}
    (hs : ∀ c ∈ site.follows, c ∈ g.consumed) : g.FollowGrows (passOn x site) where
  size := (within_passOn x site).size.symm.trans hx.size
  consumed t ht c hc := by
    obtain ⟨i, hi⟩ := Array.getElem?_of_mem ht
    simp only [Grammar.passOn, Array.getElem?_modify] at hi
    split at hi
    · obtain ⟨s, hs', rfl⟩ := Option.map_eq_some_iff.1 hi
      rcases CategorySet.mem_union.1 hc with hc | hc
      · rcases CategorySet.mem_union.1 hc with hc | hc
        · exact hx.consumed s (Array.mem_of_getElem? hs') c hc
        · exact hs c hc
      · split at hc
        · cases hk : x[site.caller]? with
          | none =>
            rw [hk] at hc
            exact absurd hc (CategorySet.not_mem_empty c)
          | some s =>
            rw [hk] at hc
            exact hx.consumed s (Array.mem_of_getElem? hk) c hc
        · exact absurd hc (CategorySet.not_mem_empty c)
    · exact hx.consumed t (Array.mem_of_getElem? hi) c hc

private theorem FollowGrows.foldl_passOn {calls : List CallSite}
    (hs : ∀ site ∈ calls, ∀ c ∈ site.follows, c ∈ g.consumed) {x : Array CategorySet}
    (hx : g.FollowGrows x) : g.FollowGrows (calls.foldl Grammar.passOn x) := by
  induction calls generalizing x with
  | nil => exact hx
  | cons site calls ih =>
    rw [List.forall_mem_cons] at hs
    exact ih hs.2 (hx.passOn hs.1)

private theorem foldl_passOn_follow {calls : List CallSite}
    (hs : ∀ site ∈ calls, ∀ c ∈ site.follows, c ∈ g.consumed) :
    g.FollowGrows (g.follow calls) ∧ calls.foldl passOn (g.follow calls) = g.follow calls :=
  untilStable_stable_of_grows g.FollowGrows (fun s => s.toList.length) g.size g.pieceCount
    (fun _ hx => hx.size) (fun _ hx => hx.foldl_passOn hs)
    (fun x _ i s t hs ht =>
      CategorySet.eq_or_length_lt ((within_foldl_passOn calls x).subset i s t hs ht))
    (fun _ hx s hs => length_le_pieceCount (hx.consumed s hs))
    ⟨Array.size_replicate, fun _ hs _ hc => absurd hc (mem_of_mem_replicate hs)⟩
    (Nat.lt_succ_self _)

private theorem subset_of_foldl_passOn_eq {calls : List CallSite} {x : Array CategorySet}
    (h : calls.foldl passOn x = x) {site : CallSite} (hsite : site ∈ calls) {t : CategorySet}
    (ht : x[site.callee]? = some t) : site.follows ⊆ t
      ∧ (site.reachesEnd = true → ∀ s, x[site.caller]? = some s → s ⊆ t) := by
  obtain ⟨earlier, later, rfl⟩ := List.append_of_mem hsite
  rw [List.foldl_append, List.foldl_cons] at h
  -- what the calls in front have passed on lies between the array and itself
  generalize hy : earlier.foldl passOn x = y at h
  have hxy : Within x y := hy ▸ within_foldl_passOn earlier x
  have hyx : Within (passOn y site) x := by
    have hw := within_foldl_passOn later (passOn y site)
    rwa [h] at hw
  have hlt : site.callee < y.size := hxy.size ▸ (Array.getElem?_eq_some_iff.1 ht).1
  have hu := hyx.subset site.callee _ t (by
    simp only [passOn, Array.getElem?_modify, if_true, Array.getElem?_eq_getElem hlt]
    rfl) ht
  refine ⟨fun c hc => hu c (CategorySet.mem_union.2 (.inl (CategorySet.mem_union.2 (.inr hc)))),
    fun hend s hs c hc => hu c (CategorySet.mem_union.2 (.inr ?_))⟩
  have hlt' : site.caller < y.size := hxy.size ▸ (Array.getElem?_eq_some_iff.1 hs).1
  have hy' := Array.getElem?_eq_getElem hlt'
  simpa [hend, hy'] using hxy.subset site.caller s _ hs hy' c hc

end Grammar

/-! ## The facts about the rules of a grammar -/

namespace RuleFacts

/-- The categories that the rule with a name can start with. -/
def firstOf (s : RuleFacts) (name : String) : CategorySet := s.grammar.ofRule s.first .empty name

/-- A token of the category can come next where only the frames are left of a rule, in the rule or,
if its end can be reached, behind it. -/
def Behind (s : RuleFacts) (r : RuleId) (after : List Frame) (c : CategoryId) : Prop :=
  c ∈ Frame.first s.isNullable s.firstOf after
    ∨ (Frame.reachesEnd s.isNullable after = true ∧ ∃ t, s.follow[r]? = some t ∧ c ∈ t)

variable {g : Grammar}

theorem isNullable_eq {name : String} {p : Phrase} (h : g.phrase? name = some p) :
    (ofGrammar g).isNullable name = p.isNullable (ofGrammar g).isNullable := by
  obtain ⟨i, q, hi, hq, rfl⟩ := Grammar.exists_of_phrase? h
  have hn : g.nullable[i]? = some (q.phrase.isNullable (g.ofRule g.nullable false)) := by
    conv_lhs => rw [← Grammar.nullableStep_nullable]
    simp [Grammar.nullableStep, hq]
  exact Grammar.ofRule_eq hi hn

theorem firstOf_eq {name : String} {p : Phrase} (h : g.phrase? name = some p) :
    (ofGrammar g).firstOf name = p.first (ofGrammar g).isNullable (ofGrammar g).firstOf := by
  obtain ⟨i, q, hi, hq, rfl⟩ := Grammar.exists_of_phrase? h
  have hf : (g.first g.nullable)[i]? = some (q.phrase.first (g.ofRule g.nullable false)
      (g.ofRule (g.first g.nullable) .empty)) := by
    conv_lhs => rw [← (Grammar.firstStep_first g.nullable).2]
    simp [Grammar.firstStep, hq]
  exact Grammar.ofRule_eq hi hf

private theorem consumed_of_mem_firstOf {name : String} {c : CategoryId}
    (h : c ∈ (ofGrammar g).firstOf name) : c ∈ g.consumed := by
  obtain ⟨i, s, -, hs, hc⟩ := Grammar.mem_ofRule h
  exact (Grammar.firstStep_first g.nullable).1.consumed s (Array.mem_of_getElem? hs) c hc

private theorem consumed_of_mem_first {p : Production} (hp : p ∈ g.productions) {place : Place}
    (hplace : place ∈ p.phrase.places []) {c : CategoryId}
    (hc : c ∈ Frame.first (ofGrammar g).isNullable (ofGrammar g).firstOf place.after) :
    c ∈ g.consumed := by
  have hall := (Phrase.Hereditary.consumes (· ∈ g.consumed)).of_mem_places hplace
    (fun c hc => Grammar.mem_consumed hp hc) (by simp)
  rcases Frame.consumes_of_mem_first hc with ⟨x, hx, hc⟩ | ⟨name, hc⟩
  · exact hall.2 x hx c hc
  · exact consumed_of_mem_firstOf hc

/-- Another step adds nothing to what follows the rules. -/
theorem follow_stable : g.FollowGrows (ofGrammar g).follow
    ∧ (g.callSites g.nullable (g.first g.nullable)).foldl Grammar.passOn (ofGrammar g).follow
      = (ofGrammar g).follow := by
  refine Grammar.foldl_passOn_follow fun site hsite c hc => ?_
  obtain ⟨p, place, _, _, _, hp, hplace, -, -, hf, -⟩ := Grammar.mem_callSites.1 hsite
  rw [hf] at hc
  exact consumed_of_mem_first (Array.mem_of_getElem? hp) hplace hc

theorem exists_follow {r : RuleId} {p : Production} (hp : g.productions[r]? = some p) :
    ∃ s, (ofGrammar g).follow[r]? = some s := by
  have hlt : r < (ofGrammar g).follow.size := by
    rw [follow_stable.1.size]
    exact (Array.getElem?_eq_some_iff.1 hp).1
  exact ⟨_, Array.getElem?_eq_getElem hlt⟩

/-- What can come behind a call can follow the rule that is called. -/
theorem behind_of_call {r callee : RuleId} {p : Production} (hp : g.productions[r]? = some p)
    {place : Place} (hplace : place ∈ p.phrase.places []) {name : String} {i : Nat} {rest : Phrase}
    (hcall : place.phrase = .call name i rest) (hr : g.ruleId? name = some callee)
    {q : Production} (hq : g.productions[callee]? = some q) {c : CategoryId}
    (h : (ofGrammar g).Behind r place.after c) : (ofGrammar g).Behind callee [] c := by
  obtain ⟨t, ht⟩ := exists_follow hq
  have hsite : ⟨r, callee, _, _⟩ ∈ g.callSites g.nullable (g.first g.nullable) :=
    Grammar.mem_callSites.2 ⟨p, place, name, i, rest, hp, hplace, hcall, hr, rfl, rfl⟩
  have hsub := Grammar.subset_of_foldl_passOn_eq follow_stable.2 hsite ht
  refine .inr ⟨rfl, t, ht, ?_⟩
  rcases h with h | ⟨hend, s, hs, hc⟩
  · exact hsub.1 c h
  · exact hsub.2 hend s hs c hc

end RuleFacts

end PredictiveParsing
