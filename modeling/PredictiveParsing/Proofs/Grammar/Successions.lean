import PredictiveParsing.Proofs.Grammar.Surroundings

/-!
# What comes behind rules and tokens

The follow set of a rule holds exactly the categories of the tokens that come right behind a call of
the rule in a sentential form of some rule. The successors of a token of a rule are exactly the
tokens that come right behind it in the forms of the rule that pass it.
-/

namespace PredictiveParsing

/-- A member of two lists in a row is in the first one or in the second one. -/
theorem append_eq_append_cons {α : Type} {s t u v : List α} {x : α} (h : s ++ t = u ++ x :: v) :
    (∃ v', s = u ++ x :: v' ∧ v = v' ++ t) ∨ ∃ u', u = s ++ u' ∧ t = u' ++ x :: v := by
  rcases List.append_eq_append_iff.mp h with ⟨u', hu, ht⟩ | ⟨v', hs, hv⟩
  · exact .inr ⟨u', hu, ht⟩
  · cases v' with
    | nil => exact .inr ⟨[], by simpa using hs.symm, by simpa using hv.symm⟩
    | cons y v' =>
      obtain ⟨rfl, rfl⟩ := List.cons.inj hv
      exact .inl ⟨v', hs, rfl⟩

namespace Phrase

variable {g : Grammar} {p q : Phrase} {r : String} {x : List Symbol}

private theorem exists_replaced_append {A B : List Symbol → Prop} {v w u z : List Symbol} (hv : A v)
    (hw : B w) (ihv : ∀ {u z}, v = u ++ .call r :: z → A (u ++ (x ++ z)))
    (ihw : ∀ {u z}, w = u ++ .call r :: z → B (u ++ (x ++ z))) (h : v ++ w = u ++ .call r :: z) :
    ∃ v' w', A v' ∧ B w' ∧ v' ++ w' = u ++ (x ++ z) := by
  rcases append_eq_append_cons h with ⟨z', hfirst, rfl⟩ | ⟨u', rfl, hsecond⟩
  · exact ⟨_, w, ihv hfirst, hw, by simp⟩
  · exact ⟨v, _, hv, ihw hsecond, by simp⟩

private theorem exists_replaced_flatten {body : Phrase} {vs : List (List Symbol)}
    {u v : List Symbol} (hv : ∀ z ∈ vs, body.Yields g z)
    (hr : ∀ z ∈ vs, ∀ {u v}, z = u ++ .call r :: v → body.Yields g (u ++ (x ++ v)))
    (h : vs.flatten = u ++ .call r :: v) : ∃ vs' : List (List Symbol), vs' ≠ []
      ∧ (∀ z ∈ vs', body.Yields g z) ∧ vs'.flatten = u ++ (x ++ v) := by
  induction vs generalizing u with
  | nil => simp at h
  | cons z vs ih =>
    obtain ⟨hz, hvs⟩ := List.forall_mem_cons.mp hv
    obtain ⟨hrz, hrs⟩ := List.forall_mem_cons.mp hr
    rcases append_eq_append_cons h with ⟨v', hfirst, rfl⟩ | ⟨u', rfl, hlater⟩
    · exact ⟨(u ++ (x ++ v')) :: vs, List.cons_ne_nil _ _,
        List.forall_mem_cons.mpr ⟨hrz hfirst, hvs⟩, by simp⟩
    · obtain ⟨vs', -, hvs', h'⟩ := ih hvs hrs hlater
      exact ⟨z :: vs', List.cons_ne_nil _ _, List.forall_mem_cons.mpr ⟨hz, hvs'⟩, by simp [h']⟩

/-- A call in a form can be replaced by what the called rule derives. -/
theorem Yields.replace {w u v : List Symbol} (h : p.Yields g w) (hw : w = u ++ .call r :: v)
    (hq : g.phrase? r = some q) (hx : q.Yields g x) : p.Yields g (u ++ (x ++ v)) := by
  induction h generalizing u v with
  | nil => simp at hw
  | terminal _ ih =>
    rcases List.cons_eq_append_iff.mp hw with ⟨-, h⟩ | ⟨u', rfl, h⟩
    · cases h
    · exact .terminal (ih h)
  | keep hrest ih =>
    rcases List.cons_eq_append_iff.mp hw with ⟨rfl, h⟩ | ⟨u', rfl, h⟩
    · cases h
      rw [List.nil_append]
      exact .expand hq hx hrest
    · exact .keep (ih h)
  | expand hp hbody hrest ihb ih =>
    obtain ⟨_, _, hb, hr, heq⟩ := exists_replaced_append hbody hrest ihb ih hw
    exact heq ▸ .expand hp hb hr
  | skip _ ih => exact .skip (ih hw)
  | take hbody hrest ihb ih =>
    obtain ⟨_, _, hb, hr, heq⟩ := exists_replaced_append hbody hrest ihb ih hw
    exact heq ▸ .take hb hr
  | choice k hbody hrest ihb ih =>
    obtain ⟨_, _, hb, hr, heq⟩ := exists_replaced_append hbody hrest ihb ih hw
    exact heq ▸ .choice k hb hr
  | repetition hn hrounds hrest ihb ih =>
    rcases append_eq_append_cons hw with ⟨v', hfirst, rfl⟩ | ⟨u', rfl, hlater⟩
    · obtain ⟨vs', hne, hvs, heq⟩ := exists_replaced_flatten hrounds ihb hfirst
      rw [← List.append_assoc, ← List.append_assoc, List.append_assoc u, ← heq]
      exact .repetition (fun _ => hne) hvs hrest
    · rw [List.append_assoc]
      exact .repetition hn hrounds (ih hlater)

end Phrase

namespace Grammar

variable {g : Grammar} {c : CategoryId}

/-- In a sentential form of a rule a token of the category comes right behind a call of the name. -/
def FollowedBy (g : Grammar) (name : String) (c : CategoryId) : Prop :=
  ∃ q ∈ g.productions, ∃ u v, q.phrase.Yields g (u ++ .call name :: .token c :: v)

/-! ## What is passed on does follow -/

section

variable (hb : ∀ p ∈ g.productions, p.phrase.HasBranches) {p : Production} {place : Place}
  {name : String} {i : Nat} {rest : Phrase}

include hb

private theorem followedBy_of_mem_first (hp : p ∈ g.productions)
    (hplace : place ∈ p.phrase.places []) (hcall : place.phrase = .call name i rest)
    (hc : c ∈ Frame.first (RuleFacts.ofGrammar g).isNullable (RuleFacts.ofGrammar g).firstOf
      place.after) : g.FollowedBy name c := by
  have hplaces := Phrase.Hereditary.hasBranches.of_mem_places hplace (hb p hp) (by simp)
  obtain ⟨w, hw⟩ := (Frame.mem_first_iff_yields hb hplaces.2).mp hc
  have hx : place.phrase.head? = some (.call name, i) := by rw [hcall]; rfl
  obtain ⟨u, v, z, heq, h, hz⟩ :=
    Frame.exists_yieldsAround_of_mem_places hplace hx rfl (hb p hp) hw
  cases hz
  rw [List.append_nil] at heq
  exact ⟨p, hp, u, w, heq ▸ h.yields rfl⟩

private theorem followedBy_of_reachesEnd (hp : p ∈ g.productions)
    (hplace : place ∈ p.phrase.places []) (hcall : place.phrase = .call name i rest)
    (hend : Frame.reachesEnd (RuleFacts.ofGrammar g).isNullable place.after = true)
    {caller : String} (hcaller : g.phrase? caller = some p.phrase) (hc : g.FollowedBy caller c) :
    g.FollowedBy name c := by
  obtain ⟨q, hq, u, v, h⟩ := hc
  have hx : place.phrase.head? = some (.call name, i) := by rw [hcall]; rfl
  obtain ⟨u', w, z, heq, h', hz⟩ := Frame.exists_yieldsAround_of_mem_places hplace hx rfl (hb p hp)
    (Frame.reachesEnd_iff_yields_nil.mp hend)
  obtain ⟨rfl, rfl⟩ := List.append_eq_nil_iff.mp heq.symm
  refine ⟨q, hq, u ++ u', v, ?_⟩
  have hreplaced := h.replace rfl hcaller (h'.yields rfl)
  simpa using hreplaced

end

def FollowSound (g : Grammar) (known : Array CategorySet) : Prop :=
  ∀ (i : RuleId) s c, known[i]? = some s → c ∈ s → ∃ name, g.ruleId? name = some i
    ∧ g.FollowedBy name c

theorem FollowSound.passOn (hb : ∀ p ∈ g.productions, p.phrase.HasBranches)
    {known : Array CategorySet} (h : g.FollowSound known) {site : CallSite}
    (hsite : site ∈ g.callSites g.nullable (g.first g.nullable)) :
    g.FollowSound (Grammar.passOn known site) := by
  obtain ⟨p, place, r, idx, rest, hp, hplace, hcall, hcallee, hfollows, hend⟩ :=
    mem_callSites.mp hsite
  have hmem := Array.mem_of_getElem? hp
  intro i s c hs hc
  simp only [Grammar.passOn, Array.getElem?_modify] at hs
  split at hs
  · rename_i hi
    obtain ⟨t, ht, rfl⟩ := Option.map_eq_some_iff.mp hs
    rcases CategorySet.mem_union.mp hc with hc | hc
    · rcases CategorySet.mem_union.mp hc with hc | hc
      · exact h i t c ht hc
      · rw [hfollows] at hc
        exact ⟨r, hi ▸ hcallee, followedBy_of_mem_first hb hmem hplace hcall hc⟩
    · split at hc
      · rename_i hreaches
        rw [hend] at hreaches
        cases hk : known[site.caller]? with
        | none =>
          rw [hk] at hc
          exact absurd hc (CategorySet.not_mem_empty c)
        | some s =>
          rw [hk] at hc
          obtain ⟨caller, hcaller, hfollowed⟩ := h site.caller s c hk hc
          have hphrase := phrase?_of_ruleId hcaller hp
          exact ⟨r, hi ▸ hcallee,
            followedBy_of_reachesEnd hb hmem hplace hcall hreaches hphrase hfollowed⟩
      · exact absurd hc (CategorySet.not_mem_empty c)
  · exact h i s c hs hc

private theorem FollowSound.foldl_passOn (hb : ∀ p ∈ g.productions, p.phrase.HasBranches)
    {sites : List CallSite} (hsites : sites ⊆ g.callSites g.nullable (g.first g.nullable))
    {known : Array CategorySet} (h : g.FollowSound known) :
    g.FollowSound (sites.foldl Grammar.passOn known) := by
  induction sites generalizing known with
  | nil => exact h
  | cons site sites ih =>
    obtain ⟨hsite, hlater⟩ := List.cons_subset.mp hsites
    exact ih hlater (h.passOn hb hsite)

private theorem followSound_follow (hb : ∀ p ∈ g.productions, p.phrase.HasBranches) :
    g.FollowSound (RuleFacts.ofGrammar g).follow :=
  untilStable_of_forall g.FollowSound (fun _ h => h.foldl_passOn hb (List.Subset.refl _))
    fun _ _ _ hs hc => absurd hc (mem_of_mem_replicate (Array.mem_of_getElem? hs))

end Grammar

/-! ## What does follow is passed on -/

/-- What comes next where only the rest of a form is left: its first token, or what comes behind the
form if nothing of it is left. -/
def NextIn (behind : CategoryId → Prop) (w : List Symbol) (c : CategoryId) : Prop :=
  (∃ w', w = .token c :: w') ∨ (w = [] ∧ behind c)

theorem NextIn.append {behind behind' : CategoryId → Prop} {v w : List Symbol} {c : CategoryId}
    (h : NextIn behind' (v ++ w) c) (hw : NextIn behind' w c → behind c) : NextIn behind v c := by
  cases v with
  | nil => exact .inr ⟨rfl, hw h⟩
  | cons s v =>
    rcases h with ⟨w', h⟩ | ⟨h, -⟩
    · cases h
      exact .inl ⟨v, rfl⟩
    · cases h

namespace RuleFacts

variable {g : Grammar} {r : RuleId} {after : List Frame} {c : CategoryId}

private theorem behind_rest {rest : Phrase} {w : List Symbol} (hw : rest.Yields g w)
    (h : NextIn ((ofGrammar g).Behind r after) w c) :
    (ofGrammar g).Behind r (.rest rest :: after) c := by
  rcases h with ⟨w', rfl⟩ | ⟨rfl, h⟩
  · exact .inl (Frame.mem_first_rest.mpr (.inl (hw.mem_first rfl)))
  · have hn := Phrase.isNullable_iff_vanishes.mpr (hw.vanishes rfl)
    rcases h with h | ⟨hend, h⟩
    · exact .inl (Frame.mem_first_rest.mpr (.inr ⟨hn, h⟩))
    · exact .inr ⟨Frame.reachesEnd_rest.mpr ⟨hn, hend⟩, h⟩

private theorem behind_again {body : Phrase} (h : (ofGrammar g).Behind r after c) :
    (ofGrammar g).Behind r (.again body :: after) c :=
  h.imp_left fun h => Frame.mem_first_again.mpr (.inr h)

private theorem behind_rounds {body : Phrase} {vs : List (List Symbol)}
    (hvs : ∀ v ∈ vs, body.Yields g v)
    (h : NextIn ((ofGrammar g).Behind r (.again body :: after)) vs.flatten c) :
    (ofGrammar g).Behind r (.again body :: after) c := by
  rcases h with ⟨w', h⟩ | ⟨-, h⟩
  · -- the first round that is not empty begins with the token
    obtain ⟨earlier, v', later, heq, -, -⟩ := List.flatten_eq_cons_iff.mp h
    have hround : body.Yields g (.token c :: v') := hvs _ (by simp [heq])
    exact .inl (Frame.mem_first_again.mpr (.inl (hround.mem_first rfl)))
  · exact h

/-- Whatever comes next behind a call in the form follows the rule that is called. -/
def CallsFollowed (g : Grammar) (behind : CategoryId → Prop) (w : List Symbol) : Prop :=
  ∀ u name v, w = u ++ .call name :: v → ∀ (i : RuleId) (p : Production),
    g.ruleId? name = some i → g.productions[i]? = some p →
      ∀ c, NextIn behind v c → (ofGrammar g).Behind i [] c

namespace CallsFollowed

variable {behind behind' : CategoryId → Prop} {v w : List Symbol}

theorem nil : CallsFollowed g behind [] := by
  intro u name v h
  simp at h

theorem append (hv : CallsFollowed g behind v) (hw : CallsFollowed g behind' w)
    (h : ∀ c, NextIn behind' w c → behind c) : CallsFollowed g behind' (v ++ w) := by
  intro u name z heq i p hi hp c hc
  rcases append_eq_append_cons heq with ⟨v', rfl, rfl⟩ | ⟨u', -, rfl⟩
  · exact hv u name v' rfl i p hi hp c (hc.append (h c))
  · exact hw u' name z rfl i p hi hp c hc

private theorem cons_token (h : CallsFollowed g behind w) :
    CallsFollowed g behind (.token c :: w) := by
  intro u name v heq
  rcases List.cons_eq_append_iff.mp heq with ⟨-, h'⟩ | ⟨u', -, h'⟩
  · cases h'
  · exact h u' name v h'

private theorem cons_call {name : String} (h : CallsFollowed g behind w)
    (hcall : ∀ (i : RuleId) (p : Production), g.ruleId? name = some i →
      g.productions[i]? = some p → ∀ c, NextIn behind w c → (ofGrammar g).Behind i [] c) :
    CallsFollowed g behind (.call name :: w) := by
  intro u name' v heq
  rcases List.cons_eq_append_iff.mp heq with ⟨-, h'⟩ | ⟨u', -, h'⟩
  · cases h'
    exact hcall
  · exact h u' name' v h'

/-- In front of each round there can be another one. -/
theorem flatten {body : Phrase} {vs : List (List Symbol)} (hvs : ∀ v ∈ vs, body.Yields g v)
    (h : ∀ v ∈ vs, CallsFollowed g ((ofGrammar g).Behind r (.again body :: after)) v) :
    CallsFollowed g ((ofGrammar g).Behind r (.again body :: after)) vs.flatten := by
  induction vs with
  | nil => exact nil
  | cons v vs ih =>
    obtain ⟨hv, hvs'⟩ := List.forall_mem_cons.mp hvs
    obtain ⟨hround, hlater⟩ := List.forall_mem_cons.mp h
    exact hround.append (ih hvs' hlater) fun c hc => behind_rounds hvs' hc

end CallsFollowed

end RuleFacts

open RuleFacts in
/-- Behind the calls in the forms of a phrase comes only what follows the rules that are called. -/
theorem Phrase.Yields.callsFollowed {g : Grammar} {p : Phrase} {w : List Symbol}
    (h : p.Yields g w) {r : RuleId} {q : Production} (hq : g.productions[r]? = some q)
    {after : List Frame} (hplaces : p.places after ⊆ q.phrase.places []) :
    CallsFollowed g ((ofGrammar g).Behind r after) w := by
  induction h generalizing r q after with
  | nil => exact .nil
  | terminal _ ih => exact (ih hq (List.cons_subset.mp hplaces).2).cons_token
  | keep hw ih =>
    obtain ⟨hplace, hrest⟩ := List.cons_subset.mp hplaces
    exact (ih hq hrest).cons_call fun i p hi hp c hc =>
      behind_of_call hq hplace rfl hi hp (behind_rest hw hc)
  | expand hp hv hw ihv ihw =>
    obtain ⟨hplace, hrest⟩ := List.cons_subset.mp hplaces
    obtain ⟨j, p, hj, hp', rfl⟩ := Grammar.exists_of_phrase? hp
    exact (ihv hp' (List.Subset.refl _)).append (ihw hq hrest) fun c hc =>
      behind_of_call hq hplace rfl hj hp' (behind_rest hw hc)
  | skip _ ih => exact ih hq (List.append_subset.mp (List.cons_subset.mp hplaces).2).2
  | take _ hw ihv ihw =>
    obtain ⟨hbody, hrest⟩ := List.append_subset.mp (List.cons_subset.mp hplaces).2
    exact (ihv hq hbody).append (ihw hq hrest) fun c hc => behind_rest hw hc
  | repetition _ hv hw ihv ihw =>
    obtain ⟨hbody, hrest⟩ := List.append_subset.mp (List.cons_subset.mp hplaces).2
    exact (CallsFollowed.flatten hv fun v hmem => ihv v hmem hq hbody).append (ihw hq hrest)
      fun c hc => behind_again (behind_rest hw hc)
  | @choice n i rest v w gated body k _ hw ihv ihw =>
    obtain ⟨hbodies, hrest⟩ := List.append_subset.mp (List.cons_subset.mp hplaces).2
    have hbody : (body k).places (.rest rest :: after) ⊆ q.phrase.places [] := fun place hplace =>
      hbodies (List.mem_flatten.mpr ⟨_, List.mem_ofFn.mpr ⟨k, rfl⟩, hplace⟩)
    exact (ihv hq hbody).append (ihw hq hrest) fun c hc => behind_rest hw hc

/-! ## The tokens of a rule -/

namespace RuleFacts

variable {c : CategoryId} {idx : Nat}

private theorem filter_successors? (s : RuleFacts) (place : Place) :
    (s.successors? place).filter (fun x => x.category == c && x.idx == idx) =
      if place.phrase.head? == some (.terminal c, idx) then s.successors? place else none := by
  obtain ⟨phrase, after⟩ := place
  cases phrase <;> simp [successors?, Phrase.head?, Option.filter]

/-- Of a token that is there once one entry holds what comes behind its place. -/
theorem filter_allSuccessors (s : RuleFacts) {p : Phrase} {place : Place}
    (hplace : (p.places []).filter (·.phrase.head? == some (.terminal c, idx)) = [place]) :
    (s.allSuccessors p).filter (fun x => x.category == c && x.idx == idx) =
      [⟨c, idx, Frame.first s.isNullable s.firstOf place.after,
        Frame.reachesEnd s.isNullable place.after⟩] := by
  have hperm := (List.mergeSort_perm ((p.places []).filterMap s.successors?) fun a b =>
    a.category < b.category || (a.category == b.category && a.idx ≤ b.idx)).filter
      fun x => x.category == c && x.idx == idx
  have hhead : place.phrase.head? = some (.terminal c, idx) := by
    have hmem : place ∈ (p.places []).filter (·.phrase.head? == some (.terminal c, idx)) := by
      simp [hplace]
    exact beq_iff_eq.mp (List.mem_filter.mp hmem).2
  refine List.perm_singleton.mp (hperm.trans (.of_eq ?_))
  simp only [List.filter_filterMap, filter_successors?]
  rw [← List.filterMap_filter, hplace]
  obtain ⟨phrase, after⟩ := place
  cases phrase <;> cases hhead
  rfl

end RuleFacts

namespace Grammar

variable {rules : List Production}

private theorem ruleId?_ofList (hn : (rules.map (·.name)).Nodup) {name : String} {i : RuleId} :
    (ofList rules).ruleId? name = some i ↔ ∃ p, rules[i]? = some p ∧ p.name = name := by
  rw [ruleId?, ofList, getElem?_numbering hn, List.getElem?_map, Option.map_eq_some_iff]

/-- Of rules whose names differ the search for what follows them finds exactly the categories of the
tokens that come right behind a call of the rule in a sentential form of some rule. What is known
of a token that a rule has once is exactly what comes next in the rule where the token is passed. -/
theorem follow_and_successors_exact (hn : (rules.map (·.name)).Nodup)
    (hb : ∀ p ∈ rules, p.phrase.HasBranches) :
    let g := ofList rules
    let facts := RuleFacts.ofGrammar g
    ∀ (i : RuleId) (p : Production), rules[i]? = some p →
      (∃ follow, facts.follow[i]? = some follow ∧ ∀ c, c ∈ follow ↔
        ∃ q ∈ rules, ∃ u v, q.phrase.Yields g (u ++ .call p.name :: .token c :: v))
      ∧ ∀ c idx, p.phrase.occurrences.count (.terminal c, idx) = 1 →
        ∃ x, (facts.allSuccessors p.phrase).filter (fun x => x.category == c && x.idx == idx) = [x]
          ∧ (∀ d, d ∈ x.follows ↔
            ∃ u w, p.phrase.YieldsAround g (.terminal c, idx) u (.token d :: w))
          ∧ (x.reachesEnd = true ↔ ∃ u, p.phrase.YieldsAround g (.terminal c, idx) u []) := by
  intro g facts i p hp
  have hproduction : g.productions[i]? = some p := by simpa [g, ofList] using hp
  have hbranches : ∀ q ∈ g.productions, q.phrase.HasBranches := fun q hq =>
    hb q (mem_productions_ofList.mp hq)
  have hid : g.ruleId? p.name = some i := (ruleId?_ofList hn).mpr ⟨p, hp, rfl⟩
  constructor
  · obtain ⟨follow, hfollow⟩ := RuleFacts.exists_follow hproduction
    refine ⟨follow, hfollow, fun c => ⟨fun hc => ?_, ?_⟩⟩
    · obtain ⟨name, hname, q, hq, h⟩ := followSound_follow hbranches i follow c hfollow hc
      obtain ⟨p', hp', rfl⟩ := name_of_ruleId? hname
      obtain rfl : p = p' := Option.some.inj (hp.symm.trans hp')
      exact ⟨q, mem_productions_ofList.mp hq, h⟩
    · rintro ⟨q, hq, u, v, h⟩
      obtain ⟨j, hj⟩ := Array.getElem?_of_mem (mem_productions_ofList.mpr hq)
      have hbehind := h.callsFollowed hj (List.Subset.refl _) u p.name (.token c :: v) rfl i p hid
        hproduction c (.inl ⟨v, rfl⟩)
      rcases hbehind with h | ⟨-, s, hs, hc⟩
      · exact absurd h (CategorySet.not_mem_empty c)
      · exact Option.some.inj (hs.symm.trans hfollow) ▸ hc
  · intro c idx hunique
    obtain ⟨place, hplace⟩ := Phrase.exists_filter_places [] hunique
    have hpb := hb p (List.mem_of_getElem? hp)
    have hmem : place ∈ p.phrase.places [] :=
      List.mem_of_mem_filter (hplace ▸ List.mem_singleton_self place)
    have hafter := (Phrase.Hereditary.hasBranches.of_mem_places hmem hpb (by simp)).2
    have hyields : ∀ w, Frame.Yields g place.after w ↔
        ∃ u, p.phrase.YieldsAround g (.terminal c, idx) u w :=
      fun w => Place.yields_after_iff hpb rfl hplace
    refine ⟨_, facts.filter_allSuccessors hplace, fun d => ?_, ?_⟩
    · refine (Frame.mem_first_iff_yields hbranches hafter).trans ?_
      simp only [hyields]
      exact exists_comm
    · exact Frame.reachesEnd_iff_yields_nil.trans (hyields [])

def markedStep : Phrase :=
  .terminal 1 1 (.repetition 1 false (.terminal 2 1 (.call "number" 1 .nil)) .nil)

def markedSteps : List Production :=
  [⟨"block", .repetition 1 true (.call "step" 1 (.option 1 (.terminal 3 1 .nil) .nil))
      (.terminal 4 1 .nil)⟩,
    ⟨"step", markedStep⟩,
    ⟨"number", .option 1 (.terminal 5 1 .nil) .nil⟩]

set_option maxRecDepth 4000 in
private theorem follow_markedSteps :
    (RuleFacts.ofGrammar (ofList markedSteps)).follow.map (·.toList) =
    #[[], [1, 3, 4], [1, 2, 3, 4]] := by
  cbv

set_option maxRecDepth 4000 in
private theorem successors_markedStep :
    ((RuleFacts.ofGrammar (ofList markedSteps)).allSuccessors markedStep).map
        (fun x => (x.category, x.idx, x.follows.toList, x.reachesEnd)) =
      [(1, 1, [2], true), (2, 1, [2, 5], true)] := by
  cbv

/-- Behind a number comes another mark, or what comes behind the step, also the next step. Behind a
mark comes its number or another mark, or the step ends. -/
theorem follow_and_successors_exact_markedSteps : (markedSteps.map (·.name)).Nodup
    ∧ (∀ p ∈ markedSteps, p.phrase.HasBranches)
    ∧ (∀ c, (∃ q ∈ markedSteps, ∃ u v, q.phrase.Yields (ofList markedSteps)
        (u ++ .call "number" :: .token c :: v)) ↔ c ∈ [1, 2, 3, 4])
    ∧ markedStep.occurrences.count (.terminal 2, 1) = 1
    ∧ (∀ c, (∃ u w, markedStep.YieldsAround (ofList markedSteps) (.terminal 2, 1) u
        (.token c :: w)) ↔ c ∈ [2, 5])
    ∧ ∃ u, markedStep.YieldsAround (ofList markedSteps) (.terminal 2, 1) u [] := by
  have hn : (markedSteps.map (·.name)).Nodup := by simp [markedSteps]
  have hb : ∀ p ∈ markedSteps, p.phrase.HasBranches := by
    simp [markedSteps, markedStep, Phrase.HasBranches]
  have hunique : markedStep.occurrences.count (.terminal 2, 1) = 1 := by decide
  obtain ⟨⟨follow, hfollow, hmem⟩, -⟩ := follow_and_successors_exact hn hb 2 _ rfl
  obtain ⟨-, hsites⟩ := follow_and_successors_exact hn hb 1 ⟨"step", markedStep⟩ rfl
  obtain ⟨x, hx, hfollows, hend⟩ := hsites 2 1 hunique
  -- the entry of the mark is the second one
  have hentry : x.follows.toList = [2, 5] ∧ x.reachesEnd = true := by
    have hfilter := List.mem_filter.mp (hx ▸ List.mem_singleton_self x)
    have hlisted := List.mem_map_of_mem
      (f := fun x : Successors => (x.category, x.idx, x.follows.toList, x.reachesEnd)) hfilter.1
    rw [successors_markedStep] at hlisted
    simp_all
  refine ⟨hn, hb, fun c => ?_, hunique, fun c => ?_, hend.mp hentry.2⟩
  · have hlist : follow.toList = [1, 2, 3, 4] := by
      have h := congrArg (·[2]?) follow_markedSteps
      simpa [hfollow] using h
    rw [← hlist]
    exact (hmem c).symm
  · rw [← hentry.1]
    exact (hfollows c).symm

end Grammar

end PredictiveParsing
