import PredictiveParsing.Proofs.Grammar.Beginnings
import PredictiveParsing.Proofs.Lookahead.Analysis
import PredictiveParsing.Proofs.Lookahead.FirstTokens

/-!
# What surrounds a piece

A sentential form of a phrase that passes a piece of the phrase has a part in front of that piece
and a part behind it. The frames of a place yield exactly the parts behind its first piece, and what
is known of the frames is what these parts begin with and whether they can be empty.
-/

namespace PredictiveParsing

def Occurrence.symbol? : Occurrence → Option Symbol
  | terminal c => some (.token c)
  | call r => some (.call r)
  | decision _ => none

namespace Phrase

/-- The sentential forms of a phrase that pass a token or a call of its own, by what they have in
front of that piece and what they have behind it. -/
inductive YieldsAround (g : Grammar) (x : Occurrence × Nat) :
    Phrase → (front behind : List Symbol) → Prop
  | atTerminal {c i rest w} (hx : x = (.terminal c, i)) (hw : Yields g rest w) :
      YieldsAround g x (.terminal c i rest) [] w
  | atCall {r i rest w} (hx : x = (.call r, i)) (hw : Yields g rest w) :
      YieldsAround g x (.call r i rest) [] w
  | behindTerminal {c i rest u w} (h : YieldsAround g x rest u w) :
      YieldsAround g x (.terminal c i rest) (.token c :: u) w
  | behindCall {r i rest u w} (h : YieldsAround g x rest u w) :
      YieldsAround g x (.call r i rest) (.call r :: u) w
  | behindExpansion {r i rest p v u w} (hp : g.phrase? r = some p) (hv : Yields g p v)
      (h : YieldsAround g x rest u w) : YieldsAround g x (.call r i rest) (v ++ u) w
  | inOption {i body rest u v w} (h : YieldsAround g x body u v) (hw : Yields g rest w) :
      YieldsAround g x (.option i body rest) u (v ++ w)
  | skip {i body rest u w} (h : YieldsAround g x rest u w) :
      YieldsAround g x (.option i body rest) u w
  | take {i body rest v u w} (hv : Yields g body v) (h : YieldsAround g x rest u w) :
      YieldsAround g x (.option i body rest) (v ++ u) w
  | inRound {i b body rest u v w} {earlier later : List (List Symbol)}
      (he : ∀ z ∈ earlier, Yields g body z) (h : YieldsAround g x body u v)
      (hl : ∀ z ∈ later, Yields g body z) (hw : Yields g rest w) :
      YieldsAround g x (.repetition i b body rest) (earlier.flatten ++ u)
        (v ++ (later.flatten ++ w))
  | behindRounds {i b body rest u w} {vs : List (List Symbol)} (hn : b = true → vs ≠ [])
      (hv : ∀ v ∈ vs, Yields g body v) (h : YieldsAround g x rest u w) :
      YieldsAround g x (.repetition i b body rest) (vs.flatten ++ u) w
  | inBranch {n i rest u v w} {gated : Fin n → Bool} {body : Fin n → Phrase} (k : Fin n)
      (h : YieldsAround g x (body k) u v) (hw : Yields g rest w) :
      YieldsAround g x (.choice i gated body rest) u (v ++ w)
  | behindBranch {n i rest v u w} {gated : Fin n → Bool} {body : Fin n → Phrase} (k : Fin n)
      (hv : Yields g (body k) v) (h : YieldsAround g x rest u w) :
      YieldsAround g x (.choice i gated body rest) (v ++ u) w

variable {g : Grammar} {p : Phrase} {x : Occurrence × Nat}

/-- Around the piece there is a sentential form. -/
theorem YieldsAround.yields {u w : List Symbol} {s : Symbol} (h : p.YieldsAround g x u w)
    (hs : x.1.symbol? = some s) : p.Yields g (u ++ s :: w) := by
  induction h with
  | atTerminal hx hw =>
    subst hx
    obtain rfl := Option.some.inj hs
    exact .terminal hw
  | atCall hx hw =>
    subst hx
    obtain rfl := Option.some.inj hs
    exact .keep hw
  | behindTerminal _ ih => exact .terminal ih
  | behindCall _ ih => exact .keep ih
  | behindExpansion hp hv _ ih =>
    rw [List.append_assoc]
    exact .expand hp hv ih
  | inOption _ hw ih =>
    rw [← List.cons_append, ← List.append_assoc]
    exact .take ih hw
  | skip _ ih => exact .skip ih
  | take hv _ ih =>
    rw [List.append_assoc]
    exact .take hv ih
  | @inRound i b body rest u v w earlier later he _ hl hw ih =>
    have hall : ∀ z ∈ earlier ++ (u ++ s :: v) :: later, body.Yields g z := by
      intro z hz
      rcases List.mem_append.mp hz with hz | hz
      · exact he z hz
      · rcases List.mem_cons.mp hz with rfl | hz
        · exact ih
        · exact hl z hz
    have hform := Yields.repetition (i := i) (b := b) (fun _ => by simp) hall hw
    simpa using hform
  | behindRounds hn hv _ ih =>
    rw [List.append_assoc]
    exact .repetition hn hv ih
  | inBranch k _ hw ih =>
    rw [← List.cons_append, ← List.append_assoc]
    exact .choice k ih hw
  | behindBranch k hv _ ih =>
    rw [List.append_assoc]
    exact .choice k hv ih

end Phrase

namespace Frame

/-- What the frames yield one after the other. -/
inductive Yields (g : Grammar) : List Frame → List Symbol → Prop
  | nil : Yields g [] []
  | rest {p after v w} (hv : p.Yields g v) (hw : Yields g after w) :
      Yields g (.rest p :: after) (v ++ w)
  | again {body after w} {vs : List (List Symbol)} (hv : ∀ v ∈ vs, body.Yields g v)
      (hw : Yields g after w) : Yields g (.again body :: after) (vs.flatten ++ w)

variable {g : Grammar} {p : Phrase} {x : Occurrence × Nat} {after : List Frame}

private theorem exists_yields (h : ∀ f ∈ after, f.phrase.HasBranches) : ∃ w, Yields g after w := by
  induction after with
  | nil => exact ⟨[], .nil⟩
  | cons f after ih =>
    obtain ⟨hf, hafter⟩ := List.forall_mem_cons.mp h
    obtain ⟨w, hw⟩ := ih hafter
    cases f with
    | rest p =>
      obtain ⟨v, hv⟩ := Phrase.exists_yields hf
      exact ⟨v ++ w, .rest hv hw⟩
    | again body =>
      have hnone : ∀ v ∈ ([] : List (List Symbol)), body.Yields g v := nofun
      exact ⟨_, .again hnone hw⟩

/-- The first frame yields something in front of what all others yield. -/
theorem yields_rest_iff {w : List Symbol} : Yields g (.rest p :: after) w ↔
    ∃ u v, w = u ++ v ∧ p.Yields g u ∧ Yields g after v := by
  constructor
  · rintro ⟨⟩
    exact ⟨_, _, rfl, ‹_›, ‹_›⟩
  · rintro ⟨u, v, rfl, hu, hv⟩
    exact .rest hu hv

theorem yields_again_iff {body : Phrase} {w : List Symbol} : Yields g (.again body :: after) w ↔
    ∃ (us : List (List Symbol)) (v : List Symbol), w = us.flatten ++ v
      ∧ (∀ u ∈ us, body.Yields g u) ∧ Yields g after v := by
  constructor
  · rintro ⟨⟩
    exact ⟨_, _, rfl, ‹_›, ‹_›⟩
  · rintro ⟨us, v, rfl, hu, hv⟩
    exact .again hu hv

/-- What the frames of a place yield is behind its first piece in a form of the phrase, up to what
comes behind the phrase. -/
theorem exists_yieldsAround_of_mem_places {place : Place} {s : Symbol} {v : List Symbol}
    (hplace : place ∈ p.places after) (hx : place.phrase.head? = some x)
    (hs : x.1.symbol? = some s) (hp : p.HasBranches) (hv : Yields g place.after v) :
    ∃ u w z, v = w ++ z ∧ p.YieldsAround g x u w ∧ Yields g after z := by
  induction p generalizing after v with
  | nil => cases hplace
  | terminal c i rest ih =>
    rcases List.mem_cons.mp hplace with rfl | hplace
    · obtain ⟨w, z, rfl, hw, hz⟩ := yields_rest_iff.mp hv
      exact ⟨[], w, z, rfl, .atTerminal (Option.some.inj hx).symm hw, hz⟩
    · obtain ⟨u, w, z, rfl, h, hz⟩ := ih hplace hp hv
      exact ⟨_, w, z, rfl, .behindTerminal h, hz⟩
  | call r i rest ih =>
    rcases List.mem_cons.mp hplace with rfl | hplace
    · obtain ⟨w, z, rfl, hw, hz⟩ := yields_rest_iff.mp hv
      exact ⟨[], w, z, rfl, .atCall (Option.some.inj hx).symm hw, hz⟩
    · obtain ⟨u, w, z, rfl, h, hz⟩ := ih hplace hp hv
      exact ⟨_, w, z, rfl, .behindCall h, hz⟩
  | option i body rest ihb ih =>
    rcases List.mem_cons.mp hplace with rfl | hplace
    · obtain rfl := Option.some.inj hx
      cases hs
    rcases List.mem_append.mp hplace with hplace | hplace
    · obtain ⟨u, w, z, rfl, h, hz⟩ := ihb hplace hp.1 hv
      obtain ⟨w', z, rfl, hw', hz⟩ := yields_rest_iff.mp hz
      exact ⟨u, w ++ w', z, (List.append_assoc ..).symm, .inOption h hw', hz⟩
    · obtain ⟨u, w, z, rfl, h, hz⟩ := ih hplace hp.2 hv
      exact ⟨u, w, z, rfl, .skip h, hz⟩
  | repetition i b body rest ihb ih =>
    rcases List.mem_cons.mp hplace with rfl | hplace
    · obtain rfl := Option.some.inj hx
      cases hs
    rcases List.mem_append.mp hplace with hplace | hplace
    · obtain ⟨u, w, z, rfl, h, hz⟩ := ihb hplace hp.1 hv
      obtain ⟨later, z, rfl, hl, hz⟩ := yields_again_iff.mp hz
      obtain ⟨w', z, rfl, hw', hz⟩ := yields_rest_iff.mp hz
      have hnone : ∀ z ∈ ([] : List (List Symbol)), body.Yields g z := nofun
      exact ⟨_, w ++ (later.flatten ++ w'), z, by simp, .inRound hnone h hl hw', hz⟩
    · obtain ⟨u, w, z, rfl, h, hz⟩ := ih hplace hp.2 hv
      obtain ⟨v, hv⟩ := Phrase.exists_yields (g := g) hp.1
      have hround : ∀ v' ∈ [v], body.Yields g v' := List.forall_mem_singleton.mpr hv
      exact ⟨_, w, z, rfl, .behindRounds (fun _ => List.cons_ne_nil v []) hround h, hz⟩
  | choice i gated body rest ihb ih =>
    rcases List.mem_cons.mp hplace with rfl | hplace
    · obtain rfl := Option.some.inj hx
      cases hs
    rcases List.mem_append.mp hplace with hplace | hplace
    · obtain ⟨_, hl, hplace⟩ := List.mem_flatten.mp hplace
      obtain ⟨k, rfl⟩ := List.mem_ofFn.mp hl
      obtain ⟨u, w, z, rfl, h, hz⟩ := ihb k hplace (hp.1.2 k) hv
      obtain ⟨w', z, rfl, hw', hz⟩ := yields_rest_iff.mp hz
      exact ⟨u, w ++ w', z, (List.append_assoc ..).symm, .inBranch k h hw', hz⟩
    · obtain ⟨u, w, z, rfl, h, hz⟩ := ih hplace hp.2 hv
      let k : Fin _ := ⟨0, Nat.pos_of_ne_zero hp.1.1⟩
      obtain ⟨v, hv⟩ := Phrase.exists_yields (g := g) (hp.1.2 k)
      exact ⟨_, w, z, rfl, .behindBranch k hv h, hz⟩

/-- What a form has behind a piece of the phrase is yielded by the frames of a place of that piece.
-/
theorem exists_mem_places_of_yieldsAround {u w : List Symbol} (h : p.YieldsAround g x u w)
    (after : List Frame) : ∃ place ∈ p.places after, place.phrase.head? = some x
      ∧ ∀ z, Yields g after z → Yields g place.after (w ++ z) := by
  induction h generalizing after with
  | atTerminal hx hw =>
    exact ⟨_, List.mem_cons_self, congrArg some hx.symm, fun z hz => .rest hw hz⟩
  | atCall hx hw =>
    exact ⟨_, List.mem_cons_self, congrArg some hx.symm, fun z hz => .rest hw hz⟩
  | behindTerminal _ ih =>
    obtain ⟨place, hplace, h⟩ := ih after
    exact ⟨place, List.mem_cons_of_mem _ hplace, h⟩
  | behindCall _ ih =>
    obtain ⟨place, hplace, h⟩ := ih after
    exact ⟨place, List.mem_cons_of_mem _ hplace, h⟩
  | behindExpansion _ _ _ ih =>
    obtain ⟨place, hplace, h⟩ := ih after
    exact ⟨place, List.mem_cons_of_mem _ hplace, h⟩
  | @inOption i body rest u v w _ hw ih =>
    obtain ⟨place, hplace, hx, h⟩ := ih (.rest rest :: after)
    refine ⟨place, List.mem_cons_of_mem _ (List.mem_append_left _ hplace), hx, fun z hz => ?_⟩
    rw [List.append_assoc]
    exact h _ (.rest hw hz)
  | skip _ ih =>
    obtain ⟨place, hplace, h⟩ := ih after
    exact ⟨place, List.mem_cons_of_mem _ (List.mem_append_right _ hplace), h⟩
  | take _ _ ih =>
    obtain ⟨place, hplace, h⟩ := ih after
    exact ⟨place, List.mem_cons_of_mem _ (List.mem_append_right _ hplace), h⟩
  | @inRound i b body rest u v w earlier later _ _ hl hw ih =>
    obtain ⟨place, hplace, hx, h⟩ := ih (.again body :: .rest rest :: after)
    refine ⟨place, List.mem_cons_of_mem _ (List.mem_append_left _ hplace), hx, fun z hz => ?_⟩
    rw [List.append_assoc, List.append_assoc]
    exact h _ (.again hl (.rest hw hz))
  | behindRounds _ _ _ ih =>
    obtain ⟨place, hplace, h⟩ := ih after
    exact ⟨place, List.mem_cons_of_mem _ (List.mem_append_right _ hplace), h⟩
  | @inBranch n i rest u v w gated body k _ hw ih =>
    obtain ⟨place, hplace, hx, h⟩ := ih (.rest rest :: after)
    have hmem : place ∈ (List.ofFn fun k => (body k).places (.rest rest :: after)).flatten :=
      List.mem_flatten.mpr ⟨_, List.mem_ofFn.mpr ⟨k, rfl⟩, hplace⟩
    refine ⟨place, List.mem_cons_of_mem _ (List.mem_append_left _ hmem), hx, fun z hz => ?_⟩
    rw [List.append_assoc]
    exact h _ (.rest hw hz)
  | behindBranch _ _ _ ih =>
    obtain ⟨place, hplace, h⟩ := ih after
    exact ⟨place, List.mem_cons_of_mem _ (List.mem_append_right _ hplace), h⟩

/-! ## What is known of frames -/

theorem reachesEnd_iff_yields_nil :
    reachesEnd (RuleFacts.ofGrammar g).isNullable after = true ↔ Yields g after [] := by
  induction after with
  | nil => exact ⟨fun _ => .nil, fun _ => rfl⟩
  | cons f after ih =>
    cases f with
    | rest p =>
      rw [reachesEnd_rest, ih, Phrase.isNullable_iff_vanishes, yields_rest_iff]
      constructor
      · rintro ⟨hp, ha⟩
        exact ⟨[], [], rfl, hp.yields, ha⟩
      · rintro ⟨u, v, h, hu, hv⟩
        obtain ⟨rfl, rfl⟩ := List.append_eq_nil_iff.mp h.symm
        exact ⟨hu.vanishes rfl, hv⟩
    | again body =>
      rw [reachesEnd, ih, yields_again_iff]
      constructor
      · exact fun ha => ⟨[], [], rfl, by simp, ha⟩
      · rintro ⟨us, v, h, -, hv⟩
        obtain ⟨-, rfl⟩ := List.append_eq_nil_iff.mp h.symm
        exact hv

/-- The categories that can come next are those that the frames yield first. -/
theorem mem_first_iff_yields (hb : ∀ p ∈ g.productions, p.phrase.HasBranches)
    (ha : ∀ f ∈ after, f.phrase.HasBranches) {c : CategoryId} :
    c ∈ first (RuleFacts.ofGrammar g).isNullable (RuleFacts.ofGrammar g).firstOf after ↔
      ∃ w, Yields g after (.token c :: w) := by
  induction after with
  | nil =>
    refine ⟨fun h => absurd h (CategorySet.not_mem_empty c), ?_⟩
    rintro ⟨w, ⟨⟩⟩
  | cons f after ih =>
    obtain ⟨hf, hafter⟩ := List.forall_mem_cons.mp ha
    obtain ⟨z, hz⟩ := exists_yields (g := g) hafter
    cases f with
    | rest p =>
      rw [mem_first_rest, ih hafter, Phrase.mem_first_iff_beginsWith (p := p) hb hf,
        Phrase.isNullable_iff_vanishes]
      simp only [yields_rest_iff]
      constructor
      · rintro (⟨u, hu⟩ | ⟨hn, w, hw⟩)
        · exact ⟨u ++ z, _, _, rfl, hu, hz⟩
        · exact ⟨w, [], _, rfl, hn.yields, hw⟩
      · rintro ⟨w, u, v, h, hu, hv⟩
        rcases List.append_eq_cons_iff.mp h.symm with ⟨rfl, rfl⟩ | ⟨u, rfl, -⟩
        · exact .inr ⟨hu.vanishes rfl, w, hv⟩
        · exact .inl ⟨u, hu⟩
    | again body =>
      rw [mem_first_again, ih hafter, Phrase.mem_first_iff_beginsWith (p := body) hb hf]
      simp only [yields_again_iff]
      constructor
      · rintro (⟨u, hu⟩ | ⟨w, hw⟩)
        · exact ⟨u ++ z, [.token c :: u], z, by simp, by simpa using hu, hz⟩
        · exact ⟨w, [], _, rfl, by simp, hw⟩
      · rintro ⟨w, us, v, h, hus, hv⟩
        rcases List.append_eq_cons_iff.mp h.symm with ⟨-, rfl⟩ | ⟨u, hu, -⟩
        · exact .inr ⟨w, hv⟩
        · -- the first further round that is not empty begins with the token
          obtain ⟨earlier, u', later, heq, -, -⟩ := List.flatten_eq_cons_iff.mp hu
          exact .inl ⟨u', hus _ (by simp [heq])⟩

end Frame

theorem Phrase.Hereditary.hasBranches : Hereditary HasBranches where
  terminal h := h
  call h := h
  option h := h
  repetition h := h
  choice h := ⟨h.1.2, h.2⟩

/-- A piece that is there once has one place. -/
theorem Phrase.exists_filter_places {p : Phrase} {x : Occurrence × Nat} (after : List Frame)
    (hunique : p.occurrences.count x = 1) :
    ∃ place, (p.places after).filter (·.phrase.head? == some x) = [place] := by
  rw [← List.length_eq_one_iff, ← List.countP_eq_length_filter]
  have hcount : (p.occurrences.map some).count (some x) = 1 := by
    rw [List.count_map_of_injective _ _ (Option.some_injective _), hunique]
  rw [← map_head?_places after, List.count, List.countP_map] at hcount
  exact hcount

/-- Behind a piece that is there once its place yields what forms of the phrase have behind it. -/
theorem Place.yields_after_iff {g : Grammar} {p : Phrase} {place : Place} {x : Occurrence × Nat}
    {s : Symbol} {w : List Symbol} (hp : p.HasBranches) (hs : x.1.symbol? = some s)
    (hplace : (p.places []).filter (·.phrase.head? == some x) = [place]) :
    Frame.Yields g place.after w ↔ ∃ u, p.YieldsAround g x u w := by
  constructor
  · intro h
    have hmem : place ∈ (p.places []).filter (·.phrase.head? == some x) := by simp [hplace]
    rw [List.mem_filter, beq_iff_eq] at hmem
    obtain ⟨u, w, z, rfl, hw, hz⟩ :=
      Frame.exists_yieldsAround_of_mem_places hmem.1 hmem.2 hs hp h
    cases hz
    exact ⟨u, by simpa using hw⟩
  · rintro ⟨u, h⟩
    obtain ⟨place', hmem, hx, h⟩ := Frame.exists_mem_places_of_yieldsAround h []
    have hin : place' ∈ (p.places []).filter (·.phrase.head? == some x) :=
      List.mem_filter.mpr ⟨hmem, beq_iff_eq.mpr hx⟩
    rw [hplace, List.mem_singleton] at hin
    simpa [hin] using h [] .nil

end PredictiveParsing
