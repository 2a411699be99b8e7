import PredictiveParsing.Proofs.Lookahead.Analysis
import PredictiveParsing.Proofs.Lookahead.FirstTokens
import PredictiveParsing.Proofs.Lookahead.Rounds
import PredictiveParsing.Proofs.Parsing.Prediction

/-!
# Decisions without findings

Where the first token tells the alternatives apart, only the last of them can end the rule, and the
search for their first tokens comes to an end, the first round settles everything. Then nothing is
found, however many categories may be looked at.
-/

namespace PredictiveParsing

variable {g : Grammar} {m : TokenModel} {k : Nat} {branches : List Branch}

/-- The first round settles all alternatives. -/
structure Branch.Settled (g : Grammar) (m : TokenModel) (branches : List Branch) : Prop where
  apart : Branch.Apart g m branches
  goesOn : ∀ i j b, i < j → j < branches.length → branches[i]? = some b →
    ¬Expands g b.stack [] true
  explored : ∀ b ∈ branches, Expansion.all? g 1 b.stack ≠ none

namespace Branch

theorem Apart.not_collides (h : Apart g m branches) {i : Nat} {p : CategoryPath} (hp : p ≠ []) :
    ¬Collides g m branches i p := by
  intro hc
  obtain ⟨x, p, rfl⟩ := List.exists_cons_of_ne_nil hp
  obtain ⟨⟨b, hb, -, hx⟩, j, q, hij, ⟨b', hb', -, hq⟩, hlen, hc⟩ :=
    hc.of_isPrefix (List.prefix_append [x] p)
  obtain ⟨y, rfl⟩ := List.length_eq_one_iff.1 hlen
  have hxy := h i j b b' hij.symm hb hb' x y hx hq
  simp [TokenModel.compatible, hxy] at hc

private theorem Settled.not_hitsLimit (h : Settled g m branches) : ¬HitsLimit g m branches k := by
  rintro ⟨d, -, i, b, p, hb, rfl, -, hc, hall⟩
  by_cases hp : p = []
  · subst hp
    exact h.explored b (List.mem_of_getElem? hb) hall
  · exact h.apart.not_collides hp (hc.resolve_left hp)

private theorem Settled.not_confused (h : Settled g m branches) (hk : 0 < k) {i j : Nat}
    (hij : i < j) (last : Bool) : ¬Confused g m branches i j k last := by
  have hne : j ≠ i := Nat.ne_of_gt hij
  rintro (⟨e, hw, -, hq, hlen, hc⟩ | ⟨hp, hq, -, hd, hlen, hc⟩)
  · rename_i w q
    by_cases hnil : w = []
    · subst hnil
      obtain ⟨b, hb, -, hends⟩ := hw
      obtain ⟨b', hb', -⟩ := hq
      exact h.goesOn i j b hij (List.getElem?_eq_some_iff.1 hb').1 hb hends
    · exact h.apart.not_collides hnil (collides_of_compatible hne hw hq (by omega) hc)
  · rename_i p q
    have hnil : p ≠ [] := by
      rintro rfl
      exact Nat.ne_of_lt hk hd
    exact h.apart.not_collides hnil (collides_of_compatible hne hp hq (by omega) hc)

private theorem Settled.findings_build (h : Settled g m branches) (k : Nat) (kind : DecisionKind)
    (idx : Nat) : (Decision.build g m k kind idx branches).2 = [] := by
  by_contra hne
  obtain ⟨x, hx⟩ := List.exists_mem_of_ne_nil _ hne
  have hambiguous : (Decision.build g m k kind idx branches).1.ambiguous = true :=
    Decision.ambiguous_build_iff_exists.2 ⟨x, hx⟩
  obtain ⟨i, j, hij, hconfused⟩ := (Decision.ambiguous_build_iff h.not_hitsLimit).1 hambiguous
  exact h.not_confused (by omega) hij true hconfused

end Branch

/-! ## Alternatives that start with a token -/

/-- All ways through some phrases start with a token of the category, and a search finds it. -/
structure StartsWith (g : Grammar) (c : CategoryId) (stack : List Phrase) : Prop where
  expands {w : CategoryPath} {e : Bool} (h : Expands g stack w e) :
    (w = [] ∧ e = false) ∨ ∃ w', w = c :: w'
  explored : Expansion.all? g 1 stack ≠ none

namespace StartsWith

variable {c : CategoryId} {i j : Nat} {r : String} {rest next : Phrase} {stack : List Phrase}

private theorem not_ends (h : StartsWith g c stack) : ¬Expands g stack [] true := by
  intro he
  rcases h.expands he with ⟨-, h⟩ | ⟨w', h⟩ <;> cases h

theorem eq {x : CategoryId} (h : StartsWith g c stack) (hx : Expands g stack [x] false) :
    x = c := by
  rcases h.expands hx with ⟨h, -⟩ | ⟨w', h⟩
  · cases h
  · exact (List.cons.inj h).1

/-- There are always enough steps to look at a few pieces. -/
theorem exists_fuel (g : Grammar) (stack : List Phrase) :
    ∃ fuel, Expansion.all? g 1 stack = Expansion.explore g 1 (fuel + 3) 0 ∅ [] stack := by
  have hpos : 0 < (g.pieceCount + 2) ^ (g.size + 2) := Nat.pow_pos (Nat.succ_pos _)
  have hbound : Expansion.stepBound g 1 = 4104 * (g.pieceCount + 2) ^ (g.size + 2) := rfl
  obtain ⟨fuel, hfuel⟩ := Nat.exists_eq_add_of_le' (show 3 ≤ Expansion.stepBound g 1 by omega)
  exact ⟨fuel, by rw [Expansion.all?, hfuel]⟩

theorem terminal (hstack : stack.length < Limits.maxParseDepth) :
    StartsWith g c (.terminal c i rest :: stack) where
  expands h := by
    rcases Expands.terminal_iff.1 h with h | ⟨w', h, -⟩
    · exact .inl h
    · exact .inr ⟨w', h⟩
  explored := by
    obtain ⟨fuel, hfuel⟩ := exists_fuel g (.terminal c i rest :: stack)
    have hheight : ¬Limits.maxParseDepth < stack.length + 1 := by omega
    simp [hfuel, Expansion.explore, hheight]

theorem call (hstack : stack.length + 1 < Limits.maxParseDepth)
    (hr : g.phrase? r = some (.terminal c i next)) :
    StartsWith g c (.call r j rest :: stack) where
  expands h := by
    have hterminal : StartsWith g c (.terminal c i next :: rest :: stack) := terminal hstack
    exact hterminal.expands ((Expands.call_iff hr).1 h)
  explored := by
    obtain ⟨fuel, hfuel⟩ := exists_fuel g (.call r j rest :: stack)
    have hheight : ¬Limits.maxParseDepth < stack.length + 1 := by omega
    have hheight' : ¬Limits.maxParseDepth < stack.length + 1 + 1 := by omega
    simp [hfuel, Expansion.explore, hheight, hheight', hr]

/-- An alternative that starts with a token, and another one that does not start with the like. -/
theorem settled {b b' : Branch} (h : StartsWith g c b.stack)
    (hother : ∀ y, Expands g b'.stack [y] false → m.overlaps c y = false)
    (hexplored : Expansion.all? g 1 b'.stack ≠ none) : Branch.Settled g m [b, b'] where
  apart := by
    intro i j k k' hij hi hj x y hx hy
    rcases Grammar.Analyzed.eq_of_getElem?_pair hi with ⟨rfl, rfl⟩ | ⟨rfl, rfl⟩ <;>
      rcases Grammar.Analyzed.eq_of_getElem?_pair hj with ⟨rfl, rfl⟩ | ⟨rfl, rfl⟩
    · exact absurd rfl hij
    · exact h.eq hx ▸ hother y hy
    · exact (m.overlaps_comm x y).trans (h.eq hy ▸ hother x hx)
    · exact absurd rfl hij
  goesOn i j k hij hj hi := by
    obtain rfl : i = 0 := by
      rw [List.length_cons, List.length_singleton] at hj
      omega
    obtain rfl := Option.some.inj hi
    exact h.not_ends
  explored := List.forall_mem_cons.2 ⟨h.explored, List.forall_mem_singleton.2 hexplored⟩

end StartsWith

theorem all?_nil (g : Grammar) : Expansion.all? g 1 [.nil] ≠ none := by
  obtain ⟨fuel, hfuel⟩ := StartsWith.exists_fuel g [.nil]
  simp [hfuel, Expansion.explore, Limits.maxParseDepth]

/-- A grammar whose decisions are all settled by one token has no ambiguities. -/
theorem Grammar.ambiguities_of_settled {a : AnalyzedGrammar} (ha : g.analyze m k = .ok a)
    (h : ∀ p ∈ g.productions, ∀ place ∈ p.phrase.places [], ∀ x ∈ place.branches?,
      Branch.Settled g m x.2.2) : a.ambiguities = [] := by
  refine List.eq_nil_iff_forall_not_mem.2 fun x hx => ?_
  obtain ⟨r, p, place, kind, idx, branches, hp, hplace, hb, -, hfound⟩ :=
    exists_of_mem_ambiguities ha hx
  have hsettled := h p (Array.mem_of_getElem? hp) place hplace _ hb
  rw [hsettled.findings_build] at hfound
  cases hfound

end PredictiveParsing
