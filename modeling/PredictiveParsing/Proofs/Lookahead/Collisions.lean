import Mathlib.Data.List.Basic
import PredictiveParsing.Proofs.Lookahead.Clashes

/-!
# Colliding paths

A path of an alternative collides if another alternative can begin with a path that the same tokens
match. It has to grow then, up to the end of the rule or the last round, so that the paths that are
stored and what is found about them can be told from the ways of the alternatives alone.
-/

namespace PredictiveParsing

variable {g : Grammar} {m : TokenModel} {branches : List Branch} {i j d k : Nat} {last : Bool}
  {p q w : CategoryPath} {stack : List Phrase} {e : Bool}

theorem Expands.of_isPrefix (h : Expands g stack w e) (hp : p <+: w) : Expands g stack p false := by
  rw [List.prefix_iff_eq_take.mp hp]
  exact h.take_of_le hp.length_le

namespace Branch

/-- The alternative has no gate, and a way with the path. -/
def Offers (g : Grammar) (branches : List Branch) (i : Nat) (p : CategoryPath) (ended : Bool) :
    Prop :=
  ∃ b, branches[i]? = some b ∧ b.gated = false ∧ Expands g b.stack p ended

/-- Another alternative can begin with a path that the same tokens match. -/
def Collides (g : Grammar) (m : TokenModel) (branches : List Branch) (i : Nat) (p : CategoryPath) :
    Prop :=
  Offers g branches i p false
    ∧ ∃ j q, j ≠ i ∧ Offers g branches j q false ∧ q.length = p.length ∧ m.compatible p q = true

/-- The path has to grow. -/
def Contested (g : Grammar) (m : TokenModel) (branches : List Branch) (i : Nat)
    (p : CategoryPath) : Prop :=
  p = [] ∨ Collides g m branches i p

theorem Offers.of_isPrefix (h : Offers g branches i w e) (hp : p <+: w) :
    Offers g branches i p false := by
  obtain ⟨b, hb, hgate, hw⟩ := h
  exact ⟨b, hb, hgate, hw.of_isPrefix hp⟩

theorem Collides.of_isPrefix (h : Collides g m branches i p) (hq : q <+: p) :
    Collides g m branches i q := by
  obtain ⟨hp, j, r, hj, hr, hlen, hc⟩ := h
  have hle : q.length ≤ r.length := hlen ▸ hq.length_le
  have htake : r.take q.length <+: r := List.take_prefix _ _
  exact ⟨hp.of_isPrefix hq, j, _, hj, hr.of_isPrefix htake, List.length_take_of_le hle,
    TokenModel.compatible_of_isPrefix hc hq htake⟩

theorem Collides.contested (h : Collides g m branches i p) (hq : q <+: p) :
    Contested g m branches i q := .inr (h.of_isPrefix hq)

theorem Contested.of_isPrefix (h : Contested g m branches i p) (hq : q <+: p) :
    Contested g m branches i q := by
  rcases h with rfl | h
  · exact .inl (List.prefix_nil.mp hq)
  · exact h.contested hq

/-- Paths of two alternatives that the same tokens match collide as far as both reach. -/
theorem collides_of_compatible {e' : Bool} (hij : j ≠ i) (hp : Offers g branches i p e)
    (hq : Offers g branches j q e') (hle : p.length ≤ q.length)
    (hc : m.compatible p q = true) : Collides g m branches i p := by
  have htake : q.take p.length <+: q := List.take_prefix _ _
  exact ⟨hp.of_isPrefix List.prefix_rfl, j, _, hij, hq.of_isPrefix htake,
    List.length_take_of_le hle, TokenModel.compatible_of_isPrefix hc List.prefix_rfl htake⟩

theorem contested_take_of_compatible {e' : Bool} (hij : j ≠ i) (hp : Offers g branches i p e)
    (hq : Offers g branches j q e') (hle : d ≤ q.length) (hc : m.compatible p q = true) :
    Contested g m branches i (p.take d) := by
  have htake : p.take d <+: p := List.take_prefix _ _
  have hlen : (p.take d).length ≤ q.length := Nat.le_trans (List.length_take_le d p) hle
  exact .inr (collides_of_compatible hij (hp.of_isPrefix htake) hq hlen
    (TokenModel.compatible_of_isPrefix hc htake List.prefix_rfl))

/-- The expansions that a round to `d + 1` categories looks at. -/
structure Reaches (g : Grammar) (m : TokenModel) (branches : List Branch) (i d : Nat)
    (stack : List Phrase) (p : CategoryPath) (ended : Bool) : Prop where
  way : Expands g stack p ended
  length : p.length = d + (!ended).toNat
  contested : Contested g m branches i (p.take d)

/-- The paths of an alternative that are stored by rounds to `d` categories, where the last round
stores what still collides. -/
inductive Stores (g : Grammar) (m : TokenModel) (branches : List Branch) (i : Nat)
    (stack : List Phrase) (d : Nat) (last : Bool) : CategoryPath → Prop
  | ended {w : CategoryPath} (hw : Expands g stack w true) (hd : w.length < d)
      (hc : Contested g m branches i w) : Stores g m branches i stack d last w
  | apart {w : CategoryPath} {c : CategoryId} (hw : Expands g stack (w ++ [c]) false)
      (hd : w.length < d) (hc : Contested g m branches i w)
      (hn : ¬Collides g m branches i (w ++ [c])) :
      Stores g m branches i stack d last (w ++ [c])
  | cut {w : CategoryPath} (hw : Expands g stack w false) (hlast : last = true) (hd : w.length = d)
      (hc : Collides g m branches i w) : Stores g m branches i stack d last w

/-- What rounds to `d` categories find between two alternatives. -/
inductive Confused (g : Grammar) (m : TokenModel) (branches : List Branch) (i j d : Nat)
    (last : Bool) : Prop
  | ended {w q : CategoryPath} (e : Bool) (hw : Offers g branches i w true) (hd : w.length < d)
      (hq : Offers g branches j q e) (hlen : q.length = w.length + (!e).toNat)
      (hc : m.compatible w q = true)
  | cut {p q : CategoryPath} (hp : Offers g branches i p false) (hq : Offers g branches j q false)
      (hlast : last = true) (hd : p.length = d) (hlen : q.length = d)
      (hc : m.compatible p q = true)

/-- The search for the expansions of an alternative to one category more than `d` gives up, while
the alternative still has a path to grow. -/
def GivesUp (g : Grammar) (m : TokenModel) (branches : List Branch) (d : Nat) : Prop :=
  ∃ i b p, branches[i]? = some b ∧ p.length = d ∧ Expands g b.stack p false
    ∧ Contested g m branches i p ∧ Expansion.all? g (d + 1) b.stack = none

/-- One of the rounds to at most `k` categories gives up. -/
def HitsLimit (g : Grammar) (m : TokenModel) (branches : List Branch) (k : Nat) : Prop :=
  ∃ d < k, GivesUp g m branches d

/-! ## One more category -/

theorem stores_succ_iff : Stores g m branches i stack (d + 1) last p ↔
    Stores g m branches i stack d false p ∨ ∃ e, Reaches g m branches i d stack p e
      ∧ (e = false → Collides g m branches i p → last = true) := by
  constructor
  · rintro (⟨hw, hd, hc⟩ | ⟨hw, hd, hc, hn⟩ | ⟨hw, hlast, hd, hc⟩)
    · rcases Nat.lt_succ_iff_lt_or_eq.mp hd with hd | hd
      · exact .inl (.ended hw hd hc)
      · have htake : p.take d = p := List.take_of_length_le (Nat.le_of_eq hd)
        exact .inr ⟨true, ⟨hw, hd, htake.symm ▸ hc⟩, nofun⟩
    · rcases Nat.lt_succ_iff_lt_or_eq.mp hd with hd | hd
      · exact .inl (.apart hw hd hc hn)
      · exact .inr ⟨false, ⟨hw, by simpa using hd, (List.take_left' hd).symm ▸ hc⟩,
          fun _ h => absurd h hn⟩
    · exact .inr ⟨false, ⟨hw, hd, hc.contested (List.take_prefix d p)⟩, fun _ _ => hlast⟩
  · rintro (h | ⟨e, ⟨hw, hlen, hc⟩, h⟩)
    · cases h with
      | ended hw hd hc => exact .ended hw (Nat.lt_succ_of_lt hd) hc
      | apart hw hd hc hn => exact .apart hw (Nat.lt_succ_of_lt hd) hc hn
      | cut hw hlast hd hc => cases hlast
    · cases e with
      | true =>
        have hd : p.length = d := hlen
        rw [List.take_of_length_le (Nat.le_of_eq hd)] at hc
        exact .ended hw (hd ▸ Nat.lt_succ_self _) hc
      | false =>
        obtain ⟨v, c, rfl⟩ := (List.eq_nil_or_concat' p).resolve_left
          (List.ne_nil_of_length_eq_add_one hlen)
        by_cases hcol : Collides g m branches i (v ++ [c])
        · exact .cut hw (h rfl hcol) hlen hcol
        · have hv : v.length = d := by simpa using hlen
          rw [List.take_left' hv] at hc
          exact .apart hw (hv ▸ Nat.lt_succ_self _) hc hcol

theorem confused_succ_iff : Confused g m branches i j (d + 1) last ↔
    Confused g m branches i j d false
      ∨ (∃ w q e, Offers g branches i w true ∧ w.length = d ∧ Offers g branches j q e
        ∧ q.length = w.length + (!e).toNat ∧ m.compatible w q = true)
      ∨ (last = true ∧ ∃ p q, Offers g branches i p false ∧ p.length = d + 1
        ∧ Offers g branches j q false ∧ q.length = d + 1 ∧ m.compatible p q = true) := by
  constructor
  · rintro (⟨e, hw, hd, hq, hlen, hc⟩ | ⟨hp, hq, hlast, hd, hlen, hc⟩)
    · rcases Nat.lt_succ_iff_lt_or_eq.mp hd with hd | hd
      · exact .inl (.ended e hw hd hq hlen hc)
      · exact .inr (.inl ⟨_, _, e, hw, hd, hq, hlen, hc⟩)
    · exact .inr (.inr ⟨hlast, _, _, hp, hd, hq, hlen, hc⟩)
  · rintro (h | ⟨w, q, e, hw, hd, hq, hlen, hc⟩ | ⟨hlast, p, q, hp, hd, hq, hlen, hc⟩)
    · cases h with
      | ended e hw hd hq hlen hc => exact .ended e hw (Nat.lt_succ_of_lt hd) hq hlen hc
      | cut hp hq hlast hd hlen hc => cases hlast
    · exact .ended e hw (hd ▸ Nat.lt_succ_self _) hq hlen hc
    · exact .cut hp hq hlast hd hlen hc

/-! ## Where nothing has to grow any more -/

/-- No alternative has a path of this length that collides. -/
def AllApart (g : Grammar) (m : TokenModel) (branches : List Branch) (d : Nat) : Prop :=
  ∀ i b p, branches[i]? = some b → p.length = d → Expands g b.stack p false →
    ¬Contested g m branches i p

theorem AllApart.lt_of_contested {b : Branch} (h : AllApart g m branches d)
    (hb : branches[i]? = some b) (hp : Expands g b.stack p e) (hc : Contested g m branches i p) :
    p.length < d := by
  by_contra hle
  have htake : p.take d <+: p := List.take_prefix _ _
  exact h i b _ hb (List.length_take_of_le (Nat.le_of_not_lt hle)) (hp.of_isPrefix htake)
    (hc.of_isPrefix htake)

theorem AllApart.stores_iff {b : Branch} (h : AllApart g m branches d)
    (hb : branches[i]? = some b) (hd : d ≤ k) :
    Stores g m branches i b.stack k last p ↔ Stores g m branches i b.stack d false p := by
  constructor
  · rintro (⟨hw, -, hc⟩ | ⟨hw, -, hc, hn⟩ | ⟨hw, -, hk, hc⟩)
    · exact .ended hw (h.lt_of_contested hb hw hc) hc
    · have hv := hw.of_isPrefix (List.prefix_append _ _)
      exact .apart hw (h.lt_of_contested hb hv hc) hc hn
    · have hlt := h.lt_of_contested hb hw (.inr hc)
      omega
  · rintro (⟨hw, hlt, hc⟩ | ⟨hw, hlt, hc, hn⟩ | ⟨-, hlast, -, -⟩)
    · exact .ended hw (Nat.lt_of_lt_of_le hlt hd) hc
    · exact .apart hw (Nat.lt_of_lt_of_le hlt hd) hc hn
    · cases hlast

theorem AllApart.confused_iff (h : AllApart g m branches d) (hij : i ≠ j) (hd : d ≤ k) :
    Confused g m branches i j k last ↔ Confused g m branches i j d false := by
  constructor
  · rintro (⟨e, hw, -, hq, hlen, hc⟩ | ⟨hp, hq, -, hk, hlen, hc⟩)
    · have hcol := collides_of_compatible hij.symm hw hq (hlen ▸ Nat.le_add_right _ _) hc
      obtain ⟨b, hb, hgate, hexp⟩ := hw
      exact .ended e ⟨b, hb, hgate, hexp⟩ (h.lt_of_contested hb hexp (.inr hcol)) hq hlen hc
    · have hcol := collides_of_compatible hij.symm hp hq (by omega) hc
      obtain ⟨b, hb, -, hexp⟩ := hp
      have hlt := h.lt_of_contested hb hexp (.inr hcol)
      omega
  · rintro (⟨e, hw, hlt, hq, hlen, hc⟩ | ⟨-, -, hlast, -, -, -⟩)
    · exact .ended e hw (Nat.lt_of_lt_of_le hlt hd) hq hlen hc
    · cases hlast

end Branch

end PredictiveParsing
