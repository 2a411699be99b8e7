import PredictiveParsing.Proofs.Lookahead.CommonTokens
import PredictiveParsing.Proofs.Lookahead.Rounds

/-!
# Ambiguity reports

A decision is reported if and only if a search for its expansions gives up, or some tokens match a
path of an alternative and as many categories of a path of a later one. Otherwise the first
alternative that matches never hides a later one that matches as many tokens.
-/

namespace PredictiveParsing

namespace Branch

variable {g : Grammar} {m : TokenModel} {branches : List Branch} {i j k : Nat} {b : Branch}
  {p : CategoryPath}

/-- Where the path limit is not hit every way that collides begins with a path that is stored, or is
the beginning of one. -/
theorem exists_stores_of_contested (hlimit : ¬HitsLimit g m branches k) (hk : 0 < k)
    (hb : branches[i]? = some b) (hp : Expands g b.stack p false)
    (hc : Contested g m branches i p) (hle : p.length ≤ k) :
    ∃ q, p <+: q ∧ Stores g m branches i b.stack k true q := by
  induction hn : k - p.length generalizing p with
  | zero =>
    have hlen : p.length = k := by omega
    have hne : p ≠ [] := List.ne_nil_of_length_pos (hlen ▸ hk)
    exact ⟨p, List.prefix_rfl, .cut hp rfl hlen (hc.resolve_left hne)⟩
  | succ n ih =>
    have hlt : p.length < k := by omega
    obtain ⟨found, hfound⟩ : ∃ found, Expansion.all? g (p.length + 1) b.stack = some found :=
      Option.ne_none_iff_exists'.mp fun hnone => hlimit ⟨_, hlt, i, b, p, hb, rfl, hp, hc, hnone⟩
    rcases Expansion.ended_or_exists_append hfound hp with hend | ⟨c, hnext⟩
    · exact ⟨p, List.prefix_rfl, .ended hend hlt hc⟩
    · by_cases hcol : Collides g m branches i (p ++ [c])
      · obtain ⟨q, hq, hs⟩ := ih hnext (.inr hcol) (by simp; omega) (by simp; omega)
        exact ⟨q, (List.prefix_append p [c]).trans hq, hs⟩
      · exact ⟨p ++ [c], List.prefix_append p [c], .apart hnext hlt hc hcol⟩

/-- What a round looks at begins with a path that is stored, or is the beginning of one. -/
theorem exists_stores_of_reaches {d : Nat} {e : Bool} (hlimit : ¬HitsLimit g m branches k)
    (hb : branches[i]? = some b) (h : Reaches g m branches i d b.stack p e) (hd : d < k) :
    ∃ q, p <+: q ∧ Stores g m branches i b.stack k true q := by
  obtain ⟨hp, hlen, hc⟩ := h
  cases e with
  | true =>
    have hlen : p.length = d := hlen
    rw [List.take_of_length_le (Nat.le_of_eq hlen)] at hc
    exact ⟨p, List.prefix_rfl, .ended hp (hlen ▸ hd) hc⟩
  | false =>
    by_cases hcol : Collides g m branches i p
    · exact exists_stores_of_contested hlimit (Nat.zero_lt_of_lt hd) hb hp (.inr hcol)
        (hlen ▸ Nat.succ_le_of_lt hd)
    · obtain ⟨v, c, rfl⟩ :=
        (List.eq_nil_or_concat' p).resolve_left (List.ne_nil_of_length_eq_add_one hlen)
      have hv : v.length = d := by simpa using hlen
      rw [List.take_left' hv] at hc
      exact ⟨v ++ [c], List.prefix_rfl, .apart hp (hv ▸ hd) hc hcol⟩

theorem Stores.expands {last : Bool} (h : Stores g m branches i b.stack k last p) :
    Expands g b.stack p false := by
  cases h with
  | ended hw _ _ => exact hw.of_isPrefix List.prefix_rfl
  | apart hw _ _ _ => exact hw
  | cut hw _ _ _ => exact hw

private theorem Stores.length_le {last : Bool} (h : Stores g m branches i b.stack k last p) :
    p.length ≤ k := by
  cases h with
  | ended _ hd _ => exact Nat.le_of_lt hd
  | apart _ hd _ _ => simpa using Nat.succ_le_of_lt hd
  | cut _ _ hd _ => exact Nat.le_of_eq hd

/-- Something is found between two alternatives if and only if a path of the one is compatible with
a path of the other that is not shorter. -/
theorem confused_iff (hlimit : ¬HitsLimit g m branches k) (hij : i ≠ j) :
    Confused g m branches i j k true ↔ ∃ b b' p q, branches[i]? = some b ∧ branches[j]? = some b'
      ∧ b.gated = false ∧ b'.gated = false ∧ Stores g m branches i b.stack k true p
      ∧ Stores g m branches j b'.stack k true q ∧ p.length ≤ q.length
      ∧ m.compatible p q = true := by
  constructor
  · rintro (⟨e, hw, hd, hq, hlen, hc⟩ | ⟨hp, hq, -, hd, hlen, hc⟩)
    · have hle := Nat.le.intro hlen.symm
      have hcw := collides_of_compatible hij.symm hw hq hle hc
      have hcq := contested_take_of_compatible hij hq hw (Nat.le_refl _)
        (TokenModel.compatible_comm ▸ hc)
      obtain ⟨b, hb, hgate, hw⟩ := hw
      obtain ⟨b', hb', hgate', hq⟩ := hq
      obtain ⟨_, ⟨u, rfl⟩, hr⟩ := exists_stores_of_reaches hlimit hb' ⟨hq, hlen, hcq⟩ hd
      refine ⟨b, b', _, _, hb, hb', hgate, hgate', .ended hw hd (.inr hcw), hr, ?_, ?_⟩
      · rw [List.length_append]
        omega
      · rwa [TokenModel.compatible_append_right hle]
    · have hcp := collides_of_compatible hij.symm hp hq (by omega) hc
      have hcq := collides_of_compatible hij hq hp (by omega) (TokenModel.compatible_comm ▸ hc)
      obtain ⟨b, hb, hgate, hp⟩ := hp
      obtain ⟨b', hb', hgate', hq⟩ := hq
      exact ⟨b, b', _, _, hb, hb', hgate, hgate', .cut hp rfl hd hcp, .cut hq rfl hlen hcq,
        by omega, hc⟩
  · rintro ⟨b, b', p, q, hb, hb', hgate, hgate', hp, hq, hle, hc⟩
    have hoffers : Offers g branches j q false := ⟨b', hb', hgate', hq.expands⟩
    have hcol := collides_of_compatible hij.symm ⟨b, hb, hgate, hp.expands⟩ hoffers hle hc
    cases hp with
    | apart _ _ _ hn => exact absurd hcol hn
    | cut hw _ hd _ =>
      exact .cut ⟨b, hb, hgate, hw⟩ hoffers rfl hd (Nat.le_antisymm hq.length_le (hd ▸ hle)) hc
    | ended hw hd _ =>
      have hw : Offers g branches i p true := ⟨b, hb, hgate, hw⟩
      rcases Nat.lt_or_eq_of_le hle with hlt | heq
      · have htake : q.take (p.length + 1) <+: q := List.take_prefix _ _
        exact .ended false hw hd (hoffers.of_isPrefix htake) (List.length_take_of_le hlt)
          (TokenModel.compatible_of_isPrefix hc List.prefix_rfl htake)
      · cases hq with
        | ended hq _ _ => exact .ended true hw hd ⟨b', hb', hgate', hq⟩ heq.symm hc
        | apart hq _ _ hn =>
          exact absurd (collides_of_compatible hij hoffers hw (Nat.le_of_eq heq.symm)
            (TokenModel.compatible_comm ▸ hc)) hn
        | cut _ _ hlen _ => omega

end Branch

/-- Some tokens match a path of an alternative without a gate and as many categories of a path of a
later one. -/
def Decision.Hides (m : TokenModel) (d : Decision) : Prop :=
  ∃ (i j : Nat) (a a' : Alternative) (p q : CategoryPath), i < j ∧ d.alternatives[i]? = some a
    ∧ d.alternatives[j]? = some a' ∧ a.gated = false ∧ a'.gated = false ∧ p ∈ a.paths
    ∧ q ∈ a'.paths ∧ p.length ≤ q.length ∧ m.Meet p (q.take p.length)

namespace Decision

variable {g : Grammar} {m : TokenModel} {k idx : Nat} {kind : DecisionKind}
  {branches : List Branch} {d : Decision} {i j : Nat} {a a' : Alternative} {p q : CategoryPath}

/-- Where nothing is hidden a later alternative that matches is recognized by fewer tokens. -/
theorem length_lt_of_matches (hm : m.WellFormed) (hd : ¬d.Hides m) (hij : i < j)
    (ha : d.alternatives[i]? = some a) (ha' : d.alternatives[j]? = some a')
    (hgate : a.gated = false) (hgate' : a'.gated = false) (hp : p ∈ a.paths) (hq : q ∈ a'.paths)
    {tokens : CategoryPath} (htp : m.Matches (tokens.take p.length) p)
    (htq : m.Matches (tokens.take q.length) q) : q.length < p.length := by
  by_contra hlt
  have hle := Nat.le_of_not_lt hlt
  have htake := List.forall₂_take p.length htq
  rw [List.take_take, Nat.min_eq_left hle] at htake
  exact hd ⟨i, j, a, a', p, q, hij, ha, ha', hgate, hgate', hp, hq, hle, _,
    hm.lt_size_of_matches htp, htp, htake⟩

private theorem hides_build_iff (hm : m.WellFormed)
    (hlimit : ¬Branch.HitsLimit g m branches (max k 1))
    (hsize : ∀ b ∈ branches, ∀ w e, Expands g b.stack w e → ∀ c ∈ w, c < m.size) :
    (build g m k kind idx branches).1.Hides m ↔
      ∃ i j, i < j ∧ Branch.Confused g m branches i j (max k 1) true := by
  have hmeet : ∀ {i j : Nat} {b b' : Branch} {p q : CategoryPath}, branches[i]? = some b →
      branches[j]? = some b' → Expands g b.stack p false → Expands g b'.stack q false →
      p.length ≤ q.length → (m.Meet p (q.take p.length) ↔ m.compatible p q = true) := by
    intro i j b b' p q hb hb' hp hq hle
    have hqsize := hsize b' (List.mem_of_getElem? hb') q false hq
    rw [hm.meet_iff (hsize b (List.mem_of_getElem? hb) p false hp)
      (fun c hc => hqsize c (List.mem_of_mem_take hc)) (List.length_take_of_le hle),
      TokenModel.compatible_take_right hle]
  constructor
  · rintro ⟨i, j, a, a', p, q, hij, ha, ha', hgate, hgate', hp, hq, hle, ht⟩
    have hstored : ∀ {i : Nat} {a : Alternative},
        (build g m k kind idx branches).1.alternatives[i]? = some a → ∃ b, branches[i]? = some b
          ∧ a.gated = b.gated ∧ ∀ path, path ∈ a.paths ↔
            Branch.Stores g m branches i b.stack (max k 1) true path := by
      intro i a ha
      have hlt : i < branches.length := by
        have hlen : (build g m k kind idx branches).1.alternatives.length = branches.length :=
          length_alternatives_build
        exact hlen ▸ (List.getElem?_eq_some_iff.mp ha).1
      obtain ⟨x, hx, hgate, -, hpaths⟩ :=
        exists_alternative_of_build hlimit (List.getElem?_eq_getElem hlt)
      obtain rfl : a = x := Option.some.inj (ha.symm.trans hx)
      exact ⟨_, List.getElem?_eq_getElem hlt, hgate, hpaths⟩
    obtain ⟨b, hb, hopen, hpaths⟩ := hstored ha
    obtain ⟨b', hb', hopen', hpaths'⟩ := hstored ha'
    have hp := (hpaths p).mp hp
    have hq := (hpaths' q).mp hq
    exact ⟨i, j, hij, (Branch.confused_iff hlimit (Nat.ne_of_lt hij)).mpr ⟨b, b', p, q, hb, hb',
      hopen ▸ hgate, hopen' ▸ hgate', hp, hq, hle,
      (hmeet hb hb' hp.expands hq.expands hle).mp ht⟩⟩
  · rintro ⟨i, j, hij, hconfused⟩
    obtain ⟨b, b', p, q, hb, hb', hgate, hgate', hp, hq, hle, hc⟩ :=
      (Branch.confused_iff hlimit (Nat.ne_of_lt hij)).mp hconfused
    obtain ⟨a, ha, hopen, -, hpaths⟩ := exists_alternative_of_build hlimit hb
    obtain ⟨a', ha', hopen', -, hpaths'⟩ := exists_alternative_of_build hlimit hb'
    exact ⟨i, j, a, a', p, q, hij, ha, ha', hopen.trans hgate, hopen'.trans hgate',
      (hpaths p).mpr hp, (hpaths' q).mpr hq, hle,
      (hmeet hb hb' hp.expands hq.expands hle).mpr hc⟩

end Decision

namespace Grammar

variable {g : Grammar} {m : TokenModel} {k : Nat} {a : AnalyzedGrammar} {r : RuleId}
  {p : Production} {place : Place} {kind : DecisionKind} {idx : Nat} {branches : List Branch}

/-- A decision is reported as ambiguous if and only if a search for its expansions gives up or it
hides a path of a later alternative; where it is not reported, an alternative that matches comes
first only if every later one that matches is recognized by fewer tokens. -/
theorem ambiguous_exact (hm : m.Built) (h : g.analyze m k = .ok a)
    (hp : g.productions[r]? = some p) (hplace : place ∈ p.phrase.places [])
    (hb : place.branches? = some (kind, idx, branches)) :
    ∃ d, (a.rules[r]?.bind (·.decision? kind idx)) = some d
      ∧ (d.ambiguous = true ↔ Branch.HitsLimit g m branches (max k 1) ∨ d.Hides m)
      ∧ (d.ambiguous = true → ∃ x ∈ a.ambiguities, x.key = ⟨p.name, kind, idx⟩)
      ∧ ((g.productions.toList.map (·.name)).Nodup →
        ∀ x ∈ a.ambiguities, x.key = ⟨p.name, kind, idx⟩ → d.ambiguous = true)
      ∧ (d.ambiguous = false → ∀ (i j : Nat) (x y : Alternative) (u v tokens : CategoryPath),
        i < j → d.alternatives[i]? = some x → d.alternatives[j]? = some y → x.gated = false →
        y.gated = false → u ∈ x.paths → v ∈ y.paths → m.Matches (tokens.take u.length) u →
        m.Matches (tokens.take v.length) v → v.length < u.length) := by
  have hw := hm.wellFormed
  have hiff : (Decision.build g m k kind idx branches).1.ambiguous = true ↔
      Branch.HitsLimit g m branches (max k 1)
        ∨ (Decision.build g m k kind idx branches).1.Hides m := by
    by_cases hlimit : Branch.HitsLimit g m branches (max k 1)
    · obtain ⟨x, hx, -⟩ := (Decision.exists_pathLimit_iff kind idx).mpr hlimit
      exact iff_of_true (Decision.ambiguous_build_iff_exists.mpr ⟨x, hx⟩) (.inl hlimit)
    · rw [Decision.ambiguous_build_iff hlimit, or_iff_right hlimit,
        Decision.hides_build_iff hw hlimit fun b hmem w e hexp =>
          lt_size_of_expands h hp hplace hb hmem hexp]
  refine ⟨_, decision?_of_mem_places h hp hplace hb, hiff, fun hd => ?_, fun hnames x hx hkey => ?_,
    fun hd i j x y u v tokens hij hx hy hgate hgate' hu hv htu htv => ?_⟩
  · obtain ⟨f, hf⟩ := Decision.ambiguous_build_iff_exists.mp hd
    obtain ⟨x, hx, hkey, -⟩ := mem_ambiguities h hp hplace hb hf
    exact ⟨x, hx, hkey⟩
  · obtain ⟨s, q, place', kind', idx', branches', hq, hplace', hb', hkey', hf⟩ :=
      exists_of_mem_ambiguities h hx
    have hkeys := hkey.symm.trans hkey'
    obtain rfl := branches?_of_key_eq h hnames hp hq hplace hplace' hb hb' hkeys
    obtain ⟨-, rfl, rfl⟩ := DecisionKey.mk.inj hkeys
    exact Decision.ambiguous_build_iff_exists.mpr ⟨_, hf⟩
  · have hhides := mt (fun hh => hiff.mpr (.inr hh)) (Bool.eq_false_iff.mp hd)
    exact Decision.length_lt_of_matches hw hhides hij hx hy hgate hgate' hu hv htu htv

/-! ## A branch that begins another one -/

def shadowBranch (k : Fin 2) : Phrase :=
  if k.val = 0 then .terminal 1 1 .nil else .terminal 1 2 (.terminal 2 1 .nil)

def shadowGrammar : Grammar := .ofList [⟨"r", .choice 1 (fun _ => false) shadowBranch .nil⟩]

def shadowModel : TokenModel :=
  ["A", "B"].foldl (fun m name => (m.define name none (.literal name) .normal).2) .empty

private theorem built_shadowModel :
    shadowModel.Built := .define _ _ _ _ (.define _ _ _ _ (.tagged 0))

def shadowAnalysis : AnalyzedGrammar :=
  (shadowGrammar.analyze shadowModel 3).toOption.getD ⟨0, #[], []⟩

set_option maxRecDepth 4000 in
private theorem analyze_shadowGrammar :
    shadowGrammar.analyze shadowModel 3 = .ok shadowAnalysis := by cbv

set_option maxRecDepth 4000 in
private theorem ambiguous_shadowAnalysis :
    (shadowAnalysis.rules[0]?.bind (·.decision? .or 1)).map (·.ambiguous) = some true := by cbv

/-- The first branch hides the second one, and that is reported. -/
theorem ambiguous_exact_shadowGrammar : shadowModel.Built
    ∧ shadowGrammar.analyze shadowModel 3 = .ok shadowAnalysis
    ∧ ∃ d, (shadowAnalysis.rules[0]?.bind (·.decision? .or 1)) = some d
      ∧ (Branch.HitsLimit shadowGrammar shadowModel
          [⟨[shadowBranch 0, .nil], false⟩, ⟨[shadowBranch 1, .nil], false⟩] 3
        ∨ d.Hides shadowModel)
      ∧ ∃ x ∈ shadowAnalysis.ambiguities, x.key = ⟨"r", .or, 1⟩ := by
  have hrule : shadowGrammar.productions[0]? =
      some ⟨"r", .choice 1 (fun _ => false) shadowBranch .nil⟩ := rfl
  have hplace : ⟨.choice 1 (fun _ => false) shadowBranch .nil, [.rest .nil]⟩ ∈
      (Phrase.choice 1 (fun _ => false) shadowBranch .nil).places [] := List.mem_cons_self
  obtain ⟨d, hd, hiff, hreported, -, -⟩ :=
    ambiguous_exact built_shadowModel analyze_shadowGrammar hrule hplace rfl
  have hflag : d.ambiguous = true := by
    have h := ambiguous_shadowAnalysis
    rw [hd] at h
    exact Option.some.inj h
  exact ⟨built_shadowModel, analyze_shadowGrammar, d, hd, hiff.mp hflag, hreported hflag⟩

end Grammar

end PredictiveParsing
