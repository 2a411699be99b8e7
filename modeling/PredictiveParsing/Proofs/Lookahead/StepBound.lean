import Mathlib.Data.Fintype.Lattice
import Mathlib.Data.Set.Card
import Mathlib.Order.Lattice.Nat
import Mathlib.Tactic.Ring
import PredictiveParsing.Proofs.Grammar.Following
import PredictiveParsing.Proofs.Grammar.LeftRecursion
import PredictiveParsing.Proofs.Lookahead.Analysis
import PredictiveParsing.Proofs.Lookahead.CommonTokens
import PredictiveParsing.Proofs.Lookahead.Courses

/-!
# The steps of the search for expansions

In a grammar without left recursion a way can only make so many steps until it consumes a token. The
search for expansions has more steps than that for each token, so that it never gives up for want of
steps, but only where there are too many ways or the stack is too high.
-/

namespace PredictiveParsing

namespace LeftCycle

variable {next : Array (List RuleId)} {a b : RuleId}

/-- How many nodes can be reached from a node. -/
noncomputable def rank (next : Array (List RuleId)) (a : RuleId) : Nat :=
  {b | Relation.TransGen (Edge next) a b}.ncard

theorem reached_subset (hclosed : Closed next) (a : RuleId) :
    {b | Relation.TransGen (Edge next) a b} ⊆ (Finset.range next.size : Set RuleId) := by
  intro b hb
  obtain ⟨c, -, hc⟩ := Relation.TransGen.tail'_iff.mp hb
  exact Finset.mem_range.mpr (hclosed c b hc)

private theorem rank_lt_size (hclosed : Closed next) (hends : Ends next a) (ha : a < next.size) :
    rank next a < next.size := by
  have hlt := Set.ncard_lt_ncard ⟨reached_subset hclosed a, fun hsub =>
    hends.not_transGen (hsub (Finset.mem_range.mpr ha))⟩ (Finset.finite_toSet _)
  rwa [Set.ncard_coe_finset, Finset.card_range] at hlt

private theorem rank_lt_of_edge (hclosed : Closed next) (hends : Ends next b) (h : Edge next a b) :
    rank next b < rank next a := by
  refine Set.ncard_lt_ncard ⟨fun c hc => .head h hc, fun hsub => ?_⟩
    ((Finset.finite_toSet _).subset (reached_subset hclosed a))
  exact hends.not_transGen (hsub (.single h))

end LeftCycle

namespace Phrase

variable {nullable : String → Bool} {cost : String → Nat} {bound n : Nat}

/-- The steps that a way can make in a phrase before it consumes a token, where `cost` says how many
it can make in a rule. -/
def steps (nullable : String → Bool) (cost : String → Nat) : Phrase → Nat
  | nil => 1
  | terminal .. => 1
  | call r _ rest => 1 + cost r + if nullable r then rest.steps nullable cost else 0
  | option _ body rest => 1 + body.steps nullable cost + rest.steps nullable cost
  | repetition _ b body rest =>
    1 + body.steps nullable cost
      + if !b || body.isNullable nullable then rest.steps nullable cost else 0
  | choice _ _ body rest =>
    1 + (Finset.univ.sup fun k => (body k).steps nullable cost)
      + if (List.ofFn fun k => (body k).isNullable nullable).any id then rest.steps nullable cost
      else 0

theorem size_le_of_choice {n : Nat} (body : Fin n → Phrase) (k : Fin n) :
    (body k).size ≤ (List.ofFn fun k => (body k).size).foldr (· + ·) 0 :=
  List.le_sum_of_mem (List.mem_ofFn.mpr ⟨k, rfl⟩)

/-- Every choice has a branch, and the phrase is not larger than `size`. -/
structure Fits (size : Nat) (p : Phrase) : Prop where
  branches : p.HasBranches
  size_le : p.size ≤ size

theorem Hereditary.fits (size : Nat) : Hereditary (Fits size) where
  terminal h := ⟨h.branches, Nat.le_of_succ_le h.size_le⟩
  call h := ⟨h.branches, Nat.le_of_succ_le h.size_le⟩
  option {_ body rest} h := by
    have hle : body.size + rest.size + 1 ≤ size := h.size_le
    exact ⟨⟨h.branches.1, by omega⟩, h.branches.2, by omega⟩
  repetition {_ _ body rest} h := by
    have hle : body.size + rest.size + 1 ≤ size := h.size_le
    exact ⟨⟨h.branches.1, by omega⟩, h.branches.2, by omega⟩
  choice {_ _ rest _ body} h := by
    have hle : (List.ofFn fun k => (body k).size).foldr (· + ·) 0 + rest.size + 1 ≤ size :=
      h.size_le
    refine ⟨fun k => ⟨h.branches.1.2 k, ?_⟩, h.branches.2, by omega⟩
    have hk := size_le_of_choice body k
    omega

private theorem ite_zero_le {c : Prop} [Decidable c] {x y : Nat} (h : c → x ≤ y) :
    (if c then x else 0) ≤ y := by
  split
  · rename_i hc
    exact h hc
  · exact Nat.zero_le y

/-- The steps in a phrase by its size and the steps in the rules that it can call first. -/
theorem steps_le {p : Phrase} (h : ∀ r ∈ p.callsInFront nullable, cost r ≤ bound) :
    p.steps nullable cost ≤ p.size * (bound + 2) + 1 := by
  induction p with
  | nil => simp [steps]
  | terminal c i rest ih => simp [steps]
  | call r i rest ih =>
    rw [callsInFront, List.forall_mem_cons] at h
    have hcalled := h.1
    have hrest : (if nullable r then rest.steps nullable cost else 0)
        ≤ rest.size * (bound + 2) + 1 := ite_zero_le fun hr => by
      rw [if_pos hr] at h
      exact ih h.2
    rw [steps, size, Nat.succ_mul]
    omega
  | option i body rest ihb ih =>
    rw [callsInFront, List.forall_mem_append] at h
    have hbody := ihb h.1
    have hrest := ih h.2
    rw [steps, size, Nat.succ_mul, Nat.add_mul]
    omega
  | repetition i b body rest ihb ih =>
    rw [callsInFront, List.forall_mem_append] at h
    have hbody := ihb h.1
    have hrest : (if !b || body.isNullable nullable then rest.steps nullable cost else 0)
        ≤ rest.size * (bound + 2) + 1 := ite_zero_le fun hn => by
      rw [if_pos hn] at h
      exact ih h.2
    rw [steps, size, Nat.succ_mul, Nat.add_mul]
    omega
  | @choice n i gated body rest ihb ih =>
    rw [callsInFront, List.forall_mem_append] at h
    let total := (List.ofFn fun k => (body k).size).foldr (· + ·) 0
    have hbody : (Finset.univ.sup fun k => (body k).steps nullable cost)
        ≤ total * (bound + 2) + 1 := by
      refine Finset.sup_le fun k _ => ?_
      have hk := ihb k fun r hr =>
        h.1 r (List.mem_flatten.mpr ⟨_, List.mem_ofFn.mpr ⟨k, rfl⟩, hr⟩)
      have hmul := Nat.mul_le_mul_right (bound + 2) (size_le_of_choice body k)
      exact hk.trans (Nat.succ_le_succ hmul)
    have hrest : (if (List.ofFn fun k => (body k).isNullable nullable).any id then
        rest.steps nullable cost else 0) ≤ rest.size * (bound + 2) + 1 :=
      ite_zero_le fun hn => by
        rw [if_pos hn] at h
        exact ih h.2
    change 1 + _ + _ ≤ (total + rest.size + 1) * (bound + 2) + 1
    rw [Nat.succ_mul, Nat.add_mul]
    omega

end Phrase

/-! ## The steps in a rule -/

namespace Grammar

variable {rules : List Production} {name : String} {p : Phrase}

/-- More steps than a way can make in a rule before it consumes a token. -/
noncomputable def ruleSteps (g : Grammar) (name : String) : Nat :=
  match g.ruleId? name with
  | none => 0
  | some i => (g.pieceCount + 2) ^ (LeftCycle.rank (RuleFacts.ofGrammar g).leads i + 2)

theorem size_le_pieceCount {g : Grammar} {q : Production} (h : q ∈ g.productions) :
    q.phrase.size ≤ g.pieceCount := by
  have hsum : g.pieceCount = (g.productions.toList.map (·.phrase.size)).sum := by
    rw [pieceCount, ← Array.foldl_toList, List.sum_eq_foldl, List.foldl_map]
  rw [hsum]
  exact List.le_sum_of_mem (List.mem_map.mpr ⟨q, Array.mem_toList_iff.mpr h, rfl⟩)

/-- One more level of calls multiplies the number of steps by the number of pieces. -/
private theorem mul_pow_le (n k : Nat) : n * ((n + 2) ^ (k + 1) + 2) + 1 ≤ (n + 2) ^ (k + 2) := by
  have hle : n + 2 ≤ (n + 2) ^ (k + 1) := Nat.le_self_pow (Nat.succ_ne_zero k) (n + 2)
  calc n * ((n + 2) ^ (k + 1) + 2) + 1 = n * (n + 2) ^ (k + 1) + (2 * n + 1) := by ring
    _ ≤ n * (n + 2) ^ (k + 1) + 2 * (n + 2) ^ (k + 1) := by omega
    _ = (n + 2) ^ (k + 2) := by ring

private theorem steps_le_ruleSteps (h : (RuleFacts.ofGrammar (ofList rules)).leftCycle? = none)
    (hp : (ofList rules).phrase? name = some p) :
    p.steps (RuleFacts.ofGrammar (ofList rules)).isNullable (ofList rules).ruleSteps
      ≤ (ofList rules).ruleSteps name := by
  obtain ⟨visited, hsearch⟩ := search_of_leftCycle? h
  obtain ⟨i, q, hi, hq, rfl⟩ := exists_of_phrase? hp
  let k := LeftCycle.rank (RuleFacts.ofGrammar (ofList rules)).leads i
  let n := (ofList rules).pieceCount
  have hcalls : ∀ r ∈ q.phrase.callsInFront (RuleFacts.ofGrammar (ofList rules)).isNullable,
      (ofList rules).ruleSteps r ≤ (n + 2) ^ (k + 1) := by
    intro r hr
    rw [ruleSteps]
    split
    · exact Nat.zero_le _
    · rename_i j hj
      have hedge := edge_leads_iff.mpr ⟨q, r, hq, Phrase.mem_callsInFront.mp hr, hj⟩
      have hlt := LeftCycle.rank_lt_of_edge closed_leads
        (LeftCycle.ends_of_search closed_leads hsearch j) hedge
      exact Nat.pow_le_pow_right (Nat.succ_pos _) (Nat.succ_le_succ hlt)
  calc q.phrase.steps _ _ ≤ q.phrase.size * ((n + 2) ^ (k + 1) + 2) + 1 := Phrase.steps_le hcalls
    _ ≤ n * ((n + 2) ^ (k + 1) + 2) + 1 :=
      Nat.succ_le_succ (Nat.mul_le_mul_right _ (size_le_pieceCount (Array.mem_of_getElem? hq)))
    _ ≤ (n + 2) ^ (k + 2) := mul_pow_le n k
    _ = (ofList rules).ruleSteps name := by rw [ruleSteps, hi]

private theorem ruleSteps_le (h : (RuleFacts.ofGrammar (ofList rules)).leftCycle? = none) :
    (ofList rules).ruleSteps name
      ≤ ((ofList rules).pieceCount + 2) ^ ((ofList rules).size + 1) := by
  obtain ⟨visited, hsearch⟩ := search_of_leftCycle? h
  rw [ruleSteps]
  split
  · exact Nat.zero_le _
  · rename_i i hi
    obtain ⟨q, hq, -⟩ := phrase?_of_ruleId? hi
    have hsize : (RuleFacts.ofGrammar (ofList rules)).leads.size = (ofList rules).size :=
      Array.size_map
    have hi : i < (ofList rules).size := by
      simpa [Grammar.size, ofList] using (List.getElem?_eq_some_iff.mp hq).1
    have hlt := LeftCycle.rank_lt_size closed_leads
      (LeftCycle.ends_of_search closed_leads hsearch i) (hsize ▸ hi)
    exact Nat.pow_le_pow_right (Nat.succ_pos _) (Nat.succ_le_succ (hsize ▸ hlt))

private theorem steps_le_pow (h : (RuleFacts.ofGrammar (ofList rules)).leftCycle? = none)
    (hp : p.size ≤ (ofList rules).pieceCount) :
    p.steps (RuleFacts.ofGrammar (ofList rules)).isNullable (ofList rules).ruleSteps
      ≤ ((ofList rules).pieceCount + 2) ^ ((ofList rules).size + 2) :=
  calc p.steps _ _
    _ ≤ p.size * (((ofList rules).pieceCount + 2) ^ ((ofList rules).size + 1) + 2) + 1 :=
      Phrase.steps_le fun _ _ => ruleSteps_le h
    _ ≤ _ := Nat.succ_le_succ (Nat.mul_le_mul_right _ hp)
    _ ≤ _ := mul_pow_le _ _

end Grammar

namespace Expansion

variable {g : Grammar} {nullable : String → Bool} {cost : String → Nat} {size bound : Nat}
  {s : List Phrase}

/-- What the search relies on to come to an end: the steps in the rules and in all phrases that are
no larger than these are bounded. -/
structure Bounded (g : Grammar) (nullable : String → Bool) (cost : String → Nat)
    (size bound : Nat) : Prop where
  isNullable_eq (r : String) (p : Phrase) :
    g.phrase? r = some p → nullable r = p.isNullable nullable
  steps_le_cost (r : String) (p : Phrase) : g.phrase? r = some p → p.steps nullable cost ≤ cost r
  fits (r : String) (p : Phrase) : g.phrase? r = some p → p.Fits size
  steps_le (p : Phrase) : p.size ≤ size → p.steps nullable cost ≤ bound

/-- The steps that a way can make through a stack before it consumes a token. -/
def stackSteps (nullable : String → Bool) (cost : String → Nat) : List Phrase → Nat
  | [] => 0
  | p :: s =>
    p.steps nullable cost + if p.isNullable nullable then stackSteps nullable cost s else 0

private theorem stackSteps_le (h : ∀ p ∈ s, p.steps nullable cost ≤ bound) :
    stackSteps nullable cost s ≤ s.length * bound := by
  induction s with
  | nil => exact Nat.zero_le _
  | cons p s ih =>
    obtain ⟨hp, hs⟩ := List.forall_mem_cons.mp h
    have hrest : (if p.isNullable nullable then stackSteps nullable cost s else 0)
        ≤ s.length * bound := Phrase.ite_zero_le fun _ => ih hs
    rw [stackSteps, List.length_cons, Nat.succ_mul]
    omega

private theorem Bounded.stackSteps_lt (hg : Bounded g nullable cost size bound) {s' : List Phrase}
    (hstep : WayStep g s none s') :
    stackSteps nullable cost s' < stackSteps nullable cost s := by
  cases hstep with
  | nil => simp [stackSteps, Phrase.steps, Phrase.isNullable]
  | @call r i p rest stack hp =>
    have hr := hg.steps_le_cost r p hp
    simp only [stackSteps, Phrase.steps, Phrase.isNullable, hg.isNullable_eq r p hp]
    grind
  | skip =>
    simp only [stackSteps, Phrase.steps, Phrase.isNullable]
    grind
  | take =>
    simp only [stackSteps, Phrase.steps, Phrase.isNullable]
    grind
  | pass =>
    simp only [stackSteps, Phrase.steps, Phrase.isNullable]
    grind
  | enter =>
    simp only [stackSteps, Phrase.steps, Phrase.isNullable]
    grind
  | @choose n i rest stack gated body k =>
    let f (k : Fin n) : Nat := (body k).steps nullable cost
    have hk : f k ≤ Finset.univ.sup f := Finset.le_sup (Finset.mem_univ k)
    have hany : (body k).isNullable nullable = true →
        (List.ofFn fun k => (body k).isNullable nullable).any id = true := fun h =>
      Phrase.any_ofFn.mpr ⟨k, h⟩
    simp only [stackSteps, Phrase.steps, Phrase.isNullable]
    grind

/-- The steps that a way can make through a stack until it has consumed some more tokens. -/
def budget (nullable : String → Bool) (cost : String → Nat) (bound left : Nat) (s : List Phrase) :
    Nat :=
  left * (Limits.maxParseDepth * bound) + stackSteps nullable cost s

theorem Bounded.budget_le (hg : Bounded g nullable cost size bound) (left : Nat)
    (hs : ∀ p ∈ s, p.Fits size) (hheight : s.length ≤ Limits.maxParseDepth) :
    budget nullable cost bound left s ≤ (left + 1) * (Limits.maxParseDepth * bound) := by
  have hsteps : stackSteps nullable cost s ≤ Limits.maxParseDepth * bound :=
    (stackSteps_le fun p hp => hg.steps_le p (hs p hp).size_le).trans
      (Nat.mul_le_mul_right bound hheight)
  rw [budget, Nat.succ_mul]
  exact Nat.add_le_add_left hsteps _

private theorem Bounded.budget_lt (hg : Bounded g nullable cost size bound) {left i : Nat}
    {c : CategoryId} {rest : Phrase} (hs : ∀ p ∈ rest :: s, p.Fits size)
    (hheight : (rest :: s).length ≤ Limits.maxParseDepth) :
    budget nullable cost bound left (rest :: s) <
      budget nullable cost bound (left + 1) (.terminal c i rest :: s) :=
  Nat.lt_of_le_of_lt (hg.budget_le left hs hheight) (Nat.lt_add_of_pos_right Nat.one_pos)

private theorem exploreEach_congr {f f' : Nat → ExpansionSet → Phrase → Option ExpansionSet}
    {waiting : Nat} {found : ExpansionSet} {ps : List Phrase}
    (h : ∀ p ∈ ps, ∀ waiting found, f waiting found p = f' waiting found p) :
    exploreEach f waiting found ps = exploreEach f' waiting found ps := by
  induction ps generalizing found with
  | nil => rfl
  | cons p ps ih =>
    obtain ⟨hp, hps⟩ := List.forall_mem_cons.mp h
    simp only [exploreEach, hp, ih hps]

variable {depth fuel fuel' waiting : Nat} {found : ExpansionSet} {path : CategoryPath}

private theorem Bounded.explore_eq (hg : Bounded g nullable cost size bound) {left : Nat}
    (hs : ∀ p ∈ s, p.Fits size) (hleft : path.length + left = depth)
    (hfuel : budget nullable cost bound left s < fuel)
    (hfuel' : budget nullable cost bound left s < fuel') :
    explore g depth fuel waiting found path s = explore g depth fuel' waiting found path s := by
  induction fuel generalizing fuel' waiting found path s left with
  | zero => exact absurd hfuel (Nat.not_lt_zero _)
  | succ fuel ih =>
    obtain ⟨fuel', rfl⟩ := Nat.exists_eq_succ_of_ne_zero (Nat.ne_of_gt (Nat.zero_lt_of_lt hfuel'))
    have hP := Phrase.Hereditary.fits size
    -- what a step leaves that consumes nothing has a smaller budget
    have hstep : ∀ {s'}, WayStep g s none s' → (∀ p ∈ s', p.Fits size) → ∀ waiting found,
        explore g depth fuel waiting found path s' =
          explore g depth fuel' waiting found path s' := by
      intro s' hstep hs' waiting found
      have hlt : budget nullable cost bound left s' < budget nullable cost bound left s :=
        Nat.add_lt_add_left (hg.stackSteps_lt hstep) _
      exact ih hs' hleft (by omega) (by omega)
    simp only [explore]
    split
    · rfl
    · rename_i hlimit
      split
      · rfl
      · rename_i hdepth
        cases s with
        | nil => rfl
        | cons p s =>
          obtain ⟨hp, htail⟩ := List.forall_mem_cons.mp hs
          cases p with
          | nil => exact hstep .nil htail _ _
          | terminal c i rest =>
            have hrest := List.forall_mem_cons.mpr ⟨hP.terminal hp, htail⟩
            cases left with
            | zero => exact absurd hleft hdepth
            | succ left =>
              have hheight : (rest :: s).length ≤ Limits.maxParseDepth := by
                simpa using (not_or.mp (mt (Bool.or_eq_true _ _).mpr hlimit)).2
              have hlt : budget nullable cost bound left (rest :: s) <
                  budget nullable cost bound (left + 1) (.terminal c i rest :: s) :=
                hg.budget_lt hrest hheight
              exact ih hrest (by simpa [Nat.add_assoc, Nat.add_comm 1] using hleft)
                (by omega) (by omega)
          | call r i rest =>
            cases hq : g.phrase? r with
            | none => simp only [hq]
            | some q =>
              simp only [hq]
              exact hstep (.call hq) (List.forall_mem_cons.mpr ⟨hg.fits r q hq,
                List.forall_mem_cons.mpr ⟨hP.call hp, htail⟩⟩) _ _
          | option i body rest =>
            have hrest := List.forall_mem_cons.mpr ⟨(hP.option hp).2, htail⟩
            simp only [hstep .skip hrest,
              hstep .take (List.forall_mem_cons.mpr ⟨(hP.option hp).1, hrest⟩)]
          | repetition i b body rest =>
            have hrest := List.forall_mem_cons.mpr ⟨(hP.repetition hp).2, htail⟩
            have henter := hstep .enter (List.forall_mem_cons.mpr ⟨(hP.repetition hp).1, hrest⟩)
            cases b with
            | false => simp only [hstep .pass hrest, henter]
            | true => exact henter _ _
          | @choice n i gated body rest =>
            have hbody := fun k => hstep (.choose k) (List.forall_mem_cons.mpr ⟨(hP.choice hp).1 k,
              List.forall_mem_cons.mpr ⟨(hP.choice hp).2, htail⟩⟩)
            simp only
            split
            · rename_i hnone
              exact absurd (by simpa using inTurn_eq_nil.mp hnone) hp.branches.1.1
            · refine exploreEach_congr fun p hp waiting found => ?_
              obtain ⟨k, rfl⟩ := List.mem_ofFn.mp (mem_inTurn.mp hp)
              exact hbody k waiting found

end Expansion

namespace Grammar

variable {rules : List Production} {m : TokenModel} {k depth fuel : Nat} {a : AnalyzedGrammar}
  {r : RuleId} {p : Production} {place : Place} {kind : DecisionKind} {idx : Nat}
  {branches : List Branch} {stack : List Phrase}

theorem fits_of_mem (hrules : ∀ q ∈ rules, q.phrase.HasBranches) {q : Production}
    (hq : q ∈ (ofList rules).productions) : q.phrase.Fits (ofList rules).pieceCount where
  branches := hrules q (by simpa [ofList] using hq)
  size_le := size_le_pieceCount hq

private theorem bounded_of_leftCycle? (hrules : ∀ q ∈ rules, q.phrase.HasBranches)
    (h : (RuleFacts.ofGrammar (ofList rules)).leftCycle? = none) :
    Expansion.Bounded (ofList rules) (RuleFacts.ofGrammar (ofList rules)).isNullable
      (ofList rules).ruleSteps (ofList rules).pieceCount
      (((ofList rules).pieceCount + 2) ^ ((ofList rules).size + 2)) where
  isNullable_eq name p := RuleFacts.isNullable_eq
  steps_le_cost name p := steps_le_ruleSteps h
  fits name p hp := by
    obtain ⟨i, q, -, hq, rfl⟩ := exists_of_phrase? hp
    exact fits_of_mem hrules (Array.mem_of_getElem? hq)
  steps_le p := steps_le_pow h

private theorem explore_eq_all? (hrules : ∀ q ∈ rules, q.phrase.HasBranches)
    (h : (RuleFacts.ofGrammar (ofList rules)).leftCycle? = none)
    (hs : ∀ p ∈ stack, p.Fits (ofList rules).pieceCount)
    (hfuel : Expansion.stepBound (ofList rules) depth ≤ fuel) :
    Expansion.explore (ofList rules) depth fuel 0 ∅ [] stack =
      Expansion.all? (ofList rules) depth stack := by
  have hg := bounded_of_leftCycle? hrules h
  let bound := ((ofList rules).pieceCount + 2) ^ ((ofList rules).size + 2)
  have hpos : 0 < bound := Nat.pow_pos (Nat.succ_pos _)
  have hbound : (depth + 1) * (Limits.maxParseDepth * bound) <
      Expansion.stepBound (ofList rules) depth := by
    have hunit : 0 < (depth + 1) * bound := Nat.mul_pos (Nat.succ_pos depth) hpos
    calc (depth + 1) * (Limits.maxParseDepth * bound)
      _ = Limits.maxParseDepth * ((depth + 1) * bound) := by ring
      _ < 4 * (Limits.maxParseDepth + 1) * ((depth + 1) * bound) :=
        Nat.mul_lt_mul_of_pos_right (by decide) hunit
      _ = Expansion.stepBound (ofList rules) depth := by
        change _ = 4 * (depth + 1) * (Limits.maxParseDepth + 1) * bound
        ring
  by_cases hheight : stack.length ≤ Limits.maxParseDepth
  · have hbudget := (hg.budget_le depth hs hheight).trans_lt hbound
    exact hg.explore_eq hs (Nat.zero_add depth) (hbudget.trans_le hfuel) hbudget
  · -- the search gives up at once
    have hnone : ∀ n, 0 < n → Expansion.explore (ofList rules) depth n 0 ∅ [] stack = none := by
      intro n hn
      obtain ⟨n, rfl⟩ := Nat.exists_eq_succ_of_ne_zero (Nat.ne_of_gt hn)
      simp only [Expansion.explore]
      rw [if_pos (by simp [Nat.lt_of_not_le hheight])]
    have hsteps : 0 < Expansion.stepBound (ofList rules) depth := Nat.zero_lt_of_lt hbound
    rw [Expansion.all?, hnone _ hsteps, hnone _ (hsteps.trans_le hfuel)]

/-- In a grammar that is accepted the searches for the tables never run out of steps. -/
theorem explore_eq_all?_of_analyze (hrules : ∀ q ∈ rules, q.phrase.HasBranches)
    (h : (ofList rules).analyze m k = .ok a) (hp : (ofList rules).productions[r]? = some p)
    (hplace : place ∈ p.phrase.places []) (hb : place.branches? = some (kind, idx, branches))
    {b : Branch} (hmem : b ∈ branches)
    (hfuel : Expansion.stepBound (ofList rules) depth ≤ fuel) :
    Expansion.explore (ofList rules) depth fuel 0 ∅ [] b.stack =
      Expansion.all? (ofList rules) depth b.stack :=
  explore_eq_all? hrules (leftCycle?_of_analyze h)
    ((Phrase.Hereditary.fits _).of_branches? (fits_of_mem hrules (Array.mem_of_getElem? hp)) hplace
      hb b hmem) hfuel

end Grammar

end PredictiveParsing
