import PredictiveParsing.Proofs.Lookahead.CommonTokens
import PredictiveParsing.Proofs.Lookahead.Courses
import PredictiveParsing.Proofs.Lookahead.Rounds

/-!
# Decision tables by courses

A direct definition of decision tables: every course of an alternative selects its shortest
beginning that no other alternative can begin with, too, and the tables that are built hold exactly
these.
-/

namespace PredictiveParsing

namespace Branch

/-- The alternative has no gate, and another one without a gate has a course whose first categories
some tokens match together with the path. -/
def Colliding (g : Grammar) (m : TokenModel) (branches : List Branch) (i : Nat)
    (p : CategoryPath) : Prop :=
  ∃ (b : Branch) (j : Nat) (b' : Branch) (course : Course), branches[i]? = some b
    ∧ b.gated = false ∧ j ≠ i ∧ branches[j]? = some b' ∧ b'.gated = false
    ∧ course.IsOf g b'.stack ∧ course.Reaches p.length ∧ m.Meet p (course.take p.length)

end Branch

namespace Course

/-- The path that a course selects: its shortest beginning with at most `k` categories, and at least
one, that does not collide, or else as much of it as can be looked at. -/
inductive Selects (collides : CategoryPath → Prop) (k : Nat) (course : Course) :
    CategoryPath → Prop
  | apart {n : Nat} (hpos : 0 < n) (hk : n ≤ k) (hn : course.Reaches n)
      (hc : ¬collides (course.take n)) (hall : ∀ j, 0 < j → j < n → collides (course.take j)) :
      Selects collides k course (course.take n)
  | cut (hn : course.Reaches k) (hall : ∀ j, 0 < j → j ≤ k → collides (course.take j)) :
      Selects collides k course (course.take k)
  | whole {w : CategoryPath} (hw : course = .ending w) (hlt : w.length < k)
      (hall : ∀ j, 0 < j → j ≤ w.length → collides (course.take j)) : Selects collides k course w

variable {collides : CategoryPath → Prop} {k : Nat} {course : Course} {p q : CategoryPath}

theorem Reaches.mono {n j : Nat} (h : course.Reaches n) (hj : j ≤ n) : course.Reaches j := by
  cases course with
  | ending w => exact Nat.le_trans hj h
  | endless w => trivial

theorem take_take {n j : Nat} (hj : j ≤ n) : (course.take n).take j = course.take j := by
  cases course with
  | ending w => rw [take, take, List.take_take, Nat.min_eq_left hj]
  | endless w => rw [take, take, ← List.map_take, List.take_range, Nat.min_eq_left hj]

private theorem Selects.exists_length (h : course.Selects collides k p) : ∃ n ≤ k, p = course.take n
    ∧ course.Reaches n ∧ (∀ j, 0 < j → j < n → collides (course.take j))
    ∧ ((0 < n ∧ ¬collides (course.take n)) ∨ n = k ∨ ¬course.Reaches (n + 1)) := by
  cases h with
  | @apart n hpos hk hn hc hall => exact ⟨n, hk, rfl, hn, hall, .inl ⟨hpos, hc⟩⟩
  | cut hn hall =>
    exact ⟨k, Nat.le_refl k, rfl, hn, fun j h0 hj => hall j h0 (Nat.le_of_lt hj), .inr (.inl rfl)⟩
  | whole hw hlt hall =>
    subst hw
    exact ⟨p.length, Nat.le_of_lt hlt, (List.take_length ..).symm, Nat.le_refl p.length,
      fun j h0 hj => hall j h0 (Nat.le_of_lt hj), .inr (.inr (Nat.not_succ_le_self _))⟩

theorem Selects.eq (hp : course.Selects collides k p) (hq : course.Selects collides k q) :
    p = q := by
  obtain ⟨n, hnk, rfl, hn, hall, hstop⟩ := hp.exists_length
  obtain ⟨n', hnk', rfl, hn', hall', hstop'⟩ := hq.exists_length
  have hnot : ∀ {i j : Nat}, course.Reaches j → (∀ l, 0 < l → l < j → collides (course.take l)) →
      j ≤ k → ((0 < i ∧ ¬collides (course.take i)) ∨ i = k ∨ ¬course.Reaches (i + 1)) → ¬i < j := by
    rintro i j hj hall hjk (⟨hpos, hc⟩ | rfl | hend) hij
    · exact hc (hall i hpos hij)
    · omega
    · exact hend (hj.mono hij)
  obtain rfl : n = n' := Nat.le_antisymm (Nat.le_of_not_lt (hnot hn hall hnk hstop'))
    (Nat.le_of_not_lt (hnot hn' hall' hnk' hstop))
  rfl

private theorem existsUnique_selects (collides : CategoryPath → Prop) (k : Nat) (course : Course) :
    ∃! p, course.Selects collides k p := by
  refine existsUnique_of_exists_of_unique ?_ fun p q => Selects.eq
  by_cases hfirst : ∃ n, 0 < n ∧ n ≤ k ∧ course.Reaches n ∧ ¬collides (course.take n)
  · classical
    obtain ⟨hpos, hk, hn, hc⟩ := Nat.find_spec hfirst
    refine ⟨_, .apart hpos hk hn hc fun j h0 hj => ?_⟩
    by_contra hno
    exact Nat.find_min hfirst hj ⟨h0, (Nat.le_of_lt hj).trans hk, hn.mono (Nat.le_of_lt hj), hno⟩
  · have hall : ∀ j, 0 < j → j ≤ k → course.Reaches j → collides (course.take j) := by
      intro j h0 hj hr
      by_contra hno
      exact hfirst ⟨j, h0, hj, hr, hno⟩
    by_cases hreach : course.Reaches k
    · exact ⟨_, .cut hreach fun j h0 hj => hall j h0 hj (hreach.mono hj)⟩
    · cases course with
      | ending w =>
        have hlt : w.length < k := Nat.lt_of_not_le hreach
        exact ⟨w, .whole rfl hlt fun j h0 hj => hall j h0 (hj.trans (Nat.le_of_lt hlt)) hj⟩
      | endless w => exact absurd trivial hreach

end Course

namespace Branch

variable {g : Grammar} {m : TokenModel} {branches : List Branch} {i k : Nat} {b : Branch}
  {p : CategoryPath}

/-- The alternatives of a decision, in a grammar in which no way through them gets stuck. -/
structure Live (g : Grammar) (m : TokenModel) (branches : List Branch) : Prop where
  model : m.WellFormed
  grounded : g.Grounded
  moves : g.Moves
  stack : ∀ b ∈ branches, ∀ p ∈ b.stack, p.Grounded g
  lt_size : ∀ b ∈ branches, ∀ w e, Expands g b.stack w e → ∀ c ∈ w, c < m.size

theorem Live.exists_course (h : Live g m branches) (hb : branches[i]? = some b)
    (hp : Expands g b.stack p false) :
    ∃ course : Course, course.IsOf g b.stack ∧ course.Reaches p.length
      ∧ course.take p.length = p :=
  Course.exists_isOf_of_expands h.grounded h.moves (h.stack b (List.mem_of_getElem? hb)) hp

/-- Courses collide as the ways do that they begin with. -/
theorem Live.colliding_iff (h : Live g m branches) (hb : branches[i]? = some b)
    (hp : Expands g b.stack p false) :
    Colliding g m branches i p ↔ Collides g m branches i p := by
  have hsize := h.lt_size b (List.mem_of_getElem? hb) p false hp
  constructor
  · rintro ⟨b₁, j, b', course, hb₁, hgate, hj, hb', hgate', hcourse, hreach, hmeet⟩
    obtain rfl : b = b₁ := Option.some.inj (hb.symm.trans hb₁)
    have hq := hcourse.expands hreach
    have hlen := Course.length_take hreach
    have hqsize := h.lt_size b' (List.mem_of_getElem? hb') _ false hq
    exact ⟨⟨b, hb, hgate, hp⟩, j, _, hj, ⟨b', hb', hgate', hq⟩, hlen,
      (h.model.meet_iff hsize hqsize hlen).mp hmeet⟩
  · rintro ⟨⟨b₁, hb₁, hgate, -⟩, j, q, hj, ⟨b', hb', hgate', hq⟩, hlen, hc⟩
    obtain rfl : b = b₁ := Option.some.inj (hb.symm.trans hb₁)
    obtain ⟨course, hcourse, hreach, htake⟩ := h.exists_course hb' hq
    have hqsize := h.lt_size b' (List.mem_of_getElem? hb') q false hq
    rw [hlen] at hreach htake
    exact ⟨b, j, b', course, hb, hgate, hj, hb', hgate', hcourse, hreach,
      htake ▸ (h.model.meet_iff hsize hqsize hlen).mpr hc⟩

private theorem Live.colliding_take (h : Live g m branches) (hb : branches[i]? = some b)
    {course : Course} (hcourse : course.IsOf g b.stack) {n j : Nat} (hn : course.Reaches n)
    (hc : Contested g m branches i (course.take n)) (h0 : 0 < j) (hj : j ≤ n) :
    Colliding g m branches i (course.take j) := by
  have hprefix : course.take j <+: course.take n := by
    rw [← Course.take_take hj]
    exact List.take_prefix j _
  refine (h.colliding_iff hb (hcourse.expands (hn.mono hj))).mpr
    ((hc.of_isPrefix hprefix).resolve_left ?_)
  have hlen := Course.length_take (hn.mono hj)
  exact List.ne_nil_of_length_pos (h0.trans_eq hlen.symm)

private theorem Live.contested_take (h : Live g m branches) (hb : branches[i]? = some b)
    {course : Course} (hcourse : course.IsOf g b.stack) {n : Nat} (hn : course.Reaches n)
    (hc : 0 < n → Colliding g m branches i (course.take n)) :
    Contested g m branches i (course.take n) := by
  rcases Nat.eq_zero_or_pos n with rfl | h0
  · exact .inl (List.length_eq_zero_iff.mp (Course.length_take hn))
  · exact .inr ((h.colliding_iff hb (hcourse.expands hn)).mp (hc h0))

private theorem Live.exists_selects (h : Live g m branches) (hb : branches[i]? = some b)
    (hp : Stores g m branches i b.stack k true p) :
    ∃ course : Course, course.IsOf g b.stack
      ∧ course.Selects (Colliding g m branches i) k p := by
  cases hp with
  | ended hw hd hc =>
    obtain ⟨s', hway, -, hend⟩ :=
      hw.exists_way h.grounded (h.stack b (List.mem_of_getElem? hb))
    obtain rfl := hend rfl
    have hcourse : (Course.ending p).IsOf g b.stack := hway
    have htake : (Course.ending p).take p.length = p := List.take_length ..
    exact ⟨.ending p, hcourse, .whole rfl hd fun j h0 hj =>
      h.colliding_take hb hcourse (Nat.le_refl p.length) (htake.symm ▸ hc) h0 hj⟩
  | @apart w c hw hd hc hn =>
    obtain ⟨course, hcourse, hreach, htake⟩ := h.exists_course hb hw
    have hle : w.length ≤ (w ++ [c]).length := by simp
    have hcontested : Contested g m branches i (course.take w.length) := by
      rwa [← Course.take_take hle, htake, List.take_left' rfl]
    have hsel : course.Selects (Colliding g m branches i) k (course.take (w ++ [c]).length) := by
      refine .apart (by simp) (by simpa using Nat.succ_le_of_lt hd) hreach ?_ fun j h0 hj => ?_
      · rwa [htake, h.colliding_iff hb hw]
      · rw [List.length_append, List.length_singleton] at hj
        exact h.colliding_take hb hcourse (hreach.mono hle) hcontested h0 (Nat.le_of_lt_succ hj)
    exact ⟨course, hcourse, htake ▸ hsel⟩
  | cut hw _ hd hc =>
    obtain ⟨course, hcourse, hreach, htake⟩ := h.exists_course hb hw
    rw [hd] at hreach htake
    have hsel : course.Selects (Colliding g m branches i) k (course.take k) :=
      .cut hreach fun j h0 hj => h.colliding_take hb hcourse hreach (htake.symm ▸ .inr hc) h0 hj
    exact ⟨course, hcourse, htake ▸ hsel⟩

private theorem Live.stores_of_selects (h : Live g m branches) (hb : branches[i]? = some b)
    (hk : 0 < k) {course : Course} (hcourse : course.IsOf g b.stack)
    (hsel : course.Selects (Colliding g m branches i) k p) :
    Stores g m branches i b.stack k true p := by
  have hcol := fun {n} (hn : course.Reaches n) => h.colliding_iff hb (hcourse.expands hn)
  cases hsel with
  | @apart n hpos hle hn hc hall =>
    have hlen := Course.length_take hn
    obtain ⟨v, c, hv⟩ := (List.eq_nil_or_concat' (course.take n)).resolve_left
      (List.ne_nil_of_length_pos (hpos.trans_eq hlen.symm))
    have hvlen : v.length + 1 = n := by simpa [hv] using hlen
    have htake : course.take v.length = v := by
      rw [← Course.take_take (Nat.le_of_lt (Nat.lt_of_succ_le (Nat.le_of_eq hvlen))), hv,
        List.take_left' rfl]
    have hlt : v.length < n := by omega
    have hcontested : Contested g m branches i v := htake ▸ h.contested_take hb hcourse
      (hn.mono (Nat.le_of_lt hlt)) fun h0 => hall v.length h0 hlt
    have hexp := hcourse.expands hn
    rw [hcol hn] at hc
    rw [hv] at hexp hc ⊢
    exact .apart hexp (by omega) hcontested hc
  | cut hn hall =>
    exact .cut (hcourse.expands hn) rfl (Course.length_take hn)
      ((hcol hn).mp (hall k hk (Nat.le_refl k)))
  | whole hw hlt hall =>
    subst hw
    have hn : (Course.ending p).Reaches p.length := Nat.le_refl p.length
    have htake : (Course.ending p).take p.length = p := List.take_length ..
    have hcontested := h.contested_take hb hcourse hn fun h0 => hall p.length h0 (Nat.le_refl _)
    rw [htake] at hcontested
    exact .ended (Way.expands hcourse fun _ => rfl) hlt hcontested

end Branch

namespace Grammar

variable {rules : List Production} {m : TokenModel} {k : Nat} {a : AnalyzedGrammar} {r : RuleId}
  {p : Production} {place : Place} {kind : DecisionKind} {idx : Nat} {branches : List Branch}

private theorem grounded_of_analyze (hrules : ∀ q ∈ rules, q.phrase.HasBranches)
    (h : (ofList rules).analyze m k = .ok a) {q : Production}
    (hq : q ∈ (ofList rules).productions) : q.phrase.Grounded (ofList rules) := by
  refine ⟨hrules q (by simpa [ofList] using hq), fun name idx hc => ?_⟩
  obtain ⟨i, hi⟩ := exists_ruleId?_of_formalDefect? (analyze_eq_ok h).1 hq hc
  obtain ⟨q, -, hq⟩ := phrase?_of_ruleId? hi
  exact ⟨q.phrase, hq⟩

private theorem live_of_analyze (hm : m.Built) (hrules : ∀ q ∈ rules, q.phrase.HasBranches)
    (h : (ofList rules).analyze m k = .ok a) (hp : (ofList rules).productions[r]? = some p)
    (hplace : place ∈ p.phrase.places []) (hb : place.branches? = some (kind, idx, branches)) :
    Branch.Live (ofList rules) m branches := by
  have hground : (ofList rules).Grounded := by
    intro name q hq
    obtain ⟨i, production, -, hi, rfl⟩ := exists_of_phrase? hq
    exact grounded_of_analyze hrules h (Array.mem_of_getElem? hi)
  exact {
    model := hm.wellFormed
    grounded := hground
    moves := fun name q => moves_of_leftCycle? hground (leftCycle?_of_analyze h)
    stack := (Phrase.Hereditary.grounded _).of_branches?
      (grounded_of_analyze hrules h (Array.mem_of_getElem? hp)) hplace hb
    lt_size := fun b hmem w e => lt_size_of_expands h hp hplace hb hmem }

/-- The table of a decision for which the path limit was not reported holds, for every alternative
and without repetition, exactly the paths that the courses of the alternative select, each course
one. -/
theorem paths_eq_selected (hm : m.Built) (hrules : ∀ q ∈ rules, q.phrase.HasBranches) (hk : 1 ≤ k)
    (h : (ofList rules).analyze m k = .ok a) (hp : (ofList rules).productions[r]? = some p)
    (hplace : place ∈ p.phrase.places []) (hb : place.branches? = some (kind, idx, branches))
    (hlimit : ∀ x ∈ a.ambiguities, x.key = ⟨p.name, kind, idx⟩ → x.finding.kind ≠ .pathLimit) :
    ∃ d, (a.rules[r]?.bind (·.decision? kind idx)) = some d
      ∧ d.alternatives.length = branches.length
      ∧ ∀ (i : Nat) (b : Branch), branches[i]? = some b → ∃ alt, d.alternatives[i]? = some alt
        ∧ alt.gated = b.gated ∧ alt.paths.Nodup
        ∧ (∀ path, path ∈ alt.paths ↔ ∃ course : Course, course.IsOf (ofList rules) b.stack
          ∧ course.Selects (Branch.Colliding (ofList rules) m branches i) k path)
        ∧ ∀ course : Course, course.IsOf (ofList rules) b.stack →
          ∃! path, course.Selects (Branch.Colliding (ofList rules) m branches i) k path := by
  have hlive := live_of_analyze hm hrules h hp hplace hb
  have hnot : ¬Branch.HitsLimit (ofList rules) m branches (max k 1) := by
    intro hhit
    obtain ⟨f, hf, hkind⟩ := (Decision.exists_pathLimit_iff kind idx).mpr hhit
    obtain ⟨x, hx, hkey, rfl⟩ := mem_ambiguities h hp hplace hb hf
    exact hlimit x hx hkey hkind
  refine ⟨_, decision?_of_mem_places h hp hplace hb, Decision.length_alternatives_build,
    fun i b hi => ?_⟩
  obtain ⟨alt, halt, hgate, hnodup, hpaths⟩ := Decision.exists_alternative_of_build hnot hi
  refine ⟨alt, halt, hgate, hnodup, fun path => ?_, fun course _ =>
    Course.existsUnique_selects _ k course⟩
  rw [hpaths, Nat.max_eq_left hk]
  constructor
  · exact hlive.exists_selects hi
  · rintro ⟨course, hcourse, hsel⟩
    exact hlive.stores_of_selects hi hk hcourse hsel

/-! ## A fork behind a common token -/

def forkBranch (k : Fin 3) : Phrase :=
  if k.val = 0 then .terminal 1 1 (.terminal 2 1 .nil)
  else if k.val = 1 then .terminal 1 2 (.terminal 3 1 .nil)
  else .terminal 4 1 .nil

def forkRule : Production := ⟨"r", .choice 1 (fun _ => false) forkBranch .nil⟩

def forkModel : TokenModel :=
  ["A", "B", "C", "D"].foldl (fun m name => (m.define name none (.literal name) .normal).2) .empty

private theorem built_forkModel : forkModel.Built :=
  .define _ _ _ _ (.define _ _ _ _ (.define _ _ _ _ (.define _ _ _ _ (.tagged 0))))

def forkAnalysis : AnalyzedGrammar :=
  ((ofList [forkRule]).analyze forkModel 3).toOption.getD ⟨0, #[], []⟩

set_option maxRecDepth 4000 in
theorem analyze_forkRule : (ofList [forkRule]).analyze forkModel 3 = .ok forkAnalysis := by cbv

set_option maxRecDepth 4000 in
private theorem ambiguities_forkAnalysis : forkAnalysis.ambiguities = [] := by cbv

set_option maxRecDepth 4000 in
private theorem alternatives_forkAnalysis :
    (forkAnalysis.rules[0]?.bind (·.decision? .or 1)).map (·.alternatives)
      = some [⟨[[1, 2]], false⟩, ⟨[[1, 3]], false⟩, ⟨[[4]], false⟩] := by cbv

/-- The first branch is recognized by two tokens, since the first one can begin the second branch,
too. -/
theorem paths_eq_selected_forkRule : forkModel.Built ∧ (∀ q ∈ [forkRule], q.phrase.HasBranches)
    ∧ (ofList [forkRule]).analyze forkModel 3 = .ok forkAnalysis
    ∧ (∀ x ∈ forkAnalysis.ambiguities, x.key = ⟨"r", .or, 1⟩ → x.finding.kind ≠ .pathLimit)
    ∧ ∀ path, path = [1, 2] ↔ ∃ course : Course,
      course.IsOf (ofList [forkRule]) [forkBranch 0, .nil]
        ∧ course.Selects (Branch.Colliding (ofList [forkRule]) forkModel
          [⟨[forkBranch 0, .nil], false⟩, ⟨[forkBranch 1, .nil], false⟩,
            ⟨[forkBranch 2, .nil], false⟩] 0) 3 path := by
  have hrules : ∀ q ∈ [forkRule], q.phrase.HasBranches := by
    simp [forkRule, Phrase.HasBranches, forkBranch, Fin.forall_fin_succ]
  have hlimit : ∀ x ∈ forkAnalysis.ambiguities, x.key = ⟨"r", .or, 1⟩ →
      x.finding.kind ≠ .pathLimit := by simp [ambiguities_forkAnalysis]
  have hrule : (ofList [forkRule]).productions[0]? = some forkRule := rfl
  have hplace : ⟨forkRule.phrase, [.rest .nil]⟩ ∈ forkRule.phrase.places [] := List.mem_cons_self
  obtain ⟨d, hd, -, halts⟩ := paths_eq_selected built_forkModel hrules (by decide)
    analyze_forkRule hrule hplace rfl hlimit
  obtain ⟨alt, halt, -, -, hpaths, -⟩ := halts 0 _ rfl
  have hstored := alternatives_forkAnalysis
  rw [hd, Option.map_some, Option.some.injEq] at hstored
  rw [hstored] at halt
  obtain rfl : _ = alt := Option.some.inj halt
  refine ⟨built_forkModel, hrules, analyze_forkRule, hlimit, fun path => ?_⟩
  rw [← List.mem_singleton]
  exact hpaths path

end Grammar

end PredictiveParsing
