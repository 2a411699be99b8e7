import PredictiveParsing.Proofs.Grammar.Following
import PredictiveParsing.Proofs.Lookahead.Runs
import PredictiveParsing.Proofs.Lookahead.Table

/-!
# The first token of a way

A way through a stack of phrases starts with a category that the stack can start with, and whatever
is derived starts a way. Where no two alternatives of a decision can start with the same token, the
paths of an alternative are the categories that it can start with.
-/

namespace PredictiveParsing

/-- Every choice has a branch, every rule that is called exists, and the end of the input is no
token. -/
def Phrase.Sound (g : Grammar) : Phrase → Prop
  | nil => True
  | terminal c _ rest => c ≠ CategoryId.eof ∧ rest.Sound g
  | call r _ rest => (∃ p, g.phrase? r = some p) ∧ rest.Sound g
  | option _ body rest => body.Sound g ∧ rest.Sound g
  | repetition _ _ body rest => body.Sound g ∧ rest.Sound g
  | choice (n := n) _ _ body rest => (n ≠ 0 ∧ ∀ k, (body k).Sound g) ∧ rest.Sound g

theorem Phrase.sound_of_hasBranches {g : Grammar} {p : Phrase} (hb : p.HasBranches)
    (hc : ∀ name idx, (Occurrence.call name, idx) ∈ p.occurrences → ∃ q, g.phrase? name = some q)
    (he : ¬p.Consumes CategoryId.eof) : p.Sound g := by
  induction p with
  | nil => trivial
  | terminal c i rest ih =>
    rw [consumes_terminal, not_or] at he
    exact ⟨Ne.symm he.1, ih hb (fun name idx h => hc name idx (List.mem_cons_of_mem _ h)) he.2⟩
  | call r i rest ih =>
    rw [consumes_call] at he
    exact ⟨hc r i List.mem_cons_self,
      ih hb (fun name idx h => hc name idx (List.mem_cons_of_mem _ h)) he⟩
  | option i body rest ihb ih =>
    rw [consumes_option, not_or] at he
    exact ⟨ihb hb.1 (fun name idx h => hc name idx (by simp [occurrences, h])) he.1,
      ih hb.2 (fun name idx h => hc name idx (by simp [occurrences, h])) he.2⟩
  | repetition i b body rest ihb ih =>
    rw [consumes_repetition, not_or] at he
    exact ⟨ihb hb.1 (fun name idx h => hc name idx (by simp [occurrences, h])) he.1,
      ih hb.2 (fun name idx h => hc name idx (by simp [occurrences, h])) he.2⟩
  | choice i gated body rest ihb ih =>
    rw [consumes_choice, not_or, not_exists] at he
    refine ⟨⟨hb.1.1, fun k => ihb k (hb.1.2 k) (fun name idx h => hc name idx ?_) (he.1 k)⟩,
      ih hb.2 (fun name idx h => hc name idx (by simp [occurrences, h])) he.2⟩
    simp only [occurrences, List.mem_cons, List.mem_append, List.mem_flatten, List.mem_ofFn]
    exact .inr (.inl ⟨_, ⟨k, rfl⟩, h⟩)

theorem Phrase.Hereditary.sound (g : Grammar) : Hereditary (Phrase.Sound g) where
  terminal h := h.2
  call h := h.2
  option h := h
  repetition h := h
  choice h := ⟨h.1.2, h.2⟩

def Grammar.Sound (g : Grammar) : Prop := ∀ name p, g.phrase? name = some p → p.Sound g

namespace Frame

variable {nullable : String → Bool} {f : String → CategorySet} {after : List Frame} {c : CategoryId}

theorem mem_first_rest {p : Phrase} : c ∈ first nullable f (.rest p :: after) ↔
    c ∈ p.first nullable f ∨ (p.isNullable nullable = true ∧ c ∈ first nullable f after) := by
  simp only [first]
  split
  · rename_i h
    rw [CategorySet.mem_union, and_iff_right h]
  · rename_i h
    rw [or_iff_left fun hc => h hc.1]

theorem mem_first_again {body : Phrase} : c ∈ first nullable f (.again body :: after) ↔
    c ∈ body.first nullable f ∨ c ∈ first nullable f after := CategorySet.mem_union

theorem reachesEnd_rest {p : Phrase} : reachesEnd nullable (.rest p :: after) = true ↔
    p.isNullable nullable = true ∧ reachesEnd nullable after = true := by
  rw [reachesEnd, Bool.and_eq_true]

/-- Without the further rounds less can come next. -/
theorem mem_first_of_phrases (h : c ∈ first nullable f ((phrases after).map .rest)) :
    c ∈ first nullable f after := by
  induction after with
  | nil => exact h
  | cons x after ih =>
    cases x with
    | rest p => exact mem_first_rest.2 ((mem_first_rest.1 h).imp_right (And.imp_right ih))
    | again body => exact mem_first_again.2 (.inr (ih h))

end Frame

namespace Expands

variable {g : Grammar} {stack : List Phrase} {w : CategoryPath} {e : Bool}

/-- What is first on a way, or the end of it, is what the facts about the rules say. -/
theorem starts (hg : g.Sound) (h : Expands g stack w e) (hs : ∀ p ∈ stack, p.Sound g) :
    (∀ c v, w = c :: v → c ≠ CategoryId.eof
        ∧ c ∈ Frame.first (RuleFacts.ofGrammar g).isNullable (RuleFacts.ofGrammar g).firstOf
          (stack.map .rest))
      ∧ (w = [] → e = true →
        Frame.reachesEnd (RuleFacts.ofGrammar g).isNullable (stack.map .rest) = true) := by
  induction h with
  | cut => simp
  | done => simp [Frame.reachesEnd]
  | nil h ih =>
    obtain ⟨hf, he⟩ := ih (List.forall_mem_cons.1 hs).2
    refine ⟨fun c v hw => ⟨(hf c v hw).1, Frame.mem_first_rest.2 (.inr ⟨rfl, (hf c v hw).2⟩)⟩, ?_⟩
    exact fun hw hend => Frame.reachesEnd_rest.2 ⟨rfl, he hw hend⟩
  | terminal h ih =>
    refine ⟨?_, nofun⟩
    rintro c v ⟨⟩
    have hp := (List.forall_mem_cons.1 hs).1
    exact ⟨hp.1, Frame.mem_first_rest.2 (.inl (Phrase.mem_first_terminal.2 rfl))⟩
  | @call r i p rest stack w e hp h ih =>
    obtain ⟨hcall, hs⟩ := List.forall_mem_cons.1 hs
    obtain ⟨hf, he⟩ := ih (List.forall_mem_cons.2 ⟨hg r p hp, List.forall_mem_cons.2 ⟨hcall.2, hs⟩⟩)
    simp only [List.map_cons, Frame.mem_first_rest, Frame.reachesEnd_rest, Phrase.mem_first_call,
      Phrase.isNullable, Bool.and_eq_true, RuleFacts.isNullable_eq hp, RuleFacts.firstOf_eq hp]
      at hf he ⊢
    grind
  | undefined hp =>
    obtain ⟨⟨p, hp'⟩, -⟩ := (List.forall_mem_cons.1 hs).1
    rw [hp] at hp'
    cases hp'
  | skip h ih =>
    obtain ⟨hp, hs⟩ := List.forall_mem_cons.1 hs
    obtain ⟨hf, he⟩ := ih (List.forall_mem_cons.2 ⟨hp.2, hs⟩)
    simp only [List.map_cons, Frame.mem_first_rest, Frame.reachesEnd_rest, Phrase.mem_first_option,
      Phrase.isNullable] at hf he ⊢
    grind
  | take h ih =>
    obtain ⟨hp, hs⟩ := List.forall_mem_cons.1 hs
    obtain ⟨hf, he⟩ := ih (List.forall_mem_cons.2 ⟨hp.1, List.forall_mem_cons.2 ⟨hp.2, hs⟩⟩)
    simp only [List.map_cons, Frame.mem_first_rest, Frame.reachesEnd_rest, Phrase.mem_first_option,
      Phrase.isNullable] at hf he ⊢
    grind
  | pass h ih =>
    obtain ⟨hp, hs⟩ := List.forall_mem_cons.1 hs
    obtain ⟨hf, he⟩ := ih (List.forall_mem_cons.2 ⟨hp.2, hs⟩)
    simp only [List.map_cons, Frame.mem_first_rest, Frame.reachesEnd_rest,
      Phrase.mem_first_repetition, Phrase.isNullable] at hf he ⊢
    grind
  | enter h ih =>
    obtain ⟨hp, hs⟩ := List.forall_mem_cons.1 hs
    obtain ⟨hf, he⟩ := ih (List.forall_mem_cons.2 ⟨hp.1, List.forall_mem_cons.2 ⟨hp.2, hs⟩⟩)
    simp only [List.map_cons, Frame.mem_first_rest, Frame.reachesEnd_rest,
      Phrase.mem_first_repetition, Phrase.isNullable] at hf he ⊢
    grind
  | choose k h ih =>
    obtain ⟨hp, hs⟩ := List.forall_mem_cons.1 hs
    obtain ⟨hf, he⟩ := ih (List.forall_mem_cons.2 ⟨hp.1.2 k, List.forall_mem_cons.2 ⟨hp.2, hs⟩⟩)
    simp only [List.map_cons, Frame.mem_first_rest, Frame.reachesEnd_rest,
      Phrase.mem_first_choice, Phrase.isNullable, Phrase.any_ofFn, Bool.and_eq_true] at hf he ⊢
    grind
  | none h ih => exact absurd rfl (List.forall_mem_cons.1 hs).1.1.1

end Expands

/-- In front of a stack the phrases can be passed over where the word is empty, and otherwise start
a way with its first category. -/
structure Begins (g : Grammar) (front stack : List Phrase) (w : List CategoryId) : Prop where
  pass : w = [] → ∀ v e, Expands g stack v e → Expands g (front ++ stack) v e
  start (c : CategoryId) (v : List CategoryId) : w = c :: v → Expands g (front ++ stack) [c] false

namespace Begins

variable {g : Grammar} {front stack : List Phrase} {p rest : Phrase} {v w : List CategoryId}

theorem mono {front' : List Phrase} (h : Begins g front stack w)
    (hf : ∀ v e, Expands g (front ++ stack) v e → Expands g (front' ++ stack) v e) :
    Begins g front' stack w where
  pass hw v e hv := hf v e (h.pass hw v e hv)
  start c v hw := hf [c] false (h.start c v hw)

theorem append (hv : Begins g [p] (rest :: stack) v) (hw : Begins g [rest] stack w) :
    Begins g [p, rest] stack (v ++ w) where
  pass h u e hu := hv.pass (List.append_eq_nil_iff.1 h).1 u e
    (hw.pass (List.append_eq_nil_iff.1 h).2 u e hu)
  start c u h := by
    rcases List.append_eq_cons_iff.1 h with ⟨rfl, rfl⟩ | ⟨v, rfl, -⟩
    · exact hv.pass rfl [c] false (hw.start c u rfl)
    · exact hv.start c v rfl

end Begins

/-- Whatever is derived begins a way. -/
theorem Phrase.Derives.begins {g : Grammar} {d : Nat} {p : Phrase} {w : List CategoryId}
    (h : p.Derives g d w) (stack : List Phrase) : Begins g [p] stack w := by
  induction h generalizing stack with
  | nil => exact ⟨fun _ v e h => .nil h, nofun⟩
  | terminal hw ih =>
    refine ⟨nofun, ?_⟩
    rintro c v ⟨⟩
    exact .terminal .cut
  | @call d r i rest p v w hp hv hw ihv ihw =>
    exact ((ihv (rest :: stack)).append (ihw stack)).mono fun u e hu => .call hp hu
  | skip hw ih => exact (ih stack).mono fun u e hu => .skip hu
  | @take d i body rest v w hv hw ihv ihw =>
    exact ((ihv (rest :: stack)).append (ihw stack)).mono fun u e hu => .take hu
  | @repetition d i b body rest w vs hn hv hw ihv ihw =>
    cases vs with
    | nil =>
      obtain rfl : b = false := Bool.eq_false_iff.2 fun hb => hn hb rfl
      exact (ihw stack).mono fun u e hu => .pass hu
    | cons v vs =>
      cases hflat : (v :: vs).flatten with
      | nil =>
        obtain rfl : v = [] := List.flatten_eq_nil_iff.1 hflat v List.mem_cons_self
        have hbody := ihv [] List.mem_cons_self (rest :: stack)
        exact (hbody.append (ihw stack)).mono fun u e hu => .enter hu
      | cons c u =>
        -- the first round that consumes anything can also be the first one
        obtain ⟨v', hv', u', rfl⟩ : ∃ v' ∈ v :: vs, ∃ u', v' = c :: u' := by
          obtain ⟨earlier, u', later, hvs, -, -⟩ := List.flatten_eq_cons_iff.1 hflat
          exact ⟨_, by simp [hvs], u', rfl⟩
        refine ⟨nofun, fun c' u'' h => ?_⟩
        obtain ⟨rfl, -⟩ := List.cons.inj h
        exact .enter ((ihv _ hv' (rest :: stack)).start _ u' rfl)
  | @choice d n i rest v w gated body k hv hw ihv ihw =>
    exact ((ihv (rest :: stack)).append (ihw stack)).mono fun u e hu => .choose k hu

namespace Phrase.Derives

variable {g : Grammar} {d : Nat} {p : Phrase}

theorem mem_first (hg : g.Sound) (hp : p.Sound g) {c : CategoryId} {w : List CategoryId}
    (h : p.Derives g d (c :: w)) :
    c ∈ p.first (RuleFacts.ofGrammar g).isNullable (RuleFacts.ofGrammar g).firstOf := by
  have hf := (((h.begins []).start c w rfl).starts hg (by simpa using hp)).1 c [] rfl
  rcases Frame.mem_first_rest.1 hf.2 with hf | ⟨-, hf⟩
  · exact hf
  · exact absurd hf (CategorySet.not_mem_empty c)

theorem isNullable (hg : g.Sound) (hp : p.Sound g) (h : p.Derives g d []) :
    p.isNullable (RuleFacts.ofGrammar g).isNullable = true := by
  have he := (((h.begins []).pass rfl [] true .done).starts hg (by simpa using hp)).2 rfl rfl
  exact (Frame.reachesEnd_rest.1 he).1

theorem ne_nil (hg : g.Sound) (hp : p.Sound g)
    (hn : p.isNullable (RuleFacts.ofGrammar g).isNullable = false) {w : List CategoryId}
    (h : p.Derives g d w) : w ≠ [] := by
  rintro rfl
  rw [h.isNullable hg hp] at hn
  cases hn

end Phrase.Derives

/-! ## Tables of one category on a path -/

/-- No two of the alternatives can start with the same token. -/
def Branch.Apart (g : Grammar) (m : TokenModel) (branches : List Branch) : Prop :=
  ∀ (i j : Nat) (b b' : Branch), i ≠ j → branches[i]? = some b → branches[j]? = some b' →
    ∀ x y, Expands g b.stack [x] false → Expands g b'.stack [y] false → m.overlaps x y = false

namespace Table

variable {g : Grammar} {m : TokenModel} {branches : List Branch}

theorem getElem?_growths_start {i : Nat} {b : Growth} :
    (start branches).growths[i]? = some b ↔
      ∃ branch, branches[i]? = some branch ∧ ⟨branch, ∅, Std.TreeSet.empty.insert []⟩ = b := by
  rw [start, List.getElem?_map, Option.map_eq_some_iff]

/-- The expansions of the first round. -/
theorem mem_expansions_start {branch : Branch} {row : Row} {e : Expansion}
    (h : Growth.row? g 1 ⟨branch, ∅, Std.TreeSet.empty.insert []⟩ = some row) :
    e ∈ row.expansions ↔ Expands g branch.stack e.path e.ended
      ∧ if e.ended then e.path.length < 1 else e.path.length = 1 := by
  rw [Growth.mem_expansions_of_row? h]
  refine and_iff_left ⟨Nat.le_add_left 1 _, ?_⟩
  simp

variable {rows : List Row}

private theorem exists_branch_of_getElem?_rows
    (h : (start branches).growths.mapM (·.row? g 1) = some rows) {i : Nat} {row : Row}
    (hrow : rows[i]? = some row) :
    ∃ branch, branches[i]? = some branch
      ∧ Growth.row? g 1 ⟨branch, ∅, Std.TreeSet.empty.insert []⟩ = some row := by
  have hall := Outcome.mapM_eq_some.1 h
  obtain ⟨hlt, rfl⟩ := List.getElem?_eq_some_iff.1 hrow
  have hlt' : i < (start branches).growths.length := hall.length_eq.symm ▸ hlt
  obtain ⟨branch, hb, hg⟩ := getElem?_growths_start.1 (List.getElem?_eq_getElem hlt')
  have hget := hall.get hlt' hlt
  simp only [List.get_eq_getElem] at hget
  rw [← hg] at hget
  exact ⟨branch, hb, hget⟩

/-- Alternatives that are apart have no undecided clash in the first round. -/
theorem any_isUndecided_of_apart (ha : Branch.Apart g m branches)
    (h : (start branches).growths.mapM (·.row? g 1) = some rows) {i : Nat} {row : Row}
    (hrow : rows[i]? = some row) {v : Expansion × List Clash}
    (hv : v ∈ row.verdicts m rows.zipIdx i) : v.2.any (·.isUndecided) = false := by
  obtain ⟨e, clashes⟩ := v
  obtain ⟨he, rfl⟩ := Row.mem_verdicts.1 hv
  obtain ⟨b, hb, hrow⟩ := exists_branch_of_getElem?_rows h hrow
  obtain ⟨hexp, hlen⟩ := (mem_expansions_start hrow).1 he
  split
  · rfl
  apply List.any_eq_false.2
  intro c hc
  obtain ⟨⟨other, j⟩, hother, hc⟩ := List.mem_flatMap.1 hc
  simp only at hc
  split at hc
  · cases hc
  · rename_i hne
    rw [Bool.or_eq_true, not_or, decide_eq_true_eq] at hne
    obtain ⟨f, hf, hclash⟩ := List.mem_filterMap.1 hc
    obtain ⟨b', hb', hrow'⟩ :=
      exists_branch_of_getElem?_rows h (List.mem_zipIdx_iff_getElem?.1 hother)
    obtain ⟨hexp', hlen'⟩ := (mem_expansions_start hrow').1 hf
    have hcompatible : e.ended = false → f.ended = false → m.compatible e.path f.path = false := by
      intro hend hend'
      rw [hend] at hexp hlen
      rw [hend'] at hexp' hlen'
      obtain ⟨x, hx⟩ := List.length_eq_one_iff.1 hlen
      obtain ⟨y, hy⟩ := List.length_eq_one_iff.1 hlen'
      rw [hx] at hexp
      rw [hy] at hexp'
      have hxy := ha i j b b' (Ne.symm hne.1) hb hb' x y hexp hexp'
      simp [hx, hy, TokenModel.compatible, hxy]
    rw [TokenModel.clash?] at hclash
    grind [Clash.isUndecided]

private theorem rounds_of_apart (ha : Branch.Apart g m branches) {left : Nat}
    (hf : ∀ f ∈ ((start branches).rounds g m left 1).2.findings, f.kind ≠ .pathLimit) :
    ∃ rows last, (start branches).growths.mapM (·.row? g 1) = some rows
      ∧ ((start branches).rounds g m left 1).2 = (start branches).round g m 1 last := by
  cases left with
  | zero =>
    cases h : (start branches).growths.mapM (·.row? g 1) with
    | none =>
      obtain ⟨-, f, hm, hk⟩ := @round_of_none g m 1 true (start branches) h
      exact absurd hk (hf f hm)
    | some rows => exact ⟨rows, true, rfl, rfl⟩
  | succ left =>
    unfold Table.rounds at hf ⊢
    have hs : ((start branches).round g m 1 false).isSettled = true := by
      cases h : (start branches).growths.mapM (·.row? g 1) with
      | none => exact (round_of_none h).1
      | some rows =>
        apply List.all_eq_true.2
        intro b hb
        obtain ⟨i, hi⟩ := List.getElem?_of_mem hb
        obtain ⟨b₀, row, -, hrow, -, rfl⟩ := exists_of_getElem?_round h hi
        apply Std.TreeSet.isEmpty_iff_forall_not_mem.2
        intro p hp
        obtain ⟨v, hv, hu, -⟩ := Growth.mem_active_sortOut.1 hp
        rw [any_isUndecided_of_apart ha h hrow hv] at hu
        cases hu
    simp only [hs, if_true] at hf ⊢
    cases h : (start branches).growths.mapM (·.row? g 1) with
    | none =>
      obtain ⟨-, f, hm, hk⟩ := @round_of_none g m 1 false (start branches) h
      exact absurd hk (hf f hm)
    | some rows => exact ⟨rows, false, rfl, rfl⟩

end Table

namespace Decision

variable {g : Grammar} {m : TokenModel} {k idx : Nat} {kind : DecisionKind} {branches : List Branch}

/-- The paths of alternatives that are apart are what the alternatives can start with, and the empty
path if the rule can end. -/
theorem exists_mem_paths_iff_of_apart (ha : Branch.Apart g m branches)
    (hf : ∀ f ∈ (build g m k kind idx branches).2, f.kind ≠ .pathLimit) {i : Nat} {b : Branch}
    (hb : branches[i]? = some b) :
    ∃ a, (build g m k kind idx branches).1.alternatives[i]? = some a ∧
      ∀ path, path ∈ a.paths ↔ ∃ e, Expands g b.stack path e
        ∧ if e then path.length < 1 else path.length = 1 := by
  obtain ⟨rows, last, hrows, hround⟩ := Table.rounds_of_apart ha hf
  have hlt : i < (Table.start branches).growths.length := by
    simpa [Table.start] using (List.getElem?_eq_some_iff.1 hb).1
  obtain ⟨growth, hg⟩ :
      ∃ growth, ((Table.start branches).round g m 1 last).growths[i]? = some growth := by
    refine ⟨_, List.getElem?_eq_getElem ?_⟩
    have hl := congrArg List.length (@Table.map_branch_round g m 1 last (Table.start branches))
    simp only [List.length_map] at hl
    exact hl.symm ▸ hlt
  obtain ⟨b₀, row, hb₀, hrow, hexp, rfl⟩ := Table.exists_of_getElem?_round hrows hg
  obtain ⟨b', hb', rfl⟩ := Table.getElem?_growths_start.1 hb₀
  obtain rfl : b = b' := Option.some.inj (hb.symm.trans hb')
  refine ⟨⟨_, b.gated⟩, by simp only [build, hround, List.getElem?_map, hg]; rfl, fun path => ?_⟩
  rw [Std.TreeSet.mem_toList, Growth.mem_settled_sortOut,
    or_iff_right (Std.TreeSet.not_mem_emptyc)]
  constructor
  · rintro ⟨⟨e, clashes⟩, hv, -, rfl⟩
    exact ⟨e.ended, (Table.mem_expansions_start hexp).1 (Row.mem_verdicts.1 hv).1⟩
  · rintro ⟨e, he⟩
    have hv : ((⟨path, e⟩ : Expansion), _) ∈ row.verdicts m rows.zipIdx i :=
      Row.mem_verdicts.2 ⟨(Table.mem_expansions_start hexp).2 he, rfl⟩
    exact ⟨_, hv, by rw [Table.any_isUndecided_of_apart ha hrows hrow hv]; rfl, rfl⟩

end Decision

end PredictiveParsing
