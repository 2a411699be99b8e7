import PredictiveParsing.Lexing.Tokenizer
import PredictiveParsing.Proofs.Leading.OrdinaryPieces
import PredictiveParsing.Proofs.Token.Consistency

/-!
# Exact scans

The scan of a pattern takes an ordinary pattern for what it is, by induction over its branches: the
set has the characters of the expressions that the pattern can begin with, and no others. Where the
scan does not know how quantifiers follow one another there is no answer.
-/

namespace PredictiveParsing

namespace Leading

open Unicode

/-! ## Sequences of expressions -/

namespace First

@[simp] theorem epsilon_followedBy (f : First) : epsilon.followedBy f = f := by
  simp [epsilon, followedBy, LeadingSet.union, LeadingSet.empty]

private theorem followedBy_epsilon (f : First) : f.followedBy epsilon = f := by
  obtain ⟨s, nullable⟩ := f
  cases nullable <;> simp [epsilon, followedBy, LeadingSet.union, LeadingSet.empty]

private theorem followedBy_assoc (f g h : First) :
    (f.followedBy g).followedBy h = f.followedBy (g.followedBy h) := by
  obtain ⟨s, nullable⟩ := f
  obtain ⟨t, nullable'⟩ := g
  cases nullable <;> cases nullable' <;>
    simp [followedBy, LeadingSet.union, BitVec.or_assoc, Bool.or_assoc]

/-- A piece with quantifiers of which one may allow no round at all. -/
def orNone (f : First) (zero : Bool) : First := if zero then { f with nullable := true } else f

end First

namespace Ordinary

/-- What the scan has for a pattern, if it knows all quantifiers in it. -/
def first? : {l : Level} → Ordinary l → Option First
  | _, leaf x => some (.of x.set)
  | _, group _ inner => inner.first?
  | _, empty => some .epsilon
  | _, marked a ms _ rest => do
    let f ← a.first?
    if plainlyMarked ms then
      let g ← rest.first?
      return (f.orNone (ms.any (·.quantifier.allowsNone))).followedBy g
    else none
  | _, last b => b.first?
  | _, or b others => do
    let f ← b.first?
    let g ← others.first?
    return f.either g

private theorem exists_text (a : Ordinary .atom) :
    ∃ c tail, a.text = c :: tail ∧ c ∉ outerSigns := by
  cases a with
  | leaf x =>
    obtain ⟨c, tail, heq, hc, -⟩ := scanAtom_leaf x
    exact ⟨c, tail, heq, hc⟩
  | group head inner => exact ⟨'(', _, rfl, by decide⟩

theorem quiet_branch (b : Ordinary .branch) {rest : List Char} (h : Quiet rest) :
    Quiet (b.text ++ rest) := by
  cases b with
  | empty => exact h
  | marked a ms _ b =>
    obtain ⟨c, tail, heq, hc⟩ := a.exists_text
    rw [text, heq]
    rintro _ ⟨⟩ hmem
    exact hc (List.mem_cons_of_mem _ (List.mem_cons_of_mem _ hmem))

private theorem quiet_branches (p : Ordinary .branches) {rest : List Char} (h : Quiet rest) :
    Quiet (p.text ++ rest) := by
  cases p with
  | last b => exact b.quiet_branch h
  | or b others =>
    rw [text, List.append_assoc]
    exact b.quiet_branch (by rintro _ ⟨⟩; decide)

/-- What the scan makes of a pattern with any text behind it that may follow. -/
def Scans : {l : Level} → Ordinary l → Prop
  | .atom, a => ∃ c tail, a.text = c :: tail ∧ c ∉ outerSigns ∧ ∀ fuel rest,
    3 * (tail ++ rest).length + 3 ≤ fuel →
      scanAtom fuel c (tail ++ rest) = a.first?.map (·, rest)
  | .branch, b => ∀ fuel before rest, (∀ c ∈ rest.head?, c = '|' ∨ c = ')') →
    3 * (b.text ++ rest).length + 1 ≤ fuel →
      scanBranch fuel before (b.text ++ rest) = b.first?.map fun f => (before.followedBy f, rest)
  | .branches, p => ∀ fuel rest, (∀ c ∈ rest.head?, c = ')') →
    3 * (p.text ++ rest).length + 2 ≤ fuel →
      scanBranches fuel (p.text ++ rest) = p.first?.map (·, rest)

private theorem skipGroupHead_text (head : GroupHead) {cs : List Char} (h : Quiet cs) :
    skipGroupHead (head.text ++ cs) = some cs := by
  cases head with
  | plain =>
    have hne : ∀ more, cs ≠ '?' :: more := by
      rintro more rfl
      exact h '?' rfl (by decide)
    rw [GroupHead.text, List.nil_append]
    dsimp only [skipGroupHead]
    split
    iterate 4
      · exact absurd rfl (hne _)
    rfl
  | unnamed => rfl
  | named withLetter name hname =>
    have hup : upTo? '>' (name ++ '>' :: cs) = some (name, cs) := upTo?_append hname
    cases withLetter <;> simp [GroupHead.text, skipGroupHead, hup]

private theorem scanBranch_loud {cs : List Char} (h : Loud cs) (fuel : Nat) (before : First) :
    scanBranch fuel before cs = none := by
  obtain ⟨c, tail, rfl, hc⟩ := h
  simp only [quantifierSigns, List.mem_cons, List.not_mem_nil, or_false] at hc
  cases fuel with
  | zero => rfl
  | succ fuel =>
    have hatom : scanAtom fuel c tail = none := by
      cases fuel with
      | zero => rfl
      | succ fuel => rcases hc with rfl | rfl | rfl | rfl <;> rfl
    have hne : c ≠ '|' ∧ c ≠ ')' := by rcases hc with rfl | rfl | rfl | rfl <;> decide
    rw [scanBranch_cons hne.1 hne.2, scanPiece, hatom]
    rfl

private theorem scans_group {head : GroupHead} {inner : Ordinary .branches} (ih : inner.Scans) :
    (group head inner).Scans := by
  refine ⟨'(', head.text ++ inner.text ++ [')'], rfl, by decide, fun fuel rest hfuel => ?_⟩
  have htext : head.text ++ inner.text ++ [')'] ++ rest =
      head.text ++ (inner.text ++ ')' :: rest) := by simp
  rw [htext] at hfuel ⊢
  cases fuel with
  | zero => simp at hfuel
  | succ fuel =>
    have hquiet : Quiet (inner.text ++ ')' :: rest) :=
      inner.quiet_branches (by rintro _ ⟨⟩; decide)
    have hscan := ih fuel (')' :: rest) (by rintro _ ⟨⟩; rfl) (by
      rw [List.length_append] at hfuel
      omega)
    dsimp only [scanAtom]
    rw [skipGroupHead_text head hquiet]
    dsimp only [Option.bind_eq_bind, Option.bind_some]
    rw [hscan, first?]
    cases inner.first? <;> rfl

private theorem scans_empty : empty.Scans := by
  intro fuel before rest hrest hfuel
  cases fuel with
  | zero => simp at hfuel
  | succ fuel =>
    rw [first?, text, List.nil_append, Option.map_some, First.followedBy_epsilon]
    cases rest with
    | nil => rfl
    | cons c rest =>
      rw [scanBranch, if_pos (by simpa using hrest c rfl)]

private theorem scans_marked {a : Ordinary .atom} {ms : List Mark}
    {apart : ms.IsChain Mark.MayPrecede} {b : Ordinary .branch} (iha : a.Scans) (ihb : b.Scans) :
    (marked a ms apart b).Scans := by
  intro fuel before rest hrest hfuel
  obtain ⟨c, tail, heq, hc, hatom⟩ := iha
  have htext : (marked a ms apart b).text ++ rest =
      c :: (tail ++ (ms.flatMap Mark.text ++ (b.text ++ rest))) := by simp [text, heq]
  rw [htext] at hfuel ⊢
  cases fuel with
  | zero => simp at hfuel
  | succ fuel =>
    have hquiet : Quiet (b.text ++ rest) := b.quiet_branch fun d hd => by
      rcases hrest d hd with rfl | rfl <;> decide
    obtain ⟨zero, after, hmarks, hafter⟩ := scanQuantifier_marks apart hquiet
    simp only [List.length_cons] at hfuel
    have hne : c ≠ '|' ∧ c ≠ ')' := by
      constructor <;> (rintro rfl; exact hc (by decide))
    rw [scanBranch_cons hne.1 hne.2, scanPiece, hatom fuel _ (by omega), first?]
    cases a.first? with
    | none => rfl
    | some f =>
      simp only [Option.map_some, Option.bind_eq_bind, Option.bind_some, hmarks]
      split at hafter
      · rename_i hplain
        obtain ⟨rfl, rfl⟩ := hafter
        have hb := ihb fuel (before.followedBy (f.orNone (ms.any (·.quantifier.allowsNone)))) rest
          hrest (by simp only [List.length_append] at hfuel ⊢; omega)
        rw [if_pos hplain]
        refine hb.trans ?_
        cases b.first? with
        | none => rfl
        | some g => simp [First.followedBy_assoc]
      · rename_i hplain
        rw [if_neg hplain]
        exact scanBranch_loud hafter fuel _

private theorem scans_last {b : Ordinary .branch} (ih : b.Scans) : (last b).Scans := by
  intro fuel rest hrest hfuel
  cases fuel with
  | zero => simp at hfuel
  | succ fuel =>
    have hscan := ih fuel .epsilon rest (fun c hc => .inr (hrest c hc)) (by
      rw [text] at hfuel
      omega)
    rw [scanBranches, text, hscan, first?]
    cases b.first? with
    | none => rfl
    | some f =>
      cases rest with
      | nil => simp
      | cons c rest =>
        obtain rfl := hrest c rfl
        simp

private theorem scans_or {b : Ordinary .branch} {others : Ordinary .branches} (ihb : b.Scans)
    (ih : others.Scans) : (or b others).Scans := by
  intro fuel rest hrest hfuel
  have htext : (or b others).text ++ rest = b.text ++ '|' :: (others.text ++ rest) := by
    simp [text]
  rw [htext] at hfuel ⊢
  cases fuel with
  | zero => simp at hfuel
  | succ fuel =>
    have hb := ihb fuel .epsilon ('|' :: (others.text ++ rest)) (by rintro _ ⟨⟩; exact .inl rfl)
      (by omega)
    have hothers := ih fuel rest hrest (by
      simp only [List.length_append, List.length_cons] at hfuel ⊢
      omega)
    rw [scanBranches, hb, first?]
    cases b.first? with
    | none => rfl
    | some f =>
      simp only [Option.map_some, Option.bind_eq_bind, Option.bind_some, hothers]
      cases others.first? <;> simp

theorem scans {l : Level} (p : Ordinary l) : p.Scans := by
  induction p with
  | leaf x =>
    obtain ⟨c, tail, heq, hc, hscan⟩ := scanAtom_leaf x
    refine ⟨c, tail, heq, hc, fun fuel rest hfuel => ?_⟩
    obtain ⟨fuel, rfl⟩ := Nat.exists_eq_add_of_le' (Nat.le_trans (by omega) hfuel : 1 ≤ fuel)
    exact hscan fuel rest
  | group head inner ih => exact scans_group ih
  | empty => exact scans_empty
  | marked a ms apart b iha ihb => exact scans_marked iha ihb
  | last b ih => exact scans_last ih
  | or b others ihb ih => exact scans_or ihb ih

/-! ## Leading expressions -/

/-- The set has what the leading expressions have, and says whether they reach beyond ASCII. -/
structure Gathers {l : Level} (p : Ordinary l) (f : First) : Prop where
  nullable : f.nullable = p.nullable
  contains {c : Char} (h : isAscii c = true) :
    f.set.contains c = true ↔ ∃ x, p.Leads x ∧ x.contains c = true
  nonAscii : f.set.nonAscii = true ↔ ∃ x, p.Leads x ∧ x.reachesBeyond = true

private theorem gathers_marked {a : Ordinary .atom} {ms : List Mark}
    {apart : ms.IsChain Mark.MayPrecede} {b : Ordinary .branch} {f g : First} (hf : a.Gathers f)
    (hg : b.Gathers g) : (marked a ms apart b).Gathers
      ((f.orNone (ms.any (·.quantifier.allowsNone))).followedBy g) := by
  have hnullable : (f.orNone (ms.any (·.quantifier.allowsNone))).nullable =
      (a.nullable || ms.any (·.quantifier.allowsNone)) := by
    rw [First.orNone, ← hf.nullable]
    split <;> simp_all
  have hset : (f.orNone (ms.any (·.quantifier.allowsNone))).set = f.set := by
    rw [First.orNone]
    split <;> rfl
  cases h : a.nullable || ms.any (·.quantifier.allowsNone) with
  | true =>
    rw [First.followedBy, hnullable, if_pos h, hset]
    constructor
    · simp [nullable, h, hg.nullable]
    · intro c hc
      simp only [LeadingSet.contains_union, Bool.or_eq_true, hf.contains hc, hg.contains hc, Leads,
        h, true_and, or_and_right, exists_or]
    · simp only [LeadingSet.union, Bool.or_eq_true, hf.nonAscii, hg.nonAscii, Leads, h,
        true_and, or_and_right, exists_or]
  | false =>
    rw [First.followedBy, hnullable, if_neg (by simp [h])]
    constructor
    · rw [hnullable, nullable, h, Bool.false_and]
    · intro c hc
      simp only [hset, hf.contains hc, Leads, h, Bool.false_eq_true, false_and, or_false]
    · simp only [hset, hf.nonAscii, Leads, h, Bool.false_eq_true, false_and, or_false]

private theorem gathers_or {b : Ordinary .branch} {others : Ordinary .branches} {f g : First}
    (hf : b.Gathers f) (hg : others.Gathers g) : (or b others).Gathers (f.either g) where
  nullable := by rw [First.either, nullable, hf.nullable, hg.nullable]
  contains {c} hc := by
    simp only [First.either, LeadingSet.contains_union, Bool.or_eq_true, hf.contains hc,
      hg.contains hc, Leads, or_and_right, exists_or]
  nonAscii := by
    simp only [First.either, LeadingSet.union, Bool.or_eq_true, hf.nonAscii, hg.nonAscii, Leads,
      or_and_right, exists_or]

private theorem gathers_of_first? {l : Level} {p : Ordinary l} {f : First} (h : p.first? = some f) :
    p.Gathers f := by
  induction p generalizing f with
  | leaf x =>
    obtain rfl := Option.some.inj h
    constructor
    · rfl
    · intro c hc
      simp [Leads, First.of, x.contains_set hc]
    · simp [Leads, First.of, x.nonAscii_set]
  | group head inner ih =>
    have hinner := ih h
    exact ⟨hinner.nullable, hinner.contains, hinner.nonAscii⟩
  | empty =>
    obtain rfl := Option.some.inj h
    constructor
    · rfl
    · intro c hc
      simp [Leads, First.epsilon, LeadingSet.not_contains_empty]
    · simp [Leads, First.epsilon, LeadingSet.empty]
  | marked a ms apart b iha ihb =>
    obtain ⟨f, hf, h⟩ := Option.bind_eq_some_iff.mp h
    split at h
    · obtain ⟨g, hg, h⟩ := Option.bind_eq_some_iff.mp h
      obtain rfl := Option.some.inj h
      exact gathers_marked (iha hf) (ihb hg)
    · cases h
  | last b ih =>
    have hb := ih h
    exact ⟨hb.nullable, hb.contains, hb.nonAscii⟩
  | or b others ihb ih =>
    obtain ⟨f, hf, h⟩ := Option.bind_eq_some_iff.mp h
    obtain ⟨g, hg, h⟩ := Option.bind_eq_some_iff.mp h
    obtain rfl := Option.some.inj h
    exact gathers_or (ihb hf) (ih hg)

private theorem isSome_first? {l : Level} (p : Ordinary l) :
    p.first?.isSome = true ↔ p.Settled := by
  induction p with
  | leaf x => exact iff_of_true rfl trivial
  | group head inner ih => exact ih
  | empty => exact iff_of_true rfl trivial
  | marked a ms apart b iha ihb =>
    rw [Settled, ← iha, ← ihb, first?]
    cases a.first? <;> cases b.first? <;> cases plainlyMarked ms <;> simp
  | last b ih => exact ih
  | or b others ihb ih =>
    rw [Settled, ← ihb, ← ih, first?]
    cases b.first? <;> cases others.first? <;> simp

private theorem ofPattern?_eq (p : Ordinary .branches) :
    ofPattern? p.text = p.first?.map (·.set) := by
  have hscan := p.scans (3 * p.text.length + 3) [] (by simp) (by
    rw [List.append_nil]
    omega)
  rw [List.append_nil] at hscan
  rw [ofPattern?, hscan]
  cases p.first? <;> rfl

end Ordinary

end Leading

private theorem TokenModel.WellNamed.eq_of_name {m : TokenModel} (hm : m.WellNamed) {c d : Category}
    (hc : c ∈ m.categories.toList) (hd : d ∈ m.categories.toList) (h : c.name = d.name) :
    c = d := by
  obtain ⟨i, hi⟩ := List.mem_iff_getElem?.mp hc
  obtain ⟨j, hj⟩ := List.mem_iff_getElem?.mp hd
  rw [Array.getElem?_toList] at hi hj
  have hci := (hm.byName_iff c.name i).mpr ⟨c, hi, rfl⟩
  have hdj := (hm.byName_iff c.name j).mpr ⟨d, hj, h.symm⟩
  obtain rfl := Option.some.inj (hci.symm.trans hdj)
  exact Option.some.inj (hi.symm.trans hj)

private theorem build_eq_error {m : TokenModel} {name : String} {names : List String}
    (h : (m.concrete.map fun k => (k, k.leadingSet?)).filterMap
      (fun x => if x.2.isSome then none else some x.1.name) = name :: names) :
    DispatchTable.build m = .error (name :: names) := by
  have hsome : ¬(name :: names).isEmpty = true := Bool.false_ne_true
  exact (if_neg (h ▸ hsome)).trans (congrArg Except.error h)

/-- Whoever keeps a model from having a table has a pattern of which the leading characters cannot
be told. -/
theorem notMem_of_build_error {m : TokenModel} {k : Category} {names : List String} (hm : m.Built)
    (hk : k ∈ m.concrete) (hset : k.leadingSet?.isSome = true)
    (h : DispatchTable.build m = .error names) : k.name ∉ names := by
  rw [DispatchTable.build] at h
  dsimp only at h
  split at h
  · cases h
  · obtain rfl := Except.error.inj h
    intro hmem
    obtain ⟨⟨other, s⟩, hother, hname⟩ := List.mem_filterMap.mp hmem
    obtain ⟨c, hc, heq⟩ := List.mem_map.mp hother
    obtain ⟨rfl, rfl⟩ := Prod.mk.inj heq
    dsimp only at hname
    split at hname
    · cases hname
    · rename_i hnone
      have hne : c ≠ k := by
        rintro rfl
        exact hnone hset
      exact hne (hm.wellNamed.eq_of_name (List.mem_filter.mp hc).1 (List.mem_filter.mp hk).1
        (Option.some.inj hname))

private theorem table_of_unavailable {m : TokenModel} {p : TokenizerPreferences}
    {names : List String} (h : Tokenizer.build m p = .error (.optimizationUnavailable names)) :
    DispatchTable.build m = .error names := by
  rw [Tokenizer.build] at h
  cases hvalid : m.validate with
  | error e =>
    rw [hvalid] at h
    cases h
  | ok _ =>
    rw [hvalid] at h
    cases htable : DispatchTable.build m with
    | ok table =>
      rw [htable] at h
      cases h
    | error names' =>
      rw [htable] at h
      cases hp : p.ensureOptimizations with
      | true =>
        rw [hp] at h
        cases h
        rfl
      | false =>
        rw [hp] at h
        cases h

namespace Leading

/-- The scan of an ordinary pattern is exact as long as no quantifier stands behind another one, but
for a plus sign behind one that is not lazy: on ASCII the set has just the characters of the
expressions that the pattern can begin with, and it says just whether one of these reaches beyond
ASCII. So a category with the pattern is never among those that keep a model from having a table or
a tokenizer. Other quantifiers behind one another leave the scan without an answer. -/
theorem scan_exact (p : Ordinary .branches) :
    (p.Settled → ∃ set, ofPattern? p.text = some set
      ∧ (∀ c, Unicode.isAscii c = true →
        (set.contains c = true ↔ ∃ x, p.Leads x ∧ x.contains c = true))
      ∧ (set.nonAscii = true ↔ ∃ x, p.Leads x ∧ x.reachesBeyond = true))
    ∧ (p.Settled → ∀ (m : TokenModel) (k : Category) (source : String), m.Built →
        k ∈ m.concrete → k.pattern = .regex source → source.toList = p.text →
        (∀ names, DispatchTable.build m = .error names → k.name ∉ names)
          ∧ ∀ preferences names,
            Tokenizer.build m preferences = .error (.optimizationUnavailable names) →
              k.name ∉ names)
    ∧ (¬p.Settled → ofPattern? p.text = none) := by
  refine ⟨fun hp => ?_, fun hp m k source hm hk hpattern hsource => ?_, fun hp => ?_⟩
  · obtain ⟨f, hf⟩ := Option.isSome_iff_exists.mp (p.isSome_first?.mpr hp)
    have hgathers := Ordinary.gathers_of_first? hf
    refine ⟨f.set, ?_, fun c hc => hgathers.contains hc, hgathers.nonAscii⟩
    rw [p.ofPattern?_eq, hf]
    rfl
  · have hset : k.leadingSet?.isSome = true := by
      rw [Category.leadingSet?]
      split
      · rfl
      · rw [hpattern]
        dsimp only
        rw [hsource, p.ofPattern?_eq, Option.isSome_map]
        exact p.isSome_first?.mpr hp
    exact ⟨fun names => notMem_of_build_error hm hk hset,
      fun preferences names h => notMem_of_build_error hm hk hset (table_of_unavailable h)⟩
  · have hnone : p.first? = none := by
      rw [← Option.not_isSome_iff_eq_none]
      exact fun h => hp (p.isSome_first?.mp h)
    rw [p.ofPattern?_eq, hnone]
    rfl

/-- Digits with a sign in front, and up to three digits more behind a dot. -/
def decimalPattern : Ordinary .branches :=
  .last <| .marked (.leaf (.literal ⟨'-', false, by decide⟩)) [⟨.optional, false⟩] (.singleton _) <|
    .marked (.leaf (.members false
      (.range ⟨'0', false, by decide⟩ ⟨'9', false, by decide⟩ (by decide)) []))
      [⟨.plus, false⟩] (.singleton _) <|
    .marked (.group .unnamed <| .last <|
        .marked (.leaf (.literal ⟨'.', true, by decide⟩)) [] .nil <|
      .marked (.leaf (.kind .digit false)) [⟨.between 1 3, true⟩] (.singleton _) .empty)
      [⟨.optional, false⟩] (.singleton _) .empty

def decimalSource : String := "-?[0-9]+(?:\\.\\d\x7b1,3\x7d?)?"

private theorem text_decimalPattern : decimalPattern.text = decimalSource.toList := by
  decide +kernel

def starredPattern : Ordinary .branches :=
  .last (.marked (.leaf (.literal ⟨'a', false, by decide⟩)) [⟨.star, false⟩, ⟨.star, false⟩]
    (.cons_cons (.inr (by decide)) (.singleton _)) .empty)

def starredSource : String := "a**"

/-- Decimals, and a category that keeps the model from having a table. -/
def starredModel : TokenModel :=
  ((TokenModel.empty.define "Decimal" none (.regex decimalSource) .normal).2.define "Starred" none
    (.regex starredSource) .normal).2

private theorem built_starredModel : starredModel.Built :=
  .define _ _ _ _ (.define _ _ _ _ (.tagged 0))

private theorem exists_compile_starred : ∃ decimal starred,
    Regex.Engine.standard.compile (anchored decimalSource) = .ok decimal ∧
      Regex.Engine.standard.compile (anchored starredSource) = .ok starred := by
  have hdecimal : (Regex.Engine.standard.compile (anchored decimalSource)).toOption.isSome = true :=
    by decide +kernel
  have hstarred : (Regex.Engine.standard.compile (anchored starredSource)).toOption.isSome = true :=
    by decide +kernel
  obtain ⟨decimal, hdecimal⟩ := Option.isSome_iff_exists.mp hdecimal
  obtain ⟨starred, hstarred⟩ := Option.isSome_iff_exists.mp hstarred
  exact ⟨decimal, starred, Outcome.toOption_eq_some.mp hdecimal,
    Outcome.toOption_eq_some.mp hstarred⟩

private theorem starredModel_eq : ∃ decimal starred, starredModel =
    (TokenModel.empty.push "Decimal" none (.regex decimalSource) (.regex decimal) .normal).push
      "Starred" none (.regex starredSource) (.regex starred) .normal := by
  obtain ⟨decimal, starred, hdecimal, hstarred⟩ := exists_compile_starred
  have hfirst : (TokenModel.empty.define "Decimal" none (.regex decimalSource) .normal).2 =
      TokenModel.empty.push "Decimal" none (.regex decimalSource) (.regex decimal) .normal := by
    have hname : TokenModel.empty.byName.contains "Decimal" = false := by cbv
    exact TokenModel.define_eq_push hname rfl (by decide) (TokenModel.matcher_regex hdecimal)
  refine ⟨decimal, starred, ?_⟩
  rw [starredModel, hfirst]
  refine TokenModel.define_eq_push ?_ rfl ?_ (TokenModel.matcher_regex hstarred)
  · cbv
  · simp [TokenModel.size, TokenModel.push, TokenModel.empty, TokenModel.tagged, TokenModel.new,
      TokenModel.capacity]

private theorem concrete_starredModel : ∃ decimal starred, starredModel.concrete =
    [⟨1, "Decimal", none, .regex decimalSource, decimal, .normal, none⟩,
      ⟨2, "Starred", none, .regex starredSource, starred, .normal, none⟩] := by
  obtain ⟨decimal, starred, heq⟩ := starredModel_eq
  refine ⟨.regex decimal, .regex starred, ?_⟩
  rw [heq]
  cbv

private theorem validate_starredModel : starredModel.validate = .ok () := by
  obtain ⟨decimal, starred, heq⟩ := starredModel_eq
  rw [heq]
  cbv

private theorem not_settled_starredPattern : ¬starredPattern.Settled := fun h =>
  absurd h.2.1 (by decide)

private theorem build_starredModel : DispatchTable.build starredModel = .error ["Starred"] := by
  obtain ⟨decimal, starred, hconcrete⟩ := concrete_starredModel
  have hdecimal : (ofPattern? decimalSource.toList).isSome = true := by decide +kernel
  have hstarred : ofPattern? starredSource.toList = none := by decide +kernel
  refine build_eq_error ?_
  simp [hconcrete, Category.leadingSet?, hdecimal, hstarred]

theorem scan_exact_decimal :
    decimalPattern.Settled ∧ ¬starredPattern.Settled
      ∧ (∃ set, ofPattern? decimalPattern.text = some set
        ∧ (∀ c, Unicode.isAscii c = true →
          (set.contains c = true ↔ ∃ x, decimalPattern.Leads x ∧ x.contains c = true))
        ∧ (set.nonAscii = true ↔ ∃ x, decimalPattern.Leads x ∧ x.reachesBeyond = true))
      ∧ (∃ k, starredModel.Built ∧ k ∈ starredModel.concrete ∧ k.pattern = .regex decimalSource
        ∧ decimalSource.toList = decimalPattern.text
        ∧ DispatchTable.build starredModel = .error ["Starred"]
        ∧ Tokenizer.build starredModel ⟨true, .singleChar, 8⟩ =
          .error (.optimizationUnavailable ["Starred"])
        ∧ k.name ∉ ["Starred"])
      ∧ ofPattern? starredPattern.text = none := by
  have hsettled : decimalPattern.Settled := by
    simp [decimalPattern, Ordinary.Settled, plainlyMarked]
  have hmain := scan_exact decimalPattern
  obtain ⟨decimal, starred, hconcrete⟩ := concrete_starredModel
  have hmem := hconcrete ▸ List.mem_cons_self
  have hstrict : Tokenizer.build starredModel ⟨true, .singleChar, 8⟩ =
      .error (.optimizationUnavailable ["Starred"]) := by
    rw [Tokenizer.build, validate_starredModel, build_starredModel]
    rfl
  have happart := hmain.2.1 hsettled starredModel _ decimalSource built_starredModel hmem rfl
    text_decimalPattern.symm
  exact ⟨hsettled, not_settled_starredPattern, hmain.1 hsettled,
    ⟨_, built_starredModel, hmem, rfl, text_decimalPattern.symm, build_starredModel, hstrict,
      happart.2 _ _ hstrict⟩, (scan_exact starredPattern).2.2 not_settled_starredPattern⟩

private theorem text_starredPattern : starredPattern.text = starredSource.toList := by
  decide

/-- Not every pattern of characters and quantifiers is scanned: the second of two stars is not
known. -/
theorem not_forall_isSome_ofPattern? :
    ¬∀ p : Ordinary .branches, ∃ set, ofPattern? p.text = some set := by
  intro hall
  obtain ⟨set, hset⟩ := hall starredPattern
  have hnone : ofPattern? starredPattern.text = none := by
    rw [text_starredPattern]
    decide +kernel
  rw [hnone] at hset
  cases hset

end Leading

end PredictiveParsing

