import Mathlib.Data.List.Perm.Subperm
import PredictiveParsing.Proofs.Outcome
import PredictiveParsing.Token.Model

/-!
# The hierarchy of a token model

However a model was set up, the lineage of a category is the chain of its parents. Two categories
that one category belongs to therefore lie on one chain, so that one of them is the other or an
ancestor of it.
-/

namespace PredictiveParsing.TokenModel

/-- The models that the operations on models lead to. -/
inductive Built : TokenModel → Prop
  | new (engine : Regex.Engine) (tag : Nat) : Built (.new engine tag)
  | define {m : TokenModel} (name : String) (parent : Option CategoryId) (pattern : Pattern)
      (group : Group) (h : Built m) : Built (m.define name parent pattern group).2
  | setParent {m : TokenModel} (id : CategoryId) (parent : Option CategoryId) (h : Built m) :
      Built (m.setParent id parent).2
  | setLeading {m : TokenModel} (id : CategoryId) (chars : List Char) (h : Built m) :
      Built (m.setLeading id chars).2

theorem Built.tagged (tag : Nat) : Built (.tagged tag) := .new .standard tag

/-- The chain of parents that starts with a category, if there is one. -/
inductive Chain (parentOf : CategoryId → Option CategoryId) :
    Option CategoryId → List CategoryId → Prop
  | nil : Chain parentOf none []
  | cons {i chain} (h : Chain parentOf (parentOf i) chain) : Chain parentOf (some i) (i :: chain)

namespace Chain

variable {parentOf other : CategoryId → Option CategoryId} {start : Option CategoryId}
  {chain : List CategoryId}

theorem unique {chain' : List CategoryId} (h : Chain parentOf start chain)
    (h' : Chain parentOf start chain') : chain = chain' := by
  induction h generalizing chain' with
  | nil => cases h'; rfl
  | cons h ih =>
    cases h' with
    | cons h' => rw [ih h']

/-- Every member of a chain starts a chain that the whole one ends with. -/
theorem exists_suffix {i : CategoryId} (h : Chain parentOf start chain) (hi : i ∈ chain) :
    ∃ back, (i :: back) <:+ chain ∧ Chain parentOf (some i) (i :: back) := by
  induction h with
  | nil => cases hi
  | @cons j chain h ih =>
    rcases List.mem_cons.1 hi with rfl | hi
    · exact ⟨chain, List.suffix_rfl, .cons h⟩
    · obtain ⟨back, hs, hb⟩ := ih hi
      exact ⟨back, hs.trans (List.suffix_cons j chain), hb⟩

theorem nodup (h : Chain parentOf start chain) : chain.Nodup := by
  induction h with
  | nil => exact List.nodup_nil
  | @cons i chain h ih =>
    refine List.nodup_cons.2 ⟨fun hi => ?_, ih⟩
    -- a second chain from `i` would be shorter than the whole one
    obtain ⟨back, hs, hb⟩ := h.exists_suffix hi
    obtain rfl : chain = back := List.tail_eq_of_cons_eq (unique (.cons h) hb)
    exact absurd hs.length_le (Nat.not_succ_le_self chain.length)

/-- A chain depends only on the parents of its members. -/
theorem congr (h : Chain parentOf start chain) (he : ∀ i ∈ chain, other i = parentOf i) :
    Chain other start chain := by
  induction h with
  | nil => exact .nil
  | @cons i chain h ih =>
    refine .cons ?_
    rw [he i List.mem_cons_self]
    exact ih fun j hj => he j (List.mem_cons_of_mem i hj)

theorem lt_of_mem {n : Nat} (h : Chain parentOf start chain)
    (hp : ∀ i p, parentOf i = some p → p < n) (hs : ∀ i, start = some i → i < n) :
    ∀ i ∈ chain, i < n := by
  induction h with
  | nil => simp
  | @cons i chain h ih =>
    intro j hj
    rcases List.mem_cons.1 hj with rfl | hj
    · exact hs j rfl
    · exact ih (hp i) j hj

private theorem extendLineage_eq (h : Chain parentOf start chain) (front : List CategoryId)
    (fuel : Nat) (hd : (front ++ chain).Nodup) (hf : chain.length ≤ fuel) :
    extendLineage parentOf front fuel start = front ++ chain := by
  induction h generalizing front fuel with
  | nil => cases fuel <;> simp [extendLineage]
  | @cons i chain h ih =>
    cases fuel with
    | zero => simp at hf
    | succ fuel =>
      have hi : i ∉ front := fun hi => (List.nodup_append.1 hd).2.2 i hi i List.mem_cons_self rfl
      have he := ih (front ++ [i]) fuel (by simpa using hd) (by simpa using hf)
      simpa [extendLineage, hi] using he

end Chain

/-- What every operation on models keeps. -/
structure WellFormed (m : TokenModel) : Prop where
  id_eq {i : CategoryId} {c : Category} (h : m.categories[i]? = some c) : c.id = i
  matcher_eq {i : CategoryId} {c : Category} (h : m.categories[i]? = some c) :
    c.pattern.matcher m.engine = .ok c.matcher
  lineages_size : m.lineages.size = m.size
  parent_lt {i p : CategoryId} (h : parentOf m.categories i = some p) : p < m.size
  parent_ne_eof {i p : CategoryId} (h : parentOf m.categories i = some p) : p ≠ CategoryId.eof
  chain {i : CategoryId} (h : i < m.size) : Chain (parentOf m.categories) (some i) (m.lineage i)

/-! ## What the checks of an operation tell -/

variable {m : TokenModel}

theorem mem_concrete {c : Category} :
    c ∈ m.concrete ↔ c ∈ m.categories ∧ c.isConcrete = true := by
  rw [concrete, List.mem_filter, Array.mem_toList_iff]

theorem checkedParent_ok {name : String} {parent : Option CategoryId}
    (h : m.checkedParent name parent = .ok ()) :
    ∀ p, parent = some p → p < m.size ∧ p ≠ CategoryId.eof := by
  rintro p rfl
  have hv : m.vetParent p = .ok () := Outcome.mapError_eq_ok.1 h
  simp only [vetParent, Outcome.unless_eq_ok] at hv
  exact ⟨Nat.lt_of_not_le hv.1, hv.2.1⟩

private theorem accept_ok {name : String} {parent : Option CategoryId} {pattern : Pattern}
    {matcher : Matcher} (h : m.accept name parent pattern = .ok matcher) :
    m.checkedParent name parent = .ok () ∧ pattern.matcher m.engine = .ok matcher := by
  change (if _ then Except.error _ else _) = _ at h
  obtain ⟨-, h⟩ := Outcome.unless_eq_ok.1 h
  obtain ⟨_, hp, h⟩ := Outcome.bind_eq_ok.1 h
  change (if _ then Except.error _ else _) = _ at h
  obtain ⟨-, h⟩ := Outcome.unless_eq_ok.1 h
  exact ⟨hp, Outcome.mapError_eq_ok.1 h⟩

theorem matcher_regex {engine : Regex.Engine} {source : String} {program : Regex.Program}
    (h : engine.compile (anchored source) = .ok program) :
    (Pattern.regex source).matcher engine = .ok (.regex program) := by
  rw [Pattern.matcher, h]

/-- A category that nothing speaks against is registered with its matcher. -/
theorem define_eq_push {name : String} {parent : Option CategoryId} {pattern : Pattern}
    {group : Group} {matcher : Matcher} (hname : m.byName.contains name = false)
    (hparent : m.checkedParent name parent = .ok ()) (hsize : m.size < capacity)
    (hmatcher : pattern.matcher m.engine = .ok matcher) :
    (m.define name parent pattern group).2 = m.push name parent pattern matcher group := by
  have haccept : m.accept name parent pattern = .ok matcher := by
    rw [accept, hname, hparent, hmatcher]
    exact if_neg (Nat.not_le.mpr hsize)
  rw [define, haccept]

theorem engine_define (name : String) (parent : Option CategoryId) (pattern : Pattern)
    (group : Group) : (m.define name parent pattern group).2.engine = m.engine := by
  rw [define]
  cases m.accept name parent pattern <;> rfl

theorem acceptParent_ok {id : CategoryId} {parent : Option CategoryId}
    (h : m.acceptParent id parent = .ok ()) :
    id < m.size ∧ ∀ p, parent = some p →
      (p < m.size ∧ p ≠ CategoryId.eof) ∧ p ≠ id ∧ m.isA p id = false := by
  unfold acceptParent at h
  cases hc : m.get? id with
  | none => rw [hc] at h; cases h
  | some c =>
    rw [hc] at h
    obtain ⟨_, hp, h⟩ := Outcome.bind_eq_ok.1 h
    refine ⟨(Array.getElem?_eq_some_iff.1 hc).1, ?_⟩
    rintro p rfl
    refine ⟨checkedParent_ok hp p rfl, ?_⟩
    change (if _ then Except.error _ else _) = _ at h
    simpa using (Outcome.unless_eq_ok.1 h).1

theorem overlaps_comm (m : TokenModel) (c d : CategoryId) : m.overlaps c d = m.overlaps d c :=
  Bool.or_comm _ _

namespace WellFormed

theorem new (engine : Regex.Engine) (tag : Nat) : (TokenModel.new engine tag).WellFormed where
  id_eq {i c} h := by
    cases i with
    | zero => cases h; rfl
    | succ i => simp [TokenModel.new] at h
  matcher_eq {i c} h := by
    cases i with
    | zero => cases h; rfl
    | succ i => simp [TokenModel.new] at h
  lineages_size := rfl
  parent_lt {i p} h := by
    cases i with
    | zero => cases h
    | succ i => simp [TokenModel.new, parentOf] at h
  parent_ne_eof {i p} h := by
    cases i with
    | zero => cases h
    | succ i => simp [TokenModel.new, parentOf] at h
  chain {i} h := by
    have hi : i = 0 := by simpa [TokenModel.new, size] using h
    subst hi
    exact .cons .nil

theorem push (hm : m.WellFormed) {name : String} {parent : Option CategoryId} {pattern : Pattern}
    {matcher : Matcher} (group : Group)
    (hp : ∀ p, parent = some p → p < m.size ∧ p ≠ CategoryId.eof)
    (hx : pattern.matcher m.engine = .ok matcher) :
    (m.push name parent pattern matcher group).WellFormed := by
  have hs : (m.push name parent pattern matcher group).size = m.size + 1 := Array.size_push ..
  -- the new category is the only one whose parent has changed
  have hc : ∀ i, (m.push name parent pattern matcher group).categories[i]?
      = if i = m.size then some ⟨m.size, name, parent, pattern, matcher, group, none⟩
        else m.categories[i]? := fun i => Array.getElem?_push ..
  have ho : ∀ i, i ≠ m.size →
      parentOf (m.push name parent pattern matcher group).categories i
        = parentOf m.categories i := by
    intro i hi
    simp only [parentOf, hc, if_neg hi]
  have hn : parentOf (m.push name parent pattern matcher group).categories m.size = parent := by
    simp only [parentOf, hc, if_true, Option.bind_some]
  have hl : ∀ i, (m.push name parent pattern matcher group).lineage i
      = if i = m.size then m.size :: (parent.map m.lineage).getD [] else m.lineage i := by
    intro i
    change (m.lineages.push _)[i]?.getD [] = _
    rw [Array.getElem?_push, hm.lineages_size]
    split <;> rfl
  have hold : ∀ {start : Option CategoryId} {chain : List CategoryId},
      Chain (parentOf m.categories) start chain → (∀ i, start = some i → i < m.size) →
      Chain (parentOf (m.push name parent pattern matcher group).categories) start chain :=
    fun h hs => h.congr fun i hi =>
      ho i (Nat.ne_of_lt (h.lt_of_mem (fun _ _ => hm.parent_lt) hs i hi))
  refine ⟨fun {i c} h => ?_, fun {i c} h => ?_, ?_, fun {i p} h => ?_, fun {i p} h => ?_,
    fun {i} h => ?_⟩
  · rw [hc] at h
    split at h
    · cases h; exact (‹i = m.size›).symm
    · exact hm.id_eq h
  · rw [hc] at h
    split at h
    · cases h; exact hx
    · exact hm.matcher_eq h
  · rw [hs]
    exact (Array.size_push ..).trans (congrArg (· + 1) hm.lineages_size)
  · rw [hs]
    by_cases hi : i = m.size
    · rw [hi, hn] at h
      exact Nat.lt_succ_of_lt (hp p h).1
    · rw [ho i hi] at h
      exact Nat.lt_succ_of_lt (hm.parent_lt h)
  · by_cases hi : i = m.size
    · rw [hi, hn] at h
      exact (hp p h).2
    · rw [ho i hi] at h
      exact hm.parent_ne_eof h
  · rw [hl]
    split
    · subst i
      refine .cons ?_
      rw [hn]
      cases parent with
      | none => exact .nil
      | some p => exact hold (hm.chain (hp p rfl).1) fun j hj => Option.some.inj hj ▸ (hp p rfl).1
    · rename_i hi
      rw [hs] at h
      have hi : i < m.size := Nat.lt_of_le_of_ne (Nat.le_of_lt_succ h) hi
      exact hold (hm.chain hi) fun j hj => Option.some.inj hj ▸ hi

theorem define (hm : m.WellFormed) (name : String) (parent : Option CategoryId) (pattern : Pattern)
    (group : Group) : (m.define name parent pattern group).2.WellFormed := by
  unfold TokenModel.define
  cases h : m.accept name parent pattern with
  | error e => exact hm
  | ok matcher =>
    obtain ⟨hp, hx⟩ := accept_ok h
    exact hm.push group (checkedParent_ok hp) hx

theorem getElem?_modify {categories : Array Category} {id i : CategoryId}
    {f : Category → Category} :
    (categories.modify id f)[i]? = if id = i then categories[i]?.map f else categories[i]? :=
  Array.getElem?_modify ..

/-- Behind a change of a category that leaves its identity alone. -/
theorem exists_of_modify {categories : Array Category} {id i : CategoryId}
    {f : Category → Category} {c : Category}
    (hf : ∀ c, (f c).id = c.id ∧ (f c).pattern = c.pattern ∧ (f c).matcher = c.matcher)
    (h : (categories.modify id f)[i]? = some c) :
    ∃ d, categories[i]? = some d ∧ c.id = d.id ∧ c.pattern = d.pattern ∧ c.matcher = d.matcher := by
  rw [getElem?_modify] at h
  split at h
  · obtain ⟨d, hd, rfl⟩ := Option.map_eq_some_iff.1 h
    exact ⟨d, hd, hf d⟩
  · exact ⟨c, h, rfl, rfl, rfl⟩

theorem parentOf_modify (id i : CategoryId) (parent : Option CategoryId) (hi : i < m.size) :
    parentOf (m.categories.modify id fun c => { c with parent := parent }) i
      = if i = id then parent else parentOf m.categories i := by
  have hi : i < m.categories.size := hi
  simp only [parentOf, getElem?_modify, eq_comm (a := id)]
  split
  · simp [hi]
  · rfl

private theorem getElem?_lineagesOf {categories : Array Category} {i : CategoryId} {c : Category}
    {chain : List CategoryId} (hc : categories[i]? = some c) (hid : c.id = i)
    (h : Chain (parentOf categories) (some i) chain) (hs : ∀ j ∈ chain, j < categories.size) :
    (lineagesOf categories)[i]? = some chain := by
  cases h with
  | @cons _ back h =>
    have hd : (i :: back).Nodup := (Chain.cons h).nodup
    have hl : back.length ≤ categories.size := by
      have hsub : i :: back ⊆ List.range categories.size := fun j hj => List.mem_range.2 (hs j hj)
      have := (List.Nodup.subperm hd hsub).length_le
      simp only [List.length_cons, List.length_range] at this
      omega
    have hp : c.parent = parentOf categories i := by simp [parentOf, hc]
    have he := Chain.extendLineage_eq h [i] categories.size hd hl
    simp [lineagesOf, hc, hid, hp, he]

private theorem exists_chain_modify (hm : m.WellFormed) {id : CategoryId}
    {parent : Option CategoryId} (hp : ∀ p, parent = some p → p < m.size ∧ m.isA p id = false)
    {start : Option CategoryId} {chain : List CategoryId}
    (h : Chain (parentOf m.categories) start chain) (hs : ∀ i, start = some i → i < m.size) :
    ∃ chain, Chain (parentOf (m.categories.modify id fun c => { c with parent := parent })) start
      chain := by
  induction h with
  | nil => exact ⟨[], .nil⟩
  | @cons i chain h ih =>
    have hi := parentOf_modify id i parent (hs i rfl)
    by_cases he : i = id
    · rw [if_pos he] at hi
      cases parent with
      | none => exact ⟨[i], .cons (by rw [hi]; exact .nil)⟩
      | some p =>
        -- the chain of the new parent does not come to the category
        obtain ⟨hlt, hno⟩ := hp p rfl
        have hc := hm.chain hlt
        refine ⟨i :: m.lineage p, .cons ?_⟩
        rw [hi]
        refine hc.congr fun j hj => ?_
        have hj' :=
          hc.lt_of_mem (fun _ _ => hm.parent_lt) (fun k hk => Option.some.inj hk ▸ hlt) j hj
        refine (parentOf_modify id j _ hj').trans (if_neg ?_)
        rintro rfl
        simp [isA, hj] at hno
    · rw [if_neg he] at hi
      obtain ⟨chain, hc⟩ := ih fun p hp => hm.parent_lt hp
      exact ⟨i :: chain, .cons (by rw [hi]; exact hc)⟩

theorem setParent (hm : m.WellFormed) (id : CategoryId) (parent : Option CategoryId) :
    (m.setParent id parent).2.WellFormed := by
  unfold TokenModel.setParent
  cases ha : m.acceptParent id parent with
  | error e => exact hm
  | ok _ =>
    obtain ⟨-, hpar⟩ := acceptParent_ok ha
    let categories := m.categories.modify id fun c => { c with parent := parent }
    have hsize : categories.size = m.size := Array.size_modify ..
    have hcat := fun i c =>
      @exists_of_modify m.categories id i (fun c => { c with parent := parent }) c
        fun _ => ⟨rfl, rfl, rfl⟩
    have hparent : ∀ {i p}, parentOf categories i = some p → p < m.size ∧ p ≠ CategoryId.eof := by
      intro i p h
      have hi : i < m.size := by
        obtain ⟨c, hc, -⟩ := Option.bind_eq_some_iff.1 h
        exact hsize ▸ (Array.getElem?_eq_some_iff.1 hc).1
      rw [parentOf_modify id i parent hi] at h
      split at h
      · exact (hpar p h).1
      · exact ⟨hm.parent_lt h, hm.parent_ne_eof h⟩
    refine ⟨fun {i c} h => ?_, fun {i c} h => ?_, ?_, fun h => ?_, fun h => (hparent h).2,
      fun {i} h => ?_⟩
    · obtain ⟨d, hd, hid, -⟩ := hcat i c h
      rw [hid, hm.id_eq hd]
    · obtain ⟨d, hd, -, hpat, hmat⟩ := hcat i c h
      rw [hpat, hmat, hm.matcher_eq hd]
    · exact Array.size_map ..
    · exact Nat.lt_of_lt_of_eq (hparent h).1 hsize.symm
    · have hi : i < m.size := hsize ▸ h
      obtain ⟨chain, hc⟩ := hm.exists_chain_modify (fun p hp => ⟨(hpar p hp).1.1, (hpar p hp).2.2⟩)
        (hm.chain hi) fun j hj => Option.some.inj hj ▸ hi
      have hlt := hc.lt_of_mem (fun _ _ hp => hsize.symm ▸ (hparent hp).1)
        fun j hj => Option.some.inj hj ▸ h
      obtain ⟨c, hcat'⟩ : ∃ c, categories[i]? = some c := ⟨_, Array.getElem?_eq_getElem h⟩
      obtain ⟨d, hd, hid, -⟩ := hcat i c hcat'
      have hl := getElem?_lineagesOf hcat' (hid.trans (hm.id_eq hd)) hc hlt
      have he : lineage { m with categories := categories, lineages := lineagesOf categories } i
          = chain := by simp [lineage, hl]
      rw [he]
      exact hc

theorem setLeading (hm : m.WellFormed) (id : CategoryId) (chars : List Char) :
    (m.setLeading id chars).2.WellFormed := by
  unfold TokenModel.setLeading
  split
  · let categories := m.categories.modify id fun c => { c with leading := some chars }
    have hsize : categories.size = m.size := Array.size_modify ..
    have hcat := fun i c => @exists_of_modify m.categories id i
      (fun c => { c with leading := some chars }) c fun _ => ⟨rfl, rfl, rfl⟩
    have hparent : parentOf categories = parentOf m.categories := by
      funext i
      simp only [parentOf, categories, getElem?_modify]
      split
      · rw [Option.bind_map]; rfl
      · rfl
    refine ⟨fun {i c} h => ?_, fun {i c} h => ?_, ?_, fun {i p} h => ?_, fun {i p} h => ?_,
      fun {i} h => ?_⟩
    · obtain ⟨d, hd, hid, -⟩ := hcat i c h
      rw [hid, hm.id_eq hd]
    · obtain ⟨d, hd, -, hpat, hmat⟩ := hcat i c h
      rw [hpat, hmat, hm.matcher_eq hd]
    · exact hm.lineages_size.trans hsize.symm
    · exact Nat.lt_of_lt_of_eq (hm.parent_lt (hparent ▸ h)) hsize.symm
    · exact hm.parent_ne_eof (hparent ▸ h)
    · exact hparent.symm ▸ hm.chain (hsize ▸ h)
  · exact hm

theorem lt_size_of_isA (hm : m.WellFormed) {t c : CategoryId} (h : m.isA t c = true) :
    t < m.size := by
  by_contra ht
  have hl : m.lineages[t]? = none :=
    Array.getElem?_eq_none (hm.lineages_size.symm ▸ Nat.le_of_not_lt ht)
  simp [isA, lineage, hl] at h

private theorem chain_lt (hm : m.WellFormed) {i : CategoryId} (h : i < m.size) :
    ∀ j ∈ m.lineage i, j < m.size :=
  (hm.chain h).lt_of_mem (fun _ _ => hm.parent_lt) fun _ hj => Option.some.inj hj ▸ h

/-- Of two categories that a token belongs to, one is the other or an ancestor of it. -/
theorem overlaps_of_isA (hm : m.WellFormed) {t c d : CategoryId} (hc : m.isA t c = true)
    (hd : m.isA t d = true) : m.overlaps c d = true := by
  have ht := hm.lt_size_of_isA hc
  simp only [isA, List.contains_iff_mem, overlaps, Bool.or_eq_true] at hc hd ⊢
  obtain ⟨back, hs, hb⟩ := (hm.chain ht).exists_suffix hc
  have hl : m.lineage c = c :: back := (hm.chain (hm.chain_lt ht c hc)).unique hb
  obtain ⟨back', hs', hb'⟩ := (hm.chain ht).exists_suffix hd
  have hl' : m.lineage d = d :: back' := (hm.chain (hm.chain_lt ht d hd)).unique hb'
  rw [hl, hl']
  rcases List.suffix_or_suffix_of_suffix hs hs' with h | h
  · exact .inr (h.subset List.mem_cons_self)
  · exact .inl (h.subset List.mem_cons_self)

theorem isA_self (hm : m.WellFormed) {c : CategoryId} (h : c < m.size) :
    m.isA c c = true := by
  rw [isA, List.contains_iff_mem]
  have hchain := hm.chain h
  cases hl : m.lineage c with
  | nil =>
    rw [hl] at hchain
    cases hchain
  | cons d back =>
    rw [hl] at hchain
    cases hchain
    exact List.mem_cons_self

/-- Of two categories that overlap one is a category of the tokens of both. -/
theorem exists_isA_of_overlaps (hm : m.WellFormed) {c d : CategoryId} (hc : c < m.size)
    (hd : d < m.size) (h : m.overlaps c d = true) :
    ∃ t < m.size, m.isA t c = true ∧ m.isA t d = true := by
  rcases Bool.or_eq_true_iff.mp h with h | h
  · exact ⟨c, hc, hm.isA_self hc, h⟩
  · exact ⟨d, hd, h, hm.isA_self hd⟩

theorem eq_eof_of_isA (hm : m.WellFormed) (h : parentOf m.categories CategoryId.eof = none)
    {c : CategoryId} (hc : m.isA CategoryId.eof c = true) : c = CategoryId.eof := by
  have hl := hm.chain (hm.lt_size_of_isA hc)
  have hu : Chain (parentOf m.categories) (some CategoryId.eof) [CategoryId.eof] :=
    .cons (by rw [h]; exact .nil)
  simpa [isA, hl.unique hu] using hc

/-- A category is found under its number. -/
theorem mem_iff_get? (hm : m.WellFormed) {c : Category} :
    c ∈ m.categories ↔ m.get? c.id = some c := by
  refine ⟨fun h => ?_, Array.mem_of_getElem?⟩
  obtain ⟨i, hi⟩ := Array.mem_iff_getElem?.1 h
  rwa [get?, hm.id_eq hi]

/-- Categories are listed in the order of their registration. -/
theorem pairwise_concrete (hm : m.WellFormed) :
    m.concrete.Pairwise fun c d => c.id < d.id := by
  refine List.Pairwise.filter _ (List.pairwise_iff_getElem.2 fun i j hi hj hij => ?_)
  have hid : ∀ i (hi : i < m.categories.toList.length), m.categories.toList[i].id = i :=
    fun i hi => hm.id_eq (Array.getElem?_toList ▸ List.getElem?_eq_getElem hi)
  rwa [hid i hi, hid j hj]

/-- The matcher of a category with a regular expression is the program of the pattern. -/
theorem exists_compile (hm : m.WellFormed) {i : CategoryId} {c : Category} {source : String}
    (hc : m.categories[i]? = some c) (hpattern : c.pattern = .regex source) :
    ∃ program, m.engine.compile (anchored source) = .ok program ∧
      c.matcher = .regex program := by
  have hmatcher := hm.matcher_eq hc
  rw [hpattern, Pattern.matcher] at hmatcher
  split at hmatcher
  · rename_i program hcompile
    exact ⟨program, hcompile, (Except.ok.inj hmatcher).symm⟩
  · cases hmatcher

end WellFormed

theorem Built.wellFormed {m : TokenModel} (h : m.Built) : m.WellFormed := by
  induction h with
  | new engine tag => exact .new engine tag
  | define name parent pattern group _ ih => exact ih.define name parent pattern group
  | setParent id parent _ ih => exact ih.setParent id parent
  | setLeading id chars _ ih => exact ih.setLeading id chars

end PredictiveParsing.TokenModel
