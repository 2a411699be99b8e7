import PredictiveParsing.Proofs.Token.Hierarchy

/-!
# What every history of a model keeps

Whatever has been asked of a model, its categories are numbered by their places and have different
names, and their parents form a forest, in which the lineage of a category is the way from it to a
root. A request that is refused changes nothing.
-/

namespace PredictiveParsing.TokenModel

open Relation

variable {m : TokenModel}

/-- The second category is the parent of the first one. -/
def IsParent (m : TokenModel) (i p : CategoryId) : Prop := parentOf m.categories i = some p

/-- What is promised of a model. -/
structure Consistent (m : TokenModel) : Prop where
  id_eq (i : CategoryId) (c : Category) : m.get? i = some c → c.id = i
  name_injective (i j : CategoryId) (c d : Category) :
    m.get? i = some c → m.get? j = some d → c.name = d.name → i = j
  lookup?_iff (name : String) (i : CategoryId) :
    m.lookup? name = some i ↔ ∃ c, m.get? i = some c ∧ c.name = name
  parent (i p : CategoryId) : m.IsParent i p → p < m.size ∧ p ≠ CategoryId.eof
  acyclic (i : CategoryId) : ¬TransGen m.IsParent i i
  lineage (i : CategoryId) : i < m.size → Chain (parentOf m.categories) (some i) (m.lineage i)
  isA_iff (a b : CategoryId) : a < m.size → (m.isA a b = true ↔ ReflTransGen m.IsParent a b)
  isA_refl (a : CategoryId) : a < m.size → m.isA a a = true
  isA_antisymm (a b : CategoryId) : m.isA a b = true → m.isA b a = true → a = b
  isA_trans (a b c : CategoryId) : m.isA a b = true → m.isA b c = true → m.isA a c = true
  overlaps_iff (a b : CategoryId) :
    m.overlaps a b = true ↔ ∃ c < m.size, m.isA c a = true ∧ m.isA c b = true
  setParent_refused (i : CategoryId) (parent : Option CategoryId) : i < m.size →
    ((∃ e, (m.setParent i parent).1 = .error e) ↔
      ∃ p, parent = some p ∧ (m.size ≤ p ∨ p = CategoryId.eof ∨ ReflTransGen m.IsParent p i))
  define_unchanged (name : String) (parent : Option CategoryId) (pattern : Pattern) (group : Group)
    (e : ModelError) : (m.define name parent pattern group).1 = .error e →
      (m.define name parent pattern group).2 = m
  setParent_unchanged (i : CategoryId) (parent : Option CategoryId) (e : ModelError) :
    (m.setParent i parent).1 = .error e → (m.setParent i parent).2 = m
  setLeading_unchanged (i : CategoryId) (chars : List Char) (e : ModelError) :
    (m.setLeading i chars).1 = .error e → (m.setLeading i chars).2 = m

/-! ## Names -/

/-- What every operation on models keeps of the names and of the first category. -/
structure WellNamed (m : TokenModel) : Prop where
  byName_iff (name : String) (i : CategoryId) :
    m.byName[name]? = some i ↔ ∃ c, m.categories[i]? = some c ∧ c.name = name
  eof : ∃ c, m.categories[CategoryId.eof]? = some c ∧ c.pattern = .abstract

private theorem accept_name {name : String} {parent : Option CategoryId} {pattern : Pattern}
    {matcher : Matcher} (h : m.accept name parent pattern = .ok matcher) :
    m.byName[name]? = none := by
  change (if _ then Except.error _ else _) = _ at h
  have hnew : name ∉ m.byName := (Outcome.unless_eq_ok.1 h).1
  exact Std.HashMap.getElem?_eq_none hnew

namespace WellNamed

theorem new (engine : Regex.Engine) (tag : Nat) : (TokenModel.new engine tag).WellNamed where
  byName_iff name i := by
    have hb : (TokenModel.new engine tag).byName[name]?
        = if eofName = name then some CategoryId.eof else none := by
      simp [TokenModel.new, Std.HashMap.getElem?_insert]
    have hc : (TokenModel.new engine tag).categories[i]?
        = if i = CategoryId.eof then some eofCategory else none := by
      cases i with
      | zero => rfl
      | succ i => rfl
    rw [hb, hc]
    by_cases hi : i = CategoryId.eof
    · subst hi
      have hname : eofCategory.name = eofName := rfl
      simp [hname]
    · simp [hi, Ne.symm hi]
  eof := ⟨_, rfl, rfl⟩

theorem push (hm : m.WellNamed) {name : String} (hn : m.byName[name]? = none)
    (parent : Option CategoryId) (pattern : Pattern) (matcher : Matcher) (group : Group) :
    (m.push name parent pattern matcher group).WellNamed := by
  have hc : ∀ i, (m.push name parent pattern matcher group).categories[i]?
      = if i = m.size then some ⟨m.size, name, parent, pattern, matcher, group, none⟩
        else m.categories[i]? := fun i => Array.getElem?_push ..
  constructor
  · intro other i
    have hb : (m.push name parent pattern matcher group).byName[other]?
        = if name = other then some m.size else m.byName[other]? := by
      simp [TokenModel.push, Std.HashMap.getElem?_insert]
    rw [hb, hc]
    by_cases hi : i = m.size
    · subst hi
      -- the number is a new one, so no other name has it
      have hno : m.byName[other]? ≠ some m.size := fun h => by
        obtain ⟨c, hc, -⟩ := (hm.byName_iff _ _).1 h
        exact absurd (Array.getElem?_eq_some_iff.1 hc).1 (Nat.lt_irrefl _)
      by_cases he : name = other
      · simp [he]
      · simp [he, hno]
    · rw [if_neg hi, ← hm.byName_iff]
      by_cases he : name = other
      · subst he
        simp [hn, Ne.symm hi]
      · rw [if_neg he]
  · obtain ⟨c, hget, habstract⟩ := hm.eof
    have hpos : CategoryId.eof < m.size := (Array.getElem?_eq_some_iff.1 hget).1
    exact ⟨c, by rw [hc, if_neg (Nat.ne_of_lt hpos), hget], habstract⟩

/-- A change of one category leaves its name and its pattern alone. -/
theorem modify (hm : m.WellNamed) (id : CategoryId) (f : Category → Category)
    (hf : ∀ c, (f c).name = c.name ∧ (f c).pattern = c.pattern)
    (lineages : Array (List CategoryId)) :
    WellNamed { m with categories := m.categories.modify id f, lineages := lineages } := by
  have hget : ∀ i, (m.categories.modify id f)[i]?
      = if id = i then m.categories[i]?.map f else m.categories[i]? :=
    fun i => WellFormed.getElem?_modify
  constructor
  · intro name i
    change m.byName[name]? = some i ↔ _
    rw [hm.byName_iff, hget]
    split
    · simp [hf]
    · rfl
  · obtain ⟨c, hc, habstract⟩ := hm.eof
    change ∃ c, (m.categories.modify id f)[CategoryId.eof]? = some c ∧ _
    rw [hget, hc]
    split
    · exact ⟨f c, rfl, (hf c).2.trans habstract⟩
    · exact ⟨c, rfl, habstract⟩

end WellNamed

theorem Built.wellNamed (h : m.Built) : m.WellNamed := by
  induction h with
  | new engine tag => exact .new engine tag
  | @define m name parent pattern group _ ih =>
    rw [TokenModel.define]
    cases h : m.accept name parent pattern with
    | error e => exact ih
    | ok matcher => exact ih.push (accept_name h) parent pattern matcher group
  | @setParent m id parent _ ih =>
    rw [TokenModel.setParent]
    cases h : m.acceptParent id parent with
    | error e => exact ih
    | ok _ => exact ih.modify id (fun c => { c with parent := parent }) (fun _ => ⟨rfl, rfl⟩) _
  | @setLeading m id chars _ ih =>
    rw [TokenModel.setLeading]
    split
    · exact ih.modify id (fun c => { c with leading := some chars }) (fun _ => ⟨rfl, rfl⟩) _
    · exact ih

/-! ## The hierarchy -/

/-- The members of a chain are those that one comes to on the way up. -/
theorem Chain.mem_iff {parentOf : CategoryId → Option CategoryId} {start : Option CategoryId}
    {chain : List CategoryId} (h : Chain parentOf start chain) {j : CategoryId} :
    j ∈ chain ↔ ∃ i, start = some i ∧ ReflTransGen (fun i p => parentOf i = some p) i j := by
  induction h with
  | nil => simp
  | @cons i chain h ih =>
    rw [List.mem_cons, ih]
    simp only [Option.some.injEq, exists_eq_left']
    rw [ReflTransGen.cases_head_iff, eq_comm]

namespace WellFormed

theorem isA_iff_reflTransGen (hm : m.WellFormed) {a b : CategoryId} (ha : a < m.size) :
    m.isA a b = true ↔ ReflTransGen m.IsParent a b := by
  rw [isA, List.contains_iff_mem, (hm.chain ha).mem_iff]
  simp only [Option.some.injEq, exists_eq_left']
  rfl

theorem not_transGen (hm : m.WellFormed) (i : CategoryId) : ¬TransGen m.IsParent i i := by
  intro h
  obtain ⟨p, hp, hback⟩ := TransGen.head'_iff.1 h
  have hi : i < m.size := by
    obtain ⟨c, hc, -⟩ := Option.bind_eq_some_iff.1 hp
    exact (Array.getElem?_eq_some_iff.1 hc).1
  have hchain := hm.chain hi
  have hnodup := hchain.nodup
  generalize m.lineage i = chain at hchain hnodup
  cases hchain with
  | cons hrest => exact (List.nodup_cons.1 hnodup).1 (hrest.mem_iff.2 ⟨p, hp, hback⟩)

private theorem isA_antisymm (hm : m.WellFormed) {a b : CategoryId} (hab : m.isA a b = true)
    (hba : m.isA b a = true) : a = b := by
  have hup := (hm.isA_iff_reflTransGen (hm.lt_size_of_isA hab)).1 hab
  have hdown := (hm.isA_iff_reflTransGen (hm.lt_size_of_isA hba)).1 hba
  rcases reflTransGen_iff_eq_or_transGen.1 hup with heq | hstep
  · exact heq.symm
  · exact absurd (hstep.trans_left hdown) (hm.not_transGen a)

private theorem isA_trans (hm : m.WellFormed) {a b c : CategoryId} (hab : m.isA a b = true)
    (hbc : m.isA b c = true) : m.isA a c = true := by
  have ha := hm.lt_size_of_isA hab
  have hb := hm.lt_size_of_isA hbc
  rw [hm.isA_iff_reflTransGen ha] at hab ⊢
  rw [hm.isA_iff_reflTransGen hb] at hbc
  exact hab.trans hbc

private theorem overlaps_iff (hm : m.WellFormed) {a b : CategoryId} :
    m.overlaps a b = true ↔ ∃ c < m.size, m.isA c a = true ∧ m.isA c b = true := by
  constructor
  · intro h
    rcases Bool.or_eq_true_iff.1 h with h | h
    · have ha := hm.lt_size_of_isA h
      exact ⟨a, ha, hm.isA_self ha, h⟩
    · have hb := hm.lt_size_of_isA h
      exact ⟨b, hb, h, hm.isA_self hb⟩
  · rintro ⟨c, -, ha, hb⟩
    exact hm.overlaps_of_isA ha hb

end WellFormed

/-! ## Requests that are refused -/

private theorem acceptParent_eq_ok {id : CategoryId} (hid : id < m.size)
    {parent : Option CategoryId} : m.acceptParent id parent = .ok () ↔ ∀ p, parent = some p →
      (p < m.size ∧ p ≠ CategoryId.eof) ∧ p ≠ id ∧ m.isA p id = false := by
  refine ⟨fun h => (acceptParent_ok h).2, fun h => ?_⟩
  have hget : m.get? id = some m.categories[id] := Array.getElem?_eq_getElem hid
  cases parent with
  | none => simp only [acceptParent, hget]; rfl
  | some p =>
    obtain ⟨⟨hlt, heof⟩, hne, hno⟩ := h p rfl
    have hvet : m.vetParent p = .ok () := by
      rw [vetParent, if_neg (Nat.not_le_of_lt hlt), if_neg heof]
    simp only [acceptParent, hget, checkedParent, hvet, hne, hno, decide_false, Bool.or_false]
    rfl

private theorem exists_setParent_eq_error {id : CategoryId} {parent : Option CategoryId} :
    (∃ e, (m.setParent id parent).1 = .error e) ↔ ¬m.acceptParent id parent = .ok () := by
  unfold setParent
  cases m.acceptParent id parent with
  | error e => simp
  | ok _ => simp

private theorem WellFormed.setParent_refused (hm : m.WellFormed) {id : CategoryId}
    (hid : id < m.size) {parent : Option CategoryId} : (∃ e, (m.setParent id parent).1 = .error e) ↔
      ∃ p, parent = some p ∧ (m.size ≤ p ∨ p = CategoryId.eof ∨ ReflTransGen m.IsParent p id) := by
  rw [exists_setParent_eq_error, acceptParent_eq_ok hid]
  constructor
  · intro h
    push Not at h
    obtain ⟨p, hp, h⟩ := h
    refine ⟨p, hp, ?_⟩
    by_cases hlt : p < m.size
    · by_cases heof : p = CategoryId.eof
      · exact .inr (.inl heof)
      · by_cases hne : p = id
        · exact .inr (.inr (hne ▸ .refl))
        · exact .inr (.inr ((hm.isA_iff_reflTransGen hlt).1 (by simpa using h ⟨hlt, heof⟩ hne)))
    · exact .inl (Nat.le_of_not_lt hlt)
  · rintro ⟨p, rfl, h⟩ hok
    obtain ⟨⟨hlt, heof⟩, -, hno⟩ := hok p rfl
    rcases h with h | h | h
    · exact Nat.not_le_of_lt hlt h
    · exact heof h
    · rw [(hm.isA_iff_reflTransGen hlt).2 h] at hno
      cases hno

private theorem define_unchanged {name : String} {parent : Option CategoryId} {pattern : Pattern}
    {group : Group} {e : ModelError} (h : (m.define name parent pattern group).1 = .error e) :
    (m.define name parent pattern group).2 = m := by
  unfold define at h ⊢
  split
  · rfl
  · rename_i hok
    rw [hok] at h
    cases h

private theorem setParent_unchanged {id : CategoryId} {parent : Option CategoryId} {e : ModelError}
    (h : (m.setParent id parent).1 = .error e) : (m.setParent id parent).2 = m := by
  unfold setParent at h ⊢
  split
  · rfl
  · rename_i hok
    rw [hok] at h
    cases h

private theorem setLeading_unchanged {id : CategoryId} {chars : List Char} {e : ModelError}
    (h : (m.setLeading id chars).1 = .error e) : (m.setLeading id chars).2 = m := by
  unfold setLeading at h ⊢
  split
  · rename_i hlt
    rw [if_pos hlt] at h
    cases h
  · rfl

/-- After any requests, refused ones among them, a model is consistent. -/
theorem consistent_of_built (h : m.Built) : m.Consistent := by
  have hm := h.wellFormed
  have hn := h.wellNamed
  refine ⟨fun i c => hm.id_eq, fun i j c d hc hd hname => ?_, hn.byName_iff,
    fun i p hp => ⟨hm.parent_lt hp, hm.parent_ne_eof hp⟩, hm.not_transGen, fun i => hm.chain,
    fun a b => hm.isA_iff_reflTransGen, fun a => hm.isA_self, fun a b => hm.isA_antisymm,
    fun a b c => hm.isA_trans, fun a b => hm.overlaps_iff,
    fun i parent hi => hm.setParent_refused hi,
    fun name parent pattern group e => define_unchanged, fun i parent e => setParent_unchanged,
    fun i chars e => setLeading_unchanged⟩
  have hi := (hn.byName_iff d.name i).2 ⟨c, hc, hname⟩
  have hj := (hn.byName_iff d.name j).2 ⟨d, hd, rfl⟩
  exact Option.some.inj (hi.symm.trans hj)

/-- Operators of three levels, of which the lowest is moved up. That the highest cannot go below it
has been found out before. -/
def movedPlus : TokenModel :=
  let m := (TokenModel.empty.define "Operator" none .abstract .normal).2
  let m := (m.define "AdditionOperator" (some 1) .abstract .normal).2
  let m := (m.define "Plus" (some 2) (.literal "+") .normal).2
  ((m.setParent 1 (some 3)).2.setParent 3 (some 1)).2

theorem consistent_of_built_movedPlus :
    movedPlus.Built ∧ movedPlus.lineage 3 = [3, 1] ∧ movedPlus.Consistent := by
  have hbuilt : movedPlus.Built :=
    .setParent _ _ <| .setParent _ _ <| .define _ _ _ _ <| .define _ _ _ _ <| .define _ _ _ _ <|
      .tagged 0
  exact ⟨hbuilt, by cbv, consistent_of_built hbuilt⟩

end PredictiveParsing.TokenModel
