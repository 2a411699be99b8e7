import PredictiveParsing.Proofs.Parsing.History
import PredictiveParsing.Proofs.Parsing.Repairs
import PredictiveParsing.Proofs.Token.Consistency

/-!
# The end of the input among the tokens

No category is below the end of the input. The end is below one only if a request put it there, and
where none did no parse takes the end for a token of another category.
-/

namespace PredictiveParsing

namespace TokenModel

open Relation

variable {m : TokenModel}

/-- The models that requests lead to of which none gives the end of the input a parent. -/
inductive BuiltApart : TokenModel → Prop
  | new (engine : Regex.Engine) (tag : Nat) : BuiltApart (.new engine tag)
  | define {m : TokenModel} (name : String) (parent : Option CategoryId) (pattern : Pattern)
      (group : Group) (h : BuiltApart m) : BuiltApart (m.define name parent pattern group).2
  | setParent {m : TokenModel} (id : CategoryId) (parent : Option CategoryId)
      (hid : id = CategoryId.eof → parent = none) (h : BuiltApart m) :
      BuiltApart (m.setParent id parent).2
  | setLeading {m : TokenModel} (id : CategoryId) (chars : List Char) (h : BuiltApart m) :
      BuiltApart (m.setLeading id chars).2

/-- The end of the input is above and below no other category. -/
structure EofUnrelated (m : TokenModel) : Prop where
  isA_eof (x : CategoryId) : m.isA x CategoryId.eof = true ↔ x = CategoryId.eof
  eof_isA (x : CategoryId) : m.isA CategoryId.eof x = true ↔ x = CategoryId.eof

/-! ## The parent of the end -/

theorem eof_lt_size (hm : m.Built) : CategoryId.eof < m.size := by
  obtain ⟨_, hget, -⟩ := hm.wellNamed.eof
  exact (Array.getElem?_eq_some_iff.mp hget).1

private theorem parentOf_define {i : CategoryId} (hi : i < m.size) (name : String)
    (parent : Option CategoryId) (pattern : Pattern) (group : Group) :
    parentOf (m.define name parent pattern group).2.categories i = parentOf m.categories i := by
  rw [define]
  split
  · rfl
  · have hne : i ≠ m.categories.size := Nat.ne_of_lt hi
    rw [parentOf, parentOf, push, Array.getElem?_push, if_neg hne]

private theorem parentOf_setParent {i : CategoryId} (hi : i < m.size) (id : CategoryId)
    (parent : Option CategoryId) :
    parentOf (m.setParent id parent).2.categories i = parentOf m.categories i ∨
      i = id ∧ parentOf (m.setParent id parent).2.categories i = parent := by
  rw [setParent]
  split
  · exact .inl rfl
  · have hmodify := WellFormed.parentOf_modify id i parent hi
    by_cases heq : i = id
    · exact .inr ⟨heq, hmodify.trans (if_pos heq)⟩
    · exact .inl (hmodify.trans (if_neg heq))

private theorem parentOf_setLeading (m : TokenModel) (id : CategoryId) (chars : List Char)
    (i : CategoryId) :
    parentOf (m.setLeading id chars).2.categories i = parentOf m.categories i := by
  rw [setLeading]
  split
  · simp only [parentOf, WellFormed.getElem?_modify]
    split
    · rw [Option.bind_map]
      rfl
    · rfl
  · rfl

theorem BuiltApart.built (h : m.BuiltApart) : m.Built := by
  induction h with
  | new engine tag => exact .new engine tag
  | define name parent pattern group _ ih => exact .define name parent pattern group ih
  | setParent id parent _ _ ih => exact .setParent id parent ih
  | setLeading id chars _ ih => exact .setLeading id chars ih

private theorem BuiltApart.parentOf_eof (h : m.BuiltApart) :
    parentOf m.categories CategoryId.eof = none := by
  induction h with
  | new engine tag => rfl
  | define name parent pattern group h ih =>
    rw [parentOf_define (eof_lt_size h.built), ih]
  | setParent id parent hid h ih =>
    rcases parentOf_setParent (eof_lt_size h.built) id parent with hkept | ⟨heq, hgiven⟩
    · rw [hkept, ih]
    · rw [hgiven, hid heq.symm]
  | setLeading id chars h ih => rw [parentOf_setLeading, ih]

theorem WellFormed.isA_eof_iff (hm : m.WellFormed) (heof : CategoryId.eof < m.size)
    (x : CategoryId) : m.isA x CategoryId.eof = true ↔ x = CategoryId.eof := by
  constructor
  · intro h
    have hup := (hm.isA_iff_reflTransGen (hm.lt_size_of_isA h)).mp h
    rcases ReflTransGen.cases_tail hup with heq | ⟨_, -, hparent⟩
    · exact heq.symm
    · exact absurd rfl (hm.parent_ne_eof hparent)
  · rintro rfl
    exact hm.isA_self heof

private theorem eofUnrelated_iff (hm : m.Built) :
    m.EofUnrelated ↔ parentOf m.categories CategoryId.eof = none := by
  have hwf := hm.wellFormed
  have hlt := eof_lt_size hm
  constructor
  · intro h
    rw [Option.eq_none_iff_forall_not_mem]
    intro p hp
    have hup : ReflTransGen m.IsParent CategoryId.eof p := .single hp
    exact hwf.parent_ne_eof hp ((h.eof_isA p).mp ((hwf.isA_iff_reflTransGen hlt).mpr hup))
  · intro h
    refine ⟨hwf.isA_eof_iff hlt, fun x => ⟨hwf.eq_eof_of_isA h, ?_⟩⟩
    rintro rfl
    exact hwf.isA_self hlt

end TokenModel

namespace ParseContext

variable {V : Type} (c : ParseContext V)

/-- A parse takes the end of the input where the end is wanted, and only there: to consume a token
and to go by the tokens ahead. -/
structure TakesEofAlone : Prop where
  consume {s s' : ParseState} {idx : Nat} {category : CategoryId} {t : Token} :
    c.consume idx category s = .ok t s' → (t.isEof = true ↔ category = CategoryId.eof)
  isAhead {s : ParseState} {a : Alternative} : c.isAhead s a = true ↔
    ∃ path ∈ a.paths, ∀ i x, path[i]? = some x → c.isA (c.ahead s (i + 1)).category x = true ∧
      ((c.ahead s (i + 1)).isEof = true ↔ x = CategoryId.eof)

variable {c}

private theorem isEof_iff_of_isA (h : c.registry.model.EofUnrelated) {t : Token} {x : CategoryId}
    (hx : c.isA t.category x = true) : t.isEof = true ↔ x = CategoryId.eof := by
  rw [Token.isEof, beq_iff_eq]
  constructor
  · intro ht
    exact (h.eof_isA x).mp (ht ▸ hx)
  · rintro rfl
    exact (h.isA_eof t.category).mp hx

private theorem isAhead_eq_true {s : ParseState} {a : Alternative} : c.isAhead s a = true ↔
    ∃ path ∈ a.paths, ∀ i x, path[i]? = some x → c.isA (c.ahead s (i + 1)).category x = true := by
  simp only [isAhead, List.any_eq_true, List.all_eq_true, Prod.forall, List.mem_zipIdx_iff_getElem?]
  refine exists_congr fun path => and_congr_right fun _ => ?_
  exact forall_comm

theorem takesEofAlone (h : c.registry.model.EofUnrelated) : c.TakesEofAlone where
  consume {s s' idx category t} ht := by
    rw [consume_eq] at ht
    split at ht
    · obtain ⟨_, hadvance, -⟩ := c.advance_spec s
      rw [hadvance] at ht
      cases ht
      exact isEof_iff_of_isA h ‹_›
    · have hmends := c.mendsTo_mend? s idx category
      generalize c.mend? s idx category = mended at hmends ht
      cases hmends with
      | delete _ _ _ wanted _ =>
        cases ht
        exact isEof_iff_of_isA h wanted
      | insert _ _ _ =>
        cases ht
        exact beq_iff_eq
      | refuse => cases ht
  isAhead {s a} := by
    rw [isAhead_eq_true]
    refine exists_congr fun path => and_congr_right fun _ => ?_
    refine forall₂_congr fun i x => imp_congr_right fun _ => ?_
    exact (and_iff_left_of_imp (isEof_iff_of_isA h)).symm

end ParseContext

namespace TokenModel

variable {m : TokenModel}

/-- Whatever was asked of a model, the end of the input is above no other category. It is below none
just if it has no parent, which it has not if no request gave it one, and then every parse over the
model takes the end of the input for nothing else. -/
theorem eof_apart (hm : m.Built) :
    (∀ x, m.isA x CategoryId.eof = true ↔ x = CategoryId.eof) ∧
      ((∀ x, m.isA CategoryId.eof x = true ↔ x = CategoryId.eof) ↔
        parentOf m.categories CategoryId.eof = none) ∧
      (m.BuiltApart → parentOf m.categories CategoryId.eof = none) ∧
      (parentOf m.categories CategoryId.eof = none → ∀ (V : Type) (c : ParseContext V),
        c.registry.model = m → c.TakesEofAlone) := by
  have habove := hm.wellFormed.isA_eof_iff (eof_lt_size hm)
  refine ⟨habove, ⟨fun h => (eofUnrelated_iff hm).mp ⟨habove, h⟩,
    fun h => ((eofUnrelated_iff hm).mpr h).eof_isA⟩, BuiltApart.parentOf_eof, ?_⟩
  rintro h V c rfl
  exact ParseContext.takesEofAlone ((eofUnrelated_iff hm).mpr h)

/-- In the model of items and commas the end of the input has no parent, so that a parse of items
takes it for neither. -/
theorem eof_apart_itemModel : Registry.itemModel.Built ∧
    parentOf Registry.itemModel.categories CategoryId.eof = none ∧
    (∀ x, Registry.itemModel.isA CategoryId.eof x = true ↔ x = CategoryId.eof) ∧
    Session.noisySession.context.TakesEofAlone := by
  have hbuilt : Registry.itemModel.BuiltApart :=
    .define _ _ _ _ <| .define _ _ _ _ <| .new .standard 0
  obtain ⟨-, hbelow, hnone, htakes⟩ := eof_apart hbuilt.built
  have hmodel : Session.noisySession.context.registry.model = Registry.itemModel :=
    ((Registry.empty Registry.itemModel ⟨4, true, 100⟩ ()).serveAll_setting
      [.define Registry.listRule, .define Registry.itemRule, .finalize]).1
  exact ⟨hbuilt.built, hnone hbuilt, hbelow.mpr (hnone hbuilt), htakes (hnone hbuilt) _ _ hmodel⟩

def endBelowWord : TokenModel :=
  ((TokenModel.empty.define "A" none (.literal "a") .normal).2.setParent CategoryId.eof (some 1)).2

theorem not_forall_eq_eof_of_isA :
    ¬ ∀ m : TokenModel, m.Built → ∀ x, m.isA CategoryId.eof x = true → x = CategoryId.eof := by
  intro h
  have hbuilt : endBelowWord.Built := .setParent _ _ <| .define _ _ _ _ <| .new .standard 0
  have hlineage : endBelowWord.lineage 0 = [0, 1] := by cbv
  have hbelow : endBelowWord.isA CategoryId.eof 1 = true := by
    rw [isA, CategoryId.eof, hlineage]
    rfl
  exact absurd (h _ hbuilt 1 hbelow) (by decide)

end TokenModel

end PredictiveParsing
