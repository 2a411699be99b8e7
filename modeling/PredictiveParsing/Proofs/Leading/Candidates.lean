import PredictiveParsing.Proofs.Leading.Buckets
import PredictiveParsing.Proofs.Outcome
import PredictiveParsing.Proofs.Token.Hierarchy

/-!
# Candidates and what they start with

A dispatch table names for a character exactly the concrete categories that have it in their leading
sets, in the order of their registration. A leading set has exactly the ASCII characters that it was
put together from, and either all of the others or none.
-/

namespace PredictiveParsing

open Unicode

namespace LeadingSet

/-! ## Sets that are put together -/

/-- A way to put a set together from the empty one, operation by operation. What is joined to a set
has been put together in the same way. -/
inductive Assembly where
  | empty
  | insert (before : Assembly) (c : Char)
  | insertRange (before : Assembly) (first last : Char)
  | union (before joined : Assembly)

namespace Assembly

variable {a b : Assembly} {c d first last : Char} {cs : List Char} {s : LeadingSet}

def set : Assembly → LeadingSet
  | empty => .empty
  | insert a c => a.set.insert c
  | insertRange a first last => a.set.insertRange first last
  | union a b => a.set.union b.set

/-- One of the operations covers the character; a range that is inverted covers none. -/
def Covers : Assembly → Char → Prop
  | empty, _ => False
  | insert a c, d => a.Covers d ∨ d = c
  | insertRange a first last, d => a.Covers d ∨ first ≤ d ∧ d ≤ last
  | union a b, d => a.Covers d ∨ b.Covers d

def CoversBeyond (a : Assembly) : Prop := ∃ d, isAscii d = false ∧ a.Covers d

private theorem coversBeyond_insert :
    (a.insert c).CoversBeyond ↔ a.CoversBeyond ∨ isAscii c = false := by
  simp only [CoversBeyond, Covers, and_or_left, exists_or, exists_eq_right]

private theorem coversBeyond_insertRange : (a.insertRange first last).CoversBeyond ↔
    a.CoversBeyond ∨ first ≤ last ∧ isAscii last = false := by
  simp only [CoversBeyond, Covers, and_or_left, exists_or]
  refine or_congr_right ⟨?_, fun ⟨hle, hlast⟩ => ⟨last, hlast, hle, Char.le_refl last⟩⟩
  rintro ⟨d, hd, hfirst, hlast⟩
  rw [isAscii_eq_false_iff] at hd ⊢
  exact ⟨Char.le_trans hfirst hlast, Nat.le_trans hd hlast⟩

private theorem coversBeyond_union :
    (a.union b).CoversBeyond ↔ a.CoversBeyond ∨ b.CoversBeyond := by
  simp only [CoversBeyond, Covers, and_or_left, exists_or]

/-- The members are the covered characters, and all beyond ASCII as soon as one of them is covered.
-/
theorem contains_set : a.set.contains d = true ↔
    a.Covers d ∨ isAscii d = false ∧ a.CoversBeyond := by
  induction a with
  | empty => simp [set, not_contains_empty, Covers, CoversBeyond]
  | insert a c ih =>
    rw [set, contains_insert, ih, coversBeyond_insert, Covers]
    tauto
  | insertRange a first last ih =>
    rw [set, contains_insertRange, ih, coversBeyond_insertRange, Covers]
    tauto
  | union a b iha ihb =>
    rw [set, contains_union, Bool.or_eq_true, iha, ihb, coversBeyond_union, Covers]
    tauto

private theorem contains_set_ascii (hd : isAscii d = true) :
    a.set.contains d = true ↔ a.Covers d := by
  simp [contains_set, hd]

private theorem contains_set_nonAscii (hd : isAscii d = false) :
    a.set.contains d = true ↔ a.CoversBeyond := by
  rw [contains_set]
  exact ⟨fun h => h.elim (fun hcovers => ⟨d, hd, hcovers⟩) And.right, fun h => .inr ⟨hd, h⟩⟩

def ofChars (cs : List Char) : Assembly := cs.foldr (fun c a => a.insert c) empty

private theorem covers_ofChars : (ofChars cs).Covers d ↔ d ∈ cs := by
  induction cs with
  | nil => simp [ofChars, Covers]
  | cons c cs ih =>
    rw [List.mem_cons, ← ih]
    exact or_comm

private theorem contains_ofChars_asciiCodes :
    (ofChars (s.asciiCodes.map Char.ofNat)).set.contains d = true ↔
      isAscii d = true ∧ s.contains d = true := by
  have hcovers : ∀ e, (ofChars (s.asciiCodes.map Char.ofNat)).Covers e ↔
      isAscii e = true ∧ s.contains e = true := fun _ => covers_ofChars.trans mem_map_asciiCodes
  have hbeyond : ¬(ofChars (s.asciiCodes.map Char.ofNat)).CoversBeyond := by
    rintro ⟨e, he, hcovered⟩
    rw [((hcovers e).mp hcovered).1] at he
    cases he
  simp [contains_set, hcovers, hbeyond]

private theorem set_surjective : Function.Surjective Assembly.set := by
  intro s
  cases hs : s.nonAscii with
  | false =>
    refine ⟨ofChars (s.asciiCodes.map Char.ofNat), eq_of_contains fun d => ?_⟩
    rw [Bool.eq_iff_iff, contains_ofChars_asciiCodes, and_iff_right_iff_imp]
    intro hd
    cases hascii : isAscii d with
    | true => rfl
    | false =>
      rw [contains_nonAscii hascii, hs] at hd
      cases hd
  | true =>
    -- one character beyond ASCII stands for all of them
    have hlambda : isAscii '\u03bb' = false := rfl
    refine ⟨(ofChars (s.asciiCodes.map Char.ofNat)).insert '\u03bb', eq_of_contains fun d => ?_⟩
    rw [Bool.eq_iff_iff, set, contains_insert, contains_ofChars_asciiCodes]
    cases hascii : isAscii d with
    | true =>
      have hne : d ≠ '\u03bb' := by
        rintro rfl
        cases hascii
      simp [hlambda, hne]
    | false => simp [hlambda, contains_nonAscii hascii, hs]

end Assembly

end LeadingSet

/-! ## Candidates -/

namespace DispatchTable

variable {m : TokenModel} {t : DispatchTable} {c : Char}

private theorem pairwise_candidates (hm : m.WellFormed) (h : build m = .ok t) :
    (t.candidates c).Pairwise (· < ·) := by
  rw [candidates_of_build h]
  exact List.pairwise_map.mpr (hm.pairwise_concrete.filter _)

private theorem mem_candidates_iff (hm : m.WellFormed) (h : build m = .ok t) {id : CategoryId} :
    id ∈ t.candidates c ↔ ∃ k set, m.get? id = some k ∧ k.isConcrete = true ∧
      k.leadingSet? = some set ∧ set.contains c = true := by
  rw [candidates_of_build h, List.mem_map]
  constructor
  · rintro ⟨k, hk, rfl⟩
    obtain ⟨hk, hleads⟩ := List.mem_filter.mp hk
    obtain ⟨hmem, hconcrete⟩ := TokenModel.mem_concrete.mp hk
    obtain ⟨set, hset, hc⟩ := (Option.any_eq_true _ _).mp hleads
    exact ⟨k, set, hm.mem_iff_get?.mp hmem, hconcrete, hset, hc⟩
  · rintro ⟨k, set, hget, hconcrete, hset, hc⟩
    obtain rfl := hm.id_eq hget
    have hk : k ∈ m.concrete := TokenModel.mem_concrete.mpr ⟨hm.mem_iff_get?.mpr hget, hconcrete⟩
    exact ⟨k, List.mem_filter.mpr ⟨hk, by simp [hset, hc]⟩, rfl⟩

/-- The candidates for a character are the concrete categories with the character in their leading
sets, in the order of their registration and each of them once. Whichever way a leading set has been
put together, its ASCII members are the characters that some operation has covered, and another one
is a member exactly if some operation has covered a character beyond ASCII. Every set can be put
together so. -/
theorem candidates_exact :
    (∀ (m : TokenModel) (t : DispatchTable), m.Built → build m = .ok t → ∀ c,
      (t.candidates c).Pairwise (· < ·) ∧ ∀ id, id ∈ t.candidates c ↔
        ∃ k set, m.get? id = some k ∧ k.isConcrete = true ∧ k.leadingSet? = some set ∧
          set.contains c = true) ∧
    (∀ (a : LeadingSet.Assembly) (c : Char),
      (isAscii c = true → (a.set.contains c = true ↔ a.Covers c)) ∧
      (isAscii c = false → (a.set.contains c = true ↔ ∃ d, isAscii d = false ∧ a.Covers d))) ∧
    Function.Surjective LeadingSet.Assembly.set := by
  refine ⟨fun m t hm h c => ⟨?_, fun id => ?_⟩, fun a c => ⟨?_, ?_⟩, ?_⟩
  · exact pairwise_candidates hm.wellFormed h
  · exact mem_candidates_iff hm.wellFormed h
  · exact LeadingSet.Assembly.contains_set_ascii
  · exact LeadingSet.Assembly.contains_set_nonAscii
  · exact LeadingSet.Assembly.set_surjective

def keywordModel : TokenModel :=
  let m := (TokenModel.empty.define "Name" none (.regex "[a-z\u03bb]+") .normal).2
  let m := (m.define "Let" none (.literal "let") .normal).2
  (m.define "Arrow" none (.literal "\u2192") .normal).2

set_option maxRecDepth 4000 in
private theorem candidates_keywordModel : (build keywordModel).toOption.map
    (fun t => ['l', 'q', '\u2192', '7'].map t.candidates) = some [[1, 2], [1], [1, 3], []] := by
  cbv

/-- An underscore, joined with a range that begins in ASCII and ends beyond it, and an inverted
range. -/
def joinedRanges : LeadingSet.Assembly :=
  .insertRange (.union (.insert .empty '_') (.insertRange .empty 'y' '\u00e1')) 'c' 'a'

private theorem contains_joinedRanges :
    ['_', 'y', 'z', 'a', 'b', '\u03bb'].map joinedRanges.set.contains =
      [true, true, true, false, false, true] := by
  cbv

theorem candidates_exact_keywords :
    keywordModel.Built ∧
      (∃ t, build keywordModel = .ok t ∧
        ['l', 'q', '\u2192', '7'].map t.candidates = [[1, 2], [1], [1, 3], []] ∧
        ∀ c, (t.candidates c).Pairwise (· < ·) ∧ ∀ id, id ∈ t.candidates c ↔
          ∃ k set, keywordModel.get? id = some k ∧ k.isConcrete = true ∧
            k.leadingSet? = some set ∧ set.contains c = true) ∧
      ['_', 'y', 'z', 'a', 'b', '\u03bb'].map joinedRanges.set.contains =
        [true, true, true, false, false, true] ∧
      isAscii 'z' = true ∧ (joinedRanges.set.contains 'z' = true ↔ joinedRanges.Covers 'z') ∧
      isAscii '\u03bb' = false ∧ (joinedRanges.set.contains '\u03bb' = true ↔
        ∃ d, isAscii d = false ∧ joinedRanges.Covers d) := by
  have hbuilt : keywordModel.Built :=
    .define _ _ _ _ (.define _ _ _ _ (.define _ _ _ _ (.tagged 0)))
  obtain ⟨hcandidates, hcontains, -⟩ := candidates_exact
  obtain ⟨t, ht, hnames⟩ := Option.map_eq_some_iff.mp candidates_keywordModel
  have hbuild : build keywordModel = .ok t := Outcome.toOption_eq_some.mp ht
  exact ⟨hbuilt, ⟨t, hbuild, hnames, hcandidates keywordModel t hbuilt hbuild⟩,
    contains_joinedRanges, rfl, (hcontains joinedRanges 'z').1 rfl, rfl,
    (hcontains joinedRanges '\u03bb').2 rfl⟩

end DispatchTable

end PredictiveParsing
