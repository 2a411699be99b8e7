import Mathlib.Data.Char
import Mathlib.Data.List.TakeWhile
import PredictiveParsing.Proofs.Calculator.Expression
import PredictiveParsing.Proofs.Calculator.Numerals
import PredictiveParsing.Proofs.Lexing.TableScan
import PredictiveParsing.Proofs.Lexing.Tiling
import PredictiveParsing.Proofs.Regex.Laws
import PredictiveParsing.Proofs.Regex.Runs

/-!
# The symbols of arithmetic

What each symbol matches, and that the first character of a text tells which symbol can match there.
-/

namespace PredictiveParsing

private theorem TokenModel.defineLogged_fst (m : TokenModel) (name : String)
    (parent : Option CategoryId) (pattern : Pattern) (group : Group) (j : Array Log.Event) :
    (m.defineLogged name parent pattern group j).1 = m.define name parent pattern group := by
  unfold defineLogged
  obtain ⟨outcome, m'⟩ := m.define name parent pattern group
  cases outcome <;> rfl

namespace Calculator

/-! ## The token model -/

private theorem built_vocabularyLogged {m : TokenModel} (hm : m.Built) (j : Array Log.Event) :
    (vocabularyLogged m j).1.Built := by
  unfold vocabularyLogged
  generalize Symbol.all = symbols
  induction symbols generalizing m j with
  | nil => exact hm
  | cons s symbols ih =>
    rw [List.foldlM_cons]
    refine ih (?_ : TokenModel.Built _) _
    change (m.defineLogged _ _ _ _ j).1.2.Built
    rw [TokenModel.defineLogged_fst]
    exact .define _ _ _ _ hm

theorem built_tokenModel : tokenModel.Built := built_vocabularyLogged (.tagged 0) #[]

namespace Symbol

def concrete : List Symbol := [whiteSpace, plus, minus, times, divide, opening, closing, number]

def matcher : Symbol → Matcher
  | whiteSpace => .regex (Regex.program (.run (.property .blank)))
  | number =>
    .regex (Regex.program
      (.headedRun (.union .empty (.range '1' '9')) (.property .digit) (.single '0')))
  | additionOperator => .never
  | multiplicationOperator => .never
  | s => .literal s.text

def category (s : Symbol) : Category :=
  ⟨s.id, s.name, s.parent?.map (·.id), s.pattern, s.matcher, s.group, none⟩

private theorem matcher_pattern (s : Symbol) : s.pattern.matcher .standard = .ok s.matcher := by
  cases s with
  | whiteSpace =>
    have hread : (Regex.read (anchored "\\s+")).toOption = some (.run (.property .blank)) := by
      decide +kernel
    exact TokenModel.matcher_regex
      (Regex.Engine.compile_standard (Outcome.toOption_eq_some.mp hread))
  | number =>
    have hread : (Regex.read (anchored "[1-9]\\d*|0")).toOption = some
        (.headedRun (.union .empty (.range '1' '9')) (.property .digit) (.single '0')) := by
      decide +kernel
    exact TokenModel.matcher_regex
      (Regex.Engine.compile_standard (Outcome.toOption_eq_some.mp hread))
  | _ => rfl

def addTo (m : TokenModel) (s : Symbol) : TokenModel :=
  m.push s.name (s.parent?.map (·.id)) s.pattern s.matcher s.group

/-- Whether nothing speaks against symbols that are registered one after the other. -/
def addable : TokenModel → List Symbol → Bool
  | _, [] => true
  | m, s :: symbols =>
    !m.byName.contains s.name && (m.checkedParent s.name (s.parent?.map (·.id))).toOption.isSome
      && m.size < TokenModel.capacity && addable (addTo m s) symbols

end Symbol

private theorem vocabularyLogged_fst {m : TokenModel} (hengine : m.engine = .standard)
    (h : Symbol.addable m Symbol.all = true) (j : Array Log.Event) :
    (vocabularyLogged m j).1 = Symbol.all.foldl Symbol.addTo m := by
  unfold vocabularyLogged
  generalize Symbol.all = symbols at h ⊢
  induction symbols generalizing m j with
  | nil => rfl
  | cons s symbols ih =>
    simp only [Symbol.addable, Bool.and_eq_true, Bool.not_eq_true', decide_eq_true_eq] at h
    obtain ⟨⟨⟨hname, hparent⟩, hsize⟩, hrest⟩ := h
    obtain ⟨_, hparent⟩ := Option.isSome_iff_exists.mp hparent
    have hdefine :
        (m.defineLogged s.name (s.parent?.map (·.id)) s.pattern s.group j).1.2 = s.addTo m := by
      rw [TokenModel.defineLogged_fst]
      exact TokenModel.define_eq_push hname (Outcome.toOption_eq_some.mp hparent) hsize
        (hengine ▸ s.matcher_pattern)
    refine Eq.trans ?_ (ih (m := s.addTo m) hengine
      (m.defineLogged s.name (s.parent?.map (·.id)) s.pattern s.group j).2 hrest)
    rw [List.foldlM_cons, ← hdefine]
    rfl

theorem tokenModel_eq : tokenModel = Symbol.all.foldl Symbol.addTo .empty :=
  vocabularyLogged_fst rfl (by cbv) #[]

theorem categories_tokenModel :
    tokenModel.categories = (TokenModel.eofCategory :: Symbol.all.map Symbol.category).toArray := by
  rw [tokenModel_eq]
  cbv

theorem concrete_tokenModel : tokenModel.concrete = Symbol.concrete.map Symbol.category := by
  rw [TokenModel.concrete, categories_tokenModel]
  rfl

private theorem lineages_tokenModel : tokenModel.lineages =
    #[[0], [1], [2], [3, 2], [4, 2], [5], [6, 5], [7, 5], [8], [9], [10]] := by
  rw [tokenModel_eq]
  cbv

/-- A symbol is itself and its parent, if it has one. -/
theorem isA_id {s x : Symbol} :
    tokenModel.isA s.id x.id = true ↔ x = s ∨ s.parent? = some x := by
  rw [TokenModel.isA, TokenModel.lineage, lineages_tokenModel]
  cases s <;> cases x <;> decide

/-! ## What the symbols match -/

namespace Symbol

/-- The texts that a symbol stands for. -/
def Spells : Symbol → List Char → Prop
  | whiteSpace, u => u ≠ [] ∧ ∀ c ∈ u, Unicode.isBlank c = true
  | number, u => IsNumeral u
  | s, u => u ≠ [] ∧ u = s.text

/-- The characters that a match of a symbol takes along where they come behind it. -/
def goesOn : Symbol → Char → Bool
  | whiteSpace, c => Unicode.isBlank c
  | number, c => Unicode.isDecimalDigit c
  | _, _ => false

/-- The symbol that can match at a character. -/
def at? (c : Char) : Option Symbol :=
  if Unicode.isBlank c then some whiteSpace
  else if c.isDigit then some number
  else concrete.find? fun s => s.text = [c]

/-- The first character of its text gives a symbol away. -/
theorem at?_of_spells {s : Symbol} {c : Char} {cs : List Char} (h : s.Spells (c :: cs)) :
    at? c = some s := by
  cases s with
  | whiteSpace => exact if_pos (h.2 c List.mem_cons_self)
  | number =>
    have hdigit := IsNumeral.isDigit h
    rw [at?, Unicode.isBlank_of_isDigit hdigit, hdigit]
    rfl
  | additionOperator => exact absurd h.2 h.1
  | multiplicationOperator => exact absurd h.2 h.1
  | _ =>
    obtain ⟨-, h⟩ := h
    obtain ⟨rfl, rfl⟩ := List.cons.inj h
    decide

theorem matchLength?_whiteSpace (text : List Char) :
    whiteSpace.matcher.matchLength? text =
      if text.takeWhile Unicode.isBlank = [] then none
      else some (byteCount (text.takeWhile Unicode.isBlank)) := by
  have hblank : (CharClass.property .blank).contains = Unicode.isBlank := rfl
  rw [matcher, Matcher.matchLength?, Regex.program_find, Regex.find?_run, hblank]
  split <;> rfl

theorem matchLength?_number (c : Char) (cs : List Char) :
    number.matcher.matchLength? (c :: cs) =
      if '1' ≤ c ∧ c ≤ '9' then some (byteCount (c :: cs.takeWhile Unicode.isDecimalDigit))
      else if c = '0' then some (byteCount ['0']) else none := by
  have hone : (CharClass.union .empty (.range '1' '9')).contains c = true ↔ '1' ≤ c ∧ c ≤ '9' := by
    simp [CharClass.contains]
  have hzero : (CharClass.single '0').contains c = true ↔ c = '0' := by
    simp only [CharClass.single, CharClass.contains, Bool.and_eq_true, decide_eq_true_eq]
    exact ⟨fun h => le_antisymm h.2 h.1, fun h => h ▸ ⟨le_rfl, le_rfl⟩⟩
  rw [matcher, Matcher.matchLength?, Regex.program_find, Regex.find?_headedRun]
  · simp only [hone, hzero]
    by_cases hc : '1' ≤ c ∧ c ≤ '9'
    · rw [if_pos hc, if_pos hc]
      rfl
    · rw [if_neg hc, if_neg hc]
      by_cases h : c = '0'
      · subst h
        rfl
      · rw [if_neg h, if_neg h]
        rfl
  · rw [Bool.eq_false_iff, Ne, hone, hzero]
    rintro ⟨h, -⟩ rfl
    exact absurd h (by decide)

theorem matchLength?_eq_some {s : Symbol} {text : List Char} {n : Nat}
    (h : s.matcher.matchLength? text = some n) (hn : 0 < n) :
    ∃ u v, text = u ++ v ∧ byteCount u = n ∧ s.Spells u := by
  have hliteral : ∀ s : Symbol, (Matcher.literal s.text).matchLength? text = some n →
      ∃ v, text = s.text ++ v ∧ byteCount s.text = n ∧ s.text ≠ [] := by
    intro s h
    rw [Matcher.matchLength?] at h
    split at h
    · rename_i hfront
      obtain ⟨v, hv⟩ := List.isPrefixOf_iff_prefix.1 hfront
      obtain rfl := Option.some.inj h
      exact ⟨v, hv.symm, rfl, byteCount_pos.1 hn⟩
    · cases h
  cases s with
  | whiteSpace =>
    rw [matchLength?_whiteSpace] at h
    split at h
    · cases h
    · rename_i hrun
      exact ⟨_, _, List.takeWhile_append_dropWhile.symm, Option.some.inj h, hrun,
        fun c hc => List.mem_takeWhile_imp hc⟩
  | number =>
    cases text with
    | nil => cases h
    | cons c cs =>
      rw [matchLength?_number] at h
      split at h
      · rename_i hc
        refine ⟨c :: cs.takeWhile Unicode.isDecimalDigit, cs.dropWhile Unicode.isDecimalDigit, ?_,
          Option.some.inj h, .digits hc fun d hd => List.mem_takeWhile_imp hd⟩
        rw [List.cons_append, List.takeWhile_append_dropWhile]
      · split at h
        · rename_i hc
          subst hc
          exact ⟨['0'], cs, rfl, Option.some.inj h, .zero⟩
        · cases h
  | additionOperator => cases h
  | multiplicationOperator => cases h
  | _ =>
    obtain ⟨v, hv, hn, hne⟩ := hliteral _ h
    exact ⟨_, v, hv, hn, hne, rfl⟩

private theorem matchLength?_of_spells {s : Symbol} {u v : List Char} (h : s.Spells u)
    (hv : ∀ c ∈ v.head?, s.goesOn c = false) :
    s.matcher.matchLength? (u ++ v) = some (byteCount u) := by
  have htake : ∀ {p : Char → Bool} {w : List Char}, (∀ c ∈ w, p c = true) →
      (∀ c ∈ v.head?, p c = false) → (w ++ v).takeWhile p = w := by
    intro p w hw hv
    rw [List.takeWhile_append_of_pos hw]
    cases v with
    | nil => simp
    | cons c v => simp [hv c rfl]
  cases s with
  | whiteSpace =>
    rw [matchLength?_whiteSpace, htake h.2 hv, if_neg h.1]
  | number =>
    cases h with
    | zero => exact matchLength?_number '0' v
    | digits hc hcs => rw [List.cons_append, matchLength?_number, if_pos hc, htake hcs hv]
  | additionOperator => exact absurd h.2 h.1
  | multiplicationOperator => exact absurd h.2 h.1
  | _ =>
    obtain ⟨-, rfl⟩ := h
    simp [matcher, Matcher.matchLength?]

theorem Spells.ne_nil {s : Symbol} {u : List Char} (h : s.Spells u) : u ≠ [] := by
  rintro rfl
  cases s with
  | number => cases h
  | _ => exact h.1 rfl

private theorem Spells.mem_concrete {s : Symbol} {u : List Char} (h : s.Spells u) :
    s ∈ concrete := by
  cases s with
  | additionOperator => exact absurd h.2 h.1
  | multiplicationOperator => exact absurd h.2 h.1
  | _ => decide

theorem id_injective : Function.Injective id := by
  intro s x h
  cases s <;> cases x <;> first | rfl | cases h

/-- At a text of a symbol nothing else matches. -/
theorem longestMatch?_of_spells {s : Symbol} {u v : List Char} (h : s.Spells u)
    (hv : ∀ c ∈ v.head?, s.goesOn c = false) :
    Segment.longestMatch? tokenModel.concrete (u ++ v) = some (s.category, byteCount u) := by
  have hlength := matchLength?_of_spells h hv
  have hpos := byteCount_pos.2 h.ne_nil
  have hat : ∀ x : Symbol, ∀ n, x.matcher.matchLength? (u ++ v) = some n → 0 < n → x = s := by
    intro x n hx hn
    obtain ⟨u', v', huv, rfl, hspells⟩ := matchLength?_eq_some hx hn
    obtain ⟨c, cs, rfl⟩ := List.exists_cons_of_ne_nil h.ne_nil
    obtain ⟨c', cs', rfl⟩ := List.exists_cons_of_ne_nil hspells.ne_nil
    obtain ⟨rfl, -⟩ := List.cons.inj huv
    exact Option.some.inj ((at?_of_spells hspells).symm.trans (at?_of_spells h))
  have hsymbols : concrete.filter (fun x => x.id = s.id) = [s] := by
    have hmem := h.mem_concrete
    revert hmem
    cases s <;> decide
  have hfilter : (concrete.map category).filter (fun k => k.id = s.id) = [s.category] := by
    rw [List.filter_map]
    exact congrArg (List.map category) hsymbols
  rw [concrete_tokenModel, ← @Segment.longestMatch?_filter _ _ fun k => k.id = s.id, hfilter]
  · simp [Segment.longestMatch?, Segment.better, category, hlength, hpos]
  · intro k hk n hn hlt
    obtain ⟨x, -, rfl⟩ := List.mem_map.1 hk
    simp [category, hat x n hn hlt]

/-- What is found at a text is a symbol with a text of its own. -/
theorem spells_of_longestMatch? {text : List Char} {k : Category} {n : Nat}
    (h : Segment.longestMatch? tokenModel.concrete text = some (k, n)) :
    ∃ (s : Symbol) (u v : List Char),
      k = s.category ∧ text = u ++ v ∧ byteCount u = n ∧ s.Spells u := by
  obtain ⟨hk, hlength, hpos⟩ := Segment.longestMatch?_eq_some h
  rw [concrete_tokenModel] at hk
  obtain ⟨s, -, rfl⟩ := List.mem_map.1 hk
  obtain ⟨u, v, huv, hn, hspells⟩ := matchLength?_eq_some hlength hpos
  exact ⟨s, u, v, rfl, huv, hn, hspells⟩

/-! ## The table -/

private theorem leadingSet?_eq : whiteSpace.category.leadingSet? = some ⟨0x100003e00#128, true⟩
    ∧ number.category.leadingSet? = some ⟨0x3ff000000000000#128, false⟩ := by
  decide +kernel

private theorem leadsMatches_of_spells {s : Symbol} {set : LeadingSet}
    (hset : s.category.leadingSet? = some set)
    (h : ∀ c cs, s.Spells (c :: cs) → set.contains c = true) : s.category.LeadsMatches := by
  intro c cs n hn hpos
  obtain ⟨u, v, huv, rfl, hspells⟩ := matchLength?_eq_some hn hpos
  obtain ⟨d, ds, rfl⟩ := List.exists_cons_of_ne_nil hspells.ne_nil
  obtain ⟨rfl, -⟩ := List.cons.inj huv
  exact ⟨set, hset, h c ds hspells⟩

private theorem leadsMatches_category {s : Symbol} (hs : s ∈ concrete) :
    s.category.LeadsMatches := by
  cases s with
  | whiteSpace =>
    refine leadsMatches_of_spells leadingSet?_eq.1 fun c cs hc => ?_
    have hblank := hc.2 c List.mem_cons_self
    cases hascii : Unicode.isAscii c with
    | true =>
      revert hblank
      exact Unicode.forall_ascii (P := fun c => Unicode.isBlank c = true →
        LeadingSet.contains ⟨0x100003e00#128, true⟩ c = true) (by decide) hascii
    | false => exact LeadingSet.contains_nonAscii hascii
  | number =>
    refine leadsMatches_of_spells leadingSet?_eq.2 fun c cs hc => ?_
    have hdigit := hc.isDigit
    exact Unicode.forall_ascii (P := fun c => c.isDigit = true →
      LeadingSet.contains ⟨0x3ff000000000000#128, false⟩ c = true) (by decide)
      (isAscii_of_isDigit hdigit) hdigit
  | additionOperator => exact absurd hs (by decide)
  | multiplicationOperator => exact absurd hs (by decide)
  | _ => exact .of_literal rfl rfl rfl

end Symbol

theorem leadsMatches_tokenModel : ∀ k ∈ tokenModel.concrete, k.LeadsMatches := by
  rw [concrete_tokenModel, List.forall_mem_map]
  exact fun s hs => Symbol.leadsMatches_category hs

theorem emptyCategory?_tokenModel : tokenModel.emptyCategory? = none := by
  rw [tokenModel_eq]
  cbv

theorem validate_tokenModel : tokenModel.validate = .ok () := by
  rw [TokenModel.validate, emptyCategory?_tokenModel]

theorem exists_table : ∃ table, DispatchTable.build tokenModel = .ok table := by
  refine DispatchTable.exists_build ?_
  rw [concrete_tokenModel, List.forall_mem_map]
  intro s hs
  cases s with
  | whiteSpace => exact Option.isSome_of_eq_some Symbol.leadingSet?_eq.1
  | number => exact Option.isSome_of_eq_some Symbol.leadingSet?_eq.2
  | additionOperator => exact absurd hs (by decide)
  | multiplicationOperator => exact absurd hs (by decide)
  | _ => rfl

end Calculator

end PredictiveParsing
