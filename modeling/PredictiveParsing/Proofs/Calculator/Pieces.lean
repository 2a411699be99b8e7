import Mathlib.Data.List.Chain
import PredictiveParsing.Proofs.Calculator.Symbols
import PredictiveParsing.Proofs.Lexing.LongestMatch

/-!
# The pieces of a text

A text of arithmetic is a row of lexemes and stretches of white space. Tokenizing cuts it into just
these pieces, as long as no two numbers and no two stretches of white space stand side by side.
-/

namespace PredictiveParsing

/-! ## Tokenizers with a table -/

namespace Tokenizer

variable {m : TokenModel} {table : DispatchTable} {p : TokenizerPreferences}

theorem build_of_table (hvalid : m.validate = .ok ()) (htable : DispatchTable.build m = .ok table) :
    build m p = .ok ⟨m, some table, p⟩ := by
  simp [build, hvalid, htable, Except.mapError]

/-- With a table that misses no match, a text is cut as by one that tries everything everywhere. -/
theorem tile_everywhere (hm : m.WellFormed) (htable : DispatchTable.build m = .ok table)
    (hleads : ∀ k ∈ m.concrete, k.LeadsMatches) (p : TokenizerPreferences) (text : List Char) :
    Segment.Tile (Segment.everywhere m) text 0 (segments ⟨m, some table, p⟩ (some table) text)
      text.length := by
  have hsegments : segments ⟨m, some table, p⟩ (some table) text
      = segments ⟨m, some table, p⟩ none text := by
    simp only [segments, cut_candidates_some hm htable hleads]
  rw [hsegments]
  exact tile_segments ⟨m, some table, p⟩ none text

end Tokenizer

namespace Calculator

open Segment (Tile everywhere tokensIn)

/-- Texts of symbols side by side. What may go on is not followed by its like. -/
structure Pieces (ps : List Lexeme) : Prop where
  spells : ∀ p ∈ ps, p.1.Spells p.2
  apart : ps.IsChain fun p q => p.1 = q.1 → p.1 ≠ .whiteSpace ∧ p.1 ≠ .number

/-- The token has the symbol and the text. -/
structure Carries (t : Token) (x : Lexeme) : Prop where
  category : t.category = x.1.id
  image : t.image = String.ofList x.2

/-- The segment is a match of the symbol and has the text. -/
structure IsPiece (s : Segment) (p : Lexeme) : Prop where
  category : s.category = some p.1.category
  text : s.text = p.2

def Symbol.isKept (s : Symbol) : Bool := s != .whiteSpace

/-! ## Neighbours -/

private theorem Symbol.goesOn_eq_false {s x : Symbol} {c : Char} {cs : List Char}
    (h : x.Spells (c :: cs)) (hne : x ≠ s) : s.goesOn c = false := by
  cases s with
  | whiteSpace =>
    rw [goesOn, Bool.eq_false_iff]
    intro hc
    have hat : at? c = some whiteSpace := if_pos hc
    exact hne (Option.some.inj ((at?_of_spells h).symm.trans hat))
  | number =>
    cases x with
    | whiteSpace => exact Unicode.isDecimalDigit_of_isBlank (h.2 c List.mem_cons_self)
    | number => exact absurd rfl hne
    | additionOperator => exact absurd h.2 h.1
    | multiplicationOperator => exact absurd h.2 h.1
    | _ =>
      obtain ⟨-, h⟩ := h
      obtain ⟨rfl, rfl⟩ := List.cons.inj h
      decide
  | _ => rfl

private theorem Pieces.goesOn_eq_false {p : Lexeme} {ps : List Lexeme} (h : Pieces (p :: ps)) :
    ∀ c ∈ (ps.flatMap Prod.snd).head?, p.1.goesOn c = false := by
  cases ps with
  | nil => exact fun c hc => nomatch hc
  | cons q ps =>
    have hspells := h.spells q (by simp)
    have hapart := (List.isChain_cons_cons.1 h.apart).1
    obtain ⟨c, cs, hq⟩ := List.exists_cons_of_ne_nil hspells.ne_nil
    intro c' hc'
    rw [List.flatMap_cons, hq, List.cons_append, List.head?_cons] at hc'
    obtain rfl := Option.some.inj hc'
    by_cases hpq : p.1 = q.1
    · obtain ⟨hblank, hnumber⟩ := hapart hpq
      cases hp : p.1 with
      | whiteSpace => exact absurd hp hblank
      | number => exact absurd hp hnumber
      | _ => rfl
    · exact Symbol.goesOn_eq_false (hq ▸ hspells) (Ne.symm hpq)

theorem Pieces.tail {p : Lexeme} {ps : List Lexeme} (h : Pieces (p :: ps)) : Pieces ps :=
  ⟨(List.forall_mem_cons.1 h.spells).2, h.apart.tail⟩

/-! ## Segments and pieces -/

variable {text : List Char} {i : Nat} {segments : List Segment} {ps xs : List Lexeme}

private theorem Pieces.forall₂_of_tile (h : Pieces ps) (htext : text.drop i = ps.flatMap Prod.snd)
    (htile : Tile (everywhere tokenModel) text i segments text.length) :
    List.Forall₂ IsPiece segments ps := by
  induction ps generalizing i segments with
  | nil =>
    have hi := List.drop_eq_nil_iff.1 htext
    cases segments with
    | nil => exact .nil
    | cons s segments =>
      have hle := htile.1.add_length_le
      have hpos := List.length_pos_iff.2 htile.1.nonempty
      omega
  | cons p ps ih =>
    have hspells := h.spells p List.mem_cons_self
    rw [List.flatMap_cons] at htext
    have hrest : text.drop i ≠ [] := by simp [htext, hspells.ne_nil]
    cases segments with
    | nil => exact absurd (List.drop_eq_nil_iff.2 (Eq.symm htile).le) hrest
    | cons s segments =>
      obtain ⟨hs, htile⟩ := htile
      have hmatch : Segment.matchAt? (everywhere tokenModel) (text.drop i)
          = some (p.1.category, byteCount p.2) := by
        rw [Segment.matchAt?_everywhere hrest, htext,
          Symbol.longestMatch?_of_spells hspells h.goesOn_eq_false]
      cases hcategory : s.category with
      | none =>
        have hnone := hs.unmatched hcategory 0 (List.length_pos_iff.2 hs.nonempty)
        cases hmatch.symm.trans hnone
      | some k =>
        obtain ⟨rfl, hbytes⟩ := Prod.mk.inj
          (Option.some.inj (hmatch.symm.trans (hs.matched k hcategory)))
        obtain ⟨v, hv⟩ := hs.isPrefix
        have hsplit : splitBytes? (byteCount p.2) (text.drop i)
            = some (p.2, ps.flatMap Prod.snd) := splitBytes?_eq_some.2 ⟨htext, rfl⟩
        obtain ⟨hp, hv'⟩ := Prod.mk.inj (Option.some.inj (hsplit.symm.trans
          (splitBytes?_eq_some.2 ⟨hv.symm, hbytes.symm⟩)))
        refine .cons ⟨hcategory, hp.symm⟩ (ih h.tail ?_ htile)
        rw [← List.drop_drop, ← hv, List.drop_left, hv']

private theorem category_ne_none_of_pieces (h : List.Forall₂ IsPiece segments ps) :
    ∀ s ∈ segments, s.category ≠ none := by
  induction h with
  | nil => exact fun s hs => nomatch hs
  | cons hs _ ih => exact List.forall_mem_cons.2 ⟨by simp [hs.category], ih⟩

private theorem exists_forall₂_of_tile {j : Nat}
    (htile : Tile (everywhere tokenModel) text i segments j)
    (hall : ∀ s ∈ segments, s.category ≠ none) :
    ∃ ps, List.Forall₂ IsPiece segments ps ∧ ∀ p ∈ ps, p.1.Spells p.2 := by
  induction segments generalizing i with
  | nil => exact ⟨[], .nil, by simp⟩
  | cons s segments ih =>
    rw [List.forall_mem_cons] at hall
    obtain ⟨hs, htile⟩ := htile
    obtain ⟨ps, hps, hspells⟩ := ih htile hall.2
    obtain ⟨k, hk⟩ := Option.ne_none_iff_exists'.1 hall.1
    obtain ⟨v, hv⟩ := hs.isPrefix
    have hrest : text.drop i ≠ [] := fun h => hs.nonempty (List.append_eq_nil_iff.1 (hv.trans h)).1
    have hmatch := hs.matched k hk
    rw [Segment.matchAt?_everywhere hrest] at hmatch
    obtain ⟨x, u, w, rfl, huw, hbytes, hu⟩ := Symbol.spells_of_longestMatch? hmatch
    have hsplit : splitBytes? (byteCount u) (text.drop i) = some (u, w) :=
      splitBytes?_eq_some.2 ⟨huw, rfl⟩
    obtain ⟨rfl, -⟩ := Prod.mk.inj (Option.some.inj (hsplit.symm.trans
      (splitBytes?_eq_some.2 ⟨hv.symm, hbytes.symm⟩)))
    exact ⟨(x, s.text) :: ps, .cons ⟨hk, rfl⟩ hps, List.forall_mem_cons.2 ⟨hu, hspells⟩⟩

private theorem flatMap_text_of_pieces (h : List.Forall₂ IsPiece segments ps) :
    segments.flatMap (·.text) = ps.flatMap Prod.snd := by
  induction h with
  | nil => rfl
  | cons hs _ ih => rw [List.flatMap_cons, List.flatMap_cons, hs.text, ih]

private theorem Symbol.group_eq (s : Symbol) :
    s.group = if s.isKept then .normal else .skipped := by
  cases s <;> rfl

/-- The tokens of pieces are those that are not white space. -/
theorem tokensIn_of_pieces (h : List.Forall₂ IsPiece segments ps) :
    List.Forall₂ Carries (tokensIn .normal segments) (ps.filter (·.1.isKept)) := by
  induction h with
  | nil => exact .nil
  | @cons s p segments ps hs _ ih =>
    obtain ⟨htoken, hgroup⟩ := Segment.token?_of_some hs.category
    have hgroup : s.group? = some (if p.1.isKept then .normal else .skipped) := by
      rw [hgroup, ← p.1.group_eq]
      rfl
    rw [List.filter_cons]
    split at hgroup
    · rename_i hkept
      rw [if_pos hkept]
      have htokens : tokensIn .normal (s :: segments)
          = ⟨p.1.id, String.ofList s.text, s.span, false⟩ :: tokensIn .normal segments := by
        simp [tokensIn, hgroup, htoken, Symbol.category]
      rw [htokens]
      exact .cons ⟨rfl, by rw [hs.text]⟩ ih
    · rename_i hkept
      rw [if_neg hkept]
      simpa [tokensIn, hgroup] using ih

private theorem countP_isKept_of_pieces (h : List.Forall₂ IsPiece segments ps) :
    segments.countP (·.isKept) = (ps.filter (·.1.isKept)).length := by
  rw [← List.countP_eq_length_filter]
  induction h with
  | nil => rfl
  | @cons s p segments ps hs _ ih =>
    have hkept : s.isKept = p.1.isKept := by
      rw [Segment.isKept, hs.category]
      cases hp : p.1 <;> rfl
    rw [List.countP_cons, List.countP_cons, ih, hkept]

/-! ## White space between lexemes -/

private theorem Spaced.blank_append {blank : List Char}
    (hblank : ∀ c ∈ blank, Unicode.isBlank c = true) (h : Spaced xs text) :
    Spaced xs (blank ++ text) := by
  cases h with
  | nil h => exact .nil (List.forall_mem_append.2 ⟨hblank, h⟩)
  | cons h hs =>
    rw [← List.append_assoc]
    exact .cons (List.forall_mem_append.2 ⟨hblank, h⟩) hs

private theorem spaced_of_spells (h : ∀ p ∈ ps, p.1.Spells p.2) :
    Spaced (ps.filter (·.1.isKept)) (ps.flatMap Prod.snd) := by
  induction ps with
  | nil => exact .nil (by simp)
  | cons p ps ih =>
    rw [List.forall_mem_cons] at h
    rw [List.filter_cons, List.flatMap_cons]
    split
    · exact (ih h.2).adjoin
    · rename_i hkept
      obtain ⟨s, u⟩ := p
      obtain rfl : s = .whiteSpace := by simpa [Symbol.isKept] using hkept
      exact (ih h.2).blank_append h.1.2

theorem Pieces.cons {p : Lexeme} (h : Pieces ps) (hp : p.1.Spells p.2)
    (hapart : ∀ q ∈ ps.head?, p.1 = q.1 → p.1 ≠ .whiteSpace ∧ p.1 ≠ .number) :
    Pieces (p :: ps) :=
  ⟨List.forall_mem_cons.2 ⟨hp, h.spells⟩, List.isChain_cons.2 ⟨hapart, h.apart⟩⟩

private theorem Pieces.exists_blank_cons (h : Pieces ps) (hhead : ∀ p ∈ ps.head?, p.1 ≠ .whiteSpace)
    {blank : List Char} (hblank : ∀ c ∈ blank, Unicode.isBlank c = true) :
    ∃ ps', Pieces ps' ∧ ps'.filter (·.1.isKept) = ps.filter (·.1.isKept)
      ∧ ps'.flatMap Prod.snd = blank ++ ps.flatMap Prod.snd := by
  by_cases hne : blank = []
  · exact ⟨ps, h, rfl, by rw [hne, List.nil_append]⟩
  · refine ⟨(.whiteSpace, blank) :: ps, h.cons ⟨hne, hblank⟩ fun q hq hsame => ?_, rfl, rfl⟩
    exact absurd hsame.symm (hhead q hq)

/-- Lexemes with white space between them are the pieces of a text that are not white space. -/
theorem exists_pieces (h : Spaced xs text)
    (hxs : ∀ x ∈ xs, x.1 ≠ .whiteSpace ∧ x.1.Spells x.2)
    (hapart : xs.IsChain fun x y => x.1 = .number → y.1 ≠ .number) :
    ∃ ps, Pieces ps ∧ ps.filter (·.1.isKept) = xs ∧ ps.flatMap Prod.snd = text := by
  induction h with
  | @nil blank hblank =>
    obtain ⟨ps, hps, hfilter, htext⟩ :=
      Pieces.exists_blank_cons ⟨by simp, .nil⟩ (by simp) hblank
    exact ⟨ps, hps, hfilter, by simpa using htext⟩
  | @cons blank x xs text hblank hs ih =>
    rw [List.forall_mem_cons] at hxs
    obtain ⟨hnext, hchain⟩ := List.isChain_cons.1 hapart
    obtain ⟨ps, hps, rfl, rfl⟩ := ih hxs.2 hchain
    have hx : Pieces (x :: ps) := by
      refine hps.cons hxs.1.2 fun q hq hsame => ⟨hxs.1.1, fun hnumber => ?_⟩
      obtain ⟨ps', rfl⟩ := List.head?_eq_some_iff.1 hq
      have hkept : q.1.isKept = true := by simp [Symbol.isKept, ← hsame, hxs.1.1]
      exact hnext q (by simp [hkept]) hnumber (hsame ▸ hnumber)
    obtain ⟨ps', hps', hfilter, htext⟩ := hx.exists_blank_cons (by simpa using hxs.1.1) hblank
    refine ⟨ps', hps', ?_, by simpa using htext⟩
    have hkept : x.1.isKept = true := by simp [Symbol.isKept, hxs.1.1]
    rw [hfilter, List.filter_cons, if_pos hkept]

/-! ## Tokenizing -/

variable {p : TokenizerPreferences} {t : Tokenizer}

theorem tile_of_build (ht : Tokenizer.build tokenModel p = .ok t) (text : List Char) :
    t.preferences = p ∧ Tile (everywhere tokenModel) text 0 (t.segments t.dispatch text)
      text.length := by
  obtain ⟨table, htable⟩ := exists_table
  obtain rfl := Except.ok.inj
    (ht.symm.trans (Tokenizer.build_of_table validate_tokenModel htable))
  exact ⟨rfl, Tokenizer.tile_everywhere built_tokenModel.wellFormed htable
    leadsMatches_tokenModel p text⟩

/-- A text of lexemes, no two numbers next to each other, has these lexemes as its tokens. -/
theorem tokenize_spaced (ht : Tokenizer.build tokenModel p = .ok t) (h : Spaced xs text)
    (hxs : ∀ x ∈ xs, x.1 ≠ .whiteSpace ∧ x.1.Spells x.2)
    (hapart : xs.IsChain fun x y => x.1 = .number → y.1 ≠ .number)
    (hlimit : xs.length ≤ p.tokenLimit) :
    ∃ ts last, (t.tokenize text).tokens = ts ++ [.eof last] ∧ List.Forall₂ Carries ts xs
      ∧ (t.tokenize text).diagnostics = [] := by
  obtain ⟨ps, hps, rfl, htext⟩ := exists_pieces h hxs hapart
  obtain ⟨rfl, htile⟩ := tile_of_build ht text
  have hpieces : List.Forall₂ IsPiece (t.segments t.dispatch text) ps :=
    hps.forall₂_of_tile (List.drop_zero.trans htext.symm) htile
  have hall := Segment.limit_eq_self ((countP_isKept_of_pieces hpieces).trans_le hlimit)
  have hdescribes := Tokenization.describes_ofSegments htile none t.preferences.tokenLimit
    (byteCount text) t.dispatch.isSome
  have htokenize : t.tokenize text = Tokenization.ofSegments (t.segments t.dispatch text) none
      t.preferences.tokenLimit (byteCount text) t.dispatch.isSome := by
    rw [Tokenizer.tokenize_eq, hall]
  rw [htokenize]
  refine ⟨_, _, hdescribes.tokens, tokensIn_of_pieces hpieces, ?_⟩
  have hnone : (t.segments t.dispatch text).filterMap (·.diagnostic?) = [] := by
    refine List.filterMap_eq_nil_iff.2 fun s hs => ?_
    obtain ⟨k, hk⟩ := Option.ne_none_iff_exists'.1 (category_ne_none_of_pieces hpieces s hs)
    simp [Segment.diagnostic?, hk]
  rw [hdescribes.diagnostics, hnone]
  rfl

/-- A text in which nothing is reported is one of lexemes, which are its tokens. -/
theorem spaced_of_tokenize (ht : Tokenizer.build tokenModel p = .ok t)
    (h : (t.tokenize text).diagnostics = []) :
    ∃ ts last xs, (t.tokenize text).tokens = ts ++ [.eof last] ∧ List.Forall₂ Carries ts xs
      ∧ Spaced xs text ∧ ∀ x ∈ xs, x.1 ≠ .whiteSpace ∧ x.1.Spells x.2 := by
  obtain ⟨rfl, htile⟩ := tile_of_build ht text
  obtain ⟨stop, hlimit, hnone, -⟩ := htile.limit t.preferences.tokenLimit
  have hdescribes := Tokenization.describes_ofSegments hlimit
    (Segment.limit t.preferences.tokenLimit (t.segments t.dispatch text)).2
    t.preferences.tokenLimit (byteCount text) t.dispatch.isSome
  rw [← Tokenizer.tokenize_eq] at hdescribes
  rw [hdescribes.diagnostics, List.take_eq_nil_iff] at h
  obtain ⟨hreports, hbeyond⟩ := List.append_eq_nil_iff.1 (h.resolve_left (by decide))
  have hbeyond : (Segment.limit t.preferences.tokenLimit (t.segments t.dispatch text)).2
      = none := by simpa using hbeyond
  rw [Segment.limit_of_none hbeyond] at hdescribes hreports
  have hall : ∀ s ∈ t.segments t.dispatch text, s.category ≠ none := by
    intro s hs hnone
    have := List.filterMap_eq_nil_iff.1 hreports s hs
    simp [Segment.diagnostic?, hnone] at this
  obtain ⟨ps, hpieces, hspells⟩ := exists_forall₂_of_tile htile hall
  obtain ⟨hparts, hlength⟩ := htile.flatMap_text
  have htext : ps.flatMap Prod.snd = text := by
    rw [← flatMap_text_of_pieces hpieces]
    exact hparts.eq_of_length (by simpa using hlength)
  refine ⟨_, _, _, hdescribes.tokens, tokensIn_of_pieces hpieces, htext ▸ spaced_of_spells hspells,
    fun x hx => ?_⟩
  obtain ⟨hmem, hkept⟩ := List.mem_filter.1 hx
  exact ⟨by simpa [Symbol.isKept] using hkept, hspells x hmem⟩

end Calculator

end PredictiveParsing
