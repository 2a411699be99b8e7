import PredictiveParsing.Proofs.Calculator.Meaning

/-!
# Evaluation

However an expression is written down, a calculator reads it without diagnostics and finds its
value, just if its parentheses do not nest so deep that the calls of rules nest too deeply. What a
calculator reads without diagnostics is in turn an expression, with the value that was found.
-/

namespace PredictiveParsing

theorem TokenStream.before_ofList (ts : List Token) (p : Position) :
    (TokenStream.ofList (ts ++ [.eof p])).before.toList = ts := by
  have hpush : (ts ++ [Token.eof p]).toArray = ts.toArray.push (.eof p) := by simp
  have hback : (ts.toArray.push (Token.eof p)).back? = some (.eof p) := Array.back?_push
  rw [ofList, hpush, ofArray]
  split
  · rename_i h
    cases hback.symm.trans h
  · rename_i t h
    obtain rfl := Option.some.inj (hback.symm.trans h)
    rw [dif_pos (Token.category_eof p), Array.pop_push]

private theorem Environment.preferences_of_unset {env : Environment}
    (h : ∀ name ∈ variableNames, env.lookup name = none) :
    env.preferences = preferences [] := by
  simp only [variableNames, List.forall_mem_cons] at h
  simp [preferences, tokenizer, parser, logging, read, h]

namespace Calculator

variable {α : Type} {spell : α → List Char} {l : Level}

/-! ## Lexemes of expressions -/

private theorem Spaced.mem_text {xs : List Lexeme} {text : List Char} (h : Spaced xs text)
    {x : Lexeme} (hx : x ∈ xs) {d : Char} (hd : d ∈ x.2) : d ∈ text := by
  induction h with
  | nil => cases hx
  | cons _ _ ih =>
    rcases List.mem_cons.1 hx with rfl | hx
    · exact List.mem_append_right _ (List.mem_append_left _ hd)
    · exact List.mem_append_right _ (List.mem_append_right _ (ih hx))

private theorem isSpelled_operator {c : Tier} (op : Operator c) :
    IsSpelled spell op.symbol.lexeme := by
  cases op <;> exact ⟨by decide, ⟨by decide, rfl⟩, fun h => by cases h⟩

private theorem isSpelled_parentheses : IsSpelled spell Symbol.opening.lexeme
    ∧ IsSpelled spell Symbol.closing.lexeme :=
  ⟨⟨by decide, ⟨by decide, rfl⟩, fun h => by cases h⟩,
    ⟨by decide, ⟨by decide, rfl⟩, fun h => by cases h⟩⟩

theorem Expr.isSpelled_lexemes (hspell : ∀ a, IsNumeral (spell a)) (e : Expr α l) :
    ∀ x ∈ e.lexemes spell, IsSpelled spell x := by
  induction e with
  | number a => exact List.forall_mem_singleton.2 ⟨by simp, hspell a, fun _ => ⟨a, rfl⟩⟩
  | paren e ih =>
    rw [lexemes, List.forall_mem_cons, List.forall_mem_append, List.forall_mem_singleton]
    exact ⟨isSpelled_parentheses.1, ih, isSpelled_parentheses.2⟩
  | operand e ih => exact ih
  | apply left op right ihl ihr =>
    rw [lexemes, List.forall_mem_append, List.forall_mem_cons]
    exact ⟨ihl, isSpelled_operator op, ihr⟩

private theorem Expr.isChain_lexemes (e : Expr α l) :
    (e.lexemes spell).IsChain fun x y => x.1 = .number → y.1 ≠ .number := by
  induction e with
  | number a => exact .singleton _
  | paren e ih =>
    rw [lexemes, List.isChain_cons, List.isChain_append]
    refine ⟨fun y _ h => (by cases h), ih, .singleton _, fun x _ y hy _ => ?_⟩
    obtain rfl := Option.some.inj hy
    decide
  | operand e ih => exact ih
  | apply left op right ihl ihr =>
    rw [lexemes, List.isChain_append, List.isChain_cons]
    refine ⟨ihl, ⟨fun y _ h => absurd h op.symbol_ne.1, ihr⟩, fun x _ y hy _ => ?_⟩
    obtain rfl := Option.some.inj hy
    exact op.symbol_ne.1

/-- A token has one lexeme. -/
theorem rightUnique_carries : Relator.RightUnique Carries := by
  intro t x y hx hy
  refine Prod.ext (Symbol.id_injective (hx.category.symm.trans hy.category)) ?_
  have htext := congrArg String.toList (hx.image.symm.trans hy.image)
  rwa [String.toList_ofList, String.toList_ofList] at htext

private theorem Spaced.isBlank_or_mem {xs : List Lexeme} {text : List Char} (h : Spaced xs text)
    {d : Char} (hd : d ∈ text) : Unicode.isBlank d = true ∨ ∃ x ∈ xs, d ∈ x.2 := by
  induction h with
  | nil h => exact .inl (h d hd)
  | @cons blank x xs text h hs ih =>
    rw [List.mem_append, List.mem_append] at hd
    rcases hd with hd | hd | hd
    · exact .inl (h d hd)
    · exact .inr ⟨x, List.mem_cons_self, hd⟩
    · exact (ih hd).imp_right fun ⟨y, hy, hmem⟩ => ⟨y, List.mem_cons_of_mem x hy, hmem⟩

/-! ## Parses -/

variable {r : Registry Float} {a : AnalyzedGrammar} {tokens : TokenStream} {ts : List Token}

/-- The value of a parse without diagnostics is that of an expression that the tokens spell. Its
parentheses do not nest too deeply. -/
theorem exists_expr_of_parseAll (hr : Readies tokenModel r a)
    (hlegible : ∀ t ∈ tokens.before.toList, Legible spell t) {s : ParseState}
    (h : (ParseContext.parseAll ⟨r, a, tokens⟩ 0 expression s).2.diagnostics = #[]) :
    ∃ e : Expr α (.chain .sum), e.nesting ≤ 101
      ∧ List.Forall₂ Carries tokens.before.toList (e.lexemes spell)
      ∧ (ParseContext.parseAll ⟨r, a, tokens⟩ 0 expression s).1 = e.value (valueOf spell) := by
  have heof : ∀ t ∈ tokens.before, t.category ≠ CategoryId.eof := by
    intro t ht
    obtain ⟨x, hx, -⟩ := hlegible t (Array.mem_toList_iff.2 ht)
    rw [hx.category]
    cases x.1 <;> decide
  have hreads := ParseContext.reads_of_parseAll (c := ⟨r, a, tokens⟩) hr.finalized hr.eofApart heof
    hr.find?_startRule h
  obtain ⟨d, hlt, hsum⟩ := exists_reads_of_start hr hreads
  obtain ⟨e, hdepth, he, hvalue⟩ := means_of_reads hr hlegible hsum
  have hdepth' : 5 * e.nesting + 2 < d := hdepth
  have hlt : d < 512 := hlt
  exact ⟨e, by omega, he, hvalue⟩

/-- The lexemes of an expression in which parentheses do not nest too deeply are parsed without
diagnostics. -/
theorem parseAll_clean (hr : Readies tokenModel r a) (e : Expr α (.chain .sum))
    (hn : e.nesting ≤ 101)
    (he : List.Forall₂ Carries tokens.before.toList (e.lexemes spell)) (s : ParseState) :
    (ParseContext.parseAll ⟨r, a, tokens⟩ 0 expression s).2.diagnostics = #[] := by
  have hgrammar : r.grammar = .ok grammar := by
    obtain ⟨g, hg, -⟩ := hr.finalized.exists_grammar
    rw [hg, (Registry.grammar_eq hr.finalized.plain hg).1, hr.productions]
  have hl : grammar.IsLL1 r.model := hr.model_eq ▸ isLL1_grammar
  have hanalyzed := hr.finalized.analyzed_grammar hr.eofApart hr.unambiguous hgrammar hl
  have hw : grammar.Derives Limits.maxParseDepth startRule
      ((e.lexemes spell).map fun x => x.1.asked) :=
    ⟨_, _, phrase?_rule mem_rules.1, by decide, derives_expression (e.derives_lexemes hn)⟩
  have hm : List.Forall₂ (fun t x => r.model.isA t.category x = true) tokens.before.toList
      ((e.lexemes spell).map fun x => x.1.asked) := by
    rw [List.forall₂_map_right_iff, hr.model_eq]
    exact he.imp fun t x hx => hx.category ▸ x.1.isA_asked
  obtain ⟨id, rule, hfind, hclean, -⟩ := ParseContext.parseAll_of_derives (c := ⟨r, a, tokens⟩)
    hr.finalized hr.eofApart hr.isGateFree hanalyzed hgrammar hw hm s
  obtain ⟨rfl, rfl⟩ := Prod.mk.inj (Option.some.inj (hr.find?_startRule.symm.trans hfind))
  exact hclean

/-! ## Texts -/

variable {c : Calculator} {p : TokenizerPreferences} {text : List Char}

/-- A calculator parses the tokens that it finds in a text. -/
theorem exists_evaluate (hr : Readies tokenModel c.engine.registry a) (text : List Char) :
    ∃ out s, c.evaluate text = .ok out
      ∧ ParseContext.parseAll
          ⟨c.engine.registry, a, .ofList (c.engine.tokenizer.tokenize text).tokens⟩
          0 expression .start = (out.parse.value, s)
      ∧ out.parse.lexical = (c.engine.tokenizer.tokenize text).diagnostics
      ∧ out.parse.syntactic = s.diagnostics.toList := by
  exact ⟨_, _, c.engine.parse_eq hr.finalized.analyzed hr.find?_startRule text, rfl, rfl, rfl⟩

theorem legible_of_carries {xs : List Lexeme} (h : List.Forall₂ Carries ts xs)
    (hxs : ∀ x ∈ xs, IsSpelled spell x) : ∀ t ∈ ts, Legible spell t := by
  induction h with
  | nil => exact fun t ht => nomatch ht
  | cons hx _ ih =>
    rw [List.forall_mem_cons] at hxs
    exact List.forall_mem_cons.2 ⟨⟨_, hx, hxs.1⟩, ih hxs.2⟩

/-- A text of the lexemes of an expression is read without diagnostics just if parentheses nest at
most 101 deep. Then its value is that of the expression. -/
theorem evaluate_spaced (hr : Readies tokenModel c.engine.registry a)
    (ht : Tokenizer.build tokenModel p = .ok c.engine.tokenizer)
    (hspell : Function.Injective spell) (hnumeral : ∀ a, IsNumeral (spell a))
    (e : Expr α (.chain .sum)) (hs : Spaced (e.lexemes spell) text)
    (hlimit : (e.lexemes spell).length ≤ p.tokenLimit) :
    ∃ out, c.evaluate text = .ok out ∧ out.parse.lexical = []
      ∧ (out.parse.syntactic = [] ↔ e.nesting ≤ 101)
      ∧ (out.parse.syntactic = [] → out.parse.value = e.value (valueOf spell)) := by
  have hspelled := e.isSpelled_lexemes hnumeral
  obtain ⟨ts, last, htokens, hcarries, hnone⟩ := tokenize_spaced ht hs
    (fun x hx => ⟨(hspelled x hx).isKept, (hspelled x hx).spells⟩) e.isChain_lexemes hlimit
  obtain ⟨out, s, hout, hparse, hlexical, hsyntactic⟩ := exists_evaluate hr text
  rw [htokens] at hparse
  rw [← TokenStream.before_ofList ts last] at hcarries
  have hmeans : out.parse.syntactic = [] →
      e.nesting ≤ 101 ∧ out.parse.value = e.value (valueOf spell) := by
    intro hempty
    rw [hsyntactic, Array.toList_eq_nil_iff] at hempty
    obtain ⟨e', hn, he', hvalue⟩ := exists_expr_of_parseAll hr
      (legible_of_carries hcarries hspelled) (s := .start) (by rw [hparse]; exact hempty)
    obtain rfl := e.lexemes_injective hspell e' (rightUnique_carries.forall₂ hcarries he')
    rw [hparse] at hvalue
    exact ⟨hn, hvalue⟩
  refine ⟨out, hout, hlexical.trans hnone, ⟨fun h => (hmeans h).1, fun hn => ?_⟩,
    fun h => (hmeans h).2⟩
  have hclean := parseAll_clean hr e hn hcarries .start
  rw [hparse] at hclean
  rw [hsyntactic, hclean]

/-- A text that is read without diagnostics is one of the lexemes of an expression, with the value
that was found. -/
theorem exists_expr_of_clean (hr : Readies tokenModel c.engine.registry a)
    (ht : Tokenizer.build tokenModel p = .ok c.engine.tokenizer) {out : EngineResult Float}
    (h : c.evaluate text = .ok out) (hlexical : out.parse.lexical = [])
    (hsyntactic : out.parse.syntactic = [])
    (hspell : ∀ u, IsNumeral u → (∀ d ∈ u, d ∈ text) → ∃ a, spell a = u) :
    ∃ e : Expr α (.chain .sum), Spaced (e.lexemes spell) text
      ∧ out.parse.value = e.value (valueOf spell) := by
  obtain ⟨out', s, hout, hparse, hlexical', hsyntactic'⟩ := exists_evaluate hr text
  obtain rfl := Except.ok.inj (hout.symm.trans h)
  obtain ⟨ts, last, xs, htokens, hcarries, hspaced, hxs⟩ :=
    spaced_of_tokenize ht (hlexical'.symm.trans hlexical)
  rw [htokens] at hparse
  rw [← TokenStream.before_ofList ts last] at hcarries
  have hclean : s.diagnostics = #[] := Array.toList_eq_nil_iff.1 (hsyntactic'.symm.trans hsyntactic)
  have hspelled : ∀ x ∈ xs, IsSpelled spell x := by
    rintro ⟨x, u⟩ hx
    refine ⟨(hxs _ hx).1, (hxs _ hx).2, ?_⟩
    rintro rfl
    exact hspell u (hxs _ hx).2 fun d hd => hspaced.mem_text hx hd
  obtain ⟨e, -, he, hvalue⟩ := exists_expr_of_parseAll hr (legible_of_carries hcarries hspelled)
    (s := .start) (by rw [hparse]; exact hclean)
  rw [hparse] at hvalue
  obtain rfl := rightUnique_carries.forall₂ hcarries he
  exact ⟨e, hspaced, hvalue⟩

/-! ## Natural numbers -/

theorem valueOf_toDigits : valueOf (Nat.toDigits 10) = Decimal.nearest :=
  funext literalValue_toDigits

/-- With the preferences of an environment that sets none, expressions over natural numbers are read
without diagnostics and evaluated, whatever white space there is. -/
theorem evaluate_expression {env : Environment}
    (henv : ∀ name ∈ Environment.variableNames, env.lookup name = none)
    (e : Expr Nat (.chain .sum)) (hn : e.nesting ≤ 101) {text : List Char}
    (hs : Spaced (e.lexemes (Nat.toDigits 10)) text)
    (hlength : (e.lexemes (Nat.toDigits 10)).length ≤ 1000000) :
    ∃ c out, build env.preferences = .ok c ∧ c.evaluate text = .ok out
      ∧ out.parse.lexical = [] ∧ out.parse.syntactic = []
      ∧ out.parse.value = e.value Decimal.nearest := by
  rw [Environment.preferences_of_unset henv]
  obtain ⟨c, a, hc, ht, hr⟩ := exists_build (Environment.preferences [])
  obtain ⟨out, hout, hlexical, hiff, hvalue⟩ :=
    evaluate_spaced hr ht toDigits_injective isNumeral_toDigits e hs hlength
  rw [valueOf_toDigits] at hvalue
  exact ⟨c, out, hc, hout, hlexical, hiff.2 hn, hvalue (hiff.2 hn)⟩

/-- Products bind more tightly than sums, and differences apply from left to right. -/
theorem evaluate_expression_differences :
    ∃ c out, build (Environment.preferences [("HOME", "/")]) = .ok c
      ∧ c.evaluate [' ', '9', '-', '\t', '(', '2', ')', '-', '3', '*', '1', '0', '\n'] = .ok out
      ∧ out.parse.lexical = [] ∧ out.parse.syntactic = []
      ∧ out.parse.value = Decimal.nearest 9 - Decimal.nearest 2
        - Decimal.nearest 3 * Decimal.nearest 10 := by
  let product (e : Expr Nat .atom) : Expr Nat (.chain .product) := .operand e
  let sum (e : Expr Nat .atom) : Expr Nat (.chain .sum) := .operand (product e)
  refine evaluate_expression (by decide)
    (.apply (.apply (sum (.number 9)) .minus (product (.paren (sum (.number 2))))) .minus
      (.apply (product (.number 3)) .times (.number 10))) (by decide) ?_ (by decide)
  exact @Spaced.cons [' '] _ _ _ (List.forall_mem_singleton.2 rfl) <| .adjoin <|
    @Spaced.cons ['\t'] _ _ _ (List.forall_mem_singleton.2 rfl) <| .adjoin <| .adjoin <|
    .adjoin <| .adjoin <| .adjoin <| .adjoin <| @Spaced.nil ['\n'] (List.forall_mem_singleton.2 rfl)

/-! ## Numerals of other scripts -/

/-- What is taken for a number. -/
abbrev Numeral := { cs : List Char // IsNumeral cs }

/-- The nearest number for ASCII digits, and zero as soon as there is a digit of another script. -/
def Numeral.value (n : Numeral) : Float :=
  if n.1.all (·.isDigit) then Decimal.nearest (Nat.ofDigitChars 10 n.1 0) else 0.0

theorem valueOf_numeral : valueOf (Subtype.val : Numeral → List Char) = Numeral.value := by
  funext n
  rw [Numeral.value, valueOf]
  split
  · rename_i h
    exact literalValue_ofList (List.all_eq_true.1 h)
  · rename_i h
    rw [literalValue, String.toList_ofList, if_neg h]

/-- Expressions over natural numbers have no digits of other scripts. -/
theorem Spaced.isDigit {e : Expr Nat (.chain .sum)} {text : List Char}
    (h : Spaced (e.lexemes (Nat.toDigits 10)) text) :
    ∀ d ∈ text, Unicode.isDecimalDigit d = true → d.isDigit = true := by
  intro d hd hdigit
  rcases h.isBlank_or_mem hd with hblank | ⟨⟨s, u⟩, hx, hmem⟩
  · cases hdigit.symm.trans (Unicode.isDecimalDigit_of_isBlank hblank)
  · have hspelled := e.isSpelled_lexemes isNumeral_toDigits _ hx
    by_cases hs : s = .number
    · obtain ⟨n, rfl⟩ := hspelled.number hs
      exact Nat.isDigit_of_mem_toDigits (by decide) le_rfl hmem
    · obtain rfl : u = s.text := congrArg Prod.snd (hspelled.eq_lexeme hs)
      have hascii : s.text.all Unicode.isAscii = true := by cases s <;> decide
      rwa [Unicode.isDecimalDigit, if_pos (List.all_eq_true.1 hascii d hmem)] at hdigit

/-- What is read without diagnostics is an expression over numerals, and has its value. It is one
over natural numbers just if the text has no digits of other scripts. -/
theorem expression_of_clean {p : Preferences} {c : Calculator} (hc : build p = .ok c)
    {text : List Char} {out : EngineResult Float} (h : c.evaluate text = .ok out)
    (hlexical : out.parse.lexical = []) (hsyntactic : out.parse.syntactic = []) :
    (∃ e : Expr Numeral (.chain .sum), Spaced (e.lexemes Subtype.val) text
        ∧ out.parse.value = e.value Numeral.value)
      ∧ ((∀ d ∈ text, Unicode.isDecimalDigit d = true → d.isDigit = true) ↔
        ∃ e : Expr Nat (.chain .sum), Spaced (e.lexemes (Nat.toDigits 10)) text
          ∧ out.parse.value = e.value Decimal.nearest) := by
  obtain ⟨c', a, hc', ht, hr⟩ := exists_build p
  obtain rfl := Except.ok.inj (hc'.symm.trans hc)
  rw [← valueOf_numeral, ← valueOf_toDigits]
  refine ⟨exists_expr_of_clean hr ht h hlexical hsyntactic fun u hu _ => ⟨⟨u, hu⟩, rfl⟩,
    fun hdigits => exists_expr_of_clean hr ht h hlexical hsyntactic fun u hu hmem => ?_,
    fun ⟨e, hs, _⟩ => hs.isDigit⟩
  exact hu.exists_toDigits fun d hd => hdigits d (hmem d hd) (hu.isDecimalDigit d hd)

/-- A product of two numbers is read as such. -/
theorem expression_of_clean_product :
    ∃ c out, build (Environment.preferences []) = .ok c ∧ c.evaluate ['2', '*', '3'] = .ok out
      ∧ out.parse.lexical = [] ∧ out.parse.syntactic = []
      ∧ ∃ e : Expr Nat (.chain .sum), Spaced (e.lexemes (Nat.toDigits 10)) ['2', '*', '3']
        ∧ out.parse.value = e.value Decimal.nearest := by
  obtain ⟨c, a, hc, ht, hr⟩ := exists_build (Environment.preferences [])
  let product : Expr Nat (.chain .product) := .apply (.operand (.number 2)) .times (.number 3)
  have hs : Spaced ((Expr.operand product : Expr Nat (.chain .sum)).lexemes (Nat.toDigits 10))
      ['2', '*', '3'] := .adjoin <| .adjoin <| .adjoin <| .nil (List.forall_mem_nil _)
  obtain ⟨out, hout, hlexical, hiff, -⟩ :=
    evaluate_spaced hr ht toDigits_injective isNumeral_toDigits _ hs (by decide)
  have hsyntactic := hiff.2 (by decide)
  have hdigits : ∀ d ∈ ['2', '*', '3'], Unicode.isDecimalDigit d = true → d.isDigit = true := by
    simp [Unicode.isDecimalDigit, Unicode.isAscii]
  exact ⟨c, out, hc, hout, hlexical, hsyntactic,
    (expression_of_clean hc hout hlexical hsyntactic).2.1 hdigits⟩

/-- A numeral with a digit of another script goes unnoticed, and its value is zero. -/
theorem exists_clean_without_expression :
    ∃ c out, build (Environment.preferences []) = .ok c ∧ c.evaluate ['1', '٣'] = .ok out
      ∧ out.parse.lexical = [] ∧ out.parse.syntactic = [] ∧ out.parse.value = 0.0
      ∧ ∀ e : Expr Nat (.chain .sum), ¬Spaced (e.lexemes (Nat.toDigits 10)) ['1', '٣'] := by
  have hdigit : Unicode.isDecimalDigit '٣' = true := by decide
  let numeral : Numeral := ⟨['1', '٣'], .digits (by decide) (List.forall_mem_singleton.2 hdigit)⟩
  obtain ⟨c, a, hc, ht, hr⟩ := exists_build (Environment.preferences [])
  have hs : Spaced ((Expr.operand (.operand (.number numeral)) : Expr Numeral (.chain .sum)).lexemes
      Subtype.val) ['1', '٣'] := .adjoin <| .nil (List.forall_mem_nil _)
  have hlimit : 1 ≤ (Environment.preferences []).tokenizer.tokenLimit := by decide
  obtain ⟨out, hout, hlexical, hiff, hvalue⟩ :=
    evaluate_spaced hr ht Subtype.val_injective (·.2) _ hs hlimit
  have hsyntactic := hiff.2 (Nat.zero_le _)
  refine ⟨c, out, hc, hout, hlexical, hsyntactic, ?_, fun e he => ?_⟩
  · rw [hvalue hsyntactic, valueOf_numeral]
    rfl
  · exact absurd (he.isDigit '٣' (by simp) hdigit) (by decide)

end Calculator

end PredictiveParsing
