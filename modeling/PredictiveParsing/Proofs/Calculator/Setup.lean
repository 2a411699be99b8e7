import PredictiveParsing.Proofs.Calculator.Pieces
import PredictiveParsing.Proofs.Calculator.Rules

/-!
# Calculators as they are built

Rules with names of their own are registered one after the other, so that a calculator can be built
with any preferences. It tokenizes a text and parses the tokens from the start rule on.
-/

namespace PredictiveParsing

theorem Log.bind_fst {α β : Type} (x : Logged α) (f : α → Logged β) (j : Array Event) :
    ((x >>= f) j).1 = (f (x j).1 (x j).2).1 := rfl

/-! ## Rules that are registered together -/

namespace Registry

variable {V : Type} {r : Registry V}

private theorem defineLogged_fst (r : Registry V) (rule : Rule V) (j : Array Log.Event) :
    (r.defineLogged rule j).1 = r.define rule := by
  unfold defineLogged
  obtain ⟨outcome, r'⟩ := r.define rule
  rcases outcome with (_ | _ | _) | _ <;> rfl

private theorem define_of_fresh (hr : r.WellFormed) {rule : Rule V} (hname : rule.name ∉ r.names)
    (hsize : r.size < Limits.maxRules) : r.define rule = (.ok r.size, r.push rule) := by
  rw [define, hr.refusal?_eq_none.2 ⟨hname, hsize⟩]

private theorem defineAllLogged_of_fresh {rules : List (Rule V)} (hr : r.Built)
    (hnames : (r.names ++ rules.map (·.name)).Nodup)
    (hsize : r.size + rules.length ≤ Limits.maxRules) (j : Array Log.Event) :
    (r.defineAllLogged rules j).1 = (.ok (), rules.foldl push r) ∧ (rules.foldl push r).Built := by
  induction rules generalizing r j with
  | nil => exact ⟨rfl, hr⟩
  | cons rule rules ih =>
    rw [List.length_cons] at hsize
    have hfresh : rule.name ∉ r.names := fun h =>
      (List.nodup_append.1 hnames).2.2 _ h _ List.mem_cons_self rfl
    have hdefine := define_of_fresh hr.wellFormed hfresh (by omega)
    have hpush : (r.push rule).Built := by
      have hbuilt := hr.define rule
      rwa [hdefine] at hbuilt
    have hpushed : (r.push rule).names = r.names ++ [rule.name] := by simp [names, push]
    have hcount : (r.push rule).size = r.size + 1 := by simp [size, push]
    obtain ⟨hall, hbuilt⟩ := ih hpush (by simpa [hpushed] using hnames) (by omega)
      (r.defineLogged rule j).2
    refine ⟨?_, hbuilt⟩
    rw [defineAllLogged, Log.bind_fst, defineLogged_fst, hdefine]
    exact hall

private theorem foldl_push (r : Registry V) (rules : List (Rule V)) :
    (rules.foldl push r).rules = r.rules ++ rules.toArray
      ∧ (rules.foldl push r).model = r.model
      ∧ (rules.foldl push r).preferences = r.preferences
      ∧ (r.outcome = none → (rules.foldl push r).outcome = none) := by
  induction rules generalizing r with
  | nil => simp
  | cons rule rules ih =>
    obtain ⟨hrules, hmodel, hpreferences, houtcome⟩ := ih (r.push rule)
    refine ⟨hrules.trans ?_, hmodel, hpreferences, fun _ => houtcome rfl⟩
    simp [push]

private theorem grammar_of_records (h : ∀ rule ∈ r.rules, r.record rule = .ok rule.production) :
    r.grammar = .ok (.ofList r.productions) := by
  have hall : r.rules.toList.mapM r.record = .ok r.productions := by
    rw [Outcome.mapM_eq_ok, productions, List.forall₂_map_right_iff, List.forall₂_same]
    exact fun rule hrule => h rule (Array.mem_toList_iff.1 hrule)
  rw [grammar, hall]
  rfl

end Registry

/-! ## Engines -/

namespace Engine

variable {V : Type}

private theorem buildLogged_fst {t : Tokenizer} {r : Registry V} {a : AnalyzedGrammar}
    (htag : t.model.tag = r.model.tag) (h : r.finalize.outcome = some (.ok a))
    (j : Array Log.Event) : (buildLogged t r j).1 = .ok ⟨t, r.finalize⟩ := by
  have hfinalize : (r.finalizeLogged j).1 = r.finalize := by
    unfold Registry.finalizeLogged
    cases r.outcome <;> cases r.finalize.outcome <;> rfl
  rw [buildLogged, if_neg (not_not.2 htag), Log.bind_fst, hfinalize, h]
  rfl

/-- A text is tokenized, and its tokens are parsed from the start rule on. -/
theorem parse_eq (e : Engine V) {a : AnalyzedGrammar} (h : e.registry.outcome = some (.ok a))
    {start : String} {id : RuleId} {rule : Rule V}
    (hfind : e.registry.find? start = some (id, rule)) (text : List Char) :
    let o := e.tokenizer.tokenize text
    let parsed := ParseContext.parseAll ⟨e.registry, a, .ofList o.tokens⟩ id rule .start
    e.parse start text = .ok ⟨⟨parsed.1, o.diagnostics, parsed.2.diagnostics.toList,
      parsed.2.suppressed⟩, o.groups, o.counts, o.tokens.length⟩ := by
  have hsession : ∀ tokens,
      e.registry.session tokens = .ok ⟨⟨e.registry, a, tokens⟩, [], .start⟩ := by
    intro tokens
    rw [Registry.session, h]
  simp only [parse, parseLogged, Tokenizer.tokenizeLogged, Tokenizer.scanLogged, hsession,
    Session.invokeLogged, Session.invoke, hfind]
  rfl

end Engine

/-! ## Calculators -/

namespace Calculator

def registryOf (m : TokenModel) (p : ParserPreferences) : Registry Float :=
  { rules.foldl Registry.push (.empty m p 0.0) with mayInsert := (· != Symbol.number.id) }

theorem defineRulesLogged_fst {m : TokenModel} (hm : m.Built) (p : ParserPreferences)
    (j : Array Log.Event) : (defineRulesLogged (.empty m p 0.0) j).1 = (.ok (), registryOf m p)
      ∧ (registryOf m p).Built := by
  have hsize : (Registry.empty m p (0.0 : Float)).size + rules.length ≤ Limits.maxRules := by
    change 5 ≤ 10000
    decide
  have hnames : ((Registry.empty m p (0.0 : Float)).names ++ rules.map (·.name)).Nodup := by
    simpa [Registry.names, Registry.empty] using nodup_names
  obtain ⟨hall, hbuilt⟩ := Registry.defineAllLogged_of_fresh (.empty hm p 0.0) hnames hsize j
  refine ⟨?_, .policy _ hbuilt⟩
  rw [defineRulesLogged, Log.bind_fst, hall]
  rfl

private theorem record_rules (r : Registry Float) :
    ∀ rule ∈ rules, r.record rule = .ok rule.production := by
  have hatomic : r.record atomicExpression = .ok atomicExpression.production := by
    have hrecord : r.record atomicExpression = .ok ⟨"atomicExpression", .choice 1 (fun _ => false)
        (fun k => #[(operands 0).phrase, (operands 1).phrase][k.val]?.getD .nil) .nil⟩ := rfl
    have hbranches : (fun k : Fin 2 =>
        #[(operands 0).phrase, (operands 1).phrase][k.val]?.getD .nil)
        = fun k => (operands k).phrase := by
      funext k
      match k with
      | 0 => rfl
      | 1 => rfl
    rw [hrecord, hbranches]
    rfl
  simp only [rules, List.forall_mem_cons, List.not_mem_nil, false_implies, implies_true, and_true]
  exact ⟨rfl, rfl, rfl, hatomic, rfl⟩

private theorem plain_rules : ∀ rule ∈ rules, rule.body.isPlain = true := by decide

theorem rules_registryOf (m : TokenModel) (p : ParserPreferences) :
    (registryOf m p).rules = rules.toArray ∧ (registryOf m p).model = m
      ∧ (registryOf m p).preferences = p ∧ (registryOf m p).outcome = none := by
  obtain ⟨hrules, hmodel, hpreferences, houtcome⟩ :=
    Registry.foldl_push (.empty m p (0.0 : Float)) rules
  exact ⟨by simpa [registryOf, Registry.empty] using hrules, hmodel, hpreferences, houtcome rfl⟩

/-- The rules of a calculator with their analysis. -/
structure Readies (m : TokenModel) (r : Registry Float) (a : AnalyzedGrammar) : Prop where
  finalized : r.Finalized a
  unambiguous : a.isAmbiguous = false
  model_eq : r.model = m
  rules_eq : r.rules = rules.toArray

private theorem readies_of_analyze {m : TokenModel} (hm : m.Built) {p : ParserPreferences}
    {a : AnalyzedGrammar} (ha : grammar.analyze m p.lookaheadLimit = .ok a)
    (hclear : a.isAmbiguous = false) : Readies m (registryOf m p).finalize a := by
  obtain ⟨hrules, hmodel, hpreferences, houtcome⟩ := rules_registryOf m p
  have hall : ∀ rule ∈ (registryOf m p).rules, rule ∈ rules := fun rule hrule => by
    simpa [hrules] using hrule
  have hgrammar : (registryOf m p).grammar = .ok grammar := by
    rw [Registry.grammar_of_records fun rule hrule => record_rules _ rule (hall rule hrule),
      Registry.productions, hrules]
    rfl
  have hanalyze : (registryOf m p).analyze = .ok a := by
    rw [Registry.analyze, hgrammar, hmodel, hpreferences, ← ha]
    rfl
  have hfinalize : (registryOf m p).finalize
      = { registryOf m p with outcome := some (.ok a) } := by
    rw [Registry.finalize, houtcome, hanalyze]
  rw [hfinalize]
  refine ⟨⟨?_, fun rule hrule => plain_rules rule (hall rule hrule), rfl⟩, hclear, hmodel, hrules⟩
  rw [← hfinalize]
  exact .finalize (defineRulesLogged_fst hm p #[]).2

private theorem ofModelLogged_fst {m : TokenModel} (hm : m.Built) {t : TokenizerPreferences}
    {p : ParserPreferences} {table : DispatchTable} {a : AnalyzedGrammar}
    (hvalid : m.validate = .ok ()) (htable : DispatchTable.build m = .ok table)
    (hr : Readies m (registryOf m p).finalize a) (j : Array Log.Event) :
    (ofModelLogged m t p j).1 = .ok ⟨⟨⟨m, some table, t⟩, (registryOf m p).finalize⟩⟩ := by
  have hrules := fun j => (defineRulesLogged_fst hm p j).1
  have htag : m.tag = (registryOf m p).model.tag := by rw [(rules_registryOf m p).2.1]
  have hengine := fun j => Engine.buildLogged_fst (t := ⟨m, some table, t⟩) htag
    hr.finalized.analyzed j
  have htokenizer : (Tokenizer.buildLogged m t j).1 = .ok ⟨m, some table, t⟩ := by
    unfold Tokenizer.buildLogged
    rw [Tokenizer.build_of_table hvalid htable]
    rfl
  rw [ofModelLogged, Log.bind_fst, htokenizer]
  dsimp only
  rw [Log.bind_fst, hrules]
  dsimp only
  rw [Log.bind_fst, hengine]
  rfl

private theorem build_eq (p : Preferences) : build p =
    (ofModelLogged tokenModel p.tokenizer p.parser (vocabularyLogged .empty #[]).2).1 := by
  unfold build buildLogged tokenModel
  generalize vocabularyLogged .empty = vocabulary
  rfl

/-- A calculator can be built with any preferences. -/
theorem exists_build (p : Preferences) : ∃ c a, build p = .ok c
    ∧ Tokenizer.build tokenModel p.tokenizer = .ok c.engine.tokenizer
    ∧ Readies tokenModel c.engine.registry a := by
  obtain ⟨table, htable⟩ := exists_table
  obtain ⟨a, ha, hclear⟩ := analyze_grammar p.parser.lookaheadLimit
  have hr := readies_of_analyze built_tokenModel ha hclear
  have hbuild := ofModelLogged_fst (t := p.tokenizer) built_tokenModel validate_tokenModel htable hr
    (vocabularyLogged .empty #[]).2
  exact ⟨_, a, (build_eq p).trans hbuild, Tokenizer.build_of_table validate_tokenModel htable, hr⟩

/-! ## What a calculator does with a text -/

private theorem parentOf_eof :
    TokenModel.parentOf tokenModel.categories CategoryId.eof = none := by
  rw [categories_tokenModel]
  rfl

namespace Readies

variable {m : TokenModel} {r : Registry Float} {a : AnalyzedGrammar}

theorem find? (h : Readies m r a) {name : String} {id : RuleId} {rule : Rule Float} :
    r.find? name = some (id, rule) ↔ rules[id]? = some rule ∧ rule.name = name := by
  rw [h.finalized.built.wellFormed.find?_eq_some, h.rules_eq]
  simp

theorem find?_startRule (h : Readies m r a) : r.find? startRule = some (0, expression) :=
  h.find?.2 ⟨rfl, rfl⟩

theorem productions (h : Readies m r a) : Grammar.ofList r.productions = grammar := by
  rw [Registry.productions, h.rules_eq]
  rfl

theorem isGateFree (h : Readies m r a) : r.IsGateFree := by
  rw [Registry.IsGateFree, h.rules_eq]
  simp [rules, expression, additionExpression, multiplicationExpression,
    atomicExpression, parenthesisExpression, chain, Body.IsGateFree, operands, Fin.forall_fin_two]

theorem eofApart (h : Readies tokenModel r a) : r.EofApart where
  not_consumed := by
    rw [h.rules_eq]
    have hne : ∀ s : Symbol, CategoryId.eof ≠ s.id := fun s => by cases s <;> decide
    have hnil : ¬Phrase.nil.Consumes CategoryId.eof := by simp [Phrase.Consumes, Phrase.occurrences]
    simp [rules, expression, additionExpression, multiplicationExpression,
      atomicExpression, parenthesisExpression, chain, operands, Body.phrase,
      Phrase.consumes_terminal, Phrase.consumes_call, Phrase.consumes_repetition,
      Phrase.consumes_choice, hne, hnil]
  no_parent := by
    rw [h.model_eq]
    exact parentOf_eof

end Readies

end Calculator

end PredictiveParsing
