import PredictiveParsing.Proofs.Calculator.Symbols
import PredictiveParsing.Proofs.Lookahead.Settled
import PredictiveParsing.Proofs.Parsing.Completeness

/-!
# The rules of arithmetic

The rules have no defect, and one token decides everywhere: whether another operator follows, and
whether an operand is a number or stands in parentheses. So they are unambiguous with any number of
tokens of lookahead.
-/

namespace PredictiveParsing.Calculator

def grammar : Grammar := .ofList (rules.map Rule.production)

def operandsPhrase : Phrase := .choice 1 (fun _ => false) (fun k => (operands k).phrase) .nil

theorem productions_grammar : grammar.productions = #[
    ⟨"expression", .call "additionExpression" 1 .nil⟩,
    ⟨"additionExpression", (chain .additionOperator "multiplicationExpression").phrase⟩,
    ⟨"multiplicationExpression", (chain .multiplicationOperator "atomicExpression").phrase⟩,
    ⟨"atomicExpression", operandsPhrase⟩,
    ⟨"parenthesisExpression", .terminal Symbol.opening.id 1 (.call "expression" 1
      (.terminal Symbol.closing.id 1 .nil))⟩] := rfl

theorem phrase_chain (op : Symbol) (name : String) : (chain op name).phrase =
    .call name 1 (.repetition 1 false (.terminal op.id 1 (.call name 2 .nil)) .nil) := rfl

theorem phrase_operands : (operands 0).phrase = .call "parenthesisExpression" 1 .nil
    ∧ (operands 1).phrase = .terminal Symbol.number.id 1 .nil := ⟨rfl, rfl⟩

theorem mem_places_chain {op : Symbol} {name : String} {place : Place} :
    place ∈ (chain op name).phrase.places [] ↔
      place = ⟨(chain op name).phrase, [.rest (.repetition 1 false
          (.terminal op.id 1 (.call name 2 .nil)) .nil)]⟩
        ∨ place = ⟨.repetition 1 false (.terminal op.id 1 (.call name 2 .nil)) .nil, [.rest .nil]⟩
        ∨ place = ⟨.terminal op.id 1 (.call name 2 .nil), [.rest (.call name 2 .nil),
          .again (.terminal op.id 1 (.call name 2 .nil)), .rest .nil]⟩
        ∨ place = ⟨.call name 2 .nil, [.rest .nil,
          .again (.terminal op.id 1 (.call name 2 .nil)), .rest .nil]⟩ := by
  simp [phrase_chain, Phrase.places]

theorem mem_places_operands {place : Place} : place ∈ operandsPhrase.places [] ↔
    place = ⟨operandsPhrase, [.rest .nil]⟩
      ∨ place = ⟨.call "parenthesisExpression" 1 .nil, [.rest .nil, .rest .nil]⟩
      ∨ place = ⟨.terminal Symbol.number.id 1 .nil, [.rest .nil, .rest .nil]⟩ := by
  simp [operandsPhrase, Phrase.places, List.ofFn_succ, phrase_operands]

theorem names_rules : rules.map (·.name) = ["expression", "additionExpression",
    "multiplicationExpression", "atomicExpression", "parenthesisExpression"] := rfl

theorem nodup_names : (rules.map (·.name)).Nodup := by simp [names_rules]

theorem ruleId?_eq_some {name : String} {i : RuleId} :
    grammar.ruleId? name = some i ↔ (rules.map (·.name))[i]? = some name := by
  rw [Grammar.ruleId?, grammar, Grammar.ofList]
  simp only [List.map_map]
  exact Grammar.getElem?_numbering nodup_names

theorem ruleId?_grammar : grammar.ruleId? "expression" = some 0
    ∧ grammar.ruleId? "additionExpression" = some 1
    ∧ grammar.ruleId? "multiplicationExpression" = some 2
    ∧ grammar.ruleId? "atomicExpression" = some 3
    ∧ grammar.ruleId? "parenthesisExpression" = some 4 := by
  simp [ruleId?_eq_some, names_rules]

/-! ## What the rules start with -/

private theorem nullableStep_grammar (known : Array Bool) : grammar.nullableStep known =
    #[known[1]?.getD false, known[2]?.getD false, known[3]?.getD false, known[4]?.getD false,
      false] := by
  simp [Grammar.nullableStep, productions_grammar, phrase_chain, operandsPhrase, Phrase.isNullable,
    Grammar.ofRule, ruleId?_grammar, List.ofFn_succ, phrase_operands]

/-- No rule can consume nothing. -/
theorem nullable_grammar : grammar.nullable = Array.replicate 5 false := by
  have hsize : grammar.size = 5 := rfl
  rw [Grammar.nullable, hsize]
  exact untilStable_of_stable (by rw [nullableStep_grammar]; rfl) _

theorem isNullable_grammar (name : String) :
    (RuleFacts.ofGrammar grammar).isNullable name = false := by
  rw [RuleFacts.isNullable, RuleFacts.ofGrammar, Grammar.ofRule, nullable_grammar]
  cases grammar.ruleId? name with
  | none => rfl
  | some i => by_cases h : i < 5 <;> simp [h]

private theorem firstStep_grammar (known : Array CategorySet) :
    grammar.firstStep grammar.nullable known =
      #[known[1]?.getD .empty, known[2]?.getD .empty, known[3]?.getD .empty,
        .empty ∪ known[4]?.getD .empty ∪ CategorySet.empty.insert Symbol.number.id,
        CategorySet.empty.insert Symbol.opening.id] := by
  simp [Grammar.firstStep, productions_grammar, phrase_chain, operandsPhrase, Phrase.isNullable,
    Phrase.first, nullable_grammar, Grammar.ofRule, ruleId?_grammar, List.ofFn_succ,
    phrase_operands]

theorem size_grammar : grammar.size = 5 ∧ grammar.pieceCount = 15 := ⟨rfl, rfl⟩

private theorem first_grammar : (RuleFacts.ofGrammar grammar).first.map (·.toList) =
    #[[.opening, .number], [.opening, .number], [.opening, .number], [.opening, .number],
      [.opening]].map (·.map Symbol.id) := by
  rw [RuleFacts.ofGrammar, Grammar.first, funext firstStep_grammar, size_grammar.1, size_grammar.2]
  decide +kernel

/-! ## What follows the rules -/

def calls : List CallSite :=
  let only (s : Symbol) := CategorySet.empty.insert s.id
  [⟨0, 1, .empty, true⟩, ⟨1, 2, only .additionOperator, true⟩,
    ⟨1, 2, only .additionOperator, true⟩, ⟨2, 3, only .multiplicationOperator, true⟩,
    ⟨2, 3, only .multiplicationOperator, true⟩, ⟨3, 4, .empty, true⟩, ⟨4, 0, only .closing, false⟩]

private theorem callSites_grammar (first : Array CategorySet) :
    grammar.callSites grammar.nullable first = calls := by
  simp [Grammar.callSites, productions_grammar, phrase_chain, operandsPhrase, Phrase.places,
    ruleId?_grammar, List.ofFn_succ, phrase_operands, Frame.first, Frame.reachesEnd,
    Phrase.isNullable, Phrase.first, List.zipIdx]
  rfl

def followers : Array (List Symbol) :=
  #[[.closing], [.closing], [.additionOperator, .closing],
    [.additionOperator, .multiplicationOperator, .closing],
    [.additionOperator, .multiplicationOperator, .closing]]

private theorem follow_grammar : (RuleFacts.ofGrammar grammar).follow.map (·.toList) =
    followers.map (·.map Symbol.id) := by
  rw [RuleFacts.ofGrammar]
  simp only [callSites_grammar, Grammar.follow, size_grammar.1, size_grammar.2]
  decide +kernel

/-! ## One token decides -/

private theorem overlaps_id {s x : Symbol} : tokenModel.overlaps s.id x.id = true ↔
    x = s ∨ s.parent? = some x ∨ x.parent? = some s := by
  rw [TokenModel.overlaps, Bool.or_eq_true, isA_id, isA_id]
  tauto

theorem overlaps_eq_false {s x : Symbol} (h : ¬(x = s ∨ s.parent? = some x ∨ x.parent? = some s)) :
    tokenModel.overlaps s.id x.id = false := Bool.eq_false_iff.2 (mt overlaps_id.1 h)

/-- What is known of a rule are symbols. -/
theorem exists_symbol {facts : Array CategorySet} {lists : Array (List Symbol)}
    (h : facts.map (·.toList) = lists.map (·.map Symbol.id)) {r : RuleId} {t : CategorySet}
    (ht : facts[r]? = some t) {y : CategoryId} (hy : y ∈ t) :
    ∃ s ∈ lists[r]?.getD [], y = s.id := by
  have hget : (facts.map (·.toList))[r]? = some t.toList := by rw [Array.getElem?_map, ht]; rfl
  rw [h, Array.getElem?_map, Option.map_eq_some_iff] at hget
  obtain ⟨symbols, hsymbols, hlist⟩ := hget
  obtain ⟨s, hs, rfl⟩ := List.mem_map.1 (hlist ▸ hy : y ∈ symbols.map Symbol.id)
  exact ⟨s, by rwa [hsymbols], rfl⟩

theorem starts_terminal {s : RuleFacts} {c x : CategoryId} {i : Nat} {rest : Phrase} :
    s.Starts (.terminal c i rest) x ↔ x = c :=
  CategorySet.mem_insert.trans (or_iff_left (CategorySet.not_mem_empty x))

/-- A further round of a chain starts with an operator, and none of the like follows the chain. -/
theorem decides_chain {r : RuleId} {op : Symbol} {name : String}
    (hfollow : ∀ s ∈ followers[r]?.getD [],
      ¬(s = op ∨ op.parent? = some s ∨ s.parent? = some op)) :
    ∀ place ∈ (chain op name).phrase.places [],
      (RuleFacts.ofGrammar grammar).Decides tokenModel r place := by
  intro place hplace
  rcases mem_places_chain.1 hplace with rfl | rfl | rfl | rfl
  · trivial
  · refine ⟨rfl, fun x y hx hy => ?_⟩
    obtain rfl := starts_terminal.1 hx
    rcases hy with hy | ⟨-, t, ht, hy⟩
    · rcases Frame.mem_first_rest.1 hy with hy | ⟨-, hy⟩ <;>
        exact absurd hy (CategorySet.not_mem_empty y)
    · obtain ⟨s, hs, rfl⟩ := exists_symbol follow_grammar ht hy
      exact overlaps_eq_false (hfollow s hs)
  · trivial
  · trivial

private theorem starts_operands {k : Fin 2} {x : CategoryId}
    (hx : (RuleFacts.ofGrammar grammar).Starts (operands k).phrase x) :
    x = (if k = 0 then Symbol.opening else Symbol.number).id := by
  match k with
  | 0 =>
    rw [phrase_operands.1, RuleFacts.Starts, Phrase.first, if_neg (by simp [isNullable_grammar]),
      RuleFacts.firstOf, Grammar.ofRule] at hx
    have hid : (RuleFacts.ofGrammar grammar).grammar.ruleId? "parenthesisExpression" = some 4 :=
      ruleId?_grammar.2.2.2.2
    rw [hid, Option.bind_some] at hx
    cases ht : (RuleFacts.ofGrammar grammar).first[4]? with
    | none =>
      rw [ht] at hx
      exact absurd hx (CategorySet.not_mem_empty x)
    | some t =>
      rw [ht] at hx
      obtain ⟨s, hs, rfl⟩ := exists_symbol first_grammar ht hx
      obtain rfl := List.mem_singleton.1 hs
      rfl
  | 1 => exact starts_terminal.1 (phrase_operands.2 ▸ hx)

private theorem decides_operands {r : RuleId} : ∀ place ∈ operandsPhrase.places [],
    (RuleFacts.ofGrammar grammar).Decides tokenModel r place := by
  intro place hplace
  rcases mem_places_operands.1 hplace with rfl | rfl | rfl
  · refine ⟨fun k => ?_, fun j k hjk x y hx hy => ?_⟩
    · match k with
      | 0 => simp [phrase_operands, Phrase.isNullable, isNullable_grammar]
      | 1 => rfl
    · rw [starts_operands hx, starts_operands hy]
      refine overlaps_eq_false ?_
      clear hx hy
      revert j k
      decide
  · trivial
  · trivial

/-- One token decides everywhere. -/
theorem isLL1_grammar : grammar.IsLL1 tokenModel := by
  intro r p hp
  rw [productions_grammar] at hp
  rcases r with _ | _ | _ | _ | _ | r
  · obtain rfl := Option.some.inj hp
    simp [Phrase.places, RuleFacts.Decides]
  · obtain rfl := Option.some.inj hp
    exact decides_chain (by decide)
  · obtain rfl := Option.some.inj hp
    exact decides_chain (by decide)
  · obtain rfl := Option.some.inj hp
    exact decides_operands
  · obtain rfl := Option.some.inj hp
    simp [Phrase.places, RuleFacts.Decides]
  · cases hp

/-! ## No defects and no ambiguities -/

private theorem leads_grammar :
    (RuleFacts.ofGrammar grammar).leads = #[[1], [2], [3], [4], []] := by
  have hgrammar : (RuleFacts.ofGrammar grammar).grammar = grammar := rfl
  simp [RuleFacts.leads, hgrammar, productions_grammar, operandsPhrase, phrase_chain,
    Phrase.callsInFront, isNullable_grammar, ruleId?_grammar, List.ofFn_succ, phrase_operands]
  decide

private theorem leftCycle?_grammar : (RuleFacts.ofGrammar grammar).leftCycle? = none := by
  rw [RuleFacts.leftCycle?, leads_grammar]
  rfl

private theorem isSome_get?_id (s : Symbol) : (tokenModel.get? s.id).isSome = true := by
  have hsize : tokenModel.categories.size = 11 := by
    rw [categories_tokenModel]
    rfl
  have hlt : s.id < tokenModel.categories.size := by
    rw [hsize]
    cases s <;> decide
  rw [TokenModel.get?, Array.getElem?_eq_getElem hlt]
  rfl

private theorem formalDefect?_grammar : grammar.formalDefect? tokenModel = none := by
  have hcategory : ∀ s : Symbol, tokenModel.get? s.id ≠ none := by
    intro s hs
    simpa [hs] using isSome_get?_id s
  have hproductions := congrArg Array.toList productions_grammar
  simp only [Grammar.formalDefect?, emptyCategory?_tokenModel, hproductions,
    Option.or_eq_none_iff, List.findSome?_eq_none_iff, List.forall_mem_cons, phrase_chain,
    operandsPhrase]
  refine ⟨⟨⟨rfl, ?_⟩, ?_⟩, ?_⟩
  · simp [Production.undefinedCategory?, Phrase.occurrences, List.ofFn_succ, phrase_operands,
      hcategory]
  · simp [Production.undefinedRule?, Phrase.occurrences, List.ofFn_succ, phrase_operands,
      ruleId?_grammar]
  · have hne : Symbol.opening.id ≠ Symbol.closing.id := by decide
    simp [Production.repeatedOccurrence?, firstRepeated?_eq_none, Phrase.occurrences,
      List.ofFn_succ, phrase_operands, hne]

private theorem settled_chain {op : Symbol} {name : String} :
    ∀ place ∈ (chain op name).phrase.places [],
    ∀ x ∈ place.branches?, Branch.Settled grammar tokenModel x.2.2 := by
  intro place hplace x hx
  rcases mem_places_chain.1 hplace with rfl | rfl | rfl | rfl
  · cases hx
  · obtain rfl := Option.some.inj hx
    have hround : StartsWith grammar op.id [.terminal op.id 1 (.call name 2 .nil), .nil] :=
      .terminal (by decide : 1 < Limits.maxParseDepth)
    refine hround.settled (fun y hy => ?_) (all?_nil grammar)
    cases Expands.empty_iff.1 (Expands.nil_iff.1 hy)
  · cases hx
  · cases hx

private theorem phrase?_parenthesis : grammar.phrase? "parenthesisExpression" =
    some (.terminal Symbol.opening.id 1 (.call "expression" 1
      (.terminal Symbol.closing.id 1 .nil))) := by
  rw [Grammar.phrase?, ruleId?_grammar.2.2.2.2, Option.bind_some, productions_grammar]
  rfl

private theorem settled_operands : ∀ place ∈ operandsPhrase.places [], ∀ x ∈ place.branches?,
    Branch.Settled grammar tokenModel x.2.2 := by
  intro place hplace x hx
  rcases mem_places_operands.1 hplace with rfl | rfl | rfl
  · obtain rfl := Option.some.inj hx
    have hnumber : StartsWith grammar Symbol.number.id [(operands 1).phrase, .nil] :=
      .terminal (by decide)
    refine StartsWith.settled (c := Symbol.opening.id)
      (.call (by decide) phrase?_parenthesis) (fun y hy => ?_) hnumber.explored
    rw [hnumber.eq hy]
    exact overlaps_eq_false (by decide)
  · cases hx
  · cases hx

/-- The rules can be analyzed with any number of tokens of lookahead, and are not ambiguous. -/
theorem analyze_grammar (k : Nat) :
    ∃ a, grammar.analyze tokenModel k = .ok a ∧ a.isAmbiguous = false := by
  have hanalyze : grammar.analyze tokenModel k
      = .ok (Grammar.analysisOf (.ofGrammar grammar) tokenModel k) := by
    simp only [Grammar.analyze, formalDefect?_grammar, leftCycle?_grammar]
  refine ⟨_, hanalyze, ?_⟩
  have hnone := Grammar.ambiguities_of_settled hanalyze fun p hp => ?_
  · rw [AnalyzedGrammar.isAmbiguous, hnone]
    rfl
  · rw [productions_grammar] at hp
    simp only [List.mem_toArray, List.mem_cons, List.not_mem_nil, or_false] at hp
    rcases hp with rfl | rfl | rfl | rfl | rfl
    · simp [Phrase.places, Place.branches?]
    · exact settled_chain
    · exact settled_chain
    · exact settled_operands
    · simp [Phrase.places, Place.branches?]

end PredictiveParsing.Calculator
