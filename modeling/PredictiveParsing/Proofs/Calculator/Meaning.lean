import PredictiveParsing.Proofs.Calculator.Pieces
import PredictiveParsing.Proofs.Calculator.Setup
import PredictiveParsing.Proofs.Parsing.Readings

/-!
# What the rules mean

The tokens that a rule reads are the lexemes of an expression, and the value of the rule is that of
the expression. In turn the rules derive all expressions. Calls nest five deeper for every pair of
parentheses around a number.
-/

namespace PredictiveParsing.Calculator

/-! ## Rules of the levels -/

def Tier.operator : Tier → Symbol
  | sum => .additionOperator
  | product => .multiplicationOperator

def Tier.combine : Tier → CategoryId → Float → Float → Float
  | sum => addOrSubtract
  | product => multiplyOrDivide

namespace Level

def rule : Level → Rule Float
  | atom => atomicExpression
  | chain .sum => additionExpression
  | chain .product => multiplicationExpression

/-- How deep calls nest below the rule of a level where parentheses nest so deep. -/
def depth (n : Nat) : Level → Nat
  | atom => 5 * n
  | chain .product => 5 * n + 1
  | chain .sum => 5 * n + 2

theorem depth_chain (n : Nat) (c : Tier) : (chain c).depth n = c.operand.depth n + 1 := by
  cases c <;> rfl

theorem depth_chain_lt {c : Tier} {n d : Nat} (h : c.operand.depth n < d) :
    (chain c).depth n < d + 1 := by
  rw [depth_chain]
  exact Nat.succ_lt_succ h

private theorem depth_max_lt {l : Level} {m n d : Nat} (hm : l.depth m < d) (hn : l.depth n < d) :
    l.depth (max m n) < d := by
  rcases max_choice m n with h | h <;> rwa [h]

theorem rule_mem (l : Level) : l.rule ∈ rules := by
  rcases l with _ | _ | _ <;> simp [rule, rules]

theorem rule_chain (c : Tier) : (chain c).rule = ⟨(chain c).rule.name,
    Calculator.chain c.operator c.operand.rule.name, applyRounds c.combine⟩ := by
  cases c <;> rfl

end Level

private theorem Operator.exists_of_parent? {c : Tier} {x : Symbol}
    (h : x.parent? = some c.operator) : ∃ op : Operator c, op.symbol = x := by
  cases c with
  | sum =>
    cases x with
    | plus => exact ⟨.plus, rfl⟩
    | minus => exact ⟨.minus, rfl⟩
    | _ => cases h
  | product =>
    cases x with
    | times => exact ⟨.times, rfl⟩
    | divide => exact ⟨.divide, rfl⟩
    | _ => cases h

private theorem Tier.combine_symbol {c : Tier} (op : Operator c) (a b : Float) :
    c.combine op.symbol.id a b = op.apply a b := by
  cases op <;> rfl

theorem mem_rules : expression ∈ rules ∧ parenthesisExpression ∈ rules := by simp [rules]

/-- A rule of the tables reads what its body reads. -/
theorem Readies.reads_succ {m : TokenModel} {r : Registry Float} {a : AnalyzedGrammar}
    (h : Readies m r a) {rule : Rule Float} (hrule : rule ∈ rules) {d : Nat} {ts : List Token}
    {v : Float} : r.Reads (d + 1) rule.name ts v ↔
      ∃ ys, rule.body.Reads r.model.isA (r.Reads d) ts ys ∧ v = rule.value ys := by
  constructor
  · rintro ⟨id, rule', ys, hfind, hbody, rfl⟩
    obtain ⟨hid, hname⟩ := h.find?.1 hfind
    obtain rfl := List.inj_on_of_nodup_map nodup_names (List.mem_of_getElem? hid) hrule hname
    exact ⟨ys, hbody, rfl⟩
  · rintro ⟨ys, hbody, rfl⟩
    obtain ⟨id, hid⟩ := List.getElem?_of_mem hrule
    exact ⟨id, rule, ys, h.find?.2 ⟨hid, rfl⟩, hbody, rfl⟩

/-! ## From readings to expressions -/

variable {α : Type} {spell : α → List Char}

/-- A lexeme with a text that its symbol stands for, and with a number that is spelled like this. -/
structure IsSpelled (spell : α → List Char) (x : Lexeme) : Prop where
  isKept : x.1 ≠ .whiteSpace
  spells : x.1.Spells x.2
  number : x.1 = .number → ∃ a, spell a = x.2

/-- The token has such a lexeme. -/
def Legible (spell : α → List Char) (t : Token) : Prop := ∃ x, Carries t x ∧ IsSpelled spell x

theorem exists_of_isA {t : Token} (ht : Legible spell t) {s : Symbol}
    (h : tokenModel.isA t.category s.id = true) :
    ∃ x, Carries t x ∧ IsSpelled spell x ∧ (s = x.1 ∨ x.1.parent? = some s) := by
  obtain ⟨x, hx, hspelled⟩ := ht
  rw [hx.category] at h
  exact ⟨x, hx, hspelled, isA_id.1 h⟩

private theorem exists_number {t : Token} (ht : Legible spell t)
    (h : tokenModel.isA t.category Symbol.number.id = true) :
    ∃ a, Carries t (.number, spell a) := by
  obtain ⟨⟨s, u⟩, hx, hspelled, hs⟩ := exists_of_isA ht h
  obtain rfl : s = .number := by
    rcases hs with rfl | hs
    · rfl
    · cases s <;> cases hs
  obtain ⟨a, rfl⟩ := hspelled.number rfl
  exact ⟨a, hx⟩

/-- A symbol other than a number has only one text. -/
theorem IsSpelled.eq_lexeme {s : Symbol} {u : List Char} (h : IsSpelled spell (s, u))
    (hs : s ≠ .number) : (s, u) = s.lexeme := by
  obtain ⟨hkept, hspells, -⟩ := h
  cases s with
  | whiteSpace => exact absurd rfl hkept
  | number => exact absurd rfl hs
  | _ => exact congrArg (Prod.mk _) hspells.2

private theorem carries_of_isA {s : Symbol} (hs : s = .opening ∨ s = .closing) {t : Token}
    (ht : Legible spell t) (h : tokenModel.isA t.category s.id = true) : Carries t s.lexeme := by
  obtain ⟨⟨x, u⟩, hx, hspelled, hxs⟩ := exists_of_isA ht h
  have hparent : ¬x.parent? = some s := by rcases hs with rfl | rfl <;> cases x <;> decide
  obtain rfl := hxs.resolve_right hparent
  have hnumber : s ≠ .number := by rcases hs with rfl | rfl <;> decide
  exact hspelled.eq_lexeme hnumber ▸ hx

private theorem exists_operator {c : Tier} {t : Token} (ht : Legible spell t)
    (h : tokenModel.isA t.category c.operator.id = true) :
    ∃ op : Operator c, Carries t op.symbol.lexeme := by
  obtain ⟨⟨x, u⟩, hx, hspelled, hxs⟩ := exists_of_isA ht h
  obtain ⟨op, rfl⟩ : ∃ op : Operator c, op.symbol = x := by
    rcases hxs with rfl | hxs
    · cases c <;> exact absurd hspelled.spells.2 hspelled.spells.1
    · exact Operator.exists_of_parent? hxs
  exact ⟨op, hspelled.eq_lexeme op.symbol_ne.1 ▸ hx⟩

/-- The number that a numeral stands for as the rules read it. -/
def valueOf (spell : α → List Char) (a : α) : Float := literalValue (String.ofList (spell a))

/-- Tokens are the lexemes of an expression for which calls nest less than `d` deep, and its value
is this one. -/
def Means (spell : α → List Char) (d : Nat) (l : Level) (ts : List Token) (v : Float) : Prop :=
  ∃ e : Expr α l, l.depth e.nesting < d ∧ List.Forall₂ Carries ts (e.lexemes spell)
    ∧ v = e.value (valueOf spell)

/-- One more operator with its operand. -/
theorem Means.applyRound {c : Tier} {d : Nat} {ts us : List Token} {t : Token} {v right : Float}
    (h : Means spell (d + 1) (.chain c) ts v) (ht : Legible spell t)
    (hop : tokenModel.isA t.category c.operator.id = true)
    (hright : Means spell d c.operand us right) :
    Means spell (d + 1) (.chain c) (ts ++ t :: us)
      (Calculator.applyRound c.combine v (.items [.token t, .value right])) := by
  obtain ⟨e, hdepth, he, rfl⟩ := h
  obtain ⟨op, hop⟩ := exists_operator ht hop
  obtain ⟨e', hdepth', he', rfl⟩ := hright
  refine ⟨.apply e op e', Level.depth_max_lt hdepth (Level.depth_chain_lt hdepth'),
    List.rel_append he (.cons hop he'), ?_⟩
  have hcategory : t.category = op.symbol.id := hop.category
  rw [Calculator.applyRound, hcategory, Tier.combine_symbol, Expr.value]

/-- Operators apply from left to right. -/
theorem Means.foldl {c : Tier} {d : Nat} {ts : List Token} {v : Float}
    (h : Means spell (d + 1) (.chain c) ts v)
    {rounds : List (List (Yield Float) × List Token)}
    (hrounds : ∀ x ∈ rounds, ∃ t us right, x = ([.token t, .value right], t :: us)
      ∧ Legible spell t ∧ tokenModel.isA t.category c.operator.id = true
      ∧ Means spell d c.operand us right) :
    Means spell (d + 1) (.chain c) (ts ++ (rounds.map Prod.snd).flatten)
      ((rounds.map fun x => .items x.1).foldl (Calculator.applyRound c.combine) v) := by
  induction rounds generalizing ts v with
  | nil => simpa using h
  | cons x rounds ih =>
    rw [List.forall_mem_cons] at hrounds
    obtain ⟨⟨t, us, right, rfl, ht, hop, hright⟩, hrounds⟩ := hrounds
    have hrest := ih (h.applyRound ht hop hright) hrounds
    simpa using hrest

variable {r : Registry Float} {a : AnalyzedGrammar}

/-! ## What bodies read -/

variable {isA : CategoryId → CategoryId → Bool} {call : String → List Token → Float → Prop}
  {ts : List Token} {ys : List (Yield Float)}

private theorem reads_chain {op : Symbol} {name : String}
    (h : (chain op name).Reads isA call ts ys) :
    ∃ (us : List Token) (first : Float) (rounds : List (List (Yield Float) × List Token)),
      ts = us ++ (rounds.map Prod.snd).flatten ∧ call name us first
        ∧ ys = [.value first, .items (rounds.map fun x => .items x.1)]
        ∧ ∀ x ∈ rounds, ∃ t us right, x = ([.token t, .value right], t :: us)
          ∧ isA t.category op.id = true ∧ call name us right := by
  cases h with
  | @subrule _ _ _ us ts first ys hfirst h =>
    cases h with
    | @repetition _ _ _ _ ts ys rounds hne hrounds hdone =>
      cases hdone
      refine ⟨us, first, rounds, by simp, hfirst, rfl, fun x hx => ?_⟩
      obtain ⟨ys, ts⟩ := x
      cases hrounds _ hx with
      | @consume _ _ _ t ts ys ht h =>
        cases h with
        | @subrule _ _ _ us ts right ys hright hdone =>
          cases hdone
          exact ⟨t, us, right, by simp, ht, hright⟩

private theorem reads_operands (h : atomicExpression.body.Reads isA call ts ys) :
    (∃ v, call "parenthesisExpression" ts v ∧ ys = [.chosen 0 [.value v]])
      ∨ ∃ t, ts = [t] ∧ isA t.category Symbol.number.id = true ∧ ys = [.chosen 1 [.token t]] := by
  cases h with
  | choice k hbody hdone =>
    cases hdone
    match k with
    | 0 =>
      cases hbody with
      | subrule hv hdone =>
        cases hdone
        exact .inl ⟨_, by simpa using hv, rfl⟩
    | 1 =>
      cases hbody with
      | consume ht hdone =>
        cases hdone
        exact .inr ⟨_, by simp, ht, rfl⟩

private theorem reads_parenthesis (h : parenthesisExpression.body.Reads isA call ts ys) :
    ∃ t us v t', ts = t :: (us ++ [t']) ∧ isA t.category Symbol.opening.id = true
      ∧ call startRule us v ∧ isA t'.category Symbol.closing.id = true
      ∧ ys = [.token t, .value v, .token t'] := by
  cases h with
  | consume ht h =>
    cases h with
    | subrule hv h =>
      cases h with
      | consume ht' hdone =>
        cases hdone
        exact ⟨_, _, _, _, rfl, ht, hv, ht', rfl⟩

private theorem reads_expression (h : expression.body.Reads isA call ts ys) :
    ∃ v, call "additionExpression" ts v ∧ ys = [.value v] := by
  cases h with
  | subrule hv hdone =>
    cases hdone
    exact ⟨_, by simpa using hv, rfl⟩

theorem exists_reads_of_start (hr : Readies tokenModel r a) {d : Nat} {v : Float}
    (h : r.Reads d startRule ts v) : ∃ d' < d, r.Reads d' (Level.chain .sum).rule.name ts v := by
  cases d with
  | zero => exact h.elim
  | succ d =>
    obtain ⟨ys, hbody, rfl⟩ := (hr.reads_succ mem_rules.1).1 h
    obtain ⟨v, hv, rfl⟩ := reads_expression hbody
    exact ⟨d, Nat.lt_succ_self d, hv⟩

private theorem exists_reads_of_parenthesis (hr : Readies tokenModel r a) {d : Nat} {v : Float}
    (h : r.Reads d "parenthesisExpression" ts v) :
    ∃ d' t us t', d' + 1 < d ∧ ts = t :: (us ++ [t'])
      ∧ tokenModel.isA t.category Symbol.opening.id = true
      ∧ tokenModel.isA t'.category Symbol.closing.id = true
      ∧ r.Reads d' (Level.chain .sum).rule.name us v := by
  cases d with
  | zero => exact h.elim
  | succ d =>
    obtain ⟨ys, hbody, rfl⟩ := (hr.reads_succ mem_rules.2).1 h
    rw [hr.model_eq] at hbody
    obtain ⟨t, us, v, t', rfl, ht, hv, ht', rfl⟩ := reads_parenthesis hbody
    obtain ⟨d', hlt, hv⟩ := exists_reads_of_start hr hv
    exact ⟨d', t, us, t', Nat.succ_lt_succ hlt, rfl, ht, ht', hv⟩

/-- What a rule of a level reads means an expression of that level. -/
theorem means_of_reads (hr : Readies tokenModel r a) {d : Nat} {l : Level} {v : Float}
    (hts : ∀ t ∈ ts, Legible spell t) (h : r.Reads d l.rule.name ts v) :
    Means spell d l ts v := by
  induction d using Nat.strong_induction_on generalizing l ts v with
  | h d ih =>
    cases d with
    | zero => exact h.elim
    | succ d =>
      obtain ⟨ys, hbody, rfl⟩ := (hr.reads_succ l.rule_mem).1 h
      rw [hr.model_eq] at hbody
      cases l with
      | atom =>
        obtain ⟨v, hv, rfl⟩ | ⟨t, rfl, ht, rfl⟩ := reads_operands hbody
        · obtain ⟨d', t, us, t', hlt, rfl, ht, ht', hv⟩ := exists_reads_of_parenthesis hr hv
          rw [List.forall_mem_cons, List.forall_mem_append, List.forall_mem_singleton] at hts
          obtain ⟨e, hdepth, he, rfl⟩ := ih d' (by omega) hts.2.1 hv
          have hopening := carries_of_isA (.inl rfl) hts.1 ht
          have hclosing := carries_of_isA (.inr rfl) hts.2.2 ht'
          have hdepth' : Level.atom.depth (e.nesting + 1) < d + 1 := by
            simp only [Level.depth] at hdepth ⊢
            omega
          exact ⟨.paren e, hdepth', .cons hopening (List.rel_append he (.cons hclosing .nil)), rfl⟩
        · obtain ⟨a, ha⟩ := exists_number (hts t List.mem_cons_self) ht
          exact ⟨.number a, Nat.succ_pos d, .cons ha .nil, congrArg literalValue ha.image⟩
      | chain c =>
        rw [Level.rule_chain] at hbody ⊢
        obtain ⟨us, first, rounds, rfl, hfirst, rfl, hrounds⟩ := reads_chain hbody
        rw [List.forall_mem_append] at hts
        obtain ⟨e, hdepth, he, rfl⟩ := ih d (Nat.lt_succ_self d) hts.1 hfirst
        refine Means.foldl ⟨.operand e, Level.depth_chain_lt hdepth, he, rfl⟩ fun x hx => ?_
        obtain ⟨t, us, right, rfl, ht, hright⟩ := hrounds x hx
        have hround : ∀ t' ∈ t :: us, Legible spell t' := fun t' ht' =>
          hts.2 t' (List.mem_flatten.2 ⟨_, List.mem_map_of_mem hx, ht'⟩)
        rw [List.forall_mem_cons] at hround
        exact ⟨t, us, right, rfl, hround.1, ht, ih d (Nat.lt_succ_self d) hround.2 hright⟩

/-! ## From expressions to derivations -/

/-- The category of tokens that a rule asks for where the symbol stands. -/
def Symbol.asked (s : Symbol) : CategoryId := (s.parent?.getD s).id

theorem Symbol.isA_asked (s : Symbol) : tokenModel.isA s.id s.asked = true := by
  refine isA_id.2 ?_
  cases h : s.parent? with
  | none => exact .inl rfl
  | some x => exact .inr rfl

private theorem Operator.asked_symbol {c : Tier} (op : Operator c) :
    op.symbol.asked = c.operator.id := by
  cases op <;> rfl

theorem phrase?_rule {rule : Rule Float} (h : rule ∈ rules) :
    grammar.phrase? rule.name = some rule.body.phrase := by
  obtain ⟨i, hi⟩ := List.getElem?_of_mem h
  have hid : grammar.ruleId? rule.name = some i := by
    rw [ruleId?_eq_some, List.getElem?_map, hi]
    rfl
  have hproduction : grammar.productions[i]? = some rule.production := by
    rw [grammar, Grammar.ofList, List.getElem?_toArray, List.getElem?_map, hi]
    rfl
  rw [Grammar.phrase?, hid, Option.bind_some, hproduction]
  rfl

section

variable {g : Grammar} {d : Nat} {op : Symbol} {name : String} {p : Phrase} {u w : List CategoryId}

private theorem derives_chain (hp : g.phrase? name = some p) (hu : p.Derives g d u) :
    (chain op name).phrase.Derives g (d + 1) u := by
  have h : (chain op name).phrase.Derives g (d + 1) (u ++ ([].flatten ++ [])) :=
    .call hp hu (.repetition (by simp) (by simp) .nil)
  simpa using h

private theorem derives_chain_round (hp : g.phrase? name = some p)
    (hw : (chain op name).phrase.Derives g (d + 1) w) (hu : p.Derives g d u) :
    (chain op name).phrase.Derives g (d + 1) (w ++ op.id :: u) := by
  cases hw with
  | call hp' hv hw =>
    cases hw with
    | @repetition _ _ _ _ _ w vs hn hvs hnil =>
      cases hnil
      have hround : (Phrase.terminal op.id 1 (.call name 2 .nil)).Derives g (d + 1)
          (op.id :: (u ++ [])) := .terminal (.call hp hu .nil)
      have hvs' : ∀ v ∈ vs ++ [op.id :: (u ++ [])],
          (Phrase.terminal op.id 1 (.call name 2 .nil)).Derives g (d + 1) v :=
        List.forall_mem_append.2 ⟨hvs, List.forall_mem_singleton.2 hround⟩
      have h := Phrase.Derives.call (i := 1) hp' hv
        (.repetition (i := 1) (b := false) (by simp) hvs' .nil)
      simpa [phrase_chain] using h

end

theorem derives_expression {d : Nat} {w : List CategoryId}
    (h : additionExpression.body.phrase.Derives grammar d w) :
    expression.body.phrase.Derives grammar (d + 1) w := by
  have hcall : expression.body.phrase.Derives grammar (d + 1) (w ++ []) :=
    .call (phrase?_rule (Level.chain .sum).rule_mem) h .nil
  rwa [List.append_nil] at hcall

private theorem derives_paren {d : Nat} {w : List CategoryId}
    (h : expression.body.phrase.Derives grammar d w) :
    atomicExpression.body.phrase.Derives grammar (d + 2)
      (Symbol.opening.id :: (w ++ [Symbol.closing.id])) := by
  have hparen : parenthesisExpression.body.phrase.Derives grammar (d + 1)
      (Symbol.opening.id :: (w ++ [Symbol.closing.id])) :=
    .terminal (.call (phrase?_rule mem_rules.1) h (.terminal .nil))
  have hcall : (operands 0).phrase.Derives grammar (d + 2)
      ((Symbol.opening.id :: (w ++ [Symbol.closing.id])) ++ []) :=
    .call (phrase?_rule mem_rules.2) hparen .nil
  have hchoice : atomicExpression.body.phrase.Derives grammar (d + 2)
      (((Symbol.opening.id :: (w ++ [Symbol.closing.id])) ++ []) ++ []) := .choice 0 hcall .nil
  simpa using hchoice

/-- The rule of a level derives all expressions of the level. -/
theorem Expr.derives_lexemes {l : Level} (e : Expr α l) {n : Nat} (hn : e.nesting ≤ n) :
    l.rule.body.phrase.Derives grammar (l.depth n)
      ((e.lexemes spell).map fun x => x.1.asked) := by
  induction e generalizing n with
  | number a =>
    have hnumber : (operands 1).phrase.Derives grammar (5 * n) [Symbol.number.id] := .terminal .nil
    have hchoice : atomicExpression.body.phrase.Derives grammar (5 * n)
        ([Symbol.number.id] ++ []) := .choice 1 hnumber .nil
    exact hchoice
  | paren e ih =>
    obtain ⟨n, rfl⟩ := Nat.exists_eq_add_of_le' (Nat.le_of_add_left_le hn)
    have hsum : additionExpression.body.phrase.Derives grammar (5 * n + 2) _ :=
      ih (Nat.le_of_succ_le_succ hn)
    have hlexemes : ((Expr.paren e).lexemes spell).map (fun x => x.1.asked) = Symbol.opening.id ::
        ((e.lexemes spell).map (fun x => x.1.asked) ++ [Symbol.closing.id]) := by
      rw [Expr.lexemes, List.map_cons, List.map_append]
      rfl
    rw [hlexemes]
    exact derives_paren (derives_expression hsum)
  | @operand c e ih =>
    rw [Level.rule_chain, Level.depth_chain]
    exact derives_chain (phrase?_rule c.operand.rule_mem) (ih hn)
  | @apply c left op right ihl ihr =>
    obtain ⟨hleft, hright⟩ := max_le_iff.1 hn
    have hl := ihl hleft
    rw [Level.rule_chain, Level.depth_chain] at hl ⊢
    have h := derives_chain_round (phrase?_rule c.operand.rule_mem) hl (ihr hright)
    rw [← op.asked_symbol] at h
    simpa [Expr.lexemes, Symbol.lexeme] using h

end PredictiveParsing.Calculator
