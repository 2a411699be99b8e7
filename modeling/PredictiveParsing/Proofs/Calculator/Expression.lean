import Mathlib.Algebra.BigOperators.Group.List.Basic
import Mathlib.Algebra.Order.Ring.Int
import PredictiveParsing.Calculator.Arithmetic

/-!
# Expressions

Expressions as trees: sums of products of numbers and parenthesized expressions, where operators of
one kind apply from left to right. A tree is written down as its lexemes with white space between
them, and the lexemes determine the tree.
-/

namespace PredictiveParsing.Calculator

/-- The two kinds of operators; those of a product bind more tightly. -/
inductive Tier where
  | sum
  | product
deriving DecidableEq

/-- What stands between two operators: a number or an expression in parentheses, or operands with
operators of one kind between them. -/
inductive Level where
  | atom
  | chain (c : Tier)

/-- The operands of a sum are products, those of a product are atoms. -/
def Tier.operand : Tier → Level
  | sum => .chain .product
  | product => .atom

inductive Operator : Tier → Type where
  | plus : Operator .sum
  | minus : Operator .sum
  | times : Operator .product
  | divide : Operator .product

namespace Operator

variable {c : Tier}

def symbol : Operator c → Symbol
  | plus => .plus
  | minus => .minus
  | times => .times
  | divide => .divide

def apply : Operator c → Float → Float → Float
  | plus, a, b => a + b
  | minus, a, b => a - b
  | times, a, b => a * b
  | divide, a, b => a / b

end Operator

/-- Expressions over numbers that are written in some notation. -/
inductive Expr (α : Type) : Level → Type where
  | number (a : α) : Expr α .atom
  | paren (e : Expr α (.chain .sum)) : Expr α .atom
  | operand {c : Tier} (e : Expr α c.operand) : Expr α (.chain c)
  | apply {c : Tier} (left : Expr α (.chain c)) (op : Operator c) (right : Expr α c.operand) :
      Expr α (.chain c)

/-- A symbol with its text. -/
abbrev Lexeme := Symbol × List Char

def Symbol.text (s : Symbol) : List Char :=
  match s.pattern with
  | .literal text => text.toList
  | _ => []

def Symbol.lexeme (s : Symbol) : Lexeme := (s, s.text)

/-- The lexemes in a text with any white space before, between and behind them. -/
inductive Spaced : List Lexeme → List Char → Prop where
  | nil {blank : List Char} (h : ∀ c ∈ blank, Unicode.isBlank c = true) : Spaced [] blank
  | cons {blank : List Char} {x : Lexeme} {xs : List Lexeme} {text : List Char}
      (h : ∀ c ∈ blank, Unicode.isBlank c = true) (hs : Spaced xs text) :
      Spaced (x :: xs) (blank ++ (x.2 ++ text))

/-- A lexeme right in front of a text. -/
theorem Spaced.adjoin {x : Lexeme} {xs : List Lexeme} {text : List Char} (h : Spaced xs text) :
    Spaced (x :: xs) (x.2 ++ text) :=
  .cons (List.forall_mem_nil _) h

namespace Expr

variable {α : Type} {l : Level} {c : Tier}

def value (number : α → Float) : {l : Level} → Expr α l → Float
  | _, .number a => number a
  | _, .paren e => e.value number
  | _, .operand e => e.value number
  | _, .apply left op right => op.apply (left.value number) (right.value number)

/-- How deep parentheses nest. -/
def nesting : {l : Level} → Expr α l → Nat
  | _, .number _ => 0
  | _, .paren e => e.nesting + 1
  | _, .operand e => e.nesting
  | _, .apply left _ right => max left.nesting right.nesting

/-- The lexemes, where `spell` writes down a number. -/
def lexemes (spell : α → List Char) : {l : Level} → Expr α l → List Lexeme
  | _, .number a => [(.number, spell a)]
  | _, .paren e => Symbol.opening.lexeme :: (e.lexemes spell ++ [Symbol.closing.lexeme])
  | _, .operand e => e.lexemes spell
  | _, .apply left op right => left.lexemes spell ++ op.symbol.lexeme :: right.lexemes spell

end Expr

/-! ## The lexemes determine the expression -/

/-- The number of parentheses that are open behind some lexemes. -/
def height (xs : List Lexeme) : Int :=
  (xs.map fun x => if x.1 = .opening then 1 else if x.1 = .closing then -1 else 0).sum

theorem height_append (xs ys : List Lexeme) : height (xs ++ ys) = height xs + height ys := by
  simp [height]

theorem height_cons (x : Lexeme) (xs : List Lexeme) :
    height (x :: xs) = height [x] + height xs := by
  simp [height]

theorem height_opening : height [Symbol.opening.lexeme] = 1 := rfl

namespace Operator

variable {c d : Tier}

theorem height_lexeme (op : Operator c) : height [op.symbol.lexeme] = 0 := by
  cases op <;> rfl

theorem symbol_ne (op : Operator c) : op.symbol ≠ .number ∧ op.symbol ≠ .opening
    ∧ op.symbol ≠ .closing := by
  cases op <;> simp [symbol]

private theorem tier_eq {op : Operator c} {op' : Operator d} (h : op.symbol = op'.symbol) :
    c = d := by
  cases op <;> cases op' <;> first | rfl | cases h

private theorem symbol_injective : Function.Injective (symbol (c := c)) := by
  intro op op' h
  cases op <;> cases op' <;> first | rfl | cases h

end Operator

/-- Operators of the tier stand in parentheses only within expressions of the level. -/
def Level.Guards : Level → Tier → Prop
  | .atom, _ => True
  | .chain c, d => c = .product ∧ d = .sum

theorem Tier.guards_operand (c : Tier) : c.operand.Guards c := by
  cases c <;> simp [operand, Level.Guards]

theorem Level.Guards.operand {c d : Tier} (h : (Level.chain c).Guards d) : c.operand.Guards d := by
  obtain ⟨rfl, rfl⟩ := h
  trivial

theorem Level.Guards.ne {c d : Tier} (h : (Level.chain c).Guards d) : c ≠ d := by
  obtain ⟨rfl, rfl⟩ := h
  decide

namespace Expr

variable {α : Type} {l : Level} {c d : Tier} {spell : α → List Char}

theorem height_lexemes (e : Expr α l) : height (e.lexemes spell) = 0 := by
  induction e with
  | number a => rfl
  | paren e ih =>
    rw [lexemes, height_cons, height_append, ih]
    rfl
  | operand e ih => exact ih
  | apply left op right ihl ihr =>
    rw [lexemes, height_append, height_cons, ihl, ihr, op.height_lexeme]
    rfl

private theorem height_nonneg (e : Expr α l) {xs ys : List Lexeme}
    (h : e.lexemes spell = xs ++ ys) : 0 ≤ height xs := by
  induction e generalizing xs ys with
  | number a =>
    rcases List.singleton_eq_append_iff.1 h with ⟨rfl, -⟩ | ⟨rfl, -⟩ <;> exact le_rfl
  | paren e ih =>
    rcases List.cons_eq_append_iff.1 h with ⟨rfl, -⟩ | ⟨zs, rfl, hzs⟩
    · exact le_rfl
    · rw [height_cons, height_opening]
      rcases List.append_eq_append_iff.1 hzs with ⟨us, rfl, hus⟩ | ⟨us, hus, -⟩
      · rw [height_append, e.height_lexemes]
        rcases List.singleton_eq_append_iff.1 hus with ⟨rfl, -⟩ | ⟨rfl, -⟩ <;> decide
      · have := ih hus
        omega
  | operand e ih => exact ih h
  | apply left op right ihl ihr =>
    rcases List.append_eq_append_iff.1 h with ⟨us, rfl, hus⟩ | ⟨us, hus, -⟩
    · rw [height_append, left.height_lexemes, zero_add]
      rcases List.cons_eq_append_iff.1 hus with ⟨rfl, -⟩ | ⟨vs, rfl, hvs⟩
      · exact le_rfl
      · rw [height_cons, op.height_lexeme, zero_add]
        exact ihr hvs
    · exact ihl hus

/-- An operator that an expression guards stands in parentheses. -/
theorem height_pos (e : Expr α l) (hl : l.Guards d) {op : Operator d} {xs ys : List Lexeme}
    (h : e.lexemes spell = xs ++ op.symbol.lexeme :: ys) : 0 < height xs := by
  obtain ⟨hnumber, hopening, hclosing⟩ := op.symbol_ne
  induction e generalizing xs ys with
  | number a =>
    rcases List.cons_eq_append_iff.1 h with ⟨-, hx⟩ | ⟨_, -, hx⟩
    · exact absurd (congrArg Prod.fst (List.cons.inj hx).1) hnumber
    · simp at hx
  | paren e ih =>
    rcases List.cons_eq_append_iff.1 h with ⟨-, hx⟩ | ⟨zs, rfl, hzs⟩
    · exact absurd (congrArg Prod.fst (List.cons.inj hx).1) hopening
    · rw [height_cons, height_opening]
      rcases List.append_eq_append_iff.1 hzs with ⟨us, rfl, hus⟩ | ⟨us, hus, -⟩
      · rcases List.cons_eq_append_iff.1 hus with ⟨-, hx⟩ | ⟨_, -, hx⟩
        · exact absurd (congrArg Prod.fst (List.cons.inj hx).1) hclosing
        · simp at hx
      · have := e.height_nonneg hus
        omega
  | operand e ih => exact ih hl.operand h
  | apply left op' right ihl ihr =>
    rcases List.append_eq_append_iff.1 h with ⟨us, rfl, hus⟩ | ⟨us, hus, hys⟩
    · rcases List.cons_eq_append_iff.1 hus with ⟨rfl, hx⟩ | ⟨vs, rfl, hvs⟩
      · exact absurd (op'.tier_eq (congrArg Prod.fst (List.cons.inj hx).1).symm) hl.ne
      · rw [height_append, left.height_lexemes, height_cons, op'.height_lexeme, zero_add, zero_add]
        exact ihr hl.operand hvs
    · cases us with
      | nil =>
        exact absurd (op'.tier_eq (congrArg Prod.fst (List.cons.inj hys).1).symm) hl.ne
      | cons x us =>
        obtain ⟨rfl, -⟩ := List.cons.inj hys
        exact ihl hl hus

/-- Of two chains with the same lexemes none goes on behind the last operator of the other. -/
theorem lexemes_left_eq {left left' : Expr α (.chain c)} {op op' : Operator c}
    {right right' : Expr α c.operand}
    (h : left.lexemes spell ++ op.symbol.lexeme :: right.lexemes spell =
      left'.lexemes spell ++ op'.symbol.lexeme :: right'.lexemes spell)
    (hle : (left.lexemes spell).length ≤ (left'.lexemes spell).length) :
    left.lexemes spell = left'.lexemes spell := by
  rcases List.append_eq_append_iff.1 h with ⟨us, hus, hright⟩ | ⟨us, hus, -⟩
  · cases us with
    | nil => simpa using hus.symm
    | cons x us =>
      obtain ⟨rfl, hus'⟩ := List.cons.inj hright
      have hpos := right.height_pos c.guards_operand hus'
      have hzero : height (left'.lexemes spell) = 0 := left'.height_lexemes
      rw [hus, height_append, left.height_lexemes, height_cons, op.height_lexeme] at hzero
      omega
  · rw [hus, List.length_append] at hle
    obtain rfl := List.length_eq_zero_iff.1 (show us.length = 0 by omega)
    simpa using hus

/-- An expression is determined by its lexemes. -/
theorem lexemes_injective (hspell : Function.Injective spell) (e e' : Expr α l)
    (h : e.lexemes spell = e'.lexemes spell) : e = e' := by
  induction e with
  | number a =>
    cases e' with
    | number a' =>
      obtain ⟨h, -⟩ := List.cons.inj h
      rw [hspell (Prod.mk.inj h).2]
    | paren e' => cases congrArg Prod.fst (List.cons.inj h).1
  | paren e ih =>
    cases e' with
    | number a' => cases congrArg Prod.fst (List.cons.inj h).1
    | paren e' =>
      obtain ⟨-, h⟩ := List.cons.inj h
      rw [ih e' (List.append_cancel_right h)]
  | @operand c e ih =>
    cases e' with
    | operand e' => rw [ih e' h]
    | apply left' op' right' =>
      have hpos := e.height_pos c.guards_operand h
      exact absurd left'.height_lexemes hpos.ne'
  | @apply c left op right ihl ihr =>
    cases e' with
    | operand e' =>
      have hpos := e'.height_pos c.guards_operand h.symm
      exact absurd left.height_lexemes hpos.ne'
    | apply left' op' right' =>
      have hleft : left.lexemes spell = left'.lexemes spell := by
        rcases le_total (left.lexemes spell).length (left'.lexemes spell).length with hle | hle
        · exact lexemes_left_eq h hle
        · exact (lexemes_left_eq h.symm hle).symm
      rw [lexemes, lexemes, hleft] at h
      obtain ⟨hop, hright⟩ := List.cons.inj (List.append_cancel_left h)
      rw [ihl left' hleft, ihr right' hright, op.symbol_injective (congrArg Prod.fst hop)]

end Expr

end PredictiveParsing.Calculator
