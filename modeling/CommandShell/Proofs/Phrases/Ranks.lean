import CommandShell.Operator
import CommandShell.Proofs.Phrases.Written

/-! # Ranks: how tightly an expression holds together

The rank of an expression is the level of the precedence table on which it is built:

* 0, a conditional;
* 1, a default for an absent value (`??`);
* `p + 1`, an operator of precedence `p` that binds to the left;
* 12, a sign or a step before an operand, and `**`;
* 13, an access, a call or a step after an operand;
* 14, a primary expression.

An expression without functions is well formed if every operand has a rank that its place asks for.
`Kind.joins?` tells on which level a token goes on with the expression before it, and `Expr.depth`
how deep the rules call each other to read an expression. -/

namespace CommandShell

open Grammar

/-- The rank of what a token makes of the expression before it, if it goes on with one. -/
def Kind.joins? : Kind → Option Nat
  | .question => some 0
  | .nullish => some 1
  | .power => some 12
  | .dot | .safeDot | .lparen | .safeLparen | .lsquare | .safeLsquare | .increment | .decrement =>
    some 13
  | k => k.precedence?.map (· + 1)

theorem joins?_of_precedence {k : Kind} {p : Nat} (h : k.precedence? = some p) :
    k.joins? = some (p + 1) := by
  cases k <;> simp [Kind.precedence?] at h <;> subst h <;> rfl

theorem joins?_of_access {k : Kind} (h : k ∈ accessKinds) : k.joins? = some 13 := by
  revert h
  cases k <;> decide

theorem precedence_bounds {k : Kind} {p : Nat} (h : k.precedence? = some p) : 1 ≤ p ∧ p ≤ 10 := by
  cases k <;> simp [Kind.precedence?] at h <;> omega

/-- May an operator stand between operands of these ranks? -/
inductive Kind.Binds (k : Kind) (left right : Nat) : Prop
  | nullish : k = .nullish → 2 ≤ left → 1 ≤ right → Binds k left right
  | power : k = .power → 13 ≤ left → 12 ≤ right → Binds k left right
  | precedence {p} : k.precedence? = some p → p + 1 ≤ left → p + 2 ≤ right → Binds k left right

/-- The rank of an expression. -/
def Expr.rank : Expr → Nat
  | .ternary _ _ _ => 0
  | .binary _ op _ => op.kind.joins?.getD 0
  | .unary _ _ | .pre _ _ => 12
  | .member _ _ _ | .call _ _ _ | .index _ _ _ | .post _ _ => 13
  | .atom _ | .group _ | .array _ | .new _ _ | .lambda _ _ => 14

mutual

/-- The expression has no function in it and follows the precedence table. -/
def Expr.WellFormed : Expr → Prop
  | .atom t => t.kind ∈ atoms
  | .group e => e.WellFormed
  | .array items => exprsWellFormed items
  | .new path args => path ≠ [] ∧ (∀ t ∈ path, t.kind = .ident) ∧ exprsWellFormed args
  | .lambda _ _ => False
  | .member _ e name => 13 ≤ e.rank ∧ e.WellFormed ∧ name.kind = .ident
  | .call _ e args => 13 ≤ e.rank ∧ e.WellFormed ∧ exprsWellFormed args
  | .index _ e args => 13 ≤ e.rank ∧ e.WellFormed ∧ args ≠ [] ∧ exprsWellFormed args
  | .post _ e => 13 ≤ e.rank ∧ e.WellFormed
  | .pre _ e => 12 ≤ e.rank ∧ e.WellFormed
  | .unary op e => op.kind ∈ signs ∧ 12 ≤ e.rank ∧ e.WellFormed
  | .binary l op r => op.kind.Binds l.rank r.rank ∧ l.WellFormed ∧ r.WellFormed
  | .ternary c y n => 1 ≤ c.rank ∧ c.WellFormed ∧ y.WellFormed ∧ n.WellFormed

/-- So are all of some expressions. -/
def exprsWellFormed : List Expr → Prop
  | [] => True
  | e :: es => e.WellFormed ∧ exprsWellFormed es

end

mutual

/-- How many levels of rules the parts of an expression need below the rule that reads it. What a
chain goes on with is read on the level of the chain, so that its length does not count. -/
def Expr.depth : Expr → Nat
  | .atom _ | .lambda _ _ => 0
  | .group e => 8 + e.depth
  | .array items => 9 + exprsDepth items
  | .new _ args => 10 + exprsDepth args
  | .member _ e _ | .post _ e => e.depth
  | .call _ e args | .index _ e args => max e.depth (8 + exprsDepth args)
  | .pre _ e | .unary _ e => 1 + e.depth
  | .binary l _ r => max l.depth (2 + r.depth)
  | .ternary c y n => max c.depth (2 + max y.depth n.depth)

/-- The greatest depth among some expressions. -/
def exprsDepth : List Expr → Nat
  | [] => 0
  | e :: es => max e.depth (exprsDepth es)

end

/-! ### Trees without places -/

/-- The token without its place. -/
def Token.unplaced (t : Token) : Token := ⟨t.kind, t.lexeme, 0, 0⟩

theorem unplaced_of_word {t u : Token} (h : t.word = u.word) : t.unplaced = u.unplaced := by
  obtain ⟨hkind, hlexeme⟩ := Prod.mk.inj h
  rw [Token.unplaced, Token.unplaced, hkind, hlexeme]

namespace Tree

mutual

/-- The tree without the places of its tokens. -/
def unplaced : Tree → Tree
  | .token t => .token t.unplaced
  | .operator op => .operator op
  | .node label children => .node label (unplacedAll children)

/-- Trees without the places of their tokens. -/
def unplacedAll : List Tree → List Tree
  | [] => []
  | t :: ts => t.unplaced :: unplacedAll ts

end

end Tree

/-- Two expressions differ in nothing but the places of their tokens. -/
def Expr.Alike (e e' : Expr) : Prop := e'.tree.unplaced = e.tree.unplaced

/-- So do two lists of expressions. -/
def ExprsAlike (es es' : List Expr) : Prop :=
  Tree.unplacedAll (exprTrees es') = Tree.unplacedAll (exprTrees es)

theorem ExprsAlike.cons {e e' : Expr} {es es' : List Expr} (he : e.Alike e')
    (hes : ExprsAlike es es') : ExprsAlike (e :: es) (e' :: es') :=
  congrArg₂ List.cons he hes

end CommandShell
