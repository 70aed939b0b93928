import CommandShell.Phrase.Tree
import Mathlib.Order.Lattice

/-! # Weights: how deeply a tree nests

The weight of a tree counts the parts on a way from the root to a leaf, on the way where there are
most. An operator that binds to the left, an access, a call and a step after an operand do not count
on the way to what they go on from, so that a chain weighs one more than its heaviest part, however
long it is (`Expr.Chain.weight_le`).

`Expr.weight` and its companions tell the weight of a tree from the phrase that it shows. -/

namespace CommandShell

namespace Tree

/-- The labels of accesses, calls and steps after an operand. -/
@[simp] def accessLabels : List String :=
  ["member", "safe_member", "call", "safe_call", "index", "safe_index", "post_incr", "post_decr"]

/-- Are these two operands of an operator that binds to the left, with the operator? -/
@[simp] def bindsLeft : List Tree → Bool
  | [_, .token op, _] => op.kind.precedence?.isSome
  | _ => false

/-- Does a node go on with its first child on the same level? -/
@[simp] def isRound (label : String) (children : List Tree) : Bool :=
  accessLabels.contains label || (label == "binary" && bindsLeft children)

mutual

/-- The weight of a tree. -/
@[simp] def weight : Tree → Nat
  | .token _ | .operator _ => 1
  | .node label children =>
    if isRound label children then roundWeight children else heaviest children + 1

/-- The weight of a node that goes on with the first of its children. -/
@[simp] def roundWeight : List Tree → Nat
  | [] => 1
  | first :: others => max first.weight (heaviest others + 1)

/-- The greatest weight among some trees. -/
@[simp] def heaviest : List Tree → Nat
  | [] => 0
  | t :: ts => max t.weight (heaviest ts)

end

end Tree

/-! ### The weights of phrases -/

mutual

/-- The weight of an expression. -/
@[simp, grind =] def Expr.weight : Expr → Nat
  | .atom _ => 1
  | .group e => e.weight + 1
  | .array items => exprsWeight items + 1
  | .new path args => max (Tree.heaviest (path.map .token)) (exprsWeight args) + 2
  | .lambda params body => max (Tree.heaviest (params.map .token)) (stmtsWeight body) + 2
  | .member _ e _ => max e.weight 2
  | .call _ e args | .index _ e args => max e.weight (exprsWeight args + 2)
  | .post _ e => max e.weight 1
  | .pre _ e => e.weight + 1
  | .unary _ e => max 1 e.weight + 1
  | .binary l op r =>
    if op.kind.precedence?.isSome then max l.weight (max 1 r.weight + 1)
    else max l.weight (max 1 r.weight) + 1
  | .ternary c y n => max c.weight (max y.weight n.weight) + 1

/-- The greatest weight among some expressions. -/
@[simp, grind =] def exprsWeight : List Expr → Nat
  | [] => 0
  | e :: es => max e.weight (exprsWeight es)

/-- The weight of a statement. -/
@[simp, grind =] def Stmt.weight : Stmt → Nat
  | .empty _ | .exit _ => 1
  | .block body => stmtsWeight body + 1
  | .declare _ ds => max 1 (declaratorsWeight ds) + 1
  | .function _ params body =>
    max (Tree.heaviest (params.map .token)) (stmtsWeight body) + 2
  | .ifThen c s | .whileLoop c s => max c.weight s.weight + 1
  | .ifElse c s o => max c.weight (max s.weight o.weight) + 1
  | .doLoop s c => max s.weight c.weight + 1
  | .forLoop _ e s => max 1 (max e.weight s.weight) + 1
  | .jump _ label => Tree.heaviest (label.toList.map .token) + 1
  | .exitWith _ e | .expression e => e.weight + 1
  | .attempt body hs => max (stmtsWeight body + 1) (handlersWeight hs) + 1
  | .labeled _ s => max 1 s.weight + 1
  | .forward _ args => exprsWeight args + 2
  | .assign t v => max t.weight v.weight + 1
  | .compound t _ v => max t.weight (max 1 v.weight) + 1

/-- The greatest weight among some statements. -/
@[simp, grind =] def stmtsWeight : List Stmt → Nat
  | [] => 0
  | s :: ss => max s.weight (stmtsWeight ss)

/-- The weight of a declarator. -/
@[simp, grind =] def Declarator.weight : Declarator → Nat
  | .plain _ => 2
  | .valued _ e => max 1 e.weight + 1

/-- The greatest weight among some declarators. -/
@[simp, grind =] def declaratorsWeight : List Declarator → Nat
  | [] => 0
  | d :: ds => max d.weight (declaratorsWeight ds)

/-- The weight of a handler. -/
@[simp, grind =] def Handler.weight : Handler → Nat
  | .rescue type name body =>
    max (if type.isSome || name.isSome then 2 else 0) (stmtsWeight body + 1) + 1
  | .always body => stmtsWeight body + 2

/-- The greatest weight among some handlers. -/
@[simp, grind =] def handlersWeight : List Handler → Nat
  | [] => 0
  | h :: hs => max h.weight (handlersWeight hs)

end

open CommandShell.Tree

mutual

/-- The weight of an expression is that of its tree. -/
theorem Expr.weight_tree : ∀ e : Expr, e.tree.weight = e.weight
  | .atom _ => rfl
  | .group e | .post .up e | .post .down e | .pre .up e | .pre .down e => by
    simp [Expr.tree, e.weight_tree]
  | .array items => by simp [Expr.tree, heaviest_exprTrees items]
  | .new _ args => by simp [Expr.tree, heaviest_exprTrees args]
  | .lambda _ body => by simp [Expr.tree, paramsTree, heaviest_stmtTrees body]
  | .member safe e _ => by cases safe <;> simp [Expr.tree, accessLabel, e.weight_tree]
  | .call safe e args | .index safe e args => by
    cases safe <;> simp [Expr.tree, accessLabel, e.weight_tree, heaviest_exprTrees args]
  | .unary _ e => by simp [Expr.tree, e.weight_tree]
  | .binary l _ r => by simp [Expr.tree, l.weight_tree, r.weight_tree]
  | .ternary c y n => by simp [Expr.tree, c.weight_tree, y.weight_tree, n.weight_tree]

theorem heaviest_exprTrees : ∀ es, heaviest (exprTrees es) = exprsWeight es
  | [] => rfl
  | e :: es => by simp [exprTrees, e.weight_tree, heaviest_exprTrees es]

/-- The weight of a statement is that of its tree. -/
theorem Stmt.weight_tree : ∀ s : Stmt, s.tree.weight = s.weight
  | .empty _ | .exit .returning | .exit .throwing => rfl
  | .block body => by simp [Stmt.tree, heaviest_stmtTrees body]
  | .declare _ ds => by simp [Stmt.tree, heaviest_declaratorTrees ds]
  | .function _ _ body => by simp [Stmt.tree, paramsTree, heaviest_stmtTrees body]
  | .ifThen c s | .whileLoop c s | .doLoop s c | .forLoop _ c s => by
    simp [Stmt.tree, c.weight_tree, s.weight_tree]
  | .ifElse c s o => by simp [Stmt.tree, c.weight_tree, s.weight_tree, o.weight_tree]
  | .jump .toEnd _ | .jump .toNext _ => by simp [Stmt.tree]
  | .exitWith .returning e | .exitWith .throwing e | .expression e => by
    simp [Stmt.tree, e.weight_tree]
  | .attempt body hs => by simp [Stmt.tree, heaviest_stmtTrees body, heaviest_handlerTrees hs]
  | .labeled _ s => by simp [Stmt.tree, s.weight_tree]
  | .forward _ args => by simp [Stmt.tree, heaviest_exprTrees args]
  | .assign t v | .compound t _ v => by simp [Stmt.tree, t.weight_tree, v.weight_tree]

theorem heaviest_stmtTrees : ∀ ss, heaviest (stmtTrees ss) = stmtsWeight ss
  | [] => rfl
  | s :: ss => by simp [stmtTrees, s.weight_tree, heaviest_stmtTrees ss]

theorem Declarator.weight_tree : ∀ d : Declarator, d.tree.weight = d.weight
  | .plain _ => rfl
  | .valued _ e => by simp [Declarator.tree, e.weight_tree]

theorem heaviest_declaratorTrees : ∀ ds, heaviest (declaratorTrees ds) = declaratorsWeight ds
  | [] => rfl
  | d :: ds => by simp [declaratorTrees, d.weight_tree, heaviest_declaratorTrees ds]

theorem Handler.weight_tree : ∀ h : Handler, h.tree.weight = h.weight
  | .rescue type name body => by
    cases type <;> cases name <;> simp [Handler.tree, heaviest_stmtTrees body]
  | .always body => by simp [Handler.tree, heaviest_stmtTrees body]

theorem heaviest_handlerTrees : ∀ hs, heaviest (handlerTrees hs) = handlersWeight hs
  | [] => rfl
  | h :: hs => by simp [handlerTrees, h.weight_tree, heaviest_handlerTrees hs]

end

/-! ### Parts of lists -/

theorem Expr.weight_pos (e : Expr) : 0 < e.weight := by
  cases e with
  | binary => rw [Expr.weight]; split <;> omega
  | _ => simp only [Expr.weight]; omega

theorem Stmt.weight_pos (s : Stmt) : 0 < s.weight := by
  cases s <;> simp only [Stmt.weight] <;> omega

theorem weight_le_exprsWeight {e : Expr} : ∀ {es}, e ∈ es → e.weight ≤ exprsWeight es
  | _ :: _, .head _ => Nat.le_max_left _ _
  | _ :: _, .tail _ h => Nat.le_trans (weight_le_exprsWeight h) (Nat.le_max_right _ _)

theorem weight_le_stmtsWeight {s : Stmt} : ∀ {ss}, s ∈ ss → s.weight ≤ stmtsWeight ss
  | _ :: _, .head _ => Nat.le_max_left _ _
  | _ :: _, .tail _ h => Nat.le_trans (weight_le_stmtsWeight h) (Nat.le_max_right _ _)

theorem weight_le_declaratorsWeight {d : Declarator} :
    ∀ {ds}, d ∈ ds → d.weight ≤ declaratorsWeight ds
  | _ :: _, .head _ => Nat.le_max_left _ _
  | _ :: _, .tail _ h => Nat.le_trans (weight_le_declaratorsWeight h) (Nat.le_max_right _ _)

theorem weight_le_handlersWeight {h : Handler} : ∀ {hs}, h ∈ hs → h.weight ≤ handlersWeight hs
  | _ :: _, .head _ => Nat.le_max_left _ _
  | _ :: _, .tail _ hmem => Nat.le_trans (weight_le_handlersWeight hmem) (Nat.le_max_right _ _)

/-! ### Chains -/

/-- A chain leads from the one expression to the other: operators that bind to the left, accesses,
calls and steps, of which each goes on from the one before. What they take up weighs at most `w`. -/
inductive Expr.Chain (w : Nat) (head : Expr) : Expr → Prop
  | refl : Chain w head head
  | binary {l op r} : Chain w head l → op.kind.precedence?.isSome → r.tree.weight ≤ w →
      Chain w head (.binary l op r)
  | member {e} (safe : Bool) (name : Token) : Chain w head e → Chain w head (.member safe e name)
  | call {e args} (safe : Bool) : Chain w head e → heaviest (exprTrees args) ≤ w →
      Chain w head (.call safe e args)
  | index {e args} (safe : Bool) : Chain w head e → heaviest (exprTrees args) ≤ w →
      Chain w head (.index safe e args)
  | post {e} (step : Step) : Chain w head e → Chain w head (.post step e)

/-- **A chain weighs little more than the heaviest of its parts**, however long it is. -/
theorem Expr.Chain.weight_le {w : Nat} {head e : Expr} (h : Chain w head e) :
    e.tree.weight ≤ max head.tree.weight (w + 2) := by
  induction h with
  | refl => exact Nat.le_max_left _ _
  | binary _ hop hr ih =>
    rw [Expr.weight_tree, Expr.weight, if_pos hop]
    rw [Expr.weight_tree] at ih hr
    omega
  | call _ _ hargs ih | index _ _ hargs ih =>
    rw [Expr.weight_tree, Expr.weight]
    rw [Expr.weight_tree] at ih
    rw [heaviest_exprTrees] at hargs
    omega
  | member _ _ _ ih | post _ _ ih =>
    rw [Expr.weight_tree, Expr.weight]
    rw [Expr.weight_tree] at ih
    omega

end CommandShell
