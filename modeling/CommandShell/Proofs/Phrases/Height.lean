import CommandShell.Proofs.Phrases.Pieces

/-! # Height: trees against the phrases that they show

A chain is read on one level, but its tree is as deep as the chain is long. It is no deeper than
that: every label of a tree has a piece of its own in writing, so that a phrase is at least as long
as its tree is deep (`Expr.depth_tree`, `Request.depth_tree`). The search for the first token goes
no further down (`Tree.searchDepth_le`). -/

namespace CommandShell

namespace Tree

mutual

/-- The search for the first token stays in the tree. -/
theorem searchDepth_le : ∀ t : Tree, t.searchDepth ≤ t.depth
  | .token _ | .operator _ => Nat.le_refl 0
  | .node _ children => Nat.succ_le_succ (searchDepthOf_le children)

theorem searchDepthOf_le : ∀ ts, searchDepthOf ts ≤ depthOf ts
  | [] => Nat.le_refl 0
  | t :: ts => by
    have hfirst := t.searchDepth_le
    have hothers := searchDepthOf_le ts
    rw [searchDepthOf, depthOf]
    split <;> omega

end

@[grind =] theorem depth_token (t : Token) : (token t).depth = 0 := rfl

@[grind =] theorem depth_operator (op : BinaryOp) : (operator op).depth = 0 := rfl

@[grind =] theorem depth_node (label : String) (children : List Tree) :
    (node label children).depth = depthOf children + 1 := rfl

@[grind =] theorem depthOf_nil : depthOf [] = 0 := rfl

@[grind =] theorem depthOf_cons (t : Tree) (ts : List Tree) :
    depthOf (t :: ts) = max t.depth (depthOf ts) := rfl

@[grind =] theorem depthOf_tokens (ts : List Token) : depthOf (ts.map token) = 0 := by
  induction ts with
  | nil => rfl
  | cons t ts ih => grind

@[grind =] theorem depthOf_append (ts us : List Tree) :
    depthOf (ts ++ us) = max (depthOf ts) (depthOf us) := by
  induction ts with
  | nil => grind
  | cons t ts ih => grind

end Tree

namespace Piece

@[grind =] theorem length_enclosed (opener closer : Kind) (ps : List Piece) :
    (enclosed opener closer ps).length = ps.length + 2 := by
  simp [enclosed]

/-- Separators only make rows longer. -/
theorem length_flatten_le (separator : Kind) (pss : List (List Piece)) :
    pss.flatten.length ≤ (separated separator pss).length := by
  cases pss with
  | nil => exact Nat.le_refl 0
  | cons ps rest =>
    have hrest : rest.flatten.length ≤ (rest.flatMap (fixed separator :: ·)).length := by
      induction rest with
      | nil => exact Nat.le_refl 0
      | cons qs rest ih =>
        simp only [List.flatten_cons, List.flatMap_cons, List.length_append, List.length_cons]
        omega
    simp only [separated, List.flatten_cons, List.length_append]
    omega

end Piece

open CommandShell.Tree Piece

mutual

/-- **A tree is no deeper than its phrase is long.** -/
theorem Expr.depth_tree : ∀ e : Expr, e.tree.depth ≤ e.pieces.length
  | .atom _ => Nat.zero_le _
  | .group e | .member _ e _ | .unary _ e => by
    grind [Expr.tree, Expr.pieces, e.depth_tree]
  | .array items => by
    have hitems := Nat.le_trans (depthOf_exprTrees items) (length_flatten_le .comma _)
    grind [Expr.tree, Expr.pieces]
  | .new path args => by
    have hargs := Nat.le_trans (depthOf_exprTrees args) (length_flatten_le .comma _)
    grind [Expr.tree, Expr.pieces]
  | .lambda params body => by
    grind [Expr.tree, Expr.pieces, paramsTree, ofParams, depthOf_stmtTrees body]
  | .call _ e args | .index _ e args => by
    have hargs := Nat.le_trans (depthOf_exprTrees args) (length_flatten_le .comma _)
    grind [Expr.tree, Expr.pieces, e.depth_tree]
  | .post step e | .pre step e => by
    cases step <;> grind [Expr.tree, Expr.pieces, e.depth_tree]
  | .binary l _ r => by
    grind [Expr.tree, Expr.pieces, l.depth_tree, r.depth_tree]
  | .ternary c y n => by
    grind [Expr.tree, Expr.pieces, c.depth_tree, y.depth_tree, n.depth_tree]

theorem depthOf_exprTrees : ∀ es, depthOf (exprTrees es) ≤ (exprPieces es).flatten.length
  | [] => Nat.le_refl 0
  | e :: es => by grind [exprTrees, exprPieces, e.depth_tree, depthOf_exprTrees es]

theorem Stmt.depth_tree : ∀ s : Stmt, s.tree.depth ≤ s.pieces.length
  | .empty _ => Nat.le_refl 1
  | .exit way => by cases way <;> exact Nat.le_succ 1
  | .block body => by
    grind [Stmt.tree, Stmt.pieces, depthOf_stmtTrees body]
  | .declare _ ds => by
    have hds := Nat.le_trans (depthOf_declaratorTrees ds) (length_flatten_le .comma _)
    grind [Stmt.tree, Stmt.pieces]
  | .function _ _ body => by
    grind [Stmt.tree, Stmt.pieces, paramsTree, ofParams, depthOf_stmtTrees body]
  | .ifThen c s | .whileLoop c s | .doLoop s c | .forLoop _ c s => by
    grind [Stmt.tree, Stmt.pieces, c.depth_tree, s.depth_tree]
  | .ifElse c s o => by
    grind [Stmt.tree, Stmt.pieces, c.depth_tree, s.depth_tree, o.depth_tree]
  | .jump way label => by
    cases way <;> grind [Stmt.tree, Stmt.pieces]
  | .exitWith way e => by
    cases way <;> grind [Stmt.tree, Stmt.pieces, e.depth_tree]
  | .expression e => by
    grind [Stmt.tree, Stmt.pieces, e.depth_tree]
  | .attempt body hs => by
    grind [Stmt.tree, Stmt.pieces, depthOf_stmtTrees body, depthOf_handlerTrees hs]
  | .labeled _ s => by grind [Stmt.tree, Stmt.pieces, s.depth_tree]
  | .forward _ args => by
    have hargs := Nat.le_trans (depthOf_exprTrees args) (length_flatten_le .comma _)
    grind [Stmt.tree, Stmt.pieces]
  | .assign t v | .compound t _ v => by
    grind [Stmt.tree, Stmt.pieces, t.depth_tree, v.depth_tree]

theorem depthOf_stmtTrees : ∀ ss, depthOf (stmtTrees ss) ≤ (stmtPieces ss).length
  | [] => Nat.le_refl 0
  | s :: ss => by grind [stmtTrees, stmtPieces, s.depth_tree, depthOf_stmtTrees ss]

theorem Declarator.depth_tree : ∀ d : Declarator, d.tree.depth ≤ d.pieces.length
  | .plain _ => Nat.le_refl 1
  | .valued _ e => by grind [Declarator.tree, Declarator.pieces, e.depth_tree]

theorem depthOf_declaratorTrees : ∀ ds,
    depthOf (declaratorTrees ds) ≤ (declaratorPieces ds).flatten.length
  | [] => Nat.le_refl 0
  | d :: ds => by
    grind [declaratorTrees, declaratorPieces, d.depth_tree, depthOf_declaratorTrees ds]

theorem Handler.depth_tree : ∀ h : Handler, h.tree.depth ≤ h.pieces.length
  | .rescue type name body => by
    cases type <;> cases name <;>
      grind [Handler.tree, Handler.pieces, depthOf_stmtTrees body]
  | .always body => by grind [Handler.tree, Handler.pieces, depthOf_stmtTrees body]

theorem depthOf_handlerTrees : ∀ hs, depthOf (handlerTrees hs) ≤ (handlerPieces hs).length
  | [] => Nat.le_refl 0
  | h :: hs => by grind [handlerTrees, handlerPieces, h.depth_tree, depthOf_handlerTrees hs]

end

/-- A tree of a request is at most one label deeper than the request is long: the label of a
statement or a value has no piece. -/
theorem Request.depth_tree : ∀ r : Request, r.tree.depth ≤ r.pieces.length + 1
  | .statement s => by grind [Request.tree, Request.pieces, s.depth_tree]
  | .expression e true | .expression e false => by
    grind [Request.tree, Request.pieces, e.depth_tree]
  | .assignment t v | .compound t _ v => by
    grind [Request.tree, Request.pieces, t.depth_tree, v.depth_tree]
  | .parallel ts _ vs => by
    have hts := Nat.le_trans (depthOf_exprTrees ts) (length_flatten_le .comma _)
    have hvs := Nat.le_trans (depthOf_exprTrees vs) (length_flatten_le .comma _)
    grind [Request.tree, Request.pieces]

end CommandShell
