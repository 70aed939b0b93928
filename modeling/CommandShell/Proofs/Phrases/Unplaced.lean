import CommandShell.Command.Basic
import CommandShell.Proofs.Phrases.Ranks

/-! # Phrases without places

A phrase whose tokens have lost their places is the same phrase up to where it stood: its form, the
kinds and the texts of its tokens are kept, and so is what depends on them alone. It is shown as the
tree without places (`Expr.tree_unplaced` and its companions). -/

namespace CommandShell

mutual

/-- The expression without the places of its tokens. -/
def Expr.unplaced : Expr → Expr
  | .atom t => .atom t.unplaced
  | .group e => .group e.unplaced
  | .array items => .array (exprsUnplaced items)
  | .new path args => .new (path.map Token.unplaced) (exprsUnplaced args)
  | .lambda params body => .lambda (params.map Token.unplaced) (stmtsUnplaced body)
  | .member safe e name => .member safe e.unplaced name.unplaced
  | .call safe e args => .call safe e.unplaced (exprsUnplaced args)
  | .index safe e args => .index safe e.unplaced (exprsUnplaced args)
  | .post step e => .post step e.unplaced
  | .pre step e => .pre step e.unplaced
  | .unary op e => .unary op.unplaced e.unplaced
  | .binary l op r => .binary l.unplaced op.unplaced r.unplaced
  | .ternary c y n => .ternary c.unplaced y.unplaced n.unplaced

/-- Expressions without the places of their tokens. -/
def exprsUnplaced : List Expr → List Expr
  | [] => []
  | e :: es => e.unplaced :: exprsUnplaced es

/-- The statement without the places of its tokens. -/
def Stmt.unplaced : Stmt → Stmt
  | .empty semicolon => .empty semicolon.unplaced
  | .block body => .block (stmtsUnplaced body)
  | .declare keyword ds => .declare keyword.unplaced (declaratorsUnplaced ds)
  | .function name params body =>
    .function name.unplaced (params.map Token.unplaced) (stmtsUnplaced body)
  | .ifThen c s => .ifThen c.unplaced s.unplaced
  | .ifElse c s o => .ifElse c.unplaced s.unplaced o.unplaced
  | .whileLoop c s => .whileLoop c.unplaced s.unplaced
  | .doLoop s c => .doLoop s.unplaced c.unplaced
  | .forLoop name e s => .forLoop name.unplaced e.unplaced s.unplaced
  | .jump way label => .jump way (label.map Token.unplaced)
  | .exit way => .exit way
  | .exitWith way e => .exitWith way e.unplaced
  | .attempt body hs => .attempt (stmtsUnplaced body) (handlersUnplaced hs)
  | .labeled label s => .labeled label.unplaced s.unplaced
  | .forward receiver args => .forward receiver.unplaced (exprsUnplaced args)
  | .assign t v => .assign t.unplaced v.unplaced
  | .compound t op v => .compound t.unplaced op.unplaced v.unplaced
  | .expression e => .expression e.unplaced

/-- Statements without the places of their tokens. -/
def stmtsUnplaced : List Stmt → List Stmt
  | [] => []
  | s :: ss => s.unplaced :: stmtsUnplaced ss

/-- The declarator without the places of its tokens. -/
def Declarator.unplaced : Declarator → Declarator
  | .plain name => .plain name.unplaced
  | .valued name e => .valued name.unplaced e.unplaced

/-- Declarators without the places of their tokens. -/
def declaratorsUnplaced : List Declarator → List Declarator
  | [] => []
  | d :: ds => d.unplaced :: declaratorsUnplaced ds

/-- The handler without the places of its tokens. -/
def Handler.unplaced : Handler → Handler
  | .rescue type name body =>
    .rescue (type.map Token.unplaced) (name.map Token.unplaced) (stmtsUnplaced body)
  | .always body => .always (stmtsUnplaced body)

/-- Handlers without the places of their tokens. -/
def handlersUnplaced : List Handler → List Handler
  | [] => []
  | h :: hs => h.unplaced :: handlersUnplaced hs

end

/-! ### Lists -/

@[simp] theorem exprsUnplaced_eq (es : List Expr) : exprsUnplaced es = es.map Expr.unplaced := by
  induction es with
  | nil => rfl
  | cons e es ih => rw [exprsUnplaced, ih, List.map_cons]

@[simp] theorem stmtsUnplaced_eq (ss : List Stmt) : stmtsUnplaced ss = ss.map Stmt.unplaced := by
  induction ss with
  | nil => rfl
  | cons s ss ih => rw [stmtsUnplaced, ih, List.map_cons]

@[simp] theorem declaratorsUnplaced_eq (ds : List Declarator) :
    declaratorsUnplaced ds = ds.map Declarator.unplaced := by
  induction ds with
  | nil => rfl
  | cons d ds ih => rw [declaratorsUnplaced, ih, List.map_cons]

@[simp] theorem handlersUnplaced_eq (hs : List Handler) :
    handlersUnplaced hs = hs.map Handler.unplaced := by
  induction hs with
  | nil => rfl
  | cons h hs ih => rw [handlersUnplaced, ih, List.map_cons]

/-! ### What is kept -/

@[simp] theorem Token.kind_unplaced (t : Token) : t.unplaced.kind = t.kind := rfl

theorem Expr.isTarget_unplaced : ∀ e : Expr, e.unplaced.isTarget = e.isTarget
  | .group e => e.isTarget_unplaced
  | .member safe _ _ | .index safe _ _ => by cases safe <;> rfl
  | .atom _ | .array _ | .new _ _ | .lambda _ _ | .call _ _ _ | .post _ _ | .pre _ _ | .unary _ _
  | .binary _ _ _ | .ternary _ _ _ => rfl

theorem Expr.hasEffect_unplaced (e : Expr) : e.unplaced.hasEffect = e.hasEffect := by
  cases e <;> rfl

/-! ### Trees -/

namespace Tree

@[simp] theorem unplacedAll_eq (ts : List Tree) : unplacedAll ts = ts.map unplaced := by
  induction ts with
  | nil => rfl
  | cons t ts ih => rw [unplacedAll, ih, List.map_cons]

/-- The leaves of some tokens without places. -/
@[simp] theorem map_token_unplaced (ts : List Token) :
    (ts.map token).map unplaced = (ts.map Token.unplaced).map token := by
  simp [unplaced]

end Tree

@[simp] theorem paramsTree_unplaced (params : List Token) :
    paramsTree (params.map Token.unplaced) = (paramsTree params).unplaced := by
  rw [paramsTree, paramsTree, Tree.unplaced, Tree.unplacedAll_eq, Tree.map_token_unplaced]

section
open CommandShell.Tree

mutual

/-- An expression without places is shown as its tree without places. -/
theorem Expr.tree_unplaced : ∀ e : Expr, e.unplaced.tree = e.tree.unplaced
  | .atom _ => rfl
  | .group e | .post .up e | .post .down e | .pre .up e | .pre .down e => by
    simp [Expr.unplaced, Expr.tree, Tree.unplaced, e.tree_unplaced]
  | .array items => by
    simp only [Expr.unplaced, Expr.tree, Tree.unplaced, exprTrees_unplaced items]
  | .new path args => by
    simp only [Expr.unplaced, Expr.tree, Tree.unplaced, exprTrees_unplaced args, unplacedAll_eq]
    simp [Tree.unplaced]
  | .lambda params body => by
    simp only [Expr.unplaced, Expr.tree, Tree.unplaced, stmtTrees_unplaced body]
    simp [Tree.unplaced]
  | .member safe e name => by
    simp [Expr.unplaced, Expr.tree, Tree.unplaced, e.tree_unplaced]
  | .call safe e args | .index safe e args => by
    simp only [Expr.unplaced, Expr.tree, Tree.unplaced, e.tree_unplaced, exprTrees_unplaced args]
    rfl
  | .unary op e => by
    simp [Expr.unplaced, Expr.tree, Tree.unplaced, e.tree_unplaced]
  | .binary l op r => by
    simp [Expr.unplaced, Expr.tree, Tree.unplaced, l.tree_unplaced, r.tree_unplaced]
  | .ternary c y n => by
    simp [Expr.unplaced, Expr.tree, Tree.unplaced, c.tree_unplaced, y.tree_unplaced,
      n.tree_unplaced]

theorem exprTrees_unplaced : ∀ es, exprTrees (exprsUnplaced es) = unplacedAll (exprTrees es)
  | [] => rfl
  | e :: es => congrArg₂ List.cons e.tree_unplaced (exprTrees_unplaced es)

/-- A statement without places is shown as its tree without places. -/
theorem Stmt.tree_unplaced : ∀ s : Stmt, s.unplaced.tree = s.tree.unplaced
  | .empty _ | .exit .returning | .exit .throwing => rfl
  | .block body => by simp only [Stmt.unplaced, Stmt.tree, Tree.unplaced, stmtTrees_unplaced body]
  | .declare keyword ds =>
    congrArg (fun ts => node "var_decl" (token keyword.unplaced :: ts))
      (declaratorTrees_unplaced ds)
  | .function name params body => by
    simp only [Stmt.unplaced, Stmt.tree, Tree.unplaced, stmtTrees_unplaced body]
    simp [Tree.unplaced]
  | .ifThen c s | .whileLoop c s | .doLoop s c | .forLoop _ c s => by
    simp [Stmt.unplaced, Stmt.tree, Tree.unplaced, c.tree_unplaced, s.tree_unplaced]
  | .ifElse c s o => by
    simp [Stmt.unplaced, Stmt.tree, Tree.unplaced, c.tree_unplaced, s.tree_unplaced,
      o.tree_unplaced]
  | .jump way label => by cases way <;> cases label <;> rfl
  | .exitWith .returning e | .exitWith .throwing e | .expression e => by
    simp [Stmt.unplaced, Stmt.tree, Tree.unplaced, e.tree_unplaced]
  | .attempt body hs =>
    congrArg₂ (fun b ts => node "try_stmt" (node "block" b :: ts)) (stmtTrees_unplaced body)
      (handlerTrees_unplaced hs)
  | .labeled label s => by simp [Stmt.unplaced, Stmt.tree, Tree.unplaced, s.tree_unplaced]
  | .forward receiver args =>
    congrArg (fun ts => node "ctor_forward" [token receiver.unplaced, node "args" ts])
      (exprTrees_unplaced args)
  | .assign t v | .compound t _ v => by
    simp [Stmt.unplaced, Stmt.tree, Tree.unplaced, t.tree_unplaced, v.tree_unplaced]

theorem stmtTrees_unplaced : ∀ ss, stmtTrees (stmtsUnplaced ss) = unplacedAll (stmtTrees ss)
  | [] => rfl
  | s :: ss => congrArg₂ List.cons s.tree_unplaced (stmtTrees_unplaced ss)

theorem Declarator.tree_unplaced : ∀ d : Declarator, d.unplaced.tree = d.tree.unplaced
  | .plain _ => rfl
  | .valued name e => by simp [Declarator.unplaced, Declarator.tree, Tree.unplaced, e.tree_unplaced]

theorem declaratorTrees_unplaced :
    ∀ ds, declaratorTrees (declaratorsUnplaced ds) = unplacedAll (declaratorTrees ds)
  | [] => rfl
  | d :: ds => congrArg₂ List.cons d.tree_unplaced (declaratorTrees_unplaced ds)

theorem Handler.tree_unplaced : ∀ h : Handler, h.unplaced.tree = h.tree.unplaced
  | .rescue type name body => by
    have hbody := congrArg (node "block") (stmtTrees_unplaced body)
    cases type <;> cases name <;>
      simpa [Handler.unplaced, Handler.tree, Tree.unplaced] using hbody
  | .always body =>
    congrArg (fun ts => node "finally_clause" [node "block" ts]) (stmtTrees_unplaced body)

theorem handlerTrees_unplaced :
    ∀ hs, handlerTrees (handlersUnplaced hs) = unplacedAll (handlerTrees hs)
  | [] => rfl
  | h :: hs => congrArg₂ List.cons h.tree_unplaced (handlerTrees_unplaced hs)

end

end

/-! ### The first token -/

namespace Tree

mutual

theorem firstToken?_unplaced : ∀ t : Tree, t.unplaced.firstToken? = t.firstToken?.map .unplaced
  | .token _ | .operator _ => rfl
  | .node _ children => firstOf?_unplaced children

theorem firstOf?_unplaced : ∀ ts, firstOf? (unplacedAll ts) = (firstOf? ts).map Token.unplaced
  | [] => rfl
  | t :: ts => by
    rw [unplacedAll, firstOf?, firstOf?, t.firstToken?_unplaced]
    cases t.firstToken? with
    | none => exact firstOf?_unplaced ts
    | some first => rfl

end

mutual

theorem searchDepth_unplaced : ∀ t : Tree, t.unplaced.searchDepth = t.searchDepth
  | .token _ | .operator _ => rfl
  | .node _ children => congrArg (· + 1) (searchDepthOf_unplaced children)

theorem searchDepthOf_unplaced : ∀ ts, searchDepthOf (unplacedAll ts) = searchDepthOf ts
  | [] => rfl
  | t :: ts => by
    rw [unplacedAll, searchDepthOf, searchDepthOf, t.firstToken?_unplaced, Option.isSome_map,
      t.searchDepth_unplaced, searchDepthOf_unplaced ts]

end

end Tree

/-- The first token is the same without its place. -/
theorem Expr.firstToken?_unplaced (e : Expr) :
    e.unplaced.firstToken? = e.firstToken?.map Token.unplaced := by
  rw [Expr.firstToken?, e.tree_unplaced, Tree.firstToken?_unplaced]
  rfl

end CommandShell
