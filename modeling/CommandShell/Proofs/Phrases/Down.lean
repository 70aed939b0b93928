import CommandShell.Grammar.Check
import CommandShell.Proofs.Lexing.Join
import CommandShell.Proofs.Phrases.Pieces

/-! # Down: phrases and reports some lines further down

A phrase moved down keeps its form, and each of its tokens stands as many lines further down. A
report moves with the token that it stands at; a report without a place stays without one. What the
checks say of a phrase moves with it (`targetReports_down`, `effectReports_down`). -/

namespace CommandShell

mutual

/-- The expression some lines further down. -/
def Expr.down (k : Int) : Expr → Expr
  | .atom t => .atom (t.down k)
  | .group e => .group (e.down k)
  | .array items => .array (exprsDown k items)
  | .new path args => .new (path.map (.down k)) (exprsDown k args)
  | .lambda params body => .lambda (params.map (.down k)) (stmtsDown k body)
  | .member safe e name => .member safe (e.down k) (name.down k)
  | .call safe e args => .call safe (e.down k) (exprsDown k args)
  | .index safe e args => .index safe (e.down k) (exprsDown k args)
  | .post step e => .post step (e.down k)
  | .pre step e => .pre step (e.down k)
  | .unary op e => .unary (op.down k) (e.down k)
  | .binary l op r => .binary (l.down k) (op.down k) (r.down k)
  | .ternary c y n => .ternary (c.down k) (y.down k) (n.down k)

/-- The expressions some lines further down. -/
def exprsDown (k : Int) : List Expr → List Expr
  | [] => []
  | e :: es => e.down k :: exprsDown k es

/-- The statement some lines further down. -/
def Stmt.down (k : Int) : Stmt → Stmt
  | .empty t => .empty (t.down k)
  | .block body => .block (stmtsDown k body)
  | .declare keyword ds => .declare (keyword.down k) (declaratorsDown k ds)
  | .function name params body =>
    .function (name.down k) (params.map (.down k)) (stmtsDown k body)
  | .ifThen c s => .ifThen (c.down k) (s.down k)
  | .ifElse c s o => .ifElse (c.down k) (s.down k) (o.down k)
  | .whileLoop c s => .whileLoop (c.down k) (s.down k)
  | .doLoop s c => .doLoop (s.down k) (c.down k)
  | .forLoop name e s => .forLoop (name.down k) (e.down k) (s.down k)
  | .jump way label => .jump way (label.map (.down k))
  | .exit way => .exit way
  | .exitWith way e => .exitWith way (e.down k)
  | .attempt body hs => .attempt (stmtsDown k body) (handlersDown k hs)
  | .labeled label s => .labeled (label.down k) (s.down k)
  | .forward receiver args => .forward (receiver.down k) (exprsDown k args)
  | .assign t v => .assign (t.down k) (v.down k)
  | .compound t op v => .compound (t.down k) (op.down k) (v.down k)
  | .expression e => .expression (e.down k)

/-- The statements some lines further down. -/
def stmtsDown (k : Int) : List Stmt → List Stmt
  | [] => []
  | s :: ss => s.down k :: stmtsDown k ss

/-- The declarator some lines further down. -/
def Declarator.down (k : Int) : Declarator → Declarator
  | .plain name => .plain (name.down k)
  | .valued name e => .valued (name.down k) (e.down k)

/-- The declarators some lines further down. -/
def declaratorsDown (k : Int) : List Declarator → List Declarator
  | [] => []
  | d :: ds => d.down k :: declaratorsDown k ds

/-- The handler some lines further down. -/
def Handler.down (k : Int) : Handler → Handler
  | .rescue type name body => .rescue (type.map (.down k)) (name.map (.down k)) (stmtsDown k body)
  | .always body => .always (stmtsDown k body)

/-- The handlers some lines further down. -/
def handlersDown (k : Int) : List Handler → List Handler
  | [] => []
  | h :: hs => h.down k :: handlersDown k hs

end

/-- The report some lines further down. Without a place it stays without one. -/
def Diagnostic.down (k : Int) (d : Diagnostic) : Diagnostic :=
  if d.line = 0 ∧ d.column = 0 then d else { d with line := d.line + k }

/-- The span some lines further down. -/
def Span.down (k : Int) (s : Span) : Span :=
  { s with startLine := s.startLine + k, endLine := s.endLine + k }

/-- The request some lines further down. -/
def Request.down (k : Int) : Request → Request
  | .statement s => .statement (s.down k)
  | .expression e terminated => .expression (e.down k) terminated
  | .assignment t v => .assignment (t.down k) (v.down k)
  | .compound t op v => .compound (t.down k) op (v.down k)
  | .parallel ts sign vs => .parallel (exprsDown k ts) (sign.down k) (exprsDown k vs)

/-- The command some lines further down. -/
def Command.down (k : Int) (c : Command) : Command := ⟨c.request.down k, c.span.down k⟩

section
variable (k : Int)

theorem exprsDown_eq (es : List Expr) : exprsDown k es = es.map (.down k) := by
  induction es with
  | nil => rfl
  | cons _ _ ih => exact congrArg _ ih

theorem stmtsDown_eq (ss : List Stmt) : stmtsDown k ss = ss.map (.down k) := by
  induction ss with
  | nil => rfl
  | cons _ _ ih => exact congrArg _ ih

theorem declaratorsDown_eq (ds : List Declarator) : declaratorsDown k ds = ds.map (.down k) := by
  induction ds with
  | nil => rfl
  | cons _ _ ih => exact congrArg _ ih

theorem handlersDown_eq (hs : List Handler) : handlersDown k hs = hs.map (.down k) := by
  induction hs with
  | nil => rfl
  | cons _ _ ih => exact congrArg _ ih

theorem isTarget_down : ∀ e : Expr, (e.down k).isTarget = e.isTarget
  | .group e => isTarget_down e
  | .atom _ | .member true _ _ | .member false _ _ | .index true _ _ | .index false _ _ => rfl
  | .array _ | .new _ _ | .lambda _ _ | .call _ _ _ | .post _ _ | .pre _ _ | .unary _ _ => rfl
  | .binary _ _ _ | .ternary _ _ _ => rfl

theorem hasEffect_down (e : Expr) : (e.down k).hasEffect = e.hasEffect := by cases e <;> rfl

theorem showsValue_down (r : Request) : (r.down k).showsValue = r.showsValue := by cases r <;> rfl

/-! ### Trees -/

namespace Tree

mutual

/-- The tree some lines further down. -/
def down : Tree → Tree
  | .token t => .token (t.down k)
  | .operator op => .operator op
  | .node label children => .node label (downAll children)

/-- The trees some lines further down. -/
def downAll : List Tree → List Tree
  | [] => []
  | t :: ts => t.down :: downAll ts

end

mutual

theorem firstToken?_down : ∀ t : Tree, (t.down k).firstToken? = t.firstToken?.map (.down k)
  | .token _ | .operator _ => rfl
  | .node _ children => firstOf?_downAll children

theorem firstOf?_downAll : ∀ ts, firstOf? (downAll k ts) = (firstOf? ts).map (.down k)
  | [] => rfl
  | t :: ts => by
    rw [downAll, firstOf?, firstOf?, firstToken?_down t]
    cases t.firstToken? with
    | none => exact firstOf?_downAll ts
    | some _ => rfl

end

mutual

theorem searchDepth_down : ∀ t : Tree, (t.down k).searchDepth = t.searchDepth
  | .token _ | .operator _ => rfl
  | .node _ children => congrArg (· + 1) (searchDepthOf_downAll children)

theorem searchDepthOf_downAll : ∀ ts, searchDepthOf (downAll k ts) = searchDepthOf ts
  | [] => rfl
  | t :: ts => by
    rw [downAll, searchDepthOf, searchDepthOf, firstToken?_down k t, Option.isSome_map,
      searchDepth_down t, searchDepthOf_downAll ts]

end

theorem downAll_tokens : ∀ ts : List Token,
    downAll k (ts.map .token) = ts.map (Tree.token ∘ Token.down k)
  | [] => rfl
  | t :: ts => congrArg (Tree.token (t.down k) :: ·) (downAll_tokens ts)

end Tree

open CommandShell.Tree

mutual

/-- **The tree of a phrase moves with it.** -/
theorem Expr.tree_down : ∀ e : Expr, (e.down k).tree = e.tree.down k
  | .atom _ => rfl
  | .group e => by simp [Expr.down, Expr.tree, Tree.down, downAll, e.tree_down]
  | .array items => by simp [Expr.down, Expr.tree, Tree.down, exprTrees_down items]
  | .new path args => by
    simp [Expr.down, Expr.tree, Tree.down, downAll, downAll_tokens, exprTrees_down args]
  | .lambda params body => by
    simp [Expr.down, Expr.tree, Tree.down, downAll, paramsTree, downAll_tokens,
      stmtTrees_down body]
  | .member safe e name => by simp [Expr.down, Expr.tree, Tree.down, downAll, e.tree_down]
  | .call safe e args => by
    simp [Expr.down, Expr.tree, Tree.down, downAll, e.tree_down, exprTrees_down args]
  | .index safe e args => by
    simp [Expr.down, Expr.tree, Tree.down, downAll, e.tree_down, exprTrees_down args]
  | .post step e => by cases step <;> simp [Expr.down, Expr.tree, Tree.down, downAll, e.tree_down]
  | .pre step e => by cases step <;> simp [Expr.down, Expr.tree, Tree.down, downAll, e.tree_down]
  | .unary op e => by simp [Expr.down, Expr.tree, Tree.down, downAll, e.tree_down]
  | .binary l op r => by
    simp [Expr.down, Expr.tree, Tree.down, downAll, l.tree_down, r.tree_down]
  | .ternary c y n => by
    simp [Expr.down, Expr.tree, Tree.down, downAll, c.tree_down, y.tree_down, n.tree_down]

theorem exprTrees_down : ∀ es, exprTrees (exprsDown k es) = downAll k (exprTrees es)
  | [] => rfl
  | e :: es => by simp [exprsDown, exprTrees, downAll, e.tree_down, exprTrees_down es]

theorem Stmt.tree_down : ∀ s : Stmt, (s.down k).tree = s.tree.down k
  | .empty _ => rfl
  | .block body => by simp [Stmt.down, Stmt.tree, Tree.down, stmtTrees_down body]
  | .declare keyword ds => by
    simp [Stmt.down, Stmt.tree, Tree.down, downAll, declaratorTrees_down ds]
  | .function name params body => by
    simp [Stmt.down, Stmt.tree, Tree.down, downAll, paramsTree, downAll_tokens,
      stmtTrees_down body]
  | .ifThen c s | .whileLoop c s => by
    simp [Stmt.down, Stmt.tree, Tree.down, downAll, c.tree_down, s.tree_down]
  | .ifElse c s o => by
    simp [Stmt.down, Stmt.tree, Tree.down, downAll, c.tree_down, s.tree_down, o.tree_down]
  | .doLoop s c => by simp [Stmt.down, Stmt.tree, Tree.down, downAll, s.tree_down, c.tree_down]
  | .forLoop name e s => by
    simp [Stmt.down, Stmt.tree, Tree.down, downAll, e.tree_down, s.tree_down]
  | .jump way label => by cases way <;> cases label <;> rfl
  | .exit way => by cases way <;> rfl
  | .exitWith way e => by cases way <;> simp [Stmt.down, Stmt.tree, Tree.down, downAll, e.tree_down]
  | .attempt body hs => by
    simp [Stmt.down, Stmt.tree, Tree.down, downAll, stmtTrees_down body, handlerTrees_down hs]
  | .labeled label s => by simp [Stmt.down, Stmt.tree, Tree.down, downAll, s.tree_down]
  | .forward receiver args => by
    simp [Stmt.down, Stmt.tree, Tree.down, downAll, exprTrees_down args]
  | .assign t v | .compound t _ v => by
    simp [Stmt.down, Stmt.tree, Tree.down, downAll, t.tree_down, v.tree_down]
  | .expression e => by simp [Stmt.down, Stmt.tree, Tree.down, downAll, e.tree_down]

theorem stmtTrees_down : ∀ ss, stmtTrees (stmtsDown k ss) = downAll k (stmtTrees ss)
  | [] => rfl
  | s :: ss => by simp [stmtsDown, stmtTrees, downAll, s.tree_down, stmtTrees_down ss]

theorem Declarator.tree_down : ∀ d : Declarator, (d.down k).tree = d.tree.down k
  | .plain _ => rfl
  | .valued name e => by
    simp [Declarator.down, Declarator.tree, Tree.down, downAll, e.tree_down]

theorem declaratorTrees_down :
    ∀ ds, declaratorTrees (declaratorsDown k ds) = downAll k (declaratorTrees ds)
  | [] => rfl
  | d :: ds => by
    simp [declaratorsDown, declaratorTrees, downAll, d.tree_down, declaratorTrees_down ds]

theorem Handler.tree_down : ∀ h : Handler, (h.down k).tree = h.tree.down k
  | .rescue type name body => by
    cases type <;> cases name <;>
      simp [Handler.down, Handler.tree, Tree.down, downAll, stmtTrees_down body]
  | .always body => by simp [Handler.down, Handler.tree, Tree.down, downAll, stmtTrees_down body]

theorem handlerTrees_down : ∀ hs, handlerTrees (handlersDown k hs) = downAll k (handlerTrees hs)
  | [] => rfl
  | h :: hs => by simp [handlersDown, handlerTrees, downAll, h.tree_down, handlerTrees_down hs]

end

/-! ### Reports -/

/-- The first token that the expression keeps, if any, has a place. -/
def Expr.Placed (e : Expr) : Prop := ∀ t, e.firstToken? = some t → 1 ≤ t.line

namespace Diagnostic

variable {k}

theorem at?_down {code : Code} {message : String} {severity : Severity} (token : Option Token)
    (h : ∀ t, token = some t → 1 ≤ t.line) :
    at? code message (token.map (.down k)) severity = (at? code message token severity).down k := by
  cases token with
  | none => rfl
  | some t =>
    have ht := h t rfl
    exact (if_neg (by simp only [at?]; omega)).symm

variable {e : Expr} (h : e.Placed)
include h

theorem badTarget_down : badTarget (e.down k) = (badTarget e).down k := by
  unfold badTarget Expr.firstToken?
  rw [e.tree_down, firstToken?_down]
  exact at?_down _ h

theorem noEffect_down : noEffect (e.down k) = (noEffect e).down k := by
  unfold noEffect Expr.firstToken?
  rw [e.tree_down, firstToken?_down]
  exact at?_down _ h

omit h in
theorem badArity_down {sign : Token} (hsign : 1 ≤ sign.line) (values targets : Nat) :
    badArity values targets (sign.down k) = (badArity values targets sign).down k :=
  at?_down (some sign) fun t ht => by cases ht; exact hsign

omit h in
theorem emptyBody_down {semicolon : Token} (hsemicolon : 1 ≤ semicolon.line) (owner : Kind) :
    emptyBody owner (semicolon.down k) = (emptyBody owner semicolon).down k :=
  at?_down (some semicolon) fun t ht => by cases ht; exact hsemicolon

end Diagnostic

namespace Grammar

variable {k}

theorem targetReports_down {e : Expr} (h : e.Placed) :
    targetReports (e.down k) = (targetReports e).map (.down k) := by
  unfold targetReports
  rw [isTarget_down, Diagnostic.badTarget_down h]
  split <;> rfl

theorem targetsReports_down : ∀ {es : List Expr}, (∀ e ∈ es, e.Placed) →
    (exprsDown k es).flatMap targetReports = (es.flatMap targetReports).map (.down k)
  | [], _ => rfl
  | e :: es, hes => by
    have ih := targetsReports_down fun e he => hes e (List.mem_cons_of_mem _ he)
    rw [exprsDown, List.flatMap_cons, List.flatMap_cons, List.map_append, ih,
      targetReports_down (hes e List.mem_cons_self)]

theorem effectReports_down {e : Expr} (h : e.Placed) :
    effectReports (e.down k) = (effectReports e).map (.down k) := by
  unfold effectReports
  rw [hasEffect_down, Diagnostic.noEffect_down h]
  split <;> rfl

theorem emptyReports_down {s : Stmt} (owner : Kind) (h : ∀ t, s = .empty t → 1 ≤ t.line) :
    emptyReports owner (s.down k) = (emptyReports owner s).map (.down k) := by
  cases s with
  | empty t => exact congrArg ([·]) (Diagnostic.emptyBody_down (h t rfl) owner)
  | _ => rfl

end Grammar

end

end CommandShell
