import CommandShell.Proofs.Phrases.Pieces

/-! # Written trees: a labelled tree says all that its phrase says

A tree is written out from its labels alone: a label says which keywords, brackets and separators
stand around and between the children. The tree of a phrase is written out as the phrase is
(`pieces_tree`), so that showing a phrase as a tree loses no word of it. -/

namespace CommandShell

open Piece Grammar

namespace Tree

/-- Does the first of some trees name the type that is caught? -/
def beginsWithType : List Tree → Bool
  | .node label _ :: _ => label == "catch_type"
  | _ => false

/-- The pieces of a node with a label, from the rows of pieces of its children; `typed` says whether
the first child names a type. -/
def layout (typed : Bool) : String → List (List Piece) → List Piece
  | "group", [e] => enclosed .lparen .rparen e
  | "array", items => enclosed .lsquare .rsquare (separated .comma items)
  | "new", [path, args] => fixed .newKw :: (path ++ enclosed .lparen .rparen args)
  | "type_name", names => separated .dot names
  | "args", es => separated .comma es
  | "lambda", [params, body] => fixed .fnKw :: (params ++ body)
  | "params", names => enclosed .lparen .rparen (separated .comma names)
  | "member", [e, name] => e ++ fixed .dot :: name
  | "safe_member", [e, name] => e ++ fixed .safeDot :: name
  | "call", [e, args] => e ++ enclosed .lparen .rparen args
  | "safe_call", [e, args] => e ++ enclosed .safeLparen .rparen args
  | "index", [e, args] => e ++ enclosed .lsquare .rsquare args
  | "safe_index", [e, args] => e ++ enclosed .safeLsquare .rsquare args
  | "post_incr", [e] => e ++ [fixed .increment]
  | "post_decr", [e] => e ++ [fixed .decrement]
  | "pre_incr", [e] => fixed .increment :: e
  | "pre_decr", [e] => fixed .decrement :: e
  | "unary", [op, e] => op ++ e
  | "binary", [l, op, r] => l ++ (op ++ r)
  | "ternary", [c, y, n] => c ++ fixed .question :: (y ++ fixed .colon :: n)
  | "empty_stmt", [] => [fixed .semicolon]
  | "block", body => enclosed .lbrace .rbrace body.flatten
  | "var_decl", keyword :: ds => keyword ++ (separated .comma ds ++ [fixed .semicolon])
  | "declarator", [name] => name
  | "declarator", [name, e] => name ++ fixed .assign :: e
  | "fn_decl", [name, params, body] => fixed .fnKw :: (name ++ (params ++ body))
  | "if_stmt", [c, s] => fixed .ifKw :: (c ++ s)
  | "if_stmt", [c, s, o] => fixed .ifKw :: (c ++ (s ++ fixed .elseKw :: o))
  | "while_stmt", [c, s] => fixed .whileKw :: (c ++ s)
  | "do_stmt", [s, c] => fixed .doKw :: (s ++ fixed .whileKw :: (c ++ [fixed .semicolon]))
  | "for_stmt", [name, e, s] => fixed .forKw :: (name ++ fixed .inKw :: (e ++ s))
  | "break_stmt", label => fixed .breakKw :: (label.flatten ++ [fixed .semicolon])
  | "continue_stmt", label => fixed .continueKw :: (label.flatten ++ [fixed .semicolon])
  | "return_stmt", value => fixed .returnKw :: (value.flatten ++ [fixed .semicolon])
  | "throw_stmt", value => fixed .throwKw :: (value.flatten ++ [fixed .semicolon])
  | "try_stmt", clauses => fixed .tryKw :: clauses.flatten
  | "catch_type", [type] => type
  | "catch_name", [name] => name
  | "catch_clause", [body] => fixed .catchKw :: body
  | "catch_clause", [t, body] =>
    fixed .catchKw :: (if typed then enclosed .lparen .rparen t ++ body else t ++ body)
  | "catch_clause", [type, name, body] =>
    fixed .catchKw :: (enclosed .lparen .rparen (type ++ name) ++ body)
  | "finally_clause", [body] => fixed .finallyKw :: body
  | "labeled_stmt", [label, s] => label ++ fixed .colon :: s
  | "ctor_forward", [receiver, args] =>
    fixed .newKw :: (receiver ++ (enclosed .lparen .rparen args ++ [fixed .semicolon]))
  | "assign_stmt", [t, v] => t ++ fixed .assign :: (v ++ [fixed .semicolon])
  | "compound_assign_stmt", [t, op, v] => t ++ (op ++ (v ++ [fixed .semicolon]))
  | "expr_stmt", [e] => e ++ [fixed .semicolon]
  | "statement", [s] => s
  | "expression_statement", [e] => e ++ [fixed .semicolon]
  | "value", [e] => e
  | "target", [e] => e
  | "simple_assignment", [t, v] => t ++ fixed .assign :: (v ++ [fixed .semicolon])
  | "compound_assignment", [t, op, v] => t ++ (op ++ (v ++ [fixed .semicolon]))
  | "targets", ts => separated .comma ts
  | "values", vs => separated .comma vs
  | "parallel_assignment", [ts, vs] => ts ++ fixed .assign :: (vs ++ [fixed .semicolon])
  | _, _ => []

mutual

/-- The pieces of a tree. -/
def pieces : Tree → List Piece
  | .token t => [Piece.token t]
  | .operator op => [fixed op.assignKind]
  | .node label children => layout (beginsWithType children) label (rows children)

/-- The pieces of trees, a row for each. -/
def rows : List Tree → List (List Piece)
  | [] => []
  | t :: ts => t.pieces :: rows ts

end

/-- The words of a tree written out. -/
def words (t : Tree) : List Word := t.pieces.map Piece.word

theorem rows_tokens : ∀ ts : List Token, rows (ts.map .token) = ts.map ([Piece.token ·])
  | [] => rfl
  | t :: ts => congrArg ([Piece.token t] :: ·) (rows_tokens ts)

end Tree

open CommandShell.Tree (rows rows_tokens)

theorem pieces_paramsTree (params : List Token) : (paramsTree params).pieces = ofParams params := by
  show enclosed .lparen .rparen (separated .comma (rows (params.map .token))) = _
  rw [rows_tokens]
  rfl

mutual

/-- **The tree of a phrase is written out as the phrase is.** -/
theorem Expr.pieces_tree : ∀ e : Expr, e.tree.pieces = e.pieces
  | .atom t => rfl
  | .group e => congrArg (enclosed .lparen .rparen) e.pieces_tree
  | .array items => by
    show enclosed .lsquare .rsquare (separated .comma (rows (exprTrees items))) = _
    rw [rows_exprTrees items]
    rfl
  | .new path args => by
    show fixed .newKw :: (separated .dot (rows (path.map .token)) ++
      enclosed .lparen .rparen (separated .comma (rows (exprTrees args)))) = _
    rw [rows_tokens, rows_exprTrees args]
    rfl
  | .lambda params body => by
    show fixed .fnKw :: ((paramsTree params).pieces ++
      enclosed .lbrace .rbrace (rows (stmtTrees body)).flatten) = _
    rw [pieces_paramsTree, rows_stmtTrees body]
    rfl
  | .member safe e name => by
    have h : (Expr.member safe e name).tree.pieces =
        e.tree.pieces ++ [fixed (dotKind safe), token name] := by cases safe <;> rfl
    rw [h, e.pieces_tree]
    rfl
  | .call safe e args => by
    have h : (Expr.call safe e args).tree.pieces = e.tree.pieces ++
        enclosed (callKind safe) .rparen (separated .comma (rows (exprTrees args))) := by
      cases safe <;> rfl
    rw [h, e.pieces_tree, rows_exprTrees args]
    rfl
  | .index safe e args => by
    have h : (Expr.index safe e args).tree.pieces = e.tree.pieces ++
        enclosed (indexKind safe) .rsquare (separated .comma (rows (exprTrees args))) := by
      cases safe <;> rfl
    rw [h, e.pieces_tree, rows_exprTrees args]
    rfl
  | .post step e => by
    have h : (Expr.post step e).tree.pieces = e.tree.pieces ++ [fixed step.kind] := by
      cases step <;> rfl
    rw [h, e.pieces_tree]
    rfl
  | .pre step e => by
    have h : (Expr.pre step e).tree.pieces = fixed step.kind :: e.tree.pieces := by
      cases step <;> rfl
    rw [h, e.pieces_tree]
    rfl
  | .unary op e => congrArg (token op :: ·) e.pieces_tree
  | .binary l op r => by
    show l.tree.pieces ++ token op :: r.tree.pieces = _
    rw [l.pieces_tree, r.pieces_tree]
    rfl
  | .ternary c y n => by
    show c.tree.pieces ++ fixed .question :: (y.tree.pieces ++ fixed .colon :: n.tree.pieces) = _
    rw [c.pieces_tree, y.pieces_tree, n.pieces_tree]
    rfl

theorem rows_exprTrees : ∀ es, rows (exprTrees es) = exprPieces es
  | [] => rfl
  | e :: es => by rw [exprTrees, rows, e.pieces_tree, rows_exprTrees es, exprPieces]

theorem Stmt.pieces_tree : ∀ s : Stmt, s.tree.pieces = s.pieces
  | .empty _ => rfl
  | .block body => congrArg (enclosed .lbrace .rbrace) (rows_stmtTrees body)
  | .declare keyword ds => by
    show token keyword :: (separated .comma (rows (declaratorTrees ds)) ++ [fixed .semicolon]) = _
    rw [rows_declaratorTrees ds]
    rfl
  | .function name params body => by
    show fixed .fnKw :: token name :: ((paramsTree params).pieces ++
      enclosed .lbrace .rbrace (rows (stmtTrees body)).flatten) = _
    rw [pieces_paramsTree, rows_stmtTrees body]
    rfl
  | .ifThen c s => by
    show fixed .ifKw :: (c.tree.pieces ++ s.tree.pieces) = _
    rw [c.pieces_tree, s.pieces_tree]
    rfl
  | .ifElse c s o => by
    show fixed .ifKw :: (c.tree.pieces ++ (s.tree.pieces ++ fixed .elseKw :: o.tree.pieces)) = _
    rw [c.pieces_tree, s.pieces_tree, o.pieces_tree]
    rfl
  | .whileLoop c s => by
    show fixed .whileKw :: (c.tree.pieces ++ s.tree.pieces) = _
    rw [c.pieces_tree, s.pieces_tree]
    rfl
  | .doLoop s c => by
    show fixed .doKw :: (s.tree.pieces ++ fixed .whileKw :: (c.tree.pieces ++
      [fixed .semicolon])) = _
    rw [s.pieces_tree, c.pieces_tree]
    rfl
  | .forLoop name e s => by
    show fixed .forKw :: token name :: fixed .inKw :: (e.tree.pieces ++ s.tree.pieces) = _
    rw [e.pieces_tree, s.pieces_tree]
    rfl
  | .jump way label => by cases way <;> cases label <;> rfl
  | .exit way => by cases way <;> rfl
  | .exitWith way e => by
    have h : (Stmt.exitWith way e).tree.pieces =
        fixed way.kind :: (e.tree.pieces ++ [] ++ [fixed .semicolon]) := by cases way <;> rfl
    rw [h, e.pieces_tree, List.append_nil]
    rfl
  | .attempt body hs => by
    show fixed .tryKw :: (enclosed .lbrace .rbrace (rows (stmtTrees body)).flatten ++
      (rows (handlerTrees hs)).flatten) = _
    rw [rows_stmtTrees body, rows_handlerTrees hs]
    rfl
  | .labeled label s => congrArg (token label :: fixed .colon :: ·) s.pieces_tree
  | .forward receiver args => by
    show fixed .newKw :: token receiver ::
      (enclosed .lparen .rparen (separated .comma (rows (exprTrees args))) ++
        [fixed .semicolon]) = _
    rw [rows_exprTrees args]
    rfl
  | .assign t v => by
    show t.tree.pieces ++ fixed .assign :: (v.tree.pieces ++ [fixed .semicolon]) = _
    rw [t.pieces_tree, v.pieces_tree]
    rfl
  | .compound t op v => by
    show t.tree.pieces ++ token op :: (v.tree.pieces ++ [fixed .semicolon]) = _
    rw [t.pieces_tree, v.pieces_tree]
    rfl
  | .expression e => congrArg (· ++ [fixed .semicolon]) e.pieces_tree

theorem rows_stmtTrees : ∀ ss, (rows (stmtTrees ss)).flatten = stmtPieces ss
  | [] => rfl
  | s :: ss => by
    rw [stmtTrees, rows, List.flatten_cons, s.pieces_tree, rows_stmtTrees ss, stmtPieces]

theorem Declarator.pieces_tree : ∀ d : Declarator, d.tree.pieces = d.pieces
  | .plain _ => rfl
  | .valued name e => congrArg (token name :: fixed .assign :: ·) e.pieces_tree

theorem rows_declaratorTrees : ∀ ds, rows (declaratorTrees ds) = declaratorPieces ds
  | [] => rfl
  | d :: ds => by
    rw [declaratorTrees, rows, d.pieces_tree, rows_declaratorTrees ds, declaratorPieces]

theorem Handler.pieces_tree : ∀ h : Handler, h.tree.pieces = h.pieces
  | .rescue type name body => by
    have hbody := congrArg (enclosed .lbrace .rbrace) (rows_stmtTrees body)
    cases type with
    | none =>
      cases name with
      | none => exact congrArg (fixed .catchKw :: ·) hbody
      | some n => exact congrArg (fixed .catchKw :: token n :: ·) hbody
    | some t =>
      cases name with
      | none =>
        exact congrArg (fun ps => fixed .catchKw :: (enclosed .lparen .rparen [token t] ++ ps))
          hbody
      | some n =>
        exact congrArg
          (fun ps => fixed .catchKw :: (enclosed .lparen .rparen [token t, token n] ++ ps)) hbody
  | .always body =>
    congrArg (fixed .finallyKw :: enclosed .lbrace .rbrace ·) (rows_stmtTrees body)

theorem rows_handlerTrees : ∀ hs, (rows (handlerTrees hs)).flatten = handlerPieces hs
  | [] => rfl
  | h :: hs => by
    rw [handlerTrees, rows, List.flatten_cons, h.pieces_tree, rows_handlerTrees hs, handlerPieces]

end

theorem Request.pieces_tree : ∀ r : Request, r.tree.pieces = r.pieces
  | .statement s => s.pieces_tree
  | .expression e true => congrArg (· ++ [fixed .semicolon]) e.pieces_tree
  | .expression e false => e.pieces_tree
  | .assignment t v => by
    show t.tree.pieces ++ fixed .assign :: (v.tree.pieces ++ [fixed .semicolon]) = _
    rw [t.pieces_tree, v.pieces_tree]
    rfl
  | .compound t op v => by
    show t.tree.pieces ++ fixed op.assignKind :: (v.tree.pieces ++ [fixed .semicolon]) = _
    rw [t.pieces_tree, v.pieces_tree]
    rfl
  | .parallel ts _ vs => by
    show separated .comma (rows (exprTrees ts)) ++
      fixed .assign :: (separated .comma (rows (exprTrees vs)) ++ [fixed .semicolon]) = _
    rw [rows_exprTrees, rows_exprTrees]
    rfl

end CommandShell
