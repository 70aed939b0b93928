import CommandShell.Command.Basic
import CommandShell.Proofs.Parsing.Production

/-! # Pieces: what a phrase is in writing

A phrase written out is a row of pieces: the tokens that it keeps, and between them tokens of a
fixed kind that its form implies. Brackets, separators, keywords and semicolons are such implied
pieces. The words of a phrase are the kinds and lexemes of its pieces; the tokens that its tree
shows are the pieces that it keeps, in the same order (`tokens_tree`). -/

namespace CommandShell

/-- A part of a phrase in writing: a token that it keeps, or one that its form implies. -/
inductive Piece where
  | fixed (kind : Kind)
  | token (t : Token)

/-- A kind and a lexeme. -/
abbrev Word : Type := Kind × String

/-- The word of a token. -/
def Token.word (t : Token) : Word := (t.kind, t.lexeme)

namespace Piece

/-- The word of a piece. -/
def word : Piece → Word
  | fixed k => (k, k.spelling)
  | token t => t.word

/-- The token that is kept. -/
def token? : Piece → Option Token
  | fixed _ => none
  | token t => some t

/-- Does a token stand for the piece? -/
def Fits : Piece → Token → Prop
  | fixed k, t => t.word = (k, k.spelling)
  | token u, t => t = u

/-- Pieces between an opening and a closing bracket. -/
def enclosed (opener closer : Kind) (ps : List Piece) : List Piece :=
  fixed opener :: (ps ++ [fixed closer])

/-- Rows of pieces with separators between them. -/
def separated (separator : Kind) : List (List Piece) → List Piece
  | [] => []
  | ps :: rest => ps ++ rest.flatMap (fixed separator :: ·)

/-- The names of parameters in parentheses. -/
def ofParams (names : List Token) : List Piece :=
  enclosed .lparen .rparen (separated .comma (names.map ([token ·])))

end Piece

/-- The sign that makes a compound assignment of an operator. -/
def BinaryOp.assignKind : BinaryOp → Kind
  | .add => .plusAssign
  | .sub => .minusAssign
  | .mul => .starAssign
  | .div => .slashAssign
  | .mod => .percentAssign
  | .pow => .powerAssign
  | .bitAnd => .ampAssign
  | .bitOr => .pipeAssign
  | .bitXor => .caretAssign
  | .shl => .shiftLeftAssign
  | .shr => .shiftRightAssign
  | .concat => .tildeAssign

theorem assignKind_of_compound {k : Kind} {op : BinaryOp} (h : k.compoundOp? = some op) :
    op.assignKind = k := by
  unfold Kind.compoundOp? at h
  split at h <;> cases h <;> rfl

/-! ### The pieces of phrases -/

open Piece Grammar

mutual

/-- The pieces of an expression. -/
def Expr.pieces : Expr → List Piece
  | .atom t => [token t]
  | .group e => enclosed .lparen .rparen e.pieces
  | .array items => enclosed .lsquare .rsquare (separated .comma (exprPieces items))
  | .new path args =>
    fixed .newKw :: (separated .dot (path.map ([token ·])) ++
      enclosed .lparen .rparen (separated .comma (exprPieces args)))
  | .lambda params body =>
    fixed .fnKw :: (ofParams params ++ enclosed .lbrace .rbrace (stmtPieces body))
  | .member safe e name => e.pieces ++ [fixed (dotKind safe), token name]
  | .call safe e args =>
    e.pieces ++ enclosed (callKind safe) .rparen (separated .comma (exprPieces args))
  | .index safe e args =>
    e.pieces ++ enclosed (indexKind safe) .rsquare (separated .comma (exprPieces args))
  | .post step e => e.pieces ++ [fixed step.kind]
  | .pre step e => fixed step.kind :: e.pieces
  | .unary op e => token op :: e.pieces
  | .binary l op r => l.pieces ++ token op :: r.pieces
  | .ternary c y n => c.pieces ++ fixed .question :: (y.pieces ++ fixed .colon :: n.pieces)

/-- The pieces of expressions, a row for each. -/
def exprPieces : List Expr → List (List Piece)
  | [] => []
  | e :: es => e.pieces :: exprPieces es

/-- The pieces of a statement. -/
def Stmt.pieces : Stmt → List Piece
  | .empty _ => [fixed .semicolon]
  | .block body => enclosed .lbrace .rbrace (stmtPieces body)
  | .declare keyword ds =>
    token keyword :: (separated .comma (declaratorPieces ds) ++ [fixed .semicolon])
  | .function name params body =>
    fixed .fnKw :: token name :: (ofParams params ++ enclosed .lbrace .rbrace (stmtPieces body))
  | .ifThen c s => fixed .ifKw :: (c.pieces ++ s.pieces)
  | .ifElse c s o => fixed .ifKw :: (c.pieces ++ (s.pieces ++ fixed .elseKw :: o.pieces))
  | .whileLoop c s => fixed .whileKw :: (c.pieces ++ s.pieces)
  | .doLoop s c => fixed .doKw :: (s.pieces ++ fixed .whileKw :: (c.pieces ++ [fixed .semicolon]))
  | .forLoop name e s =>
    fixed .forKw :: token name :: fixed .inKw :: (e.pieces ++ s.pieces)
  | .jump way label => fixed way.kind :: (label.toList.map token ++ [fixed .semicolon])
  | .exit way => [fixed way.kind, fixed .semicolon]
  | .exitWith way e => fixed way.kind :: (e.pieces ++ [fixed .semicolon])
  | .attempt body hs =>
    fixed .tryKw :: (enclosed .lbrace .rbrace (stmtPieces body) ++ handlerPieces hs)
  | .labeled label s => token label :: fixed .colon :: s.pieces
  | .forward receiver args =>
    fixed .newKw :: token receiver ::
      (enclosed .lparen .rparen (separated .comma (exprPieces args)) ++ [fixed .semicolon])
  | .assign t v => t.pieces ++ fixed .assign :: (v.pieces ++ [fixed .semicolon])
  | .compound t op v => t.pieces ++ token op :: (v.pieces ++ [fixed .semicolon])
  | .expression e => e.pieces ++ [fixed .semicolon]

/-- The pieces of statements in a row. -/
def stmtPieces : List Stmt → List Piece
  | [] => []
  | s :: ss => s.pieces ++ stmtPieces ss

/-- The pieces of a declarator. -/
def Declarator.pieces : Declarator → List Piece
  | .plain name => [token name]
  | .valued name e => token name :: fixed .assign :: e.pieces

/-- The pieces of declarators, a row for each. -/
def declaratorPieces : List Declarator → List (List Piece)
  | [] => []
  | d :: ds => d.pieces :: declaratorPieces ds

/-- The pieces of a handler. A type stands in parentheses, with the name if there is one; a name
alone stands without. -/
def Handler.pieces : Handler → List Piece
  | .rescue (some type) name body =>
    fixed .catchKw :: (enclosed .lparen .rparen (token type :: name.toList.map token) ++
      enclosed .lbrace .rbrace (stmtPieces body))
  | .rescue none name body =>
    fixed .catchKw :: (name.toList.map token ++ enclosed .lbrace .rbrace (stmtPieces body))
  | .always body => fixed .finallyKw :: enclosed .lbrace .rbrace (stmtPieces body)

/-- The pieces of handlers in a row. -/
def handlerPieces : List Handler → List Piece
  | [] => []
  | h :: hs => h.pieces ++ handlerPieces hs

end

/-- The pieces of a request. -/
def Request.pieces : Request → List Piece
  | .statement s => s.pieces
  | .expression e true => e.pieces ++ [fixed .semicolon]
  | .expression e false => e.pieces
  | .assignment t v => t.pieces ++ fixed .assign :: (v.pieces ++ [fixed .semicolon])
  | .compound t op v => t.pieces ++ fixed op.assignKind :: (v.pieces ++ [fixed .semicolon])
  | .parallel ts _ vs =>
    separated .comma (exprPieces ts) ++
      fixed .assign :: (separated .comma (exprPieces vs) ++ [fixed .semicolon])

theorem exprPieces_eq : ∀ es, exprPieces es = es.map Expr.pieces
  | [] => rfl
  | _ :: es => congrArg _ (exprPieces_eq es)

theorem declaratorPieces_eq : ∀ ds, declaratorPieces ds = ds.map Declarator.pieces
  | [] => rfl
  | _ :: ds => congrArg _ (declaratorPieces_eq ds)

theorem handlerPieces_append : ∀ hs hs',
    handlerPieces (hs ++ hs') = handlerPieces hs ++ handlerPieces hs'
  | [], _ => rfl
  | h :: hs, hs' => by
    rw [List.cons_append, handlerPieces, handlerPieces, handlerPieces_append hs, List.append_assoc]

/-! ### The tokens of trees -/

namespace Tree

mutual

/-- The tokens at the leaves, in preorder. -/
def tokens : Tree → List Token
  | .token t => [t]
  | .operator _ => []
  | .node _ children => tokensOf children

/-- The tokens at the leaves of some trees, in preorder. -/
def tokensOf : List Tree → List Token
  | [] => []
  | t :: ts => t.tokens ++ tokensOf ts

end

mutual

theorem firstToken?_eq : ∀ t : Tree, t.firstToken? = t.tokens.head?
  | .token _ | .operator _ => rfl
  | .node _ children => firstOf?_eq children

theorem firstOf?_eq : ∀ ts, firstOf? ts = (tokensOf ts).head?
  | [] => rfl
  | t :: ts => by
    rw [firstOf?, firstToken?_eq t, tokensOf, List.head?_append]
    cases t.tokens.head? with
    | none => exact firstOf?_eq ts
    | some _ => rfl

end

theorem tokensOf_tokens : ∀ ts : List Token, tokensOf (ts.map .token) = ts
  | [] => rfl
  | t :: ts => congrArg (t :: ·) (tokensOf_tokens ts)

end Tree

namespace Piece

/-- The tokens that a row of pieces keeps. -/
def kept (ps : List Piece) : List Token := ps.filterMap token?

@[simp] theorem kept_nil : kept [] = [] := rfl

@[simp] theorem kept_fixed (k : Kind) (ps : List Piece) : kept (fixed k :: ps) = kept ps := rfl

@[simp] theorem kept_token (t : Token) (ps : List Piece) :
    kept (token t :: ps) = t :: kept ps := rfl

@[simp] theorem kept_append (ps qs : List Piece) : kept (ps ++ qs) = kept ps ++ kept qs :=
  List.filterMap_append

@[simp] theorem kept_enclosed (opener closer : Kind) (ps : List Piece) :
    kept (enclosed opener closer ps) = kept ps := by
  simp [enclosed]

@[simp] theorem kept_separated (separator : Kind) (pss : List (List Piece)) :
    kept (separated separator pss) = kept pss.flatten := by
  cases pss with
  | nil => rfl
  | cons ps rest =>
    rw [separated, List.flatten_cons, kept_append, kept_append]
    congr 1
    induction rest with
    | nil => rfl
    | cons qs rest ih => rw [List.flatMap_cons, List.cons_append, kept_fixed, kept_append, ih,
        List.flatten_cons, kept_append]

@[simp] theorem kept_row (ts : List Token) : kept (ts.map ([token ·])).flatten = ts := by
  induction ts with
  | nil => rfl
  | cons t ts ih => rw [List.map_cons, List.flatten_cons, kept_append, ih]; rfl

@[simp] theorem kept_ofParams (names : List Token) : kept (ofParams names) = names := by
  rw [ofParams, kept_enclosed, kept_separated, kept_row]

end Piece

open CommandShell.Tree

mutual

/-- **A tree shows the tokens that its phrase keeps, in the same order.** -/
theorem Expr.tokens_tree : ∀ e : Expr, e.tree.tokens = kept e.pieces
  | .atom t => by simp [Expr.tree, Expr.pieces, tokens]
  | .group e => by simp [Expr.tree, Expr.pieces, tokens, tokensOf, e.tokens_tree]
  | .array items => by simp [Expr.tree, Expr.pieces, tokens, tokensOf_exprTrees items]
  | .new path args => by
    simp [Expr.tree, Expr.pieces, tokens, tokensOf, tokensOf_tokens, tokensOf_exprTrees args]
  | .lambda params body => by
    simp [Expr.tree, Expr.pieces, paramsTree, tokens, tokensOf, tokensOf_tokens,
      tokensOf_stmtTrees body]
  | .member safe e name => by simp [Expr.tree, Expr.pieces, tokens, tokensOf, e.tokens_tree]
  | .call safe e args => by
    simp [Expr.tree, Expr.pieces, tokens, tokensOf, e.tokens_tree, tokensOf_exprTrees args]
  | .index safe e args => by
    simp [Expr.tree, Expr.pieces, tokens, tokensOf, e.tokens_tree, tokensOf_exprTrees args]
  | .post step e => by
    cases step <;> simp [Expr.tree, Expr.pieces, tokens, tokensOf, e.tokens_tree]
  | .pre step e => by
    cases step <;> simp [Expr.tree, Expr.pieces, tokens, tokensOf, e.tokens_tree]
  | .unary op e => by simp [Expr.tree, Expr.pieces, tokens, tokensOf, e.tokens_tree]
  | .binary l op r => by
    simp [Expr.tree, Expr.pieces, tokens, tokensOf, l.tokens_tree, r.tokens_tree]
  | .ternary c y n => by
    simp [Expr.tree, Expr.pieces, tokens, tokensOf, c.tokens_tree, y.tokens_tree, n.tokens_tree]

theorem tokensOf_exprTrees : ∀ es, tokensOf (exprTrees es) = kept (exprPieces es).flatten
  | [] => rfl
  | e :: es => by simp [exprTrees, exprPieces, tokensOf, e.tokens_tree, tokensOf_exprTrees es]

theorem Stmt.tokens_tree : ∀ s : Stmt, s.tree.tokens = kept s.pieces
  | .empty t => rfl
  | .block body => by simp [Stmt.tree, Stmt.pieces, tokens, tokensOf_stmtTrees body]
  | .declare keyword ds => by
    simp [Stmt.tree, Stmt.pieces, tokens, tokensOf, tokensOf_declaratorTrees ds]
  | .function name params body => by
    simp [Stmt.tree, Stmt.pieces, paramsTree, tokens, tokensOf, tokensOf_tokens,
      tokensOf_stmtTrees body]
  | .ifThen c s => by simp [Stmt.tree, Stmt.pieces, tokens, tokensOf, c.tokens_tree, s.tokens_tree]
  | .ifElse c s o => by
    simp [Stmt.tree, Stmt.pieces, tokens, tokensOf, c.tokens_tree, s.tokens_tree, o.tokens_tree]
  | .whileLoop c s => by
    simp [Stmt.tree, Stmt.pieces, tokens, tokensOf, c.tokens_tree, s.tokens_tree]
  | .doLoop s c => by simp [Stmt.tree, Stmt.pieces, tokens, tokensOf, s.tokens_tree, c.tokens_tree]
  | .forLoop name e s => by
    simp [Stmt.tree, Stmt.pieces, tokens, tokensOf, e.tokens_tree, s.tokens_tree]
  | .jump way label => by
    cases way <;> cases label <;> rfl
  | .exit way => by cases way <;> rfl
  | .exitWith way e => by
    cases way <;> simp [Stmt.tree, Stmt.pieces, tokens, tokensOf, e.tokens_tree]
  | .attempt body hs => by
    simp [Stmt.tree, Stmt.pieces, tokens, tokensOf, tokensOf_stmtTrees body,
      tokensOf_handlerTrees hs]
  | .labeled label s => by simp [Stmt.tree, Stmt.pieces, tokens, tokensOf, s.tokens_tree]
  | .forward receiver args => by
    simp [Stmt.tree, Stmt.pieces, tokens, tokensOf, tokensOf_exprTrees args]
  | .assign t v => by simp [Stmt.tree, Stmt.pieces, tokens, tokensOf, t.tokens_tree, v.tokens_tree]
  | .compound t op v => by
    simp [Stmt.tree, Stmt.pieces, tokens, tokensOf, t.tokens_tree, v.tokens_tree]
  | .expression e => by simp [Stmt.tree, Stmt.pieces, tokens, tokensOf, e.tokens_tree]

theorem tokensOf_stmtTrees : ∀ ss, tokensOf (stmtTrees ss) = kept (stmtPieces ss)
  | [] => rfl
  | s :: ss => by simp [stmtTrees, stmtPieces, tokensOf, s.tokens_tree, tokensOf_stmtTrees ss]

theorem Declarator.tokens_tree : ∀ d : Declarator, d.tree.tokens = kept d.pieces
  | .plain name => rfl
  | .valued name e => by simp [Declarator.tree, Declarator.pieces, tokens, tokensOf, e.tokens_tree]

theorem tokensOf_declaratorTrees :
    ∀ ds, tokensOf (declaratorTrees ds) = kept (declaratorPieces ds).flatten
  | [] => rfl
  | d :: ds => by
    simp [declaratorTrees, declaratorPieces, tokensOf, d.tokens_tree, tokensOf_declaratorTrees ds]

theorem Handler.tokens_tree : ∀ h : Handler, h.tree.tokens = kept h.pieces
  | .rescue type name body => by
    cases type <;> cases name <;>
      simp [Handler.tree, Handler.pieces, tokens, tokensOf, tokensOf_stmtTrees body]
  | .always body => by
    simp [Handler.tree, Handler.pieces, tokens, tokensOf, tokensOf_stmtTrees body]

theorem tokensOf_handlerTrees : ∀ hs, tokensOf (handlerTrees hs) = kept (handlerPieces hs)
  | [] => rfl
  | h :: hs => by
    simp [handlerTrees, handlerPieces, tokensOf, h.tokens_tree, tokensOf_handlerTrees hs]

end

theorem Request.tokens_tree : ∀ r : Request, r.tree.tokens = kept r.pieces
  | .statement s => by simp [Request.tree, Request.pieces, tokens, tokensOf, s.tokens_tree]
  | .expression e true | .expression e false => by
    simp [Request.tree, Request.pieces, tokens, tokensOf, e.tokens_tree]
  | .assignment t v | .compound t _ v => by
    simp [Request.tree, Request.pieces, tokens, tokensOf, t.tokens_tree, v.tokens_tree]
  | .parallel ts _ vs => by
    simp [Request.tree, Request.pieces, tokens, tokensOf, tokensOf_exprTrees]

end CommandShell
