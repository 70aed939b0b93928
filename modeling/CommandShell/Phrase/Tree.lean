import CommandShell.Phrase.Basic
import CommandShell.Operator

/-! # Trees: phrases as they are shown

A phrase is shown as a labelled tree with tokens at its leaves. A printed tree has one line per
label, indented by its depth; a token that is the only child stands on the line of its parent. -/

namespace CommandShell

/-- A labelled tree. Its leaves are tokens, and the operators that no token spells. -/
inductive Tree where
  | token (t : Token)
  | operator (op : BinaryOp)
  | node (label : String) (children : List Tree)
deriving Inhabited

namespace Tree

mutual

/-- The first token in reading order. -/
def firstToken? : Tree → Option Token
  | .token t => some t
  | .operator _ => none
  | .node _ children => firstOf? children

/-- The first token of some trees in reading order. -/
def firstOf? : List Tree → Option Token
  | [] => none
  | t :: ts =>
    match t.firstToken? with
    | some first => some first
    | none => firstOf? ts

end

mutual

/-- How many calls deep the search for the first token of a tree goes. -/
def searchDepth : Tree → Nat
  | .token _ => 0
  | .operator _ => 0
  | .node _ children => searchDepthOf children + 1

/-- How many calls deep the search for the first token of some trees goes. It ends at the first of
them that shows a token. -/
def searchDepthOf : List Tree → Nat
  | [] => 0
  | t :: ts => if t.firstToken?.isSome then t.searchDepth else max t.searchDepth (searchDepthOf ts)

end

mutual

/-- How many labels deep a tree is. -/
def depth : Tree → Nat
  | .token _ => 0
  | .operator _ => 0
  | .node _ children => depthOf children + 1

/-- How many labels deep the deepest of some trees is. -/
def depthOf : List Tree → Nat
  | [] => 0
  | t :: ts => max t.depth (depthOf ts)

end

/-- The text of a leaf. -/
def leafText? : Tree → Option String
  | .token t => some t.lexeme
  | .operator op => some op.sign
  | .node _ _ => none

/-- The blanks before a line. -/
def indent (level : Nat) : String := String.ofList (List.replicate (2 * level) ' ')

/-- Is the list one leaf? Then this is its text. -/
def onlyLeaf? : List Tree → Option String
  | [t] => t.leafText?
  | _ => none

mutual

/-- Some text followed by the lines of a tree. -/
def write (level : Nat) (out : String) : Tree → String
  | .token t => out ++ indent level ++ t.lexeme ++ "\n"
  | .operator op => out ++ indent level ++ op.sign ++ "\n"
  | .node label children =>
    match onlyLeaf? children with
    | some text => out ++ indent level ++ label ++ "\t" ++ text ++ "\n"
    | none => writeAll (level + 1) (out ++ indent level ++ label ++ "\n") children

/-- Some text followed by the lines of some trees. -/
def writeAll (level : Nat) (out : String) : List Tree → String
  | [] => out
  | t :: ts => writeAll level (write level out t) ts

end

/-- The printed tree. -/
def pretty (t : Tree) : String := t.write 0 ""

mutual

/-- The tree in preorder, each part without its children and with its depth, before some others. -/
def preorder (depth : Nat) (rest : List (Nat × Tree)) : Tree → List (Nat × Tree)
  | .token t => (depth, .token t) :: rest
  | .operator op => (depth, .operator op) :: rest
  | .node label children => (depth, .node label []) :: preorderAll (depth + 1) rest children

/-- Some trees in preorder, before some other parts. -/
def preorderAll (depth : Nat) (rest : List (Nat × Tree)) : List Tree → List (Nat × Tree)
  | [] => rest
  | t :: ts => preorder depth (preorderAll depth rest ts) t

end

end Tree

/-! ### The trees of phrases -/

/-- The label of an access form. -/
def accessLabel (safe : Bool) (label : String) : String := if safe then "safe_" ++ label else label

/-- The tree of a parameter list. -/
def paramsTree (params : List Token) : Tree := .node "params" (params.map .token)

mutual

/-- The tree of an expression. -/
def Expr.tree : Expr → Tree
  | .atom t => .token t
  | .group e => .node "group" [e.tree]
  | .array items => .node "array" (exprTrees items)
  | .new path args =>
    .node "new" [.node "type_name" (path.map .token), .node "args" (exprTrees args)]
  | .lambda params body => .node "lambda" [paramsTree params, .node "block" (stmtTrees body)]
  | .member safe e name => .node (accessLabel safe "member") [e.tree, .token name]
  | .call safe e args => .node (accessLabel safe "call") [e.tree, .node "args" (exprTrees args)]
  | .index safe e args => .node (accessLabel safe "index") [e.tree, .node "args" (exprTrees args)]
  | .post .up e => .node "post_incr" [e.tree]
  | .post .down e => .node "post_decr" [e.tree]
  | .pre .up e => .node "pre_incr" [e.tree]
  | .pre .down e => .node "pre_decr" [e.tree]
  | .unary op e => .node "unary" [.token op, e.tree]
  | .binary l op r => .node "binary" [l.tree, .token op, r.tree]
  | .ternary c y n => .node "ternary" [c.tree, y.tree, n.tree]

/-- The trees of expressions. -/
def exprTrees : List Expr → List Tree
  | [] => []
  | e :: es => e.tree :: exprTrees es

/-- The tree of a statement. -/
def Stmt.tree : Stmt → Tree
  | .empty _ => .node "empty_stmt" []
  | .block body => .node "block" (stmtTrees body)
  | .declare keyword ds => .node "var_decl" (.token keyword :: declaratorTrees ds)
  | .function name params body =>
    .node "fn_decl" [.token name, paramsTree params, .node "block" (stmtTrees body)]
  | .ifThen c s => .node "if_stmt" [c.tree, s.tree]
  | .ifElse c s o => .node "if_stmt" [c.tree, s.tree, o.tree]
  | .whileLoop c s => .node "while_stmt" [c.tree, s.tree]
  | .doLoop s c => .node "do_stmt" [s.tree, c.tree]
  | .forLoop name e s => .node "for_stmt" [.token name, e.tree, s.tree]
  | .jump .toEnd label => .node "break_stmt" (label.toList.map .token)
  | .jump .toNext label => .node "continue_stmt" (label.toList.map .token)
  | .exit .returning => .node "return_stmt" []
  | .exit .throwing => .node "throw_stmt" []
  | .exitWith .returning e => .node "return_stmt" [e.tree]
  | .exitWith .throwing e => .node "throw_stmt" [e.tree]
  | .attempt body hs => .node "try_stmt" (.node "block" (stmtTrees body) :: handlerTrees hs)
  | .labeled label s => .node "labeled_stmt" [.token label, s.tree]
  | .forward receiver args => .node "ctor_forward" [.token receiver, .node "args" (exprTrees args)]
  | .assign t v => .node "assign_stmt" [t.tree, v.tree]
  | .compound t op v => .node "compound_assign_stmt" [t.tree, .token op, v.tree]
  | .expression e => .node "expr_stmt" [e.tree]

/-- The trees of statements. -/
def stmtTrees : List Stmt → List Tree
  | [] => []
  | s :: ss => s.tree :: stmtTrees ss

/-- The tree of a declarator. -/
def Declarator.tree : Declarator → Tree
  | .plain name => .node "declarator" [.token name]
  | .valued name e => .node "declarator" [.token name, e.tree]

/-- The trees of declarators. -/
def declaratorTrees : List Declarator → List Tree
  | [] => []
  | d :: ds => d.tree :: declaratorTrees ds

/-- The tree of a handler. -/
def Handler.tree : Handler → Tree
  | .rescue type name body =>
    .node "catch_clause" (type.toList.map (fun t => .node "catch_type" [.token t]) ++
      name.toList.map (fun t => .node "catch_name" [.token t]) ++ [.node "block" (stmtTrees body)])
  | .always body => .node "finally_clause" [.node "block" (stmtTrees body)]

/-- The trees of handlers. -/
def handlerTrees : List Handler → List Tree
  | [] => []
  | h :: hs => h.tree :: handlerTrees hs

end

/-- The first token of an expression, as its tree shows it. -/
def Expr.firstToken? (e : Expr) : Option Token := e.tree.firstToken?

end CommandShell
