import CommandShell.Phrase.Tree

/-! # Commands: what one entry at the shell asks for

A command is a statement, an expression (to be run, or to be shown if nothing ends it), or one of
three assignments. Its span runs from its first token to the end of its last. -/

namespace CommandShell

/-- From a place to a place. -/
structure Span where
  startLine : Int
  startColumn : Int
  endLine : Int
  endColumn : Int
deriving DecidableEq, Repr

/-- From the start of one token to the end of another. -/
def Span.over (first last : Token) : Span :=
  ⟨first.line, first.column, last.line, last.endColumn⟩

/-- The span as it is printed. -/
def Span.text (s : Span) : String :=
  s!"{s.startLine}:{s.startColumn}-{s.endLine}:{s.endColumn}"

/-- What a command asks for. -/
inductive Request where
  | statement (s : Stmt)
  | expression (e : Expr) (terminated : Bool)
  | assignment (target value : Expr)
  | compound (target : Expr) (op : BinaryOp) (value : Expr)
  | parallel (targets : List Expr) (sign : Token) (values : List Expr)

/-- A request and where it stands. -/
structure Command where
  request : Request
  span : Span

namespace Request

/-- The name of the sort of a request. -/
def sort : Request → String
  | .statement _ => "StatementCommand"
  | .expression _ _ => "ExpressionCommand"
  | .assignment _ _ => "SimpleAssignment"
  | .compound _ _ _ => "CompoundAssignment"
  | .parallel _ _ _ => "ParallelAssignment"

/-- Is a value to be shown? -/
def showsValue : Request → Bool
  | .expression _ terminated => !terminated
  | _ => false

/-- The tree of a request. -/
def tree : Request → Tree
  | .statement s => .node "statement" [s.tree]
  | .expression e true => .node "expression_statement" [e.tree]
  | .expression e false => .node "value" [e.tree]
  | .assignment t v =>
    .node "simple_assignment" [.node "target" [t.tree], .node "value" [v.tree]]
  | .compound t op v =>
    .node "compound_assignment" [.node "target" [t.tree], .operator op, .node "value" [v.tree]]
  | .parallel ts _ vs =>
    .node "parallel_assignment" [.node "targets" (exprTrees ts), .node "values" (exprTrees vs)]

end Request

namespace Command

/-- The name of the sort of a command. -/
def sort (c : Command) : String := c.request.sort

/-- The tree of a command. -/
def tree (c : Command) : Tree := c.request.tree

/-- The command as it is printed: its sort, its span and its tree. -/
def text (c : Command) : String := c.tree.write 0 s!"{c.sort} [{c.span.text}]\n"

end Command

end CommandShell
