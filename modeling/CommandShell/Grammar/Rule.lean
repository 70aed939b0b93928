import CommandShell.Phrase.Basic

/-! # Rules: the parts of the grammar

Each rule reads one sort of phrase; its type says which. -/

namespace CommandShell

/-- The rules, with what they read. -/
inductive Rule : Type → Type
  /-- An expression. -/
  | expr : Rule Expr
  /-- A conditional, or what binds tighter. -/
  | ternary : Rule Expr
  /-- A chain of defaults for absent values, or what binds tighter. -/
  | nullish : Rule Expr
  /-- A chain of operators that bind to the left, with at least the given power. -/
  | binary (power : Nat) : Rule Expr
  /-- Signs and steps before an operand. -/
  | unary : Rule Expr
  /-- A power, or what binds tighter. -/
  | power : Rule Expr
  /-- A primary expression with accesses, calls and steps after it. -/
  | access : Rule Expr
  /-- A literal, name, group, array, construction or function. -/
  | primary : Rule Expr
  /-- A construction. -/
  | construction : Rule Expr
  /-- Expressions with commas between them, and the closing bracket. -/
  | args (closer : Kind) : Rule (List Expr)
  /-- The names of parameters in parentheses. -/
  | params : Rule (List Token)
  /-- A statement. -/
  | stmt : Rule Stmt
  /-- Statements in braces. -/
  | block : Rule (List Stmt)
  /-- The statement that a keyword governs. -/
  | body (owner : Kind) : Rule Stmt
  /-- A declaration of variables or constants. -/
  | declaration : Rule Stmt
  /-- One name of a declaration, which begins with the given token. -/
  | declarator (keyword : Token) : Rule Declarator
  /-- A function with a name. -/
  | function : Rule Stmt
  /-- A choice. -/
  | choice : Rule Stmt
  /-- A loop that tests first. -/
  | whileLoop : Rule Stmt
  /-- A loop that tests last. -/
  | doLoop : Rule Stmt
  /-- A loop over items. -/
  | forLoop : Rule Stmt
  /-- A jump inside loops. -/
  | jump : Rule Stmt
  /-- A way out of a function. -/
  | exit : Rule Stmt
  /-- A block with handlers. -/
  | attempt : Rule Stmt
  /-- A statement with a label. -/
  | labeled : Rule Stmt
  /-- A forwarded construction. -/
  | forward : Rule Stmt
  /-- An assignment or an expression as a statement. -/
  | expression : Rule Stmt

end CommandShell
