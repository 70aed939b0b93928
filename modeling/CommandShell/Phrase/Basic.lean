import CommandShell.Token.Basic

/-! # Phrases: expressions and statements

What the grammar reads. A phrase keeps the tokens that carry a text of their own (names, literals,
operators); brackets, separators and keywords are implied by its form. Parentheses are kept as
`group`, so that a phrase determines its tokens. -/

namespace CommandShell

/-- A step up or down by one. -/
inductive Step where
  | up | down
deriving DecidableEq, Repr

/-- The token of a step. -/
def Step.kind : Step → Kind
  | .up => .increment
  | .down => .decrement

/-- A jump inside loops. -/
inductive Jump where
  | toEnd | toNext
deriving DecidableEq, Repr

/-- The keyword of a jump. -/
def Jump.kind : Jump → Kind
  | .toEnd => .breakKw
  | .toNext => .continueKw

/-- A way out of a function. -/
inductive Exit where
  | returning | throwing
deriving DecidableEq, Repr

/-- The keyword of an exit. -/
def Exit.kind : Exit → Kind
  | .returning => .returnKw
  | .throwing => .throwKw

mutual

/-- Expressions. `safe` marks the access forms that pass over an absent value. -/
inductive Expr where
  | atom (token : Token)
  | group (inner : Expr)
  | array (items : List Expr)
  | new (path : List Token) (args : List Expr)
  | lambda (params : List Token) (body : List Stmt)
  | member (safe : Bool) (target : Expr) (name : Token)
  | call (safe : Bool) (target : Expr) (args : List Expr)
  | index (safe : Bool) (target : Expr) (args : List Expr)
  | post (step : Step) (target : Expr)
  | pre (step : Step) (target : Expr)
  | unary (op : Token) (operand : Expr)
  | binary (left : Expr) (op : Token) (right : Expr)
  | ternary (cond yes no : Expr)

/-- Statements. -/
inductive Stmt where
  | empty (semicolon : Token)
  | block (body : List Stmt)
  | declare (keyword : Token) (declarators : List Declarator)
  | function (name : Token) (params : List Token) (body : List Stmt)
  | ifThen (cond : Expr) (body : Stmt)
  | ifElse (cond : Expr) (body other : Stmt)
  | whileLoop (cond : Expr) (body : Stmt)
  | doLoop (body : Stmt) (cond : Expr)
  | forLoop (name : Token) (items : Expr) (body : Stmt)
  | jump (way : Jump) (label : Option Token)
  | exit (way : Exit)
  | exitWith (way : Exit) (value : Expr)
  | attempt (body : List Stmt) (handlers : List Handler)
  | labeled (label : Token) (body : Stmt)
  | forward (receiver : Token) (args : List Expr)
  | assign (target value : Expr)
  | compound (target : Expr) (op : Token) (value : Expr)
  | expression (e : Expr)

/-- The parts of a declaration: a name, with or without a value. -/
inductive Declarator where
  | plain (name : Token)
  | valued (name : Token) (value : Expr)

/-- The clauses of an attempt: `rescue` for what was thrown, of a type or of any, under a name or
under none, and `always` for the block that runs in the end. -/
inductive Handler where
  | rescue (type name : Option Token) (body : List Stmt)
  | always (body : List Stmt)

end

instance : Inhabited Expr := ⟨.atom default⟩
instance : Inhabited Stmt := ⟨.empty default⟩

/-- May the expression be assigned to? Variables, members and elements may, in parentheses too. -/
def Expr.isTarget : Expr → Bool
  | .atom t => t.kind == .ident
  | .group e => e.isTarget
  | .member false _ _ | .index false _ _ => true
  | _ => false

/-- Is evaluating the expression useful on its own? -/
def Expr.hasEffect : Expr → Bool
  | .call _ _ _ | .new _ _ | .pre _ _ | .post _ _ => true
  | _ => false

end CommandShell
