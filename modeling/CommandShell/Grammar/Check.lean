import CommandShell.Grammar.Parser
import CommandShell.Phrase.Tree

/-! # Checks: reports that do not stop the reading

An assignment to what is no variable, member or element, an expression that has no effect as a
statement, and an empty statement as a body are reported where they are read, and the reading goes
on. A report about an expression stands at its first token. -/

namespace CommandShell

namespace Diagnostic

/-- The report on an assignment to something else than a variable, member or element. -/
def badTarget (e : Expr) : Diagnostic :=
  .at? .invalidAssignmentTarget
    "The left-hand side of an assignment must be a variable, member access or indexer"
    e.firstToken? .error

/-- The report on an expression statement without effect. -/
def noEffect (e : Expr) : Diagnostic :=
  .at? .invalidStatementExpression
    "Only call, new, increment and decrement expressions can be used as a statement"
    e.firstToken? .error

/-- The warning about an empty body after a keyword. -/
def emptyBody (owner : Kind) (semicolon : Token) : Diagnostic :=
  .at? .emptyStatement s!"Possible mistaken empty statement after '{owner.spelling}'"
    (some semicolon) .warning

/-- The report on a parallel assignment whose sides do not match, at its sign. -/
def badArity (values targets : Nat) (sign : Token) : Diagnostic :=
  .at? .assignmentArity s!"Cannot assign {values} values to {targets} targets" (some sign) .error

end Diagnostic

/-- Reports an expression that cannot be assigned to. -/
def checkTarget (e : Expr) : Parser Unit :=
  if e.isTarget then pure () else Parser.report (.badTarget e)

/-- Reports an expression that has no effect. -/
def checkEffect (e : Expr) : Parser Unit :=
  if e.hasEffect then pure () else Parser.report (.noEffect e)

/-- Warns about an empty body. -/
def warnIfEmpty (owner : Kind) : Stmt → Parser Unit
  | .empty semicolon => Parser.report (.emptyBody owner semicolon)
  | _ => pure ()

end CommandShell
