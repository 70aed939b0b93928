import CommandShell.Proofs.Parsing.Production
import CommandShell.Proofs.Phrases.Pieces

/-! # Violations: what is wrong with a phrase that can be read

A phrase may be read although it assigns to what cannot be assigned to, states an expression without
effect, governs an empty statement or assigns in parallel what does not match. Its violations are
told from the phrase alone, in one walk from left to right, and each is told once: that of a target
or of a statement behind all that is wrong within it.

Some violations stand at a token that the form of the phrase implies, so the walk is given the
tokens by their indices (`look`) and keeps the index of the token where each part begins: a part
begins behind the pieces of those before it. -/

namespace CommandShell

open Piece Grammar

/-- The token with an index below the end. -/
def Tokens.look (ts : Tokens) (i : Nat) : Token := ts.items.getD i default

/-- How many tokens there are between `catch` and the block of its handler. -/
def rescueWidth : Option Token → Option Token → Nat
  | some _, some _ => 4
  | some _, none => 3
  | none, some _ => 1
  | none, none => 0

section
variable (look : Nat → Token)

/-- The violation of a statement that a keyword governs: it must not be empty. -/
def Stmt.emptiness (i : Nat) (owner : Kind) : Stmt → List Diagnostic
  | .empty _ => [.emptyBody owner (look i)]
  | _ => []

mutual

/-- The violations in an expression that begins at the index. -/
def Expr.violations (i : Nat) : Expr → List Diagnostic
  | .atom _ => []
  | .group e => e.violations (i + 1)
  | .array items => exprsViolations (i + 1) items
  | .new path args =>
    exprsViolations (i + (separated .dot (path.map ([token ·]))).length + 2) args
  | .lambda params body => stmtsViolations (i + (ofParams params).length + 2) body
  | .member _ e _ => e.violations i
  | .call _ e args => e.violations i ++ exprsViolations (i + e.pieces.length + 1) args
  | .index _ e args => e.violations i ++ exprsViolations (i + e.pieces.length + 1) args
  | .post _ e => e.violations i ++ targetReports e
  | .pre _ e => e.violations (i + 1) ++ targetReports e
  | .unary _ e => e.violations (i + 1)
  | .binary l _ r => l.violations i ++ r.violations (i + l.pieces.length + 1)
  | .ternary c y n =>
    c.violations i ++ (y.violations (i + c.pieces.length + 1) ++
      n.violations (i + c.pieces.length + 1 + y.pieces.length + 1))

/-- The violations in expressions with commas between them. -/
def exprsViolations (i : Nat) : List Expr → List Diagnostic
  | [] => []
  | e :: es => e.violations i ++ exprsViolations (i + e.pieces.length + 1) es

/-- The violations in a statement that begins at the index. -/
def Stmt.violations (i : Nat) : Stmt → List Diagnostic
  | .empty _ => []
  | .block body => stmtsViolations (i + 1) body
  | .declare _ ds => declaratorsViolations (i + 1) ds
  | .function _ params body => stmtsViolations (i + (ofParams params).length + 3) body
  | .ifThen c s =>
    c.violations (i + 1) ++ (s.violations (i + 1 + c.pieces.length) ++
      s.emptiness look (i + 1 + c.pieces.length) .ifKw)
  | .ifElse c s o =>
    c.violations (i + 1) ++ ((s.violations (i + 1 + c.pieces.length) ++
      s.emptiness look (i + 1 + c.pieces.length) .ifKw) ++
      (o.violations (i + 1 + c.pieces.length + s.pieces.length + 1) ++
        o.emptiness look (i + 1 + c.pieces.length + s.pieces.length + 1) .elseKw))
  | .whileLoop c s =>
    c.violations (i + 1) ++ (s.violations (i + 1 + c.pieces.length) ++
      s.emptiness look (i + 1 + c.pieces.length) .whileKw)
  | .doLoop s c => s.violations (i + 1) ++ c.violations (i + 1 + s.pieces.length + 1)
  | .forLoop _ e s =>
    e.violations (i + 3) ++ (s.violations (i + 3 + e.pieces.length) ++
      s.emptiness look (i + 3 + e.pieces.length) .forKw)
  | .jump _ _ => []
  | .exit _ => []
  | .exitWith _ e => e.violations (i + 1)
  | .attempt body hs =>
    stmtsViolations (i + 2) body ++
      handlersViolations (i + 1 + (enclosed .lbrace .rbrace (stmtPieces body)).length) hs
  | .labeled _ s => s.violations (i + 2)
  | .forward _ args => exprsViolations (i + 3) args
  | .assign t v =>
    t.violations i ++ (targetReports t ++ v.violations (i + t.pieces.length + 1))
  | .compound t _ v =>
    t.violations i ++ (targetReports t ++ v.violations (i + t.pieces.length + 1))
  | .expression e => e.violations i ++ effectReports e

/-- The violations in statements in a row. -/
def stmtsViolations (i : Nat) : List Stmt → List Diagnostic
  | [] => []
  | s :: ss => s.violations i ++ stmtsViolations (i + s.pieces.length) ss

/-- The violations in a declarator. -/
def Declarator.violations (i : Nat) : Declarator → List Diagnostic
  | .plain _ => []
  | .valued _ e => e.violations (i + 2)

/-- The violations in declarators with commas between them. -/
def declaratorsViolations (i : Nat) : List Declarator → List Diagnostic
  | [] => []
  | d :: ds => d.violations i ++ declaratorsViolations (i + d.pieces.length + 1) ds

/-- The violations in a handler. -/
def Handler.violations (i : Nat) : Handler → List Diagnostic
  | .rescue type name body => stmtsViolations (i + 1 + rescueWidth type name + 1) body
  | .always body => stmtsViolations (i + 2) body

/-- The violations in handlers in a row. -/
def handlersViolations (i : Nat) : List Handler → List Diagnostic
  | [] => []
  | h :: hs => h.violations i ++ handlersViolations (i + h.pieces.length) hs

end

theorem handlersViolations_append : ∀ (i : Nat) (hs hs' : List Handler),
    handlersViolations look i (hs ++ hs') = handlersViolations look i hs ++
      handlersViolations look (i + (handlerPieces hs).length) hs'
  | _, [], _ => rfl
  | i, h :: hs, hs' => by
    have ih := handlersViolations_append (i + h.pieces.length) hs hs'
    rw [List.cons_append, handlersViolations, handlersViolations, ih, handlerPieces,
      List.length_append, Nat.add_assoc, List.append_assoc]

end

end CommandShell
