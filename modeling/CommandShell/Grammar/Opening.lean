import CommandShell.Grammar.Parser

/-! # Opening: statement or expression?

At most two tokens decide whether what follows can only be read as a statement. All else begins with
an expression: an expression, or an assignment to one. A label and a forwarded construction look
like expressions at their first token; the second tells. -/

namespace CommandShell

/-- How what follows is to be read. -/
inductive Opening where
  | statement | expression
deriving DecidableEq, Repr

/-- The word for an opening. -/
def Opening.word : Opening → String
  | .statement => "statement"
  | .expression => "expression"

/-- Can the kind only begin a statement? -/
def Kind.beginsStatement : Kind → Bool
  | .varKw | .constKw | .fnKw | .whileKw | .doKw | .forKw | .ifKw | .breakKw | .continueKw
  | .returnKw | .throwKw | .tryKw | .semicolon | .lbrace => true
  | _ => false

/-- The kinds that construction can be forwarded to. -/
def Kind.isReceiver : Kind → Bool
  | .thisKw | .baseKw => true
  | _ => false

/-- How what follows the place is to be read. -/
def opening : Parser Opening := do
  let first ← Parser.current
  if first.kind.beginsStatement then return .statement
  else if first.kind = .ident then
    let second ← Parser.peek 1
    return if second.kind = .colon then .statement else .expression
  else if first.kind = .newKw then
    let second ← Parser.peek 1
    return if second.kind.isReceiver then .statement else .expression
  else return .expression

end CommandShell
