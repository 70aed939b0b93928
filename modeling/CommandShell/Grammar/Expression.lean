import CommandShell.Grammar.Rule
import CommandShell.Grammar.Check
import CommandShell.Grammar.Opening

/-! # The rules of expressions

Each rule is written over `call`, the rules that it calls. From loosest to tightest: the
conditional, `??` to the right, ten powers of operators to the left, signs and steps before an
operand, `**` to the right, accesses and steps after an operand, primary expressions. -/

namespace CommandShell.Grammar

open CommandShell.Parser

/-- What rules call: every rule as a parser. -/
abbrev Call : Type 1 := ∀ {α : Type}, Rule α → Parser α

/-- `cond`, or `cond ? yes : no`. -/
def ternary (call : Call) : Parser Expr := do
  let cond ← call .nullish
  if ← accept .question then
    let yes ← call .expr
    let _ ← expectAs .colon .conditionalColon
    let no ← call .ternary
    return .ternary cond yes no
  return cond

/-- `left`, or `left ?? right`. -/
def nullish (call : Call) : Parser Expr := do
  let left ← call (.binary 1)
  if ← sees .nullish then
    let op ← advance
    let right ← call .nullish
    return .binary left op right
  return left

/-- One more operator of at least the power, with its right operand, which binds tighter. -/
def binaryRound (call : Call) (power : Nat) (left : Expr) : Parser (Option Expr) := do
  let t ← current
  match t.kind.precedence? with
  | none => return none
  | some p =>
    if p < power then return none
    let op ← advance
    let right ← call (.binary (p + 1))
    return some (.binary left op right)

/-- A chain of operators of at least the power. -/
def binary (call : Call) (power : Nat) : Parser Expr := do
  let left ← call .unary
  chain (binaryRound call power) left

/-- A step before an operand, which must be assignable. -/
def stepBefore (call : Call) (step : Step) : Parser Expr := do
  let _ ← advance
  let operand ← call .unary
  checkTarget operand
  return .pre step operand

/-- A sign or a step and its operand, or what binds tighter. -/
def unary (call : Call) : Parser Expr := do
  let t ← current
  match t.kind with
  | .minus | .plus | .bang =>
    let op ← advance
    let operand ← call .unary
    return .unary op operand
  | .increment => stepBefore call .up
  | .decrement => stepBefore call .down
  | _ => call .power

/-- `base`, or `base ** exponent`. -/
def power (call : Call) : Parser Expr := do
  let base ← call .access
  if ← sees .power then
    let op ← advance
    let exponent ← call .unary
    return .binary base op exponent
  return base

/-- A member of the target. -/
def memberAfter (safe : Bool) (target : Expr) : Parser (Option Expr) := do
  let op ← advance
  let name ← expectAs .ident (.memberName op.lexeme)
  return some (.member safe target name)

/-- A call of the target. -/
def callAfter (call : Call) (safe : Bool) (target : Expr) : Parser (Option Expr) := do
  let _ ← advance
  let args ← call (.args .rparen)
  return some (.call safe target args)

/-- An element of the target. -/
def indexAfter (call : Call) (safe : Bool) (target : Expr) : Parser (Option Expr) := do
  let _ ← advance
  let t ← current
  if t.kind = .rsquare then failAt (.wanted .indexExpression) t
  let args ← call (.args .rsquare)
  return some (.index safe target args)

/-- A step after the target, which must be assignable. -/
def stepAfter (step : Step) (target : Expr) : Parser (Option Expr) := do
  let _ ← advance
  checkTarget target
  return some (.post step target)

/-- One more access, call or step after the target. -/
def accessRound (call : Call) (target : Expr) : Parser (Option Expr) := do
  let t ← current
  match t.kind with
  | .dot => memberAfter false target
  | .safeDot => memberAfter true target
  | .lparen => callAfter call false target
  | .safeLparen => callAfter call true target
  | .lsquare => indexAfter call false target
  | .safeLsquare => indexAfter call true target
  | .increment => stepAfter .up target
  | .decrement => stepAfter .down target
  | _ => return none

/-- A primary expression with all that follows it directly. -/
def access (call : Call) : Parser Expr := do
  let target ← call .primary
  chain (accessRound call) target

/-- The names of parameters in parentheses. -/
def params : Parser (List Token) := do
  let _ ← expect .lparen
  let names ←
    if ← sees .rparen then pure [] else separated (expectAs .ident .parameterName)
  let _ ← expectCloser .rparen
  return names

/-- A literal, a name, a group, an array, a construction or a function. -/
def primary (call : Call) : Parser Expr := do
  let t ← current
  match t.kind with
  | .number | .string | .trueKw | .falseKw | .nullKw | .ident | .thisKw | .baseKw =>
    Expr.atom <$> advance
  | .lparen =>
    let _ ← advance
    let inner ← call .expr
    let _ ← expectCloser .rparen
    return .group inner
  | .lsquare =>
    let _ ← advance
    Expr.array <$> call (.args .rsquare)
  | .newKw => call .construction
  | .fnKw =>
    let _ ← advance
    let names ← call .params
    let body ← call .block
    return .lambda names body
  | _ => failHere .unexpectedToken

/-- One more name of a type. -/
def pathRound : Parser (Option Token) := do
  if ← accept .dot then some <$> expectAs .ident (.typeName ".") else return none

/-- `new`, the name of a type and arguments. Forwarding is a statement and has no place here. -/
def construction (call : Call) : Parser Expr := do
  let keyword ← expect .newKw
  let t ← current
  if t.kind.isReceiver then failAt (.strayForwarding t.lexeme) keyword
  let head ← expectAs .ident (.typeName "new")
  let tail ← collect pathRound
  let _ ← expectAs .lparen .typeArguments
  let args ← call (.args .rparen)
  return .new (head :: tail) args

/-- Expressions with commas between them, if any, and the closing bracket. -/
def args (call : Call) (closer : Kind) : Parser (List Expr) := do
  let items ← if ← sees closer then pure [] else separated (call .expr)
  let _ ← expectCloser closer
  return items

end CommandShell.Grammar
