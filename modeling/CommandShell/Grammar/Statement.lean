import CommandShell.Grammar.Expression

/-! # The rules of statements

A keyword decides what a statement is; a label and a forwarded construction need a second token. All
else is an expression, alone or as the target of an assignment. -/

namespace CommandShell.Grammar

open CommandShell.Parser

/-- A statement. -/
def stmt (call : Call) : Parser Stmt := do
  match ← opening with
  | .expression => call .expression
  | .statement =>
    let t ← current
    match t.kind with
    | .lbrace => Stmt.block <$> call .block
    | .semicolon => Stmt.empty <$> advance
    | .varKw | .constKw => call .declaration
    | .fnKw => call .function
    | .ifKw => call .choice
    | .whileKw => call .whileLoop
    | .doKw => call .doLoop
    | .forKw => call .forLoop
    | .breakKw | .continueKw => call .jump
    | .returnKw | .throwKw => call .exit
    | .tryKw => call .attempt
    | .ident => call .labeled
    | .newKw => call .forward
    | _ => failHere .unexpectedToken

/-- One more statement of a block. -/
def blockRound (call : Call) : Parser (Option Stmt) := do
  if ← seesAny [.rbrace, .eof] then return none
  some <$> call .stmt

/-- Statements in braces. -/
def block (call : Call) : Parser (List Stmt) := do
  let _ ← expect .lbrace
  let body ← collect (blockRound call)
  let _ ← expectCloser .rbrace
  return body

/-- The statement governed by a keyword. -/
def body (call : Call) (owner : Kind) : Parser Stmt := do
  let s ← call .stmt
  warnIfEmpty owner s
  return s

/-- `var` or `const`, names with or without values, and a semicolon. -/
def declaration (call : Call) : Parser Stmt := do
  let keyword ← advance
  let declarators ← separated (call (.declarator keyword))
  let _ ← expectSemicolon
  return .declare keyword declarators

/-- A name and its value. A constant must have one. -/
def declarator (call : Call) (keyword : Token) : Parser Declarator := do
  let name ← expectAs .ident .variableName
  if ← accept .assign then
    let value ← call .expr
    return .valued name value
  if keyword.kind = .constKw then failAt .constantWithoutValue name
  return .plain name

/-- `fn`, a name, parameters and a block. -/
def function (call : Call) : Parser Stmt := do
  let _ ← expect .fnKw
  let name ← expectAs .ident .functionName
  let names ← call .params
  let body ← call .block
  return .function name names body

/-- `if`, a condition and a statement, and what is to be done `else`. -/
def choice (call : Call) : Parser Stmt := do
  let _ ← expect .ifKw
  let cond ← call .expr
  let body ← call (.body .ifKw)
  if ← accept .elseKw then
    let other ← call (.body .elseKw)
    return .ifElse cond body other
  return .ifThen cond body

/-- `while`, a condition and a statement. -/
def whileLoop (call : Call) : Parser Stmt := do
  let _ ← expect .whileKw
  let cond ← call .expr
  let body ← call (.body .whileKw)
  return .whileLoop cond body

/-- `do`, a statement, `while`, a condition and a semicolon. -/
def doLoop (call : Call) : Parser Stmt := do
  let _ ← expect .doKw
  let body ← call .stmt
  let _ ← expectAs .whileKw .whileAfterBody
  let cond ← call .expr
  let _ ← expectSemicolon
  return .doLoop body cond

/-- `for`, a name, `in`, what to run over and a statement. -/
def forLoop (call : Call) : Parser Stmt := do
  let _ ← expect .forKw
  let name ← expectAs .ident .loopVariable
  let _ ← expectAs .inKw .inAfterVariable
  let items ← call .expr
  let body ← call (.body .forKw)
  return .forLoop name items body

/-- The jump of a keyword. -/
def jumpWay (k : Kind) : Jump := if k = .breakKw then .toEnd else .toNext

/-- `break` or `continue`, a label if there is one, and a semicolon. -/
def jump : Parser Stmt := do
  let keyword ← advance
  let label ← if ← sees .ident then some <$> advance else pure none
  let _ ← expectSemicolon
  return .jump (jumpWay keyword.kind) label

/-- The exit of a keyword. -/
def exitWay (k : Kind) : Exit := if k = .returnKw then .returning else .throwing

/-- `return` or `throw`, a value if there is one, and a semicolon. -/
def exit (call : Call) : Parser Stmt := do
  let keyword ← advance
  if ← sees .semicolon then
    let _ ← expectSemicolon
    return .exit (exitWay keyword.kind)
  let value ← call .expr
  let _ ← expectSemicolon
  return .exitWith (exitWay keyword.kind) value

/-- The type and the name of what a handler takes: `(Type)`, `(Type name)`, `name` or nothing. -/
def rescueHead : Parser (Option Token × Option Token) := do
  if ← accept .lparen then
    let type ← expectAs .ident .exceptionType
    let name ← if ← sees .ident then some <$> advance else pure none
    let _ ← expectCloser .rparen
    return (some type, name)
  if ← sees .ident then
    let name ← advance
    return (none, some name)
  return (none, none)

/-- One more `catch`. -/
def rescueRound (call : Call) : Parser (Option Handler) := do
  if ← accept .catchKw then
    let head ← rescueHead
    let body ← call .block
    return some (.rescue head.1 head.2 body)
  return none

/-- A `finally`, if there is one. -/
def always (call : Call) : Parser (List Handler) := do
  if ← accept .finallyKw then
    let body ← call .block
    return [.always body]
  return []

/-- `try`, a block and at least one handler. -/
def attempt (call : Call) : Parser Stmt := do
  let keyword ← expect .tryKw
  let body ← call .block
  let rescues ← collect (rescueRound call)
  let last ← always call
  let handlers := rescues ++ last
  if handlers.isEmpty then failAt .tryWithoutHandler keyword
  return .attempt body handlers

/-- A name, a colon and a statement. -/
def labeled (call : Call) : Parser Stmt := do
  let label ← expect .ident
  let _ ← expect .colon
  let body ← call .stmt
  return .labeled label body

/-- `new`, a receiver, arguments and a semicolon. -/
def forward (call : Call) : Parser Stmt := do
  let _ ← expect .newKw
  let receiver ← advance
  let _ ← expectAs .lparen .receiverArguments
  let args ← call (.args .rparen)
  let _ ← expectSemicolon
  return .forward receiver args

/-- An expression, or an assignment to one, and a semicolon. -/
def expression (call : Call) : Parser Stmt := do
  let e ← call .expr
  if ← accept .assign then
    checkTarget e
    let value ← call .expr
    let _ ← expectSemicolon
    return .assign e value
  let t ← current
  if t.kind.compoundOp?.isSome then
    let op ← advance
    checkTarget e
    let value ← call .expr
    let _ ← expectSemicolon
    return .compound e op value
  let _ ← expectSemicolon
  checkEffect e
  return .expression e

end CommandShell.Grammar
