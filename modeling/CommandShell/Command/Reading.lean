import CommandShell.Grammar.Basic
import CommandShell.Command.Basic

/-! # Reading commands: from a buffer to its commands

What begins a statement is read as one. All else begins with an expression, and the token after it
tells what it is: a semicolon makes it a statement, `=` or a compound sign an assignment, a comma a
parallel assignment, and the end of the input a value to be shown.

A report about an expression stands at its first token, which is searched for down the tree. Chains
are read on one level, but their trees are as deep as they are long, so that the search may run out
of levels. It does so outside of what `Grammar.enter` reads, and nothing turns this into an error. -/

namespace CommandShell

/-- With some levels the expression can be assigned to or reported: it is a target, or its first
token is found. -/
def Expr.TargetWithin (e : Expr) (levels : Nat) : Prop :=
  e.isTarget = true ∨ e.tree.searchDepth ≤ levels

instance (e : Expr) (levels : Nat) : Decidable (e.TargetWithin levels) :=
  inferInstanceAs (Decidable (_ ∨ _))

/-- With some levels the expression can stand as a statement or be reported: it has an effect, or its
first token is found. -/
def Expr.EffectWithin (e : Expr) (levels : Nat) : Prop :=
  e.hasEffect = true ∨ e.tree.searchDepth ≤ levels

instance (e : Expr) (levels : Nat) : Decidable (e.EffectWithin levels) :=
  inferInstanceAs (Decidable (_ ∨ _))

namespace Command

open CommandShell.Parser

/-- The span from a token to the last one taken. -/
def spanSince (start : Token) : Parser Span := do
  let last ← previous
  return .over start (last.getD start)

/-- An expression; after a failure in it the place is where it began. -/
def operand (levels : Nat) : Parser Expr := Grammar.enter levels .expr

/-- Reports an expression that cannot be assigned to, if its first token is found. -/
def checkTargetWithin (levels : Nat) (e : Expr) : Parser Unit :=
  if e.TargetWithin levels then checkTarget e else tooDeep

/-- Reports an expression that has no effect, if its first token is found. -/
def checkEffectWithin (levels : Nat) (e : Expr) : Parser Unit :=
  if e.EffectWithin levels then checkEffect e else tooDeep

/-- The rest of an assignment to one target, behind its first token. -/
def assignmentRest (levels : Nat) (target : Expr) : Parser Expr := do
  checkTargetWithin levels target
  let value ← operand levels
  let _ ← expectSemicolon
  return value

/-- The rest of a parallel assignment, behind its first target. -/
def parallelRest (levels : Nat) (first : Expr) : Parser Request := do
  let others ← more (operand levels)
  let targets := first :: others
  let sign ← expectAs .assign .assignAfterTargets
  targets.forM (checkTargetWithin levels)
  let values ← separated (operand levels)
  if values.length ≠ 1 ∧ values.length ≠ targets.length then
    report (.badArity values.length targets.length sign)
  let _ ← expectSemicolon
  return .parallel targets sign values

/-- What an expression begins, told by the token after it. -/
def afterExpression (levels : Nat) (e : Expr) : Parser Request := do
  let t ← current
  match t.kind with
  | .semicolon =>
    checkEffectWithin levels e
    let _ ← advance
    return .expression e true
  | .assign =>
    let _ ← advance
    let value ← assignmentRest levels e
    return .assignment e value
  | .comma => parallelRest levels e
  | .eof => return .expression e false
  | k =>
    match k.compoundOp? with
    | some op =>
      let _ ← advance
      let value ← assignmentRest levels e
      return .compound e op value
    | none => failHere .unexpectedToken

/-- One command. -/
def read (levels : Nat) : Parser Command := do
  let start ← current
  let request ← match ← opening with
    | .statement => Request.statement <$> Grammar.enter levels .stmt
    | .expression => do
      let e ← operand levels
      afterExpression levels e
  let span ← spanSince start
  return ⟨request, span⟩

/-- One more command, unless the input ends. -/
def readRound (levels : Nat) : Parser (Option Command) := do
  if ← sees .eof then return none
  some <$> read levels

/-- Every command up to the end of the input. -/
def readAll (levels : Nat) : Parser (List Command) := collect (readRound levels)

end Command

/-! ### Buffers -/

/-- What the reading of a buffer brings forth, in order. -/
inductive Item where
  | diagnostic (d : Diagnostic)
  | command (c : Command)

/-- The items of a buffer, and the failure that ended it early, if any. -/
structure Buffer where
  items : List Item
  failure : Option Failure

namespace Buffer

/-- The commands from a place on, each after what was reported while it was read. A command takes a
token, so that there are no more rounds than tokens. -/
def readFrom (levels : Nat) (ts : Tokens) : Nat → Nat → Buffer
  | 0, _ => ⟨[], none⟩
  | rounds + 1, i =>
    let r := Command.readRound levels ts i
    let found := r.found.map .diagnostic
    match r.outcome with
    | .error f => ⟨found, some f⟩
    | .ok none => ⟨found, none⟩
    | .ok (some c) =>
      let rest := readFrom levels ts rounds r.next
      ⟨found ++ .command c :: rest.items, rest.failure⟩

/-- The commands of some tokens. -/
def ofTokens (levels : Nat) (ts : Tokens) : Buffer := readFrom levels ts (ts.items.size + 1) 0

/-- The commands of a text. -/
def ofText (source : String) : Buffer :=
  ofTokens Grammar.nestingLimit (Stream.ofText source).tokens

end Buffer

end CommandShell
