import CommandShell.Lexer.Stream
import CommandShell.Diagnostic.Basic

/-! # Parsers: reading tokens from a place on

A parser starts at an index of the tokens ahead. Besides its result it says where it stopped, what
it reported on the way and how far it looked: `reach` is one more than the greatest index asked for,
so that a parser depends only on the tokens below its reach. Reports made before a failure stay. -/

namespace CommandShell

/-- The outcome of a parser. -/
structure Parsed (α : Type) where
  outcome : Except Failure α
  next : Nat
  found : List Diagnostic
  reach : Nat

/-- A reader of tokens. -/
def Parser (α : Type) : Type := Tokens → Nat → Parsed α

namespace Parser

variable {α β : Type}

/-- Reads nothing. -/
protected def pure (a : α) : Parser α := fun _ i => ⟨.ok a, i, [], 0⟩

/-- One parser after the other. A failure of the first is the failure of both. -/
protected def bind (p : Parser α) (f : α → Parser β) : Parser β := fun ts i =>
  let r := p ts i
  match r.outcome with
  | .error e => ⟨.error e, r.next, r.found, r.reach⟩
  | .ok a =>
    let s := f a ts r.next
    ⟨s.outcome, s.next, r.found ++ s.found, max r.reach s.reach⟩

instance : Monad Parser where
  pure := Parser.pure
  bind := Parser.bind

/-- Fails. -/
def fail (e : Failure) : Parser α := fun _ i => ⟨.error e, i, [], 0⟩

/-- Reports something and goes on. -/
def report (d : Diagnostic) : Parser Unit := fun _ i => ⟨.ok (), i, [d], 0⟩

/-- The token some places ahead. -/
def peek (ahead : Nat) : Parser Token := fun ts i =>
  ⟨(ts.get (i + ahead)).mapError .lex, i, [], i + ahead + 1⟩

/-- The token at the place. -/
def current : Parser Token := peek 0

/-- The token before the place, unless this is the beginning. -/
def previous : Parser (Option Token) := fun ts i =>
  match i with
  | 0 => ⟨.ok none, i, [], 0⟩
  | j + 1 => ⟨((ts.get j).mapError .lex).map some, i, [], j + 1⟩

/-- Moves one place on. -/
def move : Parser Unit := fun _ i => ⟨.ok (), i + 1, [], 0⟩

/-- Takes the token at the place. The end of the input is never passed. -/
def advance : Parser Token := do
  let t ← current
  if t.isEof then return t
  move
  return t

/-- Is the token at the place of the kind? -/
def sees (k : Kind) : Parser Bool := do
  let t ← current
  return t.kind == k

/-- Is the token at the place of one of the kinds? -/
def seesAny (ks : List Kind) : Parser Bool := do
  let t ← current
  return ks.contains t.kind

/-- Takes the token at the place if it is of the kind. -/
def accept (k : Kind) : Parser Bool := do
  if ← sees k then
    let _ ← advance
    return true
  return false

/-- Takes the token at the place if it is of one of the kinds. -/
def acceptAny (ks : List Kind) : Parser Bool := do
  if ← seesAny ks then
    let _ ← advance
    return true
  return false

/-! ### Errors at the place -/

/-- The error that the token at the place causes. At the end of the input it is always the end that
is unexpected. -/
def faultHere (fault : ParseFault) : Parser ParseError := do
  let t ← current
  return if t.isEof then ⟨.unexpectedEnd, some t⟩ else ⟨fault, some t⟩

/-- The error that the token at the place causes, with a code and a text of the caller's choice.
Without a text the token is called unexpected. -/
def faultCoded (code : Code) (message : Option String) : Parser ParseError := do
  let t ← current
  faultHere (.other code (message.getD (ParseFault.message t .unexpectedToken)))

/-- Fails with an error about a token. -/
def failAt (fault : ParseFault) (t : Token) : Parser α := fail (.parse ⟨fault, some t⟩)

/-- Fails with the error that the token at the place causes. -/
def failHere (fault : ParseFault) : Parser α := do
  let e ← faultHere fault
  fail (.parse e)

/-- Takes a token of the kind, or fails with the fault. -/
def expectOr (k : Kind) (fault : ParseFault) : Parser Token := do
  if ← sees k then advance else failHere fault

/-- Takes a token of the kind, or fails because the thing is wanted. -/
def expectAs (k : Kind) (w : Wanted) : Parser Token := expectOr k (.wanted w)

/-- Takes a token of the kind. -/
def expect (k : Kind) : Parser Token := expectAs k (.kind k)

/-- Takes a closing bracket. -/
def expectCloser (k : Kind) : Parser Token := expectAs k (.closer k)

/-- Takes the semicolon that ends a statement. -/
def expectSemicolon : Parser Token := do
  let t ← current
  if t.kind = .semicolon then advance else failAt .missingTerminator t

/-! ### Repetition

A round of a repetition takes a token unless it is the last, so that there are no more rounds than
tokens. The count of rounds is bounded by that number. -/

/-- Fails because no level is left for a call. -/
def tooDeep : Parser α := fail .exhausted

/-- What the rounds of `item?` read, up to the first that reads nothing. -/
def collectUpTo (item? : Parser (Option α)) : Nat → Parser (List α)
  | 0 => tooDeep
  | rounds + 1 => do
    match ← item? with
    | none => return []
    | some a =>
      let rest ← collectUpTo item? rounds
      return a :: rest

/-- What the rounds of `item?` read, up to the first that reads nothing. -/
def collect (item? : Parser (Option α)) : Parser (List α) := fun ts =>
  collectUpTo item? (ts.items.size + 1) ts

/-- What becomes of a value in the rounds of `grow?`, up to the first that leaves it as it is. -/
def chainUpTo (grow? : α → Parser (Option α)) : Nat → α → Parser α
  | 0, _ => tooDeep
  | rounds + 1, a => do
    match ← grow? a with
    | none => return a
    | some b => chainUpTo grow? rounds b

/-- What becomes of a value in the rounds of `grow?`, up to the first that leaves it as it is. -/
def chain (grow? : α → Parser (Option α)) (a : α) : Parser α := fun ts =>
  chainUpTo grow? (ts.items.size + 1) a ts

/-- The items after the first of a list with commas. -/
def more (item : Parser α) : Parser (List α) :=
  collect do if ← accept .comma then some <$> item else return none

/-- One or more items with commas between them. -/
def separated (item : Parser α) : Parser (List α) := do
  let first ← item
  let rest ← more item
  return first :: rest

end Parser

end CommandShell
