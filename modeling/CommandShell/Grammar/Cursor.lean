import CommandShell.Grammar.Basic

/-! # Cursors: parsers run one after the other

A cursor stands in a stream of tokens. Running a parser moves it, adds what the parser reported, and
keeps the tokens that the parser looked at. A cursor may be set to any whole number; before the
first token nothing can be read.

Tokens are read on demand, deep inside the rules. So the levels that are left for rules depend on how
many tokens are kept already: the lexer takes some for those that are not. And the levels may run out
inside the lexer, when it has passed a token that the stream does not keep yet. The reading fails as
it does anywhere else, but the token is lost for all that is read from the stream later. -/

namespace CommandShell

/-- Why a cursor gave nothing. -/
inductive CursorError where
  | negativeIndex (index : Int)
  | failure (f : Failure)
deriving DecidableEq, Repr

/-- The text of the error. -/
def CursorError.text : CursorError → String
  | .negativeIndex i => s!"token index must be >= 0, got {i}"
  | .failure f => f.text

/-- The stack on which a rule is read: the levels of rules that it holds when so many tokens are kept,
the fewest when none is, and at which places it tears, that is, its levels run out inside the lexer
if they run out there and the token is not kept yet. -/
structure Stack where
  levels : Nat → Nat
  tears : Nat → Bool
  fewest : ∀ kept, levels 0 ≤ levels kept

/-- The stack that holds as many levels whatever is kept, and tears wherever it can. -/
def Stack.even (levels : Nat) : Stack := ⟨fun _ => levels, fun _ => true, fun _ => Nat.le_refl _⟩

/-- The stack of the shell. -/
def Stack.standard : Stack := .even Grammar.nestingLimit

/-- The place at which the levels for a rule run out, if they do. -/
def Grammar.exhaustedAt? {α : Type} (levels : Nat) (rule : Rule α) (ts : Tokens) (i : Nat) :
    Option Nat :=
  let r := parse levels rule ts i
  match r.outcome with
  | .error .exhausted => some r.next
  | _ => none

/-- A place in a stream of tokens, and what was reported. -/
structure Cursor where
  stream : Stream
  pos : Int
  found : List Diagnostic

namespace Cursor

variable {α : Type}

/-- A cursor at the beginning of a text. -/
def ofText (s : String) : Cursor := ⟨.ofText s, 0, []⟩

/-- Sets the place. -/
def seek (c : Cursor) (pos : Int) : Cursor := { c with pos }

/-- Runs a parser where the cursor stands, and keeps what it looked at. Which token is lost when the
levels run out is told of a rule only (`enterAt`). -/
def run (c : Cursor) (p : Parser α) : Except CursorError α × Cursor :=
  if c.pos < 0 then (.error (.negativeIndex c.pos), c)
  else
    let r := p c.stream.tokens c.pos.toNat
    (r.outcome.mapError .failure, ⟨(c.stream.upTo r.reach).1, r.next, c.found ++ r.found⟩)

/-- The token some places ahead or behind. -/
def peek (c : Cursor) (ahead : Int) : Except CursorError Token × Cursor :=
  let r := (c.seek (c.pos + ahead)).run Parser.current
  (r.1, r.2.seek c.pos)

/-- The token before the place, unless this is the beginning. -/
def previous (c : Cursor) : Except CursorError (Option Token) × Cursor :=
  if c.pos = 0 then (.ok none, c)
  else
    let r := c.peek (-1)
    (r.1.map some, r.2)

/-- Runs a parser from a place on. -/
def runAt (c : Cursor) (pos : Int) (p : Parser α) : Except CursorError α × Cursor :=
  (c.seek pos).run p

/-- The levels that a stack holds for the rules that are read at the cursor. -/
def levels (c : Cursor) (stack : Stack) : Nat := stack.levels c.stream.lexed

/-- Is a token lost when a rule is read from a place on? -/
def loses (c : Cursor) (stack : Stack) (rule : Rule α) (pos : Int) : Bool :=
  if pos < 0 then false
  else
    match Grammar.exhaustedAt? (c.levels stack) rule c.stream.tokens pos.toNat with
    | none => false
    | some place =>
      let grown := (c.runAt pos (Grammar.enter (c.levels stack) rule)).2.stream
      stack.tears place && grown.eof.isNone && grown.items.size ≤ place

/-- Reads what a rule describes, from a place on. -/
def enterAt (c : Cursor) (stack : Stack) (rule : Rule α) (pos : Int) :
    Except CursorError α × Cursor :=
  let r := c.runAt pos (Grammar.enter (c.levels stack) rule)
  (r.1, if c.loses stack rule pos then { r.2 with stream := r.2.stream.lose } else r.2)

end Cursor

end CommandShell
