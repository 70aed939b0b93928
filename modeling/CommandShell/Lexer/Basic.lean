import CommandShell.Lexer.Scan
import CommandShell.Token.Basic

/-! # The lexer: tokens one at a time

A lexer holds the text still to be read, its place and the last token. `next` reads one token; after
a fault the lexer stands where the scan stopped and can be asked again. At the end of the text it
gives the end token for ever. -/

namespace CommandShell

/-- An offset into a text, with its line and column. -/
structure Place where
  offset : Nat
  line : Int
  column : Int
deriving DecidableEq, Repr

namespace Place

/-- The beginning of a text. -/
def start : Place := ⟨0, 1, 1⟩

/-- The place after a character. -/
def step (p : Place) (c : Char) : Place :=
  if c = '\n' then ⟨p.offset + 1, p.line + 1, 1⟩ else ⟨p.offset + 1, p.line, p.column + 1⟩

/-- The place after some characters. -/
def after (p : Place) (cs : List Char) : Place := cs.foldl step p

end Place

/-- The text ahead, its place, and the last token read. -/
structure Lexer where
  rest : List Char
  place : Place
  last : Option Token
deriving Repr

namespace Lexer

/-- A lexer at the beginning of a text. -/
def ofChars (cs : List Char) : Lexer := ⟨cs, .start, none⟩

/-- A lexer at the beginning of a text. -/
def ofText (s : String) : Lexer := ofChars s.toList

/-- Does an operand end right where the lexer stands? -/
def touchesOperand (l : Lexer) : Bool :=
  match l.last with
  | none => false
  | some t => t.kind.endsOperand && t.line == l.place.line && t.endColumn == l.place.column

/-- The lexer behind the gap before the next token. -/
def skipGap (l : Lexer) : Lexer :=
  let r := gap false l.rest
  { l with rest := r.2, place := l.place.after r.1 }

/-- The token that begins where the lexer stands. -/
def readToken (l : Lexer) : Except LexError Token × Lexer :=
  match l.rest with
  | [] =>
    let t := Token.atEnd l.place.line l.place.column
    (.ok t, { l with last := some t })
  | c :: cs =>
    let s := scan l.touchesOperand c cs
    let place := l.place.after s.passed
    match s.outcome with
    | .ok kind =>
      let t : Token := ⟨kind, String.ofList s.passed, l.place.line, l.place.column⟩
      (.ok t, ⟨s.rest, place, some t⟩)
    | .error fault => (.error ⟨fault, l.place.line, l.place.column⟩, ⟨s.rest, place, l.last⟩)

/-- The next token. -/
def next (l : Lexer) : Except LexError Token × Lexer := l.skipGap.readToken

/-! ### Reading several tokens -/

/-- The tokens read before the end, how the reading ended (with the end token or a fault; not at all
if it stopped at its count), and the lexer after it. -/
structure Reading where
  tokens : List Token
  ending : Option (Except LexError Token)
  lexer : Lexer

/-- At most `count` tokens. -/
def read : Nat → Lexer → Reading
  | 0, l => ⟨[], none, l⟩
  | count + 1, l =>
    match l.next with
    | (.error e, l) => ⟨[], some (.error e), l⟩
    | (.ok t, l) =>
      if t.isEof then ⟨[], some (.ok t), l⟩
      else
        let r := read count l
        { r with tokens := t :: r.tokens }

/-- Every token up to the end of the text or the first fault. Each takes a character, so that the
count is never reached. -/
def readAll (l : Lexer) : Reading := read (l.rest.length + 1) l

/-- The tokens from where the lexer stands, the end token included. -/
def tokenize (l : Lexer) : Except LexError (List Token) × Lexer :=
  let r := l.readAll
  match r.ending with
  | some (.ok t) => (.ok (r.tokens ++ [t]), r.lexer)
  | some (.error e) => (.error e, r.lexer)
  | none => (.ok r.tokens, r.lexer)

/-! ### Looking at characters -/

/-- The character some places ahead; NUL stands for the end of the text. -/
def peek (l : Lexer) (ahead : Nat) : Char := l.rest[ahead]?.getD '\x00'

/-- The character some places behind, in the text that the lexer reads. -/
def peekBehind (l : Lexer) (source : List Char) (behind : Nat) : Option Char :=
  if behind ≤ l.place.offset then some (source[l.place.offset - behind]?.getD '\x00')
  else if behind ≤ l.place.offset + source.length then
    source[l.place.offset + source.length - behind]?
  else none

/-- Passes some characters; NUL stands for each that is missing at the end of the text. -/
def pass : Nat → Lexer → List Char × Lexer
  | 0, l => ([], l)
  | n + 1, l =>
    let c := l.peek 0
    let r := pass n { l with rest := l.rest.tail, place := l.place.step c }
    (c :: r.1, r.2)

end Lexer

/-- The tokens of a text, the end token included, or its first fault. -/
def tokenize (s : String) : Except LexError (List Token) := (Lexer.ofText s).tokenize.1

end CommandShell
