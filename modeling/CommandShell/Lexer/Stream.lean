import CommandShell.Lexer.Basic

/-! # Token streams: tokens by their index

A stream reads tokens when they are asked for and keeps them. Every index from that of the end token
on gives the end token. `Tokens` is what a stream holds for a reader: all tokens ahead, up to the
end or to the first fault; `Stream.upTo` says how much of it is read. -/

namespace CommandShell

/-- The tokens of a text and what stands after them: the end token or a fault. -/
structure Tokens where
  items : Array Token
  ending : Except LexError Token

/-- The token with an index. -/
def Tokens.get (ts : Tokens) (i : Nat) : Except LexError Token :=
  if h : i < ts.items.size then .ok ts.items[i] else ts.ending

/-- The tokens read so far, the end token once it is reached, and the lexer for the rest. -/
structure Stream where
  items : Array Token
  eof : Option Token
  lexer : Lexer

namespace Stream

/-- A stream that has read nothing. -/
def ofText (s : String) : Stream := ⟨#[], none, .ofText s⟩

/-- How many tokens are kept, the end token included. -/
def lexed (s : Stream) : Nat := s.items.size + (if s.eof.isSome then 1 else 0)

/-- Keeps at most `count` tokens more. -/
def grow (s : Stream) (count : Nat) : Stream × Option LexError :=
  match s.eof with
  | some _ => (s, none)
  | none =>
    let r := s.lexer.read count
    let items := s.items ++ r.tokens.toArray
    match r.ending with
    | none => (⟨items, none, r.lexer⟩, none)
    | some (.ok t) => (⟨items, some t, r.lexer⟩, none)
    | some (.error e) => (⟨items, none, r.lexer⟩, some e)

/-- The stream after the tokens before an index were asked for, and the fault met, if any. -/
def upTo (s : Stream) (index : Nat) : Stream × Option LexError := s.grow (index - s.items.size)

/-- The token with an index. -/
def get (s : Stream) (i : Nat) : Except LexError Token × Stream :=
  match s.upTo (i + 1) with
  | (s, some e) => (.error e, s)
  | (s, none) =>
    if h : i < s.items.size then (.ok s.items[i], s)
    else (.ok (s.eof.getD (.atEnd s.lexer.place.line s.lexer.place.column)), s)

/-- The stream after its lexer has passed a token that is not kept. The lexer remembers the token
before it. The end token takes nothing and cannot be lost. -/
def lose (s : Stream) : Stream :=
  match s.lexer.next with
  | (.ok t, l) => if t.isEof then s else { s with lexer := { l with last := s.lexer.last } }
  | (.error _, _) => s

/-- The stream with everything read up to the end or a fault. -/
def full (s : Stream) : Stream × Option LexError := s.grow (s.lexer.rest.length + 1)

/-- Everything ahead, as a reader sees it. -/
def tokens (s : Stream) : Tokens :=
  match s.full with
  | (s, some e) => ⟨s.items, .error e⟩
  | (s, none) => ⟨s.items, .ok (s.eof.getD (.atEnd s.lexer.place.line s.lexer.place.column))⟩

/-- The tokens in order, the end token included. -/
def toList (s : Stream) : Except LexError (List Token) × Stream :=
  match s.full with
  | (s, some e) => (.error e, s)
  | (s, none) => (.ok (s.items.toList ++ s.eof.toList), s)

end Stream

end CommandShell
