import CommandShell.Token.Basic

/-! # Brackets: is a text complete?

The brackets still open are kept as the closers that they wait for, innermost first. A text is
complete when none is left; a closer that does not belong to the innermost bracket can be mended by
no continuation, and stops the count at once. -/

namespace CommandShell

/-- The closer of an opening bracket. A safe form closes like the plain bracket. -/
def Kind.closer? : Kind → Option Kind
  | .lparen | .safeLparen => some .rparen
  | .lsquare | .safeLsquare => some .rsquare
  | .lbrace => some .rbrace
  | _ => none

/-- Does the kind close a bracket? -/
def Kind.isCloser : Kind → Bool
  | .rparen | .rsquare | .rbrace => true
  | _ => false

/-- The opening brackets. -/
def Kind.openers : List Kind := [.lparen, .safeLparen, .lsquare, .safeLsquare, .lbrace]

/-- What the brackets of a text say about it. -/
inductive Verdict where
  | balanced
  | needsMore
  | malformed (closer : Token)
deriving DecidableEq, Repr

/-- The word for a verdict. -/
def Verdict.word : Verdict → String
  | .balanced => "balanced"
  | .needsMore => "needs-more"
  | .malformed _ => "malformed"

/-- The closer that fits no open bracket. -/
def Verdict.unexpected? : Verdict → Option Token
  | .malformed t => some t
  | _ => none

/-- The closers that the open brackets wait for, innermost first. -/
structure Brackets where
  awaited : List Kind
deriving DecidableEq, Repr

namespace Brackets

/-- No open bracket. -/
def empty : Brackets := ⟨[]⟩

/-- The closer of the innermost open bracket. -/
def expected (b : Brackets) : Option Kind := b.awaited.head?

/-- How many brackets are open. -/
def depth (b : Brackets) : Nat := b.awaited.length

/-- The verdict on some tokens, read on from open brackets, and the brackets open after them. -/
def scan (b : Brackets) : List Token → Verdict × Brackets
  | [] => (if b.awaited.isEmpty then .balanced else .needsMore, b)
  | t :: ts =>
    match t.kind.closer? with
    | some closer => scan ⟨closer :: b.awaited⟩ ts
    | none =>
      if t.kind.isCloser then
        match b.awaited with
        | closer :: outer => if closer = t.kind then scan ⟨outer⟩ ts else (.malformed t, b)
        | [] => (.malformed t, b)
      else scan b ts

end Brackets

end CommandShell
