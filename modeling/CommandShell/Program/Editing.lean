import CommandShell.Session.Control

/-! # Editing: help while a line is typed

While nothing is pending, the names of controls are offered for a line that begins with a slash. A
character rubbed out offers them again. -/

namespace CommandShell

/-- A line being typed, and where the cursor stands in it. A cursor below zero counts from the end
of the line; with it the line can be read but not edited. -/
structure Line where
  text : List Char
  cursor : Int
deriving DecidableEq, Repr

/-- An offer to replace what was typed, from a place before the cursor on. -/
structure Completion where
  text : String
  start : Int
  description : String
deriving DecidableEq, Repr

namespace Line

/-- What stands before the cursor. -/
def typed (l : Line) : List Char :=
  l.text.take (if 0 ≤ l.cursor then l.cursor else l.text.length + l.cursor).toNat

/-- The names of controls that begin with what was typed. -/
def completions (l : Line) (pending : Bool) : List Completion :=
  if pending || l.typed.head? != some '/' then []
  else
    (Control.all.filter fun c => l.typed.isPrefixOf c.name.toList).map fun c =>
      ⟨c.name, -(l.typed.length : Int), c.description⟩

/-- The line without the character before the cursor. -/
def rubOut (l : Line) : Line := ⟨l.text.eraseIdx (l.cursor - 1).toNat, l.cursor - 1⟩

/-- The line after the rub-out key; at its beginning the key does nothing. -/
def backspace (l : Line) : Line := if 0 < l.cursor then l.rubOut else l

/-- Are names offered for the line as it stands? -/
def offersNames (l : Line) : Bool := l.text.head? == some '/'

end Line

end CommandShell
