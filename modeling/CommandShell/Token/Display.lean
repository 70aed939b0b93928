import CommandShell.Token.Basic
import CommandShell.Text.Quoted

/-! # Display: a token written out for inspection

A token is written as its kind, its value and its place. The value is the lexeme between quotes; a
token made by hand may hold a whole number, or none. -/

namespace CommandShell

/-- What a displayed token holds. -/
inductive Value where
  | none
  | text (s : String)
  | number (n : Int)
deriving DecidableEq, Repr

/-- The text of a value, as it counts for the width of its token. -/
def Value.plain : Value → String
  | .none => ""
  | .text s => s
  | .number n => toString n

/-- The value, written out. -/
def Value.display : Value → String
  | .none => "None"
  | .text s => Text.quoted s
  | .number n => toString n

/-- A token that holds any value. -/
structure Specimen where
  kind : Kind
  value : Value
  line : Int
  column : Int
deriving DecidableEq, Repr

/-- The column after the text of the value. -/
def Specimen.endColumn (t : Specimen) : Int := t.column + t.value.plain.length

/-- The token, written out. -/
def Specimen.display (t : Specimen) : String :=
  s!"Tok({t.kind.name}, {t.value.display}, {t.line}:{t.column})"

/-- What a token holds: its lexeme, and at the end of the input nothing. -/
def Token.value (t : Token) : Value := if t.isEof then .none else .text t.lexeme

end CommandShell
