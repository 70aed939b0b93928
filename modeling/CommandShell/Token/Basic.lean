import CommandShell.Token.Kind

/-! # Tokens: lexemes with their place in the text

A place is a line and a column; a column counts characters. In a text both are counted from one; a
token made by hand may stand at any whole numbers. A token lies on one line: its end column is its
column and the length of its lexeme. The end of the input is a token without a lexeme. -/

namespace CommandShell

/-- A kind, the text it was read from and the place of its first character. -/
structure Token where
  kind : Kind
  lexeme : String
  line : Int
  column : Int
deriving DecidableEq, Repr, Inhabited

namespace Token

/-- The token at the end of the input. -/
def atEnd (line column : Int) : Token := ⟨.eof, "", line, column⟩

/-- The column after the last character. -/
def endColumn (t : Token) : Int := t.column + t.lexeme.length

/-- Is the token the end of the input? -/
def isEof (t : Token) : Bool := t.kind == .eof

/-- How a message names a token that was found. -/
def found (t : Token) : String := if t.isEof then "end of input" else s!"'{t.lexeme}'"

end Token

end CommandShell
