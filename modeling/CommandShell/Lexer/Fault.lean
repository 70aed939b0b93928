/-! # Lexical faults: texts that begin no token -/

namespace CommandShell

/-- Why no token begins at a place. -/
inductive LexFault where
  | unterminatedString
  | invalidNumberSuffix
  | unexpectedCharacter (c : Char)
  | other (message : String)
deriving DecidableEq, Repr

/-- What is wrong with the text. -/
def LexFault.message : LexFault → String
  | .unterminatedString => "Unterminated string"
  | .invalidNumberSuffix => "Invalid number suffix"
  | .unexpectedCharacter c => s!"Unexpected character '{c}'"
  | .other message => message

/-- A fault and the place of the first character of the lexeme that failed. -/
structure LexError where
  fault : LexFault
  line : Int
  column : Int
deriving DecidableEq, Repr

/-- The fault with its place. -/
def LexError.text (e : LexError) : String :=
  s!"{e.fault.message} at line {e.line}, col {e.column}"

end CommandShell
