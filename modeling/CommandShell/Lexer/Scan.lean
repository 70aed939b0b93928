import CommandShell.Lexer.Fault
import CommandShell.Text.Digit
import CommandShell.Token.Kind

/-! # Scanning: the lexeme at the head of a text

`gap` passes over what separates tokens, and `scan` reads one lexeme. A scan splits the text at its
head into the characters that it passed and the rest; where no lexeme is found it says why, and the
characters passed are those up to the place where the fault showed. -/

namespace CommandShell.Lexer

/-! ### Gaps between tokens -/

/-- Is the character a separator of tokens? -/
def isSpace (c : Char) : Bool := c = ' ' || c = '\t' || c = '\r' || c = '\n'

/-- The spaces, line ends and comments at the head of a text, and the rest. A comment runs from `//`
to the line end; a NUL ends it too and begins the rest. -/
def gap (inComment : Bool) : List Char → List Char × List Char
  | [] => ([], [])
  | c :: cs =>
    if inComment then
      if c = '\x00' then ([], c :: cs)
      else
        let r := gap (c ≠ '\n') cs
        (c :: r.1, r.2)
    else if isSpace c then
      let r := gap false cs
      (c :: r.1, r.2)
    else if c = '/' ∧ cs.head? = some '/' then
      let r := gap true cs
      (c :: r.1, r.2)
    else ([], c :: cs)

/-! ### Lexemes -/

/-- What a scan found: the kind of the lexeme or the fault, the characters passed and the rest. -/
structure Scan where
  outcome : Except LexFault Kind
  passed : List Char
  rest : List Char

/-- The characters of a string up to the closing quote, the line end or the end of the text. A
backslash takes the character after it along, unless that is a line end. -/
def stringBody (quote : Char) : List Char → List Char × List Char
  | [] => ([], [])
  | '\\' :: c :: cs =>
    if c = '\n' then (['\\'], c :: cs)
    else
      let r := stringBody quote cs
      ('\\' :: c :: r.1, r.2)
  | c :: cs =>
    if c = quote ∨ c = '\n' then ([], c :: cs)
    else
      let r := stringBody quote cs
      (c :: r.1, r.2)

/-- A string, the opening quote of which has been read. -/
def scanString (quote : Char) (cs : List Char) : Scan :=
  match stringBody quote cs with
  | (body, c :: rest) =>
    if c = quote then ⟨.ok .string, quote :: body ++ [quote], rest⟩
    else ⟨.error .unterminatedString, quote :: body, c :: rest⟩
  | (body, []) => ⟨.error .unterminatedString, quote :: body, []⟩

/-- A point and digits at the head of a text, and the rest; a point without a digit is left. -/
def fraction : List Char → List Char × List Char
  | '.' :: d :: cs =>
    if Text.isDigit d then
      ('.' :: d :: cs.takeWhile Text.isDigit, cs.dropWhile Text.isDigit)
    else ([], '.' :: d :: cs)
  | cs => ([], cs)

/-- An exponent at the head of a text, and the rest. An `e` is left unless a digit follows it,
directly or after a sign. -/
def exponent : List Char → List Char × List Char
  | e :: s :: cs =>
    if e = 'e' ∨ e = 'E' then
      if Text.isDigit s then (e :: s :: cs.takeWhile Text.isDigit, cs.dropWhile Text.isDigit)
      else if (s = '+' ∨ s = '-') ∧ cs.head?.any Text.isDigit then
        (e :: s :: cs.takeWhile Text.isDigit, cs.dropWhile Text.isDigit)
      else ([], e :: s :: cs)
    else ([], e :: s :: cs)
  | cs => ([], cs)

/-- May the character begin a word? -/
def beginsWord (c : Char) : Bool := Text.isLetter c || c = '_'

/-- May the character continue a word? -/
def continuesWord (c : Char) : Bool := Text.isAlphanumeric c || c = '_'

/-- A number: digits, a fraction and an exponent. A word must not follow it directly. -/
def scanNumber (cs : List Char) : Scan :=
  let whole := cs.takeWhile Text.isDigit
  let f := fraction (cs.dropWhile Text.isDigit)
  let e := exponent f.2
  let outcome := if e.2.head?.any beginsWord then .error .invalidNumberSuffix else .ok .number
  ⟨outcome, whole ++ f.1 ++ e.1, e.2⟩

/-- The keywords as lists of characters. -/
def keywordTable : List (List Char × Kind) := Kind.keywords.map fun k => (k.spelling.toList, k)

/-- The kind of a word. -/
def wordKind (word : List Char) : Kind := (keywordTable.lookup word).getD .ident

/-- A keyword or an identifier. -/
def scanWord (cs : List Char) : Scan :=
  let word := cs.takeWhile continuesWord
  ⟨.ok (wordKind word), word, cs.dropWhile continuesWord⟩

/-- The signs as lists of characters. -/
def signTable : List (List Char × Kind) := Kind.operators.map fun k => (k.spelling.toList, k)

/-- The safe forms and the signs as lists of characters. -/
def gluedSignTable : List (List Char × Kind) :=
  (Kind.safeForms ++ Kind.operators).map fun k => (k.spelling.toList, k)

/-- The first sign of the table at the head of a text; the safe forms count only where the text is
glued to an operand. -/
def scanSign (glued : Bool) (c : Char) (cs : List Char) : Scan :=
  match (if glued then gluedSignTable else signTable).find? fun e => e.1.isPrefixOf (c :: cs) with
  | some e => ⟨.ok e.2, e.1, (c :: cs).drop e.1.length⟩
  | none => ⟨.error (.unexpectedCharacter c), [], c :: cs⟩

/-- The lexeme at the head of a text that begins with `c`. -/
def scan (glued : Bool) (c : Char) (cs : List Char) : Scan :=
  if c = '"' ∨ c = '\'' then scanString c cs
  else if Text.isDigit c then scanNumber (c :: cs)
  else if beginsWord c then scanWord (c :: cs)
  else scanSign glued c cs

end CommandShell.Lexer
