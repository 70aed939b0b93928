import CommandShell.Token.Basic
import CommandShell.Lexer.Fault

/-! # Diagnostics: what is reported about an input

A diagnostic has a code, a text, a place and a severity. The place is given by whole numbers; a
diagnostic without one stands at line and column zero. A failure is what ends the reading of an
input: a lexical fault or a parse error, which are reported as fatal diagnostics, or a stack that
has no level left for the next call, which is no fault of the input and has no diagnostic. -/

namespace CommandShell

/-- The kinds of diagnostics. -/
inductive Code where
  | lexError | unexpectedToken | expectedTerminator | unexpectedEof | expectedToken
  | nestingTooDeep | invalidAssignmentTarget | invalidStatementExpression | assignmentArity
  | emptyStatement
deriving DecidableEq, Repr

namespace Code

/-- Every code. -/
def all : List Code :=
  [.lexError, .unexpectedToken, .expectedTerminator, .unexpectedEof, .expectedToken,
   .nestingTooDeep, .invalidAssignmentTarget, .invalidStatementExpression, .assignmentArity,
   .emptyStatement]

/-- The name of a code. -/
def name : Code → String
  | .lexError => "LEX_ERROR"
  | .unexpectedToken => "UNEXPECTED_TOKEN"
  | .expectedTerminator => "EXPECTED_TERMINATOR"
  | .unexpectedEof => "UNEXPECTED_EOF"
  | .expectedToken => "EXPECTED_TOKEN"
  | .nestingTooDeep => "NESTING_TOO_DEEP"
  | .invalidAssignmentTarget => "INVALID_ASSIGNMENT_TARGET"
  | .invalidStatementExpression => "INVALID_STATEMENT_EXPRESSION"
  | .assignmentArity => "ASSIGNMENT_ARITY"
  | .emptyStatement => "EMPTY_STATEMENT"

/-- The code as it is printed. -/
def label : Code → String
  | .lexError => "KS0001"
  | .unexpectedToken => "KS1001"
  | .expectedTerminator => "KS1002"
  | .unexpectedEof => "KS1003"
  | .expectedToken => "KS1004"
  | .nestingTooDeep => "KS1005"
  | .invalidAssignmentTarget => "KS1010"
  | .invalidStatementExpression => "KS1011"
  | .assignmentArity => "KS1012"
  | .emptyStatement => "KS2001"

end Code

/-- How grave a diagnostic is. -/
inductive Severity where
  | warning | error | fatal
deriving DecidableEq, Repr

namespace Severity

/-- Every severity. -/
def all : List Severity := [.warning, .error, .fatal]

/-- The name of a severity. -/
def name : Severity → String
  | .warning => "WARNING"
  | .error => "ERROR"
  | .fatal => "FATAL"

/-- The severity as it is printed. -/
def label : Severity → String
  | .warning => "warning"
  | .error => "error"
  | .fatal => "fatal"

end Severity

/-- One report. -/
structure Diagnostic where
  code : Code
  message : String
  line : Int
  column : Int
  severity : Severity
deriving DecidableEq, Repr

namespace Diagnostic

/-- A diagnostic at a token, or without a place. -/
def at? (code : Code) (message : String) (token : Option Token) (severity : Severity) :
    Diagnostic :=
  match token with
  | some t => ⟨code, message, t.line, t.column, severity⟩
  | none => ⟨code, message, 0, 0, severity⟩

/-- The diagnostic as it is printed. -/
def text (d : Diagnostic) : String :=
  s!"{d.severity.label} {d.code.label} ({d.line}:{d.column}): {d.message}"

/-- Does the diagnostic only warn? -/
def isWarning (d : Diagnostic) : Bool := d.severity == .warning

end Diagnostic

/-- The fatal diagnostic of a lexical fault. -/
def LexError.diagnostic (e : LexError) : Diagnostic :=
  ⟨.lexError, e.fault.message, e.line, e.column, .fatal⟩

/-! ### Parse errors -/

/-- What a rule asks for at a place. -/
inductive Wanted where
  | kind (k : Kind)
  | closer (k : Kind)
  | variableName
  | functionName
  | parameterName
  | whileAfterBody
  | loopVariable
  | inAfterVariable
  | exceptionType
  | receiverArguments
  | conditionalColon
  | memberName (after : String)
  | indexExpression
  | typeName (after : String)
  | typeArguments
  | assignAfterTargets
deriving DecidableEq, Repr

/-- What was wanted, and what was found instead if the message tells it. -/
def Wanted.message (found : Token) : Wanted → String
  | .kind k => s!"Expected {k.name}, got {found.kind.name}"
  | .closer k => s!"Expected '{k.spelling}', found {found.found}"
  | .variableName => "Expected variable name"
  | .functionName => "Expected function name"
  | .parameterName => "Expected parameter name"
  | .whileAfterBody => "Expected 'while' after do body"
  | .loopVariable => "Expected loop variable"
  | .inAfterVariable => "Expected 'in' after loop variable"
  | .exceptionType => "Expected exception type"
  | .receiverArguments => "Expected '(' after constructor receiver"
  | .conditionalColon => "Expected ':' in conditional expression"
  | .memberName after => s!"Expected member name after '{after}'"
  | .indexExpression => "Expected index expression"
  | .typeName after => s!"Expected type name after '{after}'"
  | .typeArguments => "Expected '(' after type name"
  | .assignAfterTargets => "Expected '=' after assignment targets"

/-- Why an input does not follow the grammar. -/
inductive ParseFault where
  | unexpectedToken
  | unexpectedEnd
  | missingTerminator
  | wanted (w : Wanted)
  | constantWithoutValue
  | tryWithoutHandler
  | strayForwarding (receiver : String)
  | nestedTooDeeply
  | other (code : Code) (message : String)
deriving DecidableEq, Repr

/-- The code of a fault. -/
def ParseFault.code : ParseFault → Code
  | .unexpectedToken | .strayForwarding _ => .unexpectedToken
  | .unexpectedEnd => .unexpectedEof
  | .missingTerminator => .expectedTerminator
  | .wanted _ | .constantWithoutValue | .tryWithoutHandler => .expectedToken
  | .nestedTooDeeply => .nestingTooDeep
  | .other code _ => code

/-- The text of a fault at a token. -/
def ParseFault.message (token : Token) : ParseFault → String
  | .unexpectedToken => s!"Unexpected token '{token.lexeme}'"
  | .unexpectedEnd => "Unexpected end of input"
  | .missingTerminator => s!"Expected ';' to end the statement, found {token.found}"
  | .wanted w => w.message token
  | .constantWithoutValue => s!"Constant '{token.lexeme}' requires an initializer"
  | .tryWithoutHandler => "try requires a catch or finally clause"
  | .strayForwarding receiver =>
    s!"Constructor forwarding 'new {receiver}' is only valid as a statement"
  | .nestedTooDeeply => "Input is nested too deeply to parse"
  | .other _ message => message

/-- A fault and the token that it concerns. -/
structure ParseError where
  fault : ParseFault
  token : Option Token
deriving DecidableEq, Repr

namespace ParseError

/-- The code of the error. -/
def code (e : ParseError) : Code := e.fault.code

/-- The text of the error. -/
def message (e : ParseError) : String := e.fault.message (e.token.getD (.atEnd 0 0))

/-- The text with its place, if it has one. -/
def text (e : ParseError) : String :=
  match e.token with
  | some t => s!"{e.message} at line {t.line}, col {t.column}"
  | none => e.message

/-- The line of the error, zero without a place. -/
def line (e : ParseError) : Int := e.token.elim 0 (·.line)

/-- The column of the error, zero without a place. -/
def column (e : ParseError) : Int := e.token.elim 0 (·.column)

/-- The fatal diagnostic of the error. -/
def diagnostic (e : ParseError) : Diagnostic := .at? e.code e.message e.token .fatal

end ParseError

/-- What ends the reading of an input: a lexical fault, a parse error, or a call for which the stack
has no level left. -/
inductive Failure where
  | lex (e : LexError)
  | parse (e : ParseError)
  | exhausted
deriving DecidableEq, Repr

namespace Failure

/-- The text of the failure with its place. -/
def text : Failure → String
  | .lex e => e.text
  | .parse e => e.text
  | .exhausted => "maximum recursion depth exceeded"

/-- The fatal diagnostic of the failure, if it is one of the input. -/
def diagnostic? : Failure → Option Diagnostic
  | .lex e => some e.diagnostic
  | .parse e => some e.diagnostic
  | .exhausted => none

end Failure

end CommandShell
