/-! # Token kinds: the vocabulary of the language

A token is a number, a string, an identifier, one of the fixed words and signs, or the end of the
input. A fixed kind has one spelling; `keywords` and `operators` list the kinds that are recognized
by their spelling, in the order in which the spellings are tried. -/

namespace CommandShell

/-- The kinds of tokens. -/
inductive Kind where
  | number | string | ident
  | varKw | constKw | fnKw
  | ifKw | elseKw | whileKw | doKw | forKw | inKw | breakKw | continueKw | returnKw | throwKw
  | tryKw | catchKw | finallyKw
  | newKw | thisKw | baseKw
  | trueKw | falseKw | nullKw
  | plus | minus | star | slash | percent | power | tilde
  | amp | pipe | caret | shiftLeft | shiftRight
  | equal | notEqual | less | lessEqual | greater | greaterEqual
  | andAnd | orOr | bang | nullish | question
  | increment | decrement
  | assign | plusAssign | minusAssign | starAssign | slashAssign | percentAssign | powerAssign
  | ampAssign | pipeAssign | caretAssign | shiftLeftAssign | shiftRightAssign | tildeAssign
  | lparen | safeLparen | rparen | lsquare | safeLsquare | rsquare | lbrace | rbrace | dot
  | safeDot | comma | colon | semicolon
  | eof
deriving DecidableEq, Repr, Inhabited

namespace Kind

/-- Every kind, in the order of the vocabulary. -/
def all : List Kind :=
   [.number, .string, .ident, .varKw, .constKw, .fnKw, .ifKw, .elseKw, .whileKw, .doKw, .forKw,
   .inKw, .breakKw, .continueKw, .returnKw, .throwKw, .tryKw, .catchKw, .finallyKw, .newKw,
   .thisKw, .baseKw, .trueKw, .falseKw, .nullKw, .plus, .minus, .star, .slash, .percent, .power,
   .tilde, .amp, .pipe, .caret, .shiftLeft, .shiftRight, .equal, .notEqual, .less, .lessEqual,
   .greater, .greaterEqual, .andAnd, .orOr, .bang, .nullish, .question, .increment, .decrement,
   .assign, .plusAssign, .minusAssign, .starAssign, .slashAssign, .percentAssign, .powerAssign,
   .ampAssign, .pipeAssign, .caretAssign, .shiftLeftAssign, .shiftRightAssign, .tildeAssign,
   .lparen, .safeLparen, .rparen, .lsquare, .safeLsquare, .rsquare, .lbrace, .rbrace, .dot,
   .safeDot, .comma, .colon, .semicolon, .eof]

/-- The name under which a kind is reported. -/
def name : Kind → String
  | .number => "NUMBER"
  | .string => "STRING"
  | .ident => "IDENT"
  | .varKw => "VAR"
  | .constKw => "CONST"
  | .fnKw => "FN"
  | .ifKw => "IF"
  | .elseKw => "ELSE"
  | .whileKw => "WHILE"
  | .doKw => "DO"
  | .forKw => "FOR"
  | .inKw => "IN"
  | .breakKw => "BREAK"
  | .continueKw => "CONTINUE"
  | .returnKw => "RETURN"
  | .throwKw => "THROW"
  | .tryKw => "TRY"
  | .catchKw => "CATCH"
  | .finallyKw => "FINALLY"
  | .newKw => "NEW"
  | .thisKw => "THIS"
  | .baseKw => "BASE"
  | .trueKw => "TRUE"
  | .falseKw => "FALSE"
  | .nullKw => "NULL"
  | .plus => "PLUS"
  | .minus => "MINUS"
  | .star => "STAR"
  | .slash => "SLASH"
  | .percent => "MOD"
  | .power => "POW"
  | .tilde => "TILDE"
  | .amp => "AMP"
  | .pipe => "PIPE"
  | .caret => "CARET"
  | .shiftLeft => "SHL"
  | .shiftRight => "SHR"
  | .equal => "EQ"
  | .notEqual => "NEQ"
  | .less => "LT"
  | .lessEqual => "LTE"
  | .greater => "GT"
  | .greaterEqual => "GTE"
  | .andAnd => "AND"
  | .orOr => "OR"
  | .bang => "NEG"
  | .nullish => "NULLISH"
  | .question => "QMARK"
  | .increment => "INCR"
  | .decrement => "DECR"
  | .assign => "ASSIGN"
  | .plusAssign => "PLUSEQ"
  | .minusAssign => "MINUSEQ"
  | .starAssign => "STAREQ"
  | .slashAssign => "SLASHEQ"
  | .percentAssign => "MODEQ"
  | .powerAssign => "POWEQ"
  | .ampAssign => "AMPEQ"
  | .pipeAssign => "PIPEEQ"
  | .caretAssign => "CARETEQ"
  | .shiftLeftAssign => "SHLEQ"
  | .shiftRightAssign => "SHREQ"
  | .tildeAssign => "TILDEEQ"
  | .lparen => "LPAR"
  | .safeLparen => "SAFE_LPAR"
  | .rparen => "RPAR"
  | .lsquare => "LSQB"
  | .safeLsquare => "SAFE_LSQB"
  | .rsquare => "RSQB"
  | .lbrace => "LBRACE"
  | .rbrace => "RBRACE"
  | .dot => "DOT"
  | .safeDot => "SAFE_DOT"
  | .comma => "COMMA"
  | .colon => "COLON"
  | .semicolon => "SEMI"
  | .eof => "EOF"

/-- The one spelling of a fixed kind; the empty text for the kinds with many lexemes and the end. -/
def spelling : Kind → String
  | .varKw => "var"
  | .constKw => "const"
  | .fnKw => "fn"
  | .ifKw => "if"
  | .elseKw => "else"
  | .whileKw => "while"
  | .doKw => "do"
  | .forKw => "for"
  | .inKw => "in"
  | .breakKw => "break"
  | .continueKw => "continue"
  | .returnKw => "return"
  | .throwKw => "throw"
  | .tryKw => "try"
  | .catchKw => "catch"
  | .finallyKw => "finally"
  | .newKw => "new"
  | .thisKw => "this"
  | .baseKw => "base"
  | .trueKw => "true"
  | .falseKw => "false"
  | .nullKw => "null"
  | .plus => "+"
  | .minus => "-"
  | .star => "*"
  | .slash => "/"
  | .percent => "%"
  | .power => "**"
  | .tilde => "~"
  | .amp => "&"
  | .pipe => "|"
  | .caret => "^"
  | .shiftLeft => "<<"
  | .shiftRight => ">>"
  | .equal => "=="
  | .notEqual => "!="
  | .less => "<"
  | .lessEqual => "<="
  | .greater => ">"
  | .greaterEqual => ">="
  | .andAnd => "&&"
  | .orOr => "||"
  | .bang => "!"
  | .nullish => "??"
  | .question => "?"
  | .increment => "++"
  | .decrement => "--"
  | .assign => "="
  | .plusAssign => "+="
  | .minusAssign => "-="
  | .starAssign => "*="
  | .slashAssign => "/="
  | .percentAssign => "%="
  | .powerAssign => "**="
  | .ampAssign => "&="
  | .pipeAssign => "|="
  | .caretAssign => "^="
  | .shiftLeftAssign => "<<="
  | .shiftRightAssign => ">>="
  | .tildeAssign => "~="
  | .lparen => "("
  | .safeLparen => "?("
  | .rparen => ")"
  | .lsquare => "["
  | .safeLsquare => "?["
  | .rsquare => "]"
  | .lbrace => "\x7b"
  | .rbrace => "\x7d"
  | .dot => "."
  | .safeDot => "?."
  | .comma => ","
  | .colon => ":"
  | .semicolon => ";"
  | .number | .string | .ident | .eof => ""

/-- The words that are no identifiers. -/
def keywords : List Kind :=
   [.varKw, .constKw, .fnKw, .ifKw, .elseKw, .whileKw, .doKw, .forKw, .inKw, .breakKw,
   .continueKw, .returnKw, .throwKw, .tryKw, .catchKw, .finallyKw, .newKw, .thisKw, .baseKw,
   .trueKw, .falseKw, .nullKw]

/-- The signs, longer before shorter, so that the first one that matches is the longest. -/
def operators : List Kind :=
   [.powerAssign, .shiftLeftAssign, .shiftRightAssign, .power, .shiftLeft, .shiftRight, .equal,
   .notEqual, .lessEqual, .greaterEqual, .andAnd, .orOr, .nullish, .increment, .decrement,
   .plusAssign, .minusAssign, .starAssign, .slashAssign, .percentAssign, .ampAssign, .pipeAssign,
   .caretAssign, .tildeAssign, .plus, .minus, .star, .slash, .percent, .tilde, .amp, .pipe,
   .caret, .less, .greater, .bang, .question, .assign, .lparen, .rparen, .lsquare, .rsquare,
   .lbrace, .rbrace, .dot, .comma, .colon, .semicolon]

/-- The signs that reach through a value that may be absent. They are recognized only right after an
operand. -/
def safeForms : List Kind := [.safeLparen, .safeLsquare, .safeDot]

/-- May a token of the kind end an operand? -/
def endsOperand : Kind → Bool
  | .ident | .number | .string | .thisKw | .baseKw | .trueKw | .falseKw | .nullKw | .rparen
  | .rsquare => true
  | _ => false

end Kind

end CommandShell
