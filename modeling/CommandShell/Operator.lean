import CommandShell.Token.Kind

/-! # Operators: how tightly they bind and what they abbreviate

The operators of `precedence` bind to the left, the higher the tighter. A compound assignment stands
for one binary operator. -/

namespace CommandShell

/-- The binary operators that a compound assignment may stand for. -/
inductive BinaryOp where
  | add | sub | mul | div | mod | pow | bitAnd | bitOr | bitXor | shl | shr | concat
deriving DecidableEq, Repr

/-- The name under which an operator is reported. -/
def BinaryOp.name : BinaryOp → String
  | .add => "ADD"
  | .sub => "SUB"
  | .mul => "MUL"
  | .div => "DIV"
  | .mod => "MOD"
  | .pow => "POW"
  | .bitAnd => "BIT_AND"
  | .bitOr => "BIT_OR"
  | .bitXor => "BIT_XOR"
  | .shl => "SHL"
  | .shr => "SHR"
  | .concat => "CONCAT"

/-- The sign of an operator. -/
def BinaryOp.sign : BinaryOp → String
  | .add => "+"
  | .sub => "-"
  | .mul => "*"
  | .div => "/"
  | .mod => "%"
  | .pow => "**"
  | .bitAnd => "&"
  | .bitOr => "|"
  | .bitXor => "^"
  | .shl => "<<"
  | .shr => ">>"
  | .concat => "~"

namespace Kind

/-- The operator that a compound assignment stands for. -/
def compoundOp? : Kind → Option BinaryOp
  | .plusAssign => some .add
  | .minusAssign => some .sub
  | .starAssign => some .mul
  | .slashAssign => some .div
  | .percentAssign => some .mod
  | .powerAssign => some .pow
  | .ampAssign => some .bitAnd
  | .pipeAssign => some .bitOr
  | .caretAssign => some .bitXor
  | .shiftLeftAssign => some .shl
  | .shiftRightAssign => some .shr
  | .tildeAssign => some .concat
  | _ => none

/-- The compound assignments. -/
def compounds : List Kind :=
  [.plusAssign, .minusAssign, .starAssign, .slashAssign, .percentAssign, .powerAssign, .ampAssign,
   .pipeAssign, .caretAssign, .shiftLeftAssign, .shiftRightAssign, .tildeAssign]

/-- The binding power of the operators that bind to the left. -/
def precedence? : Kind → Option Nat
  | .orOr => some 1
  | .andAnd => some 2
  | .pipe => some 3
  | .caret => some 4
  | .amp => some 5
  | .equal | .notEqual => some 6
  | .less | .lessEqual | .greater | .greaterEqual => some 7
  | .shiftLeft | .shiftRight => some 8
  | .plus | .minus | .tilde => some 9
  | .star | .slash | .percent => some 10
  | _ => none

/-- The operators that bind to the left, loosest first. -/
def leftOperators : List Kind :=
  [.orOr, .andAnd, .pipe, .caret, .amp, .equal, .notEqual, .less, .lessEqual, .greater,
   .greaterEqual, .shiftLeft, .shiftRight, .plus, .minus, .tilde, .star, .slash, .percent]

end Kind

end CommandShell
