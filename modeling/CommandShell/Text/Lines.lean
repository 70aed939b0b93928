/-! # Lines: cutting a text at its line ends

A line ends at a line feed, a carriage return (with the line feed after it, if there is one) or one
of the other separators of lines and records. A text that ends in a separator has no empty last
line. -/

namespace CommandShell.Text

/-- Does the character end a line? -/
def isLineEnd (c : Char) : Bool :=
  (10 ≤ c.toNat && c.toNat ≤ 13) || (0x1c ≤ c.toNat && c.toNat ≤ 0x1e) || c.toNat == 0x85 ||
  c.toNat == 0x2028 || c.toNat == 0x2029

/-- The lines of a text whose first line begins with the characters of `begun`, latest first. -/
def linesFrom (begun : List Char) : List Char → List (List Char)
  | [] => if begun.isEmpty then [] else [begun.reverse]
  | '\r' :: '\n' :: rest => begun.reverse :: linesFrom [] rest
  | c :: rest =>
    if isLineEnd c then begun.reverse :: linesFrom [] rest else linesFrom (c :: begun) rest

/-- The lines of a text, without their ends. -/
def lines (s : String) : List String := (linesFrom [] s.toList).map String.ofList

/-- The lines of one text, separated by line feeds. -/
def unlines (ls : List String) : String :=
  String.ofList (['\n'].intercalate (ls.map String.toList))

/-- A text with each carriage return, and each pair of carriage return and line feed, made one line
feed. -/
def plainLineEnds : List Char → List Char
  | [] => []
  | '\r' :: '\n' :: rest => '\n' :: plainLineEnds rest
  | c :: rest => (if c = '\r' then '\n' else c) :: plainLineEnds rest

end CommandShell.Text
