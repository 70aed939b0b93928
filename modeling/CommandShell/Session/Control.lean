import CommandShell.Text.Blank

/-! # Controls: lines that steer the shell

A control is typed as a line of its own, under its name or an alias. Invisible characters do not
count, and neither do blanks around the line. -/

namespace CommandShell

/-- Is the character dropped from every line? -/
def isInvisible (c : Char) : Bool :=
  c.toNat == 0x200b || c.toNat == 0x200c || c.toNat == 0x200d || c.toNat == 0xfeff ||
  c.toNat == 0xa0 || c.toNat == 0x0d

/-- A line without its invisible characters. -/
def dropInvisible (line : String) : String :=
  String.ofList (line.toList.filter fun c => !isInvisible c)

/-- The controls. -/
inductive Control where
  | multiline | clear | status | traceback | help | quit
deriving DecidableEq, Repr

namespace Control

/-- Every control, in the order of the help text. -/
def all : List Control := [.multiline, .clear, .status, .traceback, .help, .quit]

/-- The name of a control. -/
def name : Control → String
  | .multiline => "/multiline"
  | .clear => "/clear"
  | .status => "/status"
  | .traceback => "/py-traceback"
  | .help => "/help"
  | .quit => "/quit"

/-- What a control does. -/
def description : Control → String
  | .multiline => "Toggle between single-line and multi-line input"
  | .clear => "Clear the terminal screen"
  | .status => "Show input mode and diagnostic counts"
  | .traceback => "Toggle Python traceback on errors"
  | .help => "List shell commands"
  | .quit => "Leave the shell"

/-- The short names of a control. -/
def aliases : Control → List String
  | .multiline => ["/ml"]
  | .clear => ["/cls"]
  | .status => ["/st"]
  | .traceback => []
  | .help => ["/h", "/?"]
  | .quit => ["/q", "/exit"]

/-- All names of a control. -/
def names (c : Control) : List String := c.name :: c.aliases

/-- The control that a line is, if any. -/
def ofLine? (line : String) : Option Control :=
  let word := Text.trim line
  all.find? fun c => c.names.contains word

/-- A text filled up with blanks to a width. -/
def padTo (width : Nat) (s : String) : String :=
  s ++ String.ofList (List.replicate (width - s.length) ' ')

/-- The line of the help text about a control. -/
def helpLine (c : Control) : String :=
  padTo 24 (String.intercalate ", " c.names) ++ " " ++ c.description

end Control

end CommandShell
