import CommandShell.Command.Basic
import CommandShell.Text.Quoted

/-! # Printable things: what a printer accepts

A printer is handed commands. A bare tree is none, whatever its label, and is refused. -/

namespace CommandShell

/-- What may be handed to a printer. -/
inductive Printable where
  | command (c : Command)
  | bareTree (label : String)

/-- The tree to print, or the text of the refusal. -/
def Printable.tree? : Printable → Except String Tree
  | .command c => .ok c.tree
  | .bareTree label => .error s!"not a command node: Tree({Text.quoted label}, [])"

end CommandShell
