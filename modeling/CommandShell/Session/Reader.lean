import CommandShell.Command.Reading

/-! # Readers: what a session hands its buffers to

A session shows the commands of a buffer as they are read. A command is printed label by label down
its tree, so that a tree which is deeper than the levels that are left is not printed: the buffer
ends before the command, whatever stands behind it. -/

namespace CommandShell

/-- What a session hands its buffers to. -/
abbrev Reader := String → Buffer

/-- Is the item shown with some levels left? A diagnostic always is. -/
def Item.fits (levels : Nat) : Item → Bool
  | .diagnostic _ => true
  | .command c => c.tree.depth ≤ levels

/-- A buffer as far as it is shown with some levels left. -/
def Buffer.shownWithin (levels : Nat) (b : Buffer) : Buffer :=
  if b.items.all (·.fits levels) then b else ⟨b.items.takeWhile (·.fits levels), some .exhausted⟩

/-- The reader that reads and shows a buffer with some levels. -/
def Reader.within (levels : Nat) : Reader := fun source =>
  (Buffer.ofTokens levels (Stream.ofText source).tokens).shownWithin levels

/-- The reader of the shell. -/
def Reader.standard : Reader := .within Grammar.nestingLimit

end CommandShell
