/-! # Ranges: sets of characters given by their code points

A property of characters is tabled as the increasing list of the closed ranges of code points that
have it. -/

namespace CommandShell.Text

/-- A set of code points, as closed ranges. -/
abbrev Ranges := List (Nat × Nat)

/-- Does some range hold the character? -/
def Ranges.holds (ranges : Ranges) (c : Char) : Bool :=
  ranges.any fun range => range.1 ≤ c.toNat && c.toNat ≤ range.2

/-- The characters of the first block, on which every property is decided without a table. -/
def isBasic (c : Char) : Bool := c.toNat < 128

end CommandShell.Text
