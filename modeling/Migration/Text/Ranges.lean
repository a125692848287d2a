/-!
# Sets of code points

A property of characters is given by a table of ranges in increasing order. Each table covers the
code points from U+0080 on; what it says about ASCII is written out beside it.
-/

namespace Migration.Text

/-- A set of code points, as ranges `(first, last)` with both ends included. -/
abbrev Ranges := List (Nat × Nat)

namespace Ranges

/-- The code point of `c` lies in one of the ranges. -/
def has (table : Ranges) (c : Char) : Bool :=
  table.any fun r => r.1 ≤ c.toNat && c.toNat ≤ r.2

end Ranges

end Migration.Text
