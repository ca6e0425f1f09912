/-! # Tables of character ranges

A property of characters given as increasing, disjoint ranges of code points, looked up by
halving the table.
-/

namespace SoyTree.Text

/-- Increasing, disjoint ranges of code points, both ends included. -/
abbrev Ranges := Array (Nat × Nat)

namespace Ranges

/-- Looks for a range that holds `code` among those from `low` to below `high`. -/
def search (table : Ranges) (code : Nat) : (steps : Nat) → (low high : Nat) → Bool
  | 0, _, _ => false
  | steps + 1, low, high =>
    if high ≤ low then false
    else
      let middle := (low + high) / 2
      let range := table.getD middle (1, 0)
      if code < range.1 then search table code steps low middle
      else if range.2 < code then search table code steps (middle + 1) high
      else true

def holds (table : Ranges) (c : Char) : Bool :=
  search table c.toNat (table.size + 1) 0 table.size

end Ranges

end SoyTree.Text
