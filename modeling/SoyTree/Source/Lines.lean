import SoyTree.Source.Position

/-! # Line table

The offsets at which lines start, in a table that turns a character offset into a position by
halving the range of candidate lines.
-/

namespace SoyTree

/-- Where each line of a source starts, and how long the source is. -/
structure Lines where
  starts : Array Nat
  length : Nat
  deriving Repr

namespace Lines

/-- Offsets right after each line break of a text that starts at `index`. -/
def breaks (index : Nat) : List Char → List Nat
  | [] => []
  | c :: rest => if c = '\n' then (index + 1) :: breaks (index + 1) rest else breaks (index + 1) rest

def ofChars (text : List Char) : Lines :=
  ⟨(0 :: breaks 0 text).toArray, text.length⟩

def ofString (source : String) : Lines :=
  ofChars source.toList

def count (l : Lines) : Nat :=
  l.starts.size

def isEmpty (l : Lines) : Bool :=
  l.length == 0

def startOf (l : Lines) (line : Nat) : Nat :=
  l.starts.getD line 0

/-- Halves the lines from `low` to below `high` until one is left: the last one that starts at
`offset` or before. -/
def search (l : Lines) (offset : Nat) : (steps : Nat) → (low high : Nat) → Nat
  | 0, low, _ => low
  | steps + 1, low, high =>
    if high ≤ low + 1 then low
    else
      let middle := (low + high) / 2
      if l.startOf middle ≤ offset then l.search offset steps middle high
      else l.search offset steps low middle

def lineOf (l : Lines) (offset : Nat) : Nat :=
  l.search offset l.count 0 l.count

/-- The position of an offset; offsets past the end stand for the end. -/
def position (l : Lines) (offset : Nat) : Position :=
  let index := min offset l.length
  let line := l.lineOf index
  ⟨line, index - l.startOf line, index⟩

/-- The mark from `start` to `stop`, empty if `stop` comes first. -/
def mark (l : Lines) (start stop : Nat) : Mark :=
  ⟨l.position start, l.position (max stop start)⟩

end Lines

end SoyTree
