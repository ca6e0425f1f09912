/-! # Positions and marks

A position counts lines, columns and characters from zero. A mark is the stretch of source
between two positions, its end excluded.
-/

namespace SoyTree

/-- A place in the source; `index` counts characters from its start. -/
structure Position where
  line : Nat
  column : Nat
  index : Nat
  deriving DecidableEq, Repr, Inhabited

namespace Position

def origin : Position := ⟨0, 0, 0⟩

/-- The position right after the character `c` that stands at `p`. -/
def next (p : Position) (c : Char) : Position :=
  if c = '\n' then ⟨p.line + 1, 0, p.index + 1⟩ else ⟨p.line, p.column + 1, p.index + 1⟩

/-- The position right after a text that starts at `p`. -/
def after (p : Position) (text : List Char) : Position :=
  text.foldl next p

@[simp] theorem after_nil (p : Position) : p.after [] = p := rfl

@[simp] theorem after_cons (p : Position) (c : Char) (text : List Char) :
    p.after (c :: text) = (p.next c).after text := rfl

@[simp] theorem after_append (p : Position) (a b : List Char) :
    p.after (a ++ b) = (p.after a).after b := by
  simp [after, List.foldl_append]

@[simp] theorem index_next (p : Position) (c : Char) : (p.next c).index = p.index + 1 := by
  unfold next
  split <;> rfl

@[simp] theorem index_after (p : Position) (text : List Char) :
    (p.after text).index = p.index + text.length := by
  induction text generalizing p with
  | nil => rfl
  | cons c text ih => simp only [after_cons, ih, index_next, List.length_cons]; omega

def display (p : Position) : String :=
  toString p.line ++ ":" ++ toString p.column

end Position

/-- The stretch of source that a node was read from. -/
structure Mark where
  start : Position
  stop : Position
  deriving DecidableEq, Repr, Inhabited

namespace Mark

/-- Number of characters covered. -/
def length (m : Mark) : Nat :=
  m.stop.index - m.start.index

def isEmpty (m : Mark) : Bool :=
  m.length == 0

/-- Whether `inner` lies within `m`. -/
def encloses (m inner : Mark) : Bool :=
  decide (m.start.index ≤ inner.start.index ∧ inner.stop.index ≤ m.stop.index)

/-- The marked part of a text; what lies past its end is left out. -/
def sliceChars (m : Mark) (text : List Char) : List Char :=
  (text.drop m.start.index).take m.length

def slice (m : Mark) (source : String) : String :=
  String.ofList (m.sliceChars source.toList)

def display (m : Mark) : String :=
  m.start.display ++ ".." ++ m.stop.display

end Mark

end SoyTree
