import SoyTree.Json.Read

/-! # Options

The settings of a parse, and their JSON form: an object with the key `max_depth`, or a list of at
most one number. What is missing takes its default; other keys do not matter.
-/

namespace SoyTree

structure Options where
  /-- The deepest nesting of blocks and brackets that is accepted. -/
  maxDepth : Nat := 32
  deriving DecidableEq, Repr

namespace Options

/-- A key may be given once. -/
def ofJson? : Json → Option Options
  | .object members =>
    match members.filter (·.1 == "max_depth") with
    | [] => some {}
    | [(_, value)] => value.toNat?.map (⟨·⟩)
    | _ => none
  | .array [] => some {}
  | .array [value] => value.toNat?.map (⟨·⟩)
  | _ => none

def read? (text : String) : Option Options := do
  ofJson? (← Json.read? text)

end Options

end SoyTree
