import SoyTree.Format.Data

/-! # The JSON format

Data as JSON. Numbers beyond all bounds have no JSON form and become null.
-/

namespace SoyTree

/-- Numbers from a hundred thousandth up to ten to the sixteenth are written positionally and
always with a point, others with a signed exponent. -/
def Json.numberLayout : Number.Layout where
  tie := .toEven
  exponential := fun order => decide (order < -4 ∨ 16 < order)
  whole := ".0"
  exponentSign := "+"
  infinity := "null"
  negativeInfinity := "null"

namespace Data

mutual

def toJson : Data → Json
  | null => .null
  | bool value => .bool value
  | nat value => .ofNat value
  | number value => .number (Json.numberLayout.write value)
  | string value => .string value
  | list items => .array (jsonItems items)
  | record fields => .object (jsonFields fields)

def jsonItems : List Data → List Json
  | [] => []
  | item :: rest => item.toJson :: jsonItems rest

def jsonFields : List (String × Data) → List (String × Json)
  | [] => []
  | (key, value) :: rest => (key, value.toJson) :: jsonFields rest

end

end Data

def Program.renderJson (p : Program) : String :=
  p.toData.toJson.pretty 0

end SoyTree
