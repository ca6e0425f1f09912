import SoyTree.Number.Shortest

/-! # Written numbers

The layout of a decimal: positional or with an exponent, as a layout record decides.
-/

namespace SoyTree.Number

structure Layout where
  /-- Where exact ties between two shortest decimals go. -/
  tie : Tie
  /-- The orders of magnitude that are written with an exponent. The order of a number is the place
  of its first digit, 1 for the units. -/
  exponential : Int → Bool
  /-- What follows a whole number written positionally. -/
  whole : String
  /-- The sign of an exponent that is not negative. -/
  exponentSign : String
  infinity : String
  negativeInfinity : String

namespace Layout

def zeros (n : Nat) : String :=
  String.ofList (List.replicate n '0')

/-- `digits * 10 ^ exponent` without an exponent mark. -/
def positional (whole digits : String) (exponent : Int) : String :=
  if 0 ≤ exponent then digits ++ zeros exponent.toNat ++ whole
  else
    let places := (-exponent).toNat
    let count := digits.length
    if places < count then
      String.ofList (digits.toList.take (count - places)) ++ "." ++
        String.ofList (digits.toList.drop (count - places))
    else "0." ++ zeros (places - count) ++ digits

/-- One digit, the others after the point, and the exponent. -/
def scientific (sign digits : String) (exponent : Int) : String :=
  let order := exponent + digits.length - 1
  let mantissa := match digits.toList with
    | [] => ""
    | [c] => String.singleton c
    | c :: rest => String.singleton c ++ "." ++ String.ofList rest
  mantissa ++ "e" ++ (if 0 ≤ order then sign ++ toString order.toNat else "-" ++ toString (-order).toNat)

def writeDecimal (layout : Layout) (d : Decimal) : String :=
  let digits := toString d.coefficient
  if d.coefficient ≠ 0 && layout.exponential (d.exponent + digits.length) then
    scientific layout.exponentSign digits d.exponent
  else positional layout.whole digits d.exponent

def write (layout : Layout) (x : Binary64) : String :=
  match x.magnitude with
  | .infinite => if x.negative then layout.negativeInfinity else layout.infinity
  | .finite mantissa exponent =>
    (if x.negative then "-" else "") ++
      layout.writeDecimal (shortest layout.tie mantissa exponent)

end Layout

end SoyTree.Number
