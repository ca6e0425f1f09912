/-! # Binary64 numbers

Numbers with a 53 bit mantissa and an exponent of at least -1074, and the reading of decimal
text as the nearest of them, a half going to the even neighbour. All arithmetic is exact.
-/

namespace SoyTree.Number

/-- A number without its sign: `mantissa * 2 ^ exponent`, or beyond all of these. -/
inductive Magnitude where
  | finite (mantissa : Nat) (exponent : Int)
  | infinite
  deriving DecidableEq, Repr

/-- A signed binary64 number; zero has both signs. -/
structure Binary64 where
  negative : Bool
  magnitude : Magnitude
  deriving DecidableEq, Repr

def leastExponent : Int := -1074

def largestExponent : Int := 971

/-- Brings `num / den / 2 ^ e` into the form of a quotient. -/
def scaleBinary (num den : Nat) (e : Int) : Nat × Nat :=
  if 0 ≤ e then (num, den * Nat.pow 2 e.toNat) else (num * Nat.pow 2 (-e).toNat, den)

/-- The quotient to the nearest whole number, a half to the even neighbour. -/
def divideHalfEven (num den : Nat) : Nat :=
  let quotient := num / den
  let rest := 2 * (num % den)
  if rest < den then quotient
  else if den < rest then quotient + 1
  else if quotient % 2 = 0 then quotient else quotient + 1

/-- The `k` with `2 ^ k ≤ num / den < 2 ^ (k + 1)`. -/
def binaryOrder (num den : Nat) : Int :=
  let guess : Int := (num.log2 : Int) - den.log2
  let (n, d) := scaleBinary num den guess
  if d ≤ n then guess else guess - 1

/-- The binary64 number nearest to `num / den`. -/
def Magnitude.ofQuotient (num den : Nat) : Magnitude :=
  if num = 0 then .finite 0 leastExponent
  else
    let e := max (binaryOrder num den - 52) leastExponent
    let (n, d) := scaleBinary num den e
    let m := divideHalfEven n d
    let (m, e) := if m = Nat.pow 2 53 then (Nat.pow 2 52, e + 1) else (m, e)
    if largestExponent < e then .infinite else .finite m e

def ofDigits (digits : List Char) : Nat :=
  digits.foldl (fun n c => 10 * n + (c.toNat - '0'.toNat)) 0

/-- Reads digits with at most one point among them; one digit is needed. -/
def Magnitude.read? (text : List Char) : Option Magnitude :=
  let whole := text.takeWhile Char.isDigit
  match text.dropWhile Char.isDigit with
  | [] => if whole.isEmpty then none else some (ofQuotient (ofDigits whole) 1)
  | c :: places =>
    if c = '.' && places.all Char.isDigit && !(whole.isEmpty && places.isEmpty) then
      some (ofQuotient (ofDigits (whole ++ places)) (Nat.pow 10 places.length))
    else none

/-- Reads a number with an optional sign. -/
def Binary64.read? : List Char → Option Binary64
  | '-' :: text => (Magnitude.read? text).map (⟨true, ·⟩)
  | '+' :: text => (Magnitude.read? text).map (⟨false, ·⟩)
  | text => (Magnitude.read? text).map (⟨false, ·⟩)

end SoyTree.Number
