import SoyTree.Number.Binary64

/-! # Shortest decimals

The decimal with the fewest digits that reads back as a given binary64 number, and of those the
nearest one. Candidates on each decimal grid are the two neighbours of the number; a candidate
reads back if it lies between the midpoints to the next binary64 numbers.
-/

namespace SoyTree.Number

/-- The decimal number `coefficient * 10 ^ exponent`. -/
structure Decimal where
  coefficient : Nat
  exponent : Int
  deriving DecidableEq, Repr

/-- Where a decimal goes that lies exactly between two candidates. -/
inductive Tie where
  | toEven
  | up
  deriving DecidableEq, Repr

def digitCount (n : Nat) : Nat :=
  (Nat.toDigits 10 n).length

/-- Brings `num / den / 10 ^ e` into the form of a quotient. -/
def scaleDecimal (num den : Nat) (e : Int) : Nat × Nat :=
  if 0 ≤ e then (num, den * Nat.pow 10 e.toNat) else (num * Nat.pow 10 (-e).toNat, den)

/-- The `k` with `10 ^ (k - 1) ≤ num / den < 10 ^ k`. -/
def decimalOrder (num den : Nat) : Int :=
  let guess : Int := (digitCount num : Int) - digitCount den
  let (n, d) := scaleDecimal num den guess
  if d ≤ n then guess + 1 else guess

/-- The neighbour of `mantissa * 2 ^ exponent` on the grid of multiples of `10 ^ k` that reads
back, if there is one; of two the nearer. Lengths are measured in quarters of the last binary
place, because the gap below a power of two is half the gap above it. -/
def gridNeighbour? (tie : Tie) (mantissa : Nat) (exponent k : Int) : Option Nat :=
  let below := if mantissa = Nat.pow 2 52 ∧ leastExponent < exponent then 1 else 2
  let (unit, grid) := scaleBinary 1 1 (2 - exponent)
  let (unit, grid) := scaleDecimal unit grid k
  let value := 4 * mantissa * unit
  let lower := value / grid
  let lowest := (4 * mantissa - below) * unit
  let highest := (4 * mantissa + 2) * unit
  let inclusive := mantissa % 2 = 0
  let lowerFits := if inclusive then lowest ≤ lower * grid else lowest < lower * grid
  let upperFits :=
    if inclusive then (lower + 1) * grid ≤ highest else (lower + 1) * grid < highest
  if lowerFits then
    if upperFits then
      let rest := 2 * (value % grid)
      if rest < grid then some lower
      else if grid < rest then some (lower + 1)
      else if tie = .toEven ∧ lower % 2 = 0 then some lower
      else some (lower + 1)
    else some lower
  else if upperFits then some (lower + 1)
  else none

/-- Tries `count` grids, each ten times finer than the one before, starting with `10 ^ k`. -/
def firstNeighbour (tie : Tie) (mantissa : Nat) (exponent : Int) : (count : Nat) → Int → Decimal
  | 0, k => ⟨0, k⟩
  | count + 1, k =>
    match gridNeighbour? tie mantissa exponent k with
    | some coefficient => ⟨coefficient, k⟩
    | none => firstNeighbour tie mantissa exponent count (k - 1)

/-- Moves the zeros at the end of a coefficient into the exponent. -/
def Decimal.normalize : (steps : Nat) → Decimal → Decimal
  | 0, d => d
  | steps + 1, d =>
    if d.coefficient ≠ 0 ∧ d.coefficient % 10 = 0 then
      normalize steps ⟨d.coefficient / 10, d.exponent + 1⟩
    else d

/-- The shortest decimal that reads back as `mantissa * 2 ^ exponent`. Seventeen digits always
suffice. -/
def shortest (tie : Tie) (mantissa : Nat) (exponent : Int) : Decimal :=
  if mantissa = 0 then ⟨0, 0⟩
  else
    let (num, den) := scaleBinary mantissa 1 (-exponent)
    let found := firstNeighbour tie mantissa exponent 17 (decimalOrder num den - 1)
    found.normalize (digitCount found.coefficient)

end SoyTree.Number
