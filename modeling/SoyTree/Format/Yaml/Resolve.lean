import SoyTree.Number.Binary64

/-! # Plain scalars that are no text

Which texts a YAML reader would take for null, a truth value or a number if they stood without
quotes.
-/

namespace SoyTree.Yaml

def nullWords : List String := ["null", "Null", "NULL", "~"]

def boolWords : List String := ["true", "True", "TRUE", "false", "False", "FALSE"]

def specialNumbers : List String :=
  [".inf", ".Inf", ".INF", "+.inf", "+.Inf", "+.INF", "-.inf", "-.Inf", "-.INF", ".nan", ".NaN",
    ".NAN"]

def digitValue? (radix : Nat) (c : Char) : Option Nat :=
  let value :=
    if c.isDigit then some (c.toNat - '0'.toNat)
    else if 'a' ≤ c ∧ c ≤ 'f' then some (c.toNat - 'a'.toNat + 10)
    else if 'A' ≤ c ∧ c ≤ 'F' then some (c.toNat - 'A'.toNat + 10)
    else none
  value.filter (· < radix)

/-- The number written by digits of a radix; at least one is needed. -/
def ofRadix? (radix : Nat) (digits : List Char) : Option Nat :=
  if digits.isEmpty then none
  else digits.foldl (fun n c => do return radix * (← n) + (← digitValue? radix c)) (some 0)

/-- The digits behind a radix mark, as a number. -/
def marked? : List Char → Option Nat
  | '0' :: 'x' :: digits => ofRadix? 16 digits
  | '0' :: 'o' :: digits => ofRadix? 8 digits
  | '0' :: 'b' :: digits => ofRadix? 2 digits
  | _ => none

/-- Integers with a radix mark have 128 bits, with or without a sign. -/
def isMarkedInteger : List Char → Bool
  | '-' :: rest => (marked? rest).any (· ≤ Nat.pow 2 127)
  | '+' :: rest => (marked? rest).any (· < Nat.pow 2 128)
  | text => (marked? text).any (· < Nat.pow 2 128)

def dropSign : List Char → List Char
  | '-' :: rest => rest
  | '+' :: rest => rest
  | text => text

def hasLeadingZero (text : List Char) : Bool :=
  match dropSign text with
  | '0' :: c :: rest => (c :: rest).all Char.isDigit
  | _ => false

/-- The exponent of a decimal number: its value, zero if it is missing. -/
def exponent? : List Char → Option Int
  | [] => some 0
  | c :: rest =>
    let digits := dropSign rest
    if (c = 'e' ∨ c = 'E') ∧ digits.all Char.isDigit ∧ ¬ digits.isEmpty then
      some (if rest.head? = some '-' then - (Number.ofDigits digits : Int) else Number.ofDigits digits)
    else none

/-- Whether `coefficient * 10 ^ exponent` is below all bounds of a binary64 number. The exact
test is needed only close to the bound. -/
def isBounded (coefficient : Nat) (exponent : Int) : Bool :=
  let order : Int := (Nat.toDigits 10 coefficient).length + exponent
  if coefficient = 0 ∨ order < 300 then true
  else if 320 < order then false
  else
    let magnitude :=
      if 0 ≤ exponent then Number.Magnitude.ofQuotient (coefficient * Nat.pow 10 exponent.toNat) 1
      else Number.Magnitude.ofQuotient coefficient (Nat.pow 10 (-exponent).toNat)
    magnitude != .infinite

/-- A decimal number with optional sign, point and exponent that a binary64 number can hold. -/
def isDecimal (text : List Char) : Bool :=
  let body := dropSign text
  let whole := body.takeWhile Char.isDigit
  let behind := body.dropWhile Char.isDigit
  let (places, behind) := match behind with
    | '.' :: rest => (rest.takeWhile Char.isDigit, rest.dropWhile Char.isDigit)
    | rest => ([], rest)
  match exponent? behind with
  | none => false
  | some e =>
    !(whole.isEmpty && places.isEmpty) &&
      isBounded (Number.ofDigits (whole ++ places)) (e - places.length)

/-- Whether a text would not be read back as text without quotes. -/
def isOtherThanText (text : String) : Bool :=
  let chars := text.toList
  chars.isEmpty || nullWords.contains text || boolWords.contains text ||
    specialNumbers.contains text || isMarkedInteger chars || hasLeadingZero chars || isDecimal chars

end SoyTree.Yaml
