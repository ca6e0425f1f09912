import SoyTree.Json.Basic

/-! # Reading JSON

A strict reader: nothing but one value with blanks around it, numbers as the standard spells
them, no control characters in strings and no half surrogate pairs.
-/

namespace SoyTree.Json

def isSpace (c : Char) : Bool :=
  c == ' ' || c == '\t' || c == '\n' || c == '\r'

def skipSpace (text : List Char) : List Char :=
  text.dropWhile isSpace

def hexValue? (c : Char) : Option Nat :=
  if c.isDigit then some (c.toNat - '0'.toNat)
  else if 'a' ≤ c ∧ c ≤ 'f' then some (c.toNat - 'a'.toNat + 10)
  else if 'A' ≤ c ∧ c ≤ 'F' then some (c.toNat - 'A'.toNat + 10)
  else none

def readUnit? : List Char → Option (Nat × List Char)
  | a :: b :: c :: d :: rest => do
    let a ← hexValue? a
    let b ← hexValue? b
    let c ← hexValue? c
    let d ← hexValue? d
    pure (4096 * a + 256 * b + 16 * c + d, rest)
  | _ => none

/-- The digits of a code unit escape and, for a first surrogate, the second one. -/
def readCodePoint? (text : List Char) : Option (Char × List Char) := do
  let (high, rest) ← readUnit? text
  if 0xdc00 ≤ high ∧ high ≤ 0xdfff then none
  else if 0xd800 ≤ high ∧ high ≤ 0xdbff then
    match rest with
    | '\\' :: 'u' :: rest => do
      let (low, rest) ← readUnit? rest
      if 0xdc00 ≤ low ∧ low ≤ 0xdfff then
        pure (Char.ofNat (0x10000 + 1024 * (high - 0xd800) + (low - 0xdc00)), rest)
      else none
    | _ => none
  else pure (Char.ofNat high, rest)

/-- The escape behind a backslash. -/
def readEscape? : List Char → Option (Char × List Char)
  | '"' :: rest => some ('"', rest)
  | '\\' :: rest => some ('\\', rest)
  | '/' :: rest => some ('/', rest)
  | 'b' :: rest => some ('\x08', rest)
  | 'f' :: rest => some ('\x0c', rest)
  | 'n' :: rest => some ('\n', rest)
  | 'r' :: rest => some ('\r', rest)
  | 't' :: rest => some ('\t', rest)
  | 'u' :: rest => readCodePoint? rest
  | _ => none

/-- The characters of a string up to its closing quote. -/
def readChars? : (fuel : Nat) → List Char → Option (List Char × List Char)
  | 0, _ => none
  | _, [] => none
  | fuel + 1, c :: rest =>
    if c = '"' then some ([], rest)
    else if c = '\\' then do
      let (e, rest) ← readEscape? rest
      let (chars, rest) ← readChars? fuel rest
      pure (e :: chars, rest)
    else if c.toNat < 32 then none
    else do
      let (chars, rest) ← readChars? fuel rest
      pure (c :: chars, rest)

def readString? (text : List Char) : Option (String × List Char) := do
  let (chars, rest) ← readChars? (text.length + 1) text
  pure (String.ofList chars, rest)

/-- The whole part of a number: no zero in front of other digits. -/
def readWhole? (text : List Char) : Option (List Char × List Char) :=
  match text.takeWhile Char.isDigit with
  | [] => none
  | '0' :: _ :: _ => none
  | digits => some (digits, text.dropWhile Char.isDigit)

def readPlaces? : List Char → Option (List Char × List Char)
  | '.' :: rest =>
    match rest.takeWhile Char.isDigit with
    | [] => none
    | digits => some ('.' :: digits, rest.dropWhile Char.isDigit)
  | rest => some ([], rest)

def splitSign : List Char → List Char × List Char
  | '+' :: rest => (['+'], rest)
  | '-' :: rest => (['-'], rest)
  | rest => ([], rest)

def readExponent? : List Char → Option (List Char × List Char)
  | [] => some ([], [])
  | c :: rest =>
    if c = 'e' ∨ c = 'E' then
      let (sign, digits) := splitSign rest
      match digits.takeWhile Char.isDigit with
      | [] => none
      | exponent => some (c :: sign ++ exponent, digits.dropWhile Char.isDigit)
    else some ([], c :: rest)

def readNumber? (text : List Char) : Option (Json × List Char) := do
  let (sign, text) := match text with
    | '-' :: rest => (['-'], rest)
    | rest => ([], rest)
  let (whole, text) ← readWhole? text
  let (places, text) ← readPlaces? text
  let (exponent, text) ← readExponent? text
  pure (.number (String.ofList (sign ++ whole ++ places ++ exponent)), text)

mutual

/-- A value at the front of a text without blanks in front. -/
def readValue? : (fuel : Nat) → List Char → Option (Json × List Char)
  | 0, _ => none
  | fuel + 1, text =>
    match text with
    | 'n' :: 'u' :: 'l' :: 'l' :: rest => some (.null, rest)
    | 't' :: 'r' :: 'u' :: 'e' :: rest => some (.bool true, rest)
    | 'f' :: 'a' :: 'l' :: 's' :: 'e' :: rest => some (.bool false, rest)
    | '"' :: rest => do
      let (value, rest) ← readString? rest
      pure (.string value, rest)
    | '[' :: rest =>
      match skipSpace rest with
      | ']' :: rest => some (.array [], rest)
      | rest => do
        let (items, rest) ← readItems? fuel rest
        pure (.array items, rest)
    | '\x7b' :: rest =>
      match skipSpace rest with
      | '\x7d' :: rest => some (.object [], rest)
      | rest => do
        let (members, rest) ← readMembers? fuel rest
        pure (.object members, rest)
    | text => readNumber? text

/-- The items of an array that holds at least one more, and its closing bracket. -/
def readItems? : (fuel : Nat) → List Char → Option (List Json × List Char)
  | 0, _ => none
  | fuel + 1, text => do
    let (item, rest) ← readValue? fuel text
    match skipSpace rest with
    | ']' :: rest => pure ([item], rest)
    | ',' :: rest => do
      let (items, rest) ← readItems? fuel (skipSpace rest)
      pure (item :: items, rest)
    | _ => none

/-- The members of an object that holds at least one more, and its closing brace. -/
def readMembers? : (fuel : Nat) → List Char → Option (List (String × Json) × List Char)
  | 0, _ => none
  | fuel + 1, text =>
    match text with
    | '"' :: rest => do
      let (key, rest) ← readString? rest
      match skipSpace rest with
      | ':' :: rest => do
        let (value, rest) ← readValue? fuel (skipSpace rest)
        match skipSpace rest with
        | '\x7d' :: rest => pure ([(key, value)], rest)
        | ',' :: rest => do
          let (members, rest) ← readMembers? fuel (skipSpace rest)
          pure ((key, value) :: members, rest)
        | _ => none
      | _ => none
    | _ => none

end

def read? (text : String) : Option Json := do
  let chars := skipSpace text.toList
  let (value, rest) ← readValue? (chars.length + 1) chars
  if (skipSpace rest).isEmpty then pure value else none

/-- The natural number below `2 ^ 64` that a value is: digits only, no sign and no point. -/
def toNat? : Json → Option Nat
  | .number text =>
    let digits := text.toList
    if digits.all Char.isDigit && !digits.isEmpty then
      let n := digits.foldl (fun n c => 10 * n + (c.toNat - '0'.toNat)) 0
      if n < Nat.pow 2 64 then some n else none
    else none
  | _ => none

def toString? : Json → Option String
  | .string value => some value
  | _ => none

def toBool? : Json → Option Bool
  | .bool value => some value
  | _ => none

def toList? : Json → Option (List Json)
  | .array items => some items
  | _ => none

end SoyTree.Json
