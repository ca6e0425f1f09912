import SoyTree.Format.Yaml.Resolve

/-! # YAML scalars

A text is written plain if it would be read back as that text. Else it is put between single
quotes, or between double quotes if it holds characters that need an escape. Texts of several
lines are written as a literal block where that loses nothing.
-/

namespace SoyTree.Yaml

/-- Characters that end a line: LF and the two Unicode separators. Others have to be escaped
before this matters. -/
def isBreak (c : Char) : Bool :=
  c == '\n' || c.toNat == 0x2028 || c.toNat == 0x2029

def isPlainChar (c : Char) : Bool :=
  let n := c.toNat
  decide (n = 10 ∨ (0x20 ≤ n ∧ n ≤ 0x7e) ∨ (0xa0 ≤ n ∧ n ≠ 0xfeff ∧ n ≠ 0xfffe ∧ n ≠ 0xffff))

/-- Whether some character and its successor satisfy a test. -/
def hasPair (test : Char → Char → Bool) : List Char → Bool
  | a :: b :: rest => test a b || hasPair test (b :: rest)
  | _ => false

def hasSpecial (text : List Char) : Bool :=
  text.any (!isPlainChar ·)

def hasSpaceBreak (text : List Char) : Bool :=
  hasPair (fun a b => a == ' ' && isBreak b) text

def hasBreakSpace (text : List Char) : Bool :=
  hasPair (fun a b => isBreak a && b == ' ') text

def isIndicator (c : Char) : Bool :=
  ['#', ',', '[', ']', '\x7b', '\x7d', '&', '*', '!', '|', '>', '\'', '"', '%', '@', '`'].contains c

/-- Whether the start of a text would be read as something else. -/
def startsSpecially : List Char → Bool
  | [] => false
  | c :: rest =>
    isIndicator c ||
      ((c == '-' || c == '?' || c == ':') && (rest.isEmpty || rest.head? == some ' ')) ||
      ['-', '-', '-'].isPrefixOf (c :: rest) || ['.', '.', '.'].isPrefixOf (c :: rest)

/-- A colon in front of a blank or at the end, or a number sign behind a blank. -/
def hasInnerIndicator (text : List Char) : Bool :=
  text.getLast? == some ':' || hasPair (fun a b => (a == ':' && b == ' ') || (a == ' ' && b == '#')) text

/-- Whether a text of one line may stand without quotes. -/
def allowsPlain (text : List Char) : Bool :=
  !(text.head? == some ' ' || text.getLast? == some ' ' || text.any isBreak || hasSpecial text ||
    startsSpecially text || hasInnerIndicator text)

def allowsSingle (text : List Char) : Bool :=
  !(hasSpecial text || hasSpaceBreak text || hasBreakSpace text)

def allowsLiteral (text : List Char) : Bool :=
  !(hasSpecial text || hasSpaceBreak text || text.getLast? == some ' ')

def spaces (n : Nat) : List Char :=
  List.replicate n ' '

def upperHex (width n : Nat) : List Char :=
  let digits := (Nat.toDigits 16 n).map Char.toUpper
  List.replicate (width - digits.length) '0' ++ digits

def escapeDouble (c : Char) : List Char :=
  let n := c.toNat
  if n = 0 then ['\\', '0']
  else if n = 7 then ['\\', 'a']
  else if n = 8 then ['\\', 'b']
  else if n = 9 then ['\\', 't']
  else if n = 10 then ['\\', 'n']
  else if n = 11 then ['\\', 'v']
  else if n = 12 then ['\\', 'f']
  else if n = 13 then ['\\', 'r']
  else if n = 27 then ['\\', 'e']
  else if c = '"' then ['\\', '"']
  else if c = '\\' then ['\\', '\\']
  else if n = 0x85 then ['\\', 'N']
  else if n = 0x2028 then ['\\', 'L']
  else if n = 0x2029 then ['\\', 'P']
  else if isPlainChar c then [c]
  else if n ≤ 0xff then '\\' :: 'x' :: upperHex 2 n
  else if n ≤ 0xffff then '\\' :: 'u' :: upperHex 4 n
  else '\\' :: 'U' :: upperHex 8 n

def writeDouble (text : List Char) : List Char :=
  '"' :: text.flatMap escapeDouble ++ ['"']

/-- Indents the characters behind line breaks. `fresh` says that a break came before; empty lines
stay empty. -/
def indentLines (indent : Nat) : (fresh : Bool) → List Char → List Char
  | _, [] => []
  | fresh, c :: rest =>
    if isBreak c then c :: indentLines indent true rest
    else (if fresh then spaces indent else []) ++ c :: indentLines indent false rest

def doubleQuotes (text : List Char) : List Char :=
  text.flatMap fun c => if c = '\'' then ['\'', '\''] else [c]

/-- A text in single quotes; lines behind separators are indented. -/
def writeSingle (indent : Nat) (text : List Char) : List Char :=
  let closing := if text.getLast?.any isBreak then spaces indent else []
  '\'' :: doubleQuotes (indentLines indent false text) ++ closing ++ ['\'']

/-- The mark that tells a reader how a literal block is indented and how it ends. -/
def literalHeader (text : List Char) : List Char :=
  let hint := if text.head?.any (fun c => c == ' ' || isBreak c) then ['2'] else []
  let chomp := match text.reverse with
    | [] => ['-']
    | [c] => if isBreak c then ['+'] else ['-']
    | c :: d :: _ => if !isBreak c then ['-'] else if isBreak d then ['+'] else []
  '|' :: hint ++ chomp

/-- A literal block; its last line break is the one that ends the entry. -/
def writeLiteral (indent : Nat) (text : List Char) : List Char :=
  literalHeader text ++ '\n' :: indentLines indent true text

/-- A text as a scalar, with the line break that ends its entry. `indent` is the indentation of
further lines. -/
def writeText (indent : Nat) (text : String) : String :=
  let chars := text.toList
  String.ofList <|
    if chars.contains '\n' then
      if allowsLiteral chars then
        let block := writeLiteral indent chars
        if chars.getLast?.any isBreak then block else block ++ ['\n']
      else writeDouble chars ++ ['\n']
    else if allowsPlain chars && !isOtherThanText text then chars ++ ['\n']
    else if allowsSingle chars then writeSingle indent chars ++ ['\n']
    else writeDouble chars ++ ['\n']

end SoyTree.Yaml
