import SoyTree.Text.Visible

/-! # Quoted text

Characters and strings as they are shown in messages: between quotes, with escapes for control
characters, for the quote itself and for everything that is not visible.
-/

namespace SoyTree.Text

def hex (n : Nat) : String :=
  String.ofList (Nat.toDigits 16 n)

/-- One character as it stands between two `quote` characters. -/
def escapeFor (quote c : Char) : String :=
  if c = '\x00' then "\\0"
  else if c = '\t' then "\\t"
  else if c = '\r' then "\\r"
  else if c = '\n' then "\\n"
  else if c = '\\' then "\\\\"
  else if c = quote then "\\" ++ String.singleton quote
  else if isVisible c then String.singleton c
  else "\\u\x7b" ++ hex c.toNat ++ "\x7d"

def quoteChar (c : Char) : String :=
  "'" ++ escapeFor '\'' c ++ "'"

def quoteString (text : String) : String :=
  "\"" ++ String.join (text.toList.map (escapeFor '"')) ++ "\""

def quoteList (texts : List String) : String :=
  "[" ++ ", ".intercalate (texts.map quoteString) ++ "]"

/-- An optional string, named by its case. -/
def quoteOption : Option String → String
  | none => "None"
  | some text => "Some(" ++ quoteString text ++ ")"

end SoyTree.Text
