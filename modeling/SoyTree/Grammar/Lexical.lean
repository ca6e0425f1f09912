import SoyTree.Path
import SoyTree.Rule.Chars
import SoyTree.Rule.Repeat

/-! # Words and tags

Blanks, identifiers, and the opening and closing tags of commands.
-/

namespace SoyTree.Grammar

open Rule

/-- Space, tab and line breaks. -/
def blank : CharClass :=
  .oneOf [' ', '\t', '\r', '\n']

def inlineBlank : CharClass :=
  .oneOf [' ', '\t']

def blanks : Rule Unit :=
  void (run blank)

def blanks1 : Rule Unit :=
  void (run1 blank)

/-- A rule with optional blanks on both sides. -/
def padded {α : Type} (p : Rule α) : Rule Unit := do
  blanks
  let _ ← p
  blanks

/-- A rule with optional blanks in front, so that raw text that stops at it has none at its
end. -/
def spaced {α : Type} (p : Rule α) : Rule Unit := do
  blanks
  void p

def identifier : Rule String := do
  let first ← one (.satisfying isWordStart)
  let rest ← run (.satisfying isWordPart)
  pure (String.ofList (first :: rest))

def keyword (name : String) : Rule Unit :=
  check identifier fun word =>
    if word = name then .ok () else .error (.otherWord name word)

def commandWord (names : List String) : Rule Unit :=
  check identifier fun word =>
    if word ∈ names then .ok () else .error (.unexpectedCommand word)

/-- An opening tag for one of `names`. What follows the word is passed over. -/
def openTag (names : List String) : Rule Unit := do
  char '\x7b'
  commandWord names
  void (rawThrough (char '\x7d'))

def closeTag (name : String) : Rule Unit := do
  text "\x7b/"
  keyword name
  blanks
  char '\x7d'

/-- A dotted name, possibly with a dot in front. -/
def templateName : Rule String := do
  let dot ← maybe (char '.')
  let segments ← sepBy1 identifier (char '.')
  pure ((if dot.isSome then "." else "") ++ Path.join segments)

end SoyTree.Grammar
