import SoyTree.Grammar.Body

/-! # Nesting

A scan over the tags of a source that tells how deep blocks and brackets go at each opening tag.
It runs before the grammar, whose recursion it bounds, and does not judge the source otherwise.
-/

namespace SoyTree.Nesting

/-- The commands with a closing tag, unless they are closed at once. -/
def blockWords : List String :=
  ["template", "deltemplate", "call", "delcall", "param", "let", "if", "foreach", "for", "msg",
    "switch", "plural", "select", "literal"]

/-- The deepest nesting of round and square brackets, from the level `current` on. -/
def bracketDepthFrom (current : Nat) : List Char → Nat
  | [] => 0
  | c :: rest =>
    if c = '(' ∨ c = '[' then max (current + 1) (bracketDepthFrom (current + 1) rest)
    else if c = ')' ∨ c = ']' then bracketDepthFrom (current - 1) rest
    else bracketDepthFrom current rest

def bracketDepth (tag : List Char) : Nat :=
  bracketDepthFrom 0 tag

/-- How many characters stand in front of the first `needle`, if there is one. -/
def indexOf? (needle : List Char) : List Char → Option Nat
  | [] => none
  | c :: rest =>
    if needle.isPrefixOf (c :: rest) then some 0 else (indexOf? needle rest).map (· + 1)

def literalClose : List Char := "\x7b/literal\x7d".toList

/-- What a tag does to the nesting. -/
inductive Tag where
  /-- A closing tag, of a block or of something else. -/
  | closing (block : Bool) (length : Nat)
  /-- An opening tag: whether blocks below it are one deeper, how far it reaches below the
  current depth itself, and its length. -/
  | opening (deeper : Bool) (reach : Nat) (length : Nat)
  deriving DecidableEq, Repr

/-- Reads the tag behind an opening brace. Its length counts the characters behind the brace that
the scan passes over: up to the end of the tag, or to the end of a literal block. -/
def readTag (rest : List Char) : Tag :=
  if rest.head? = some '/' then
    let content := rest.drop 1
    let word := String.ofList (content.takeWhile Grammar.isCommandChar)
    .closing (blockWords.contains word) ((content.takeWhile (· ≠ '\x7d')).length + 2)
  else
    let word := String.ofList (rest.takeWhile Grammar.isCommandChar)
    let content := rest.takeWhile (· ≠ '\x7d')
    let behind := rest.dropWhile (· ≠ '\x7d')
    let closedAtOnce := !behind.isEmpty && content.getLast? == some '/'
    let block := blockWords.contains word && !closedAtOnce
    let reach := bracketDepth content + (if block then 1 else 0)
    if block && word == "literal" then
      match indexOf? literalClose behind with
      | some n => .opening false reach (content.length + n + literalClose.length)
      | none => .opening false reach rest.length
    else .opening block reach (content.length + 1)

/-- An opening tag: where it stands and how deep it reaches. -/
structure TagLevel where
  offset : Nat
  level : Nat
  deriving DecidableEq, Repr

/-- The levels of the opening tags of a text that starts at `offset` with `depth` blocks open.
The first `pass` characters belong to a tag that was read already. -/
def levelsFrom (offset depth pass : Nat) : List Char → List TagLevel
  | [] => []
  | c :: rest =>
    match pass with
    | pass + 1 => levelsFrom (offset + 1) depth pass rest
    | 0 =>
      if c = '\x7b' then
        match readTag rest with
        | .closing block length =>
          levelsFrom (offset + 1) (if block then depth - 1 else depth) length rest
        | .opening deeper reach length =>
          ⟨offset, depth + reach⟩ ::
            levelsFrom (offset + 1) (if deeper then depth + 1 else depth) length rest
      else levelsFrom (offset + 1) depth 0 rest

/-- The levels of all opening tags that the scan meets. -/
def levels (text : List Char) : List TagLevel :=
  levelsFrom 0 0 0 text

/-- The deepest level of all. -/
def deepest (text : List Char) : Nat :=
  (levels text).foldl (fun d tag => max d tag.level) 0

/-- The deepest level, or the offset of the first tag that goes deeper than `limit`. -/
def check (text : List Char) (limit : Nat) : Except Nat Nat :=
  match (levels text).find? (fun tag => limit < tag.level) with
  | some tag => .error tag.offset
  | none => .ok (deepest text)

end SoyTree.Nesting
