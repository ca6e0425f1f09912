/-! # Dotted paths

Names are dotted lists of identifiers. A name with a dot in front is relative to the namespace of
its file.
-/

namespace SoyTree

/-- Letters and the underscore start an identifier. -/
def isWordStart (c : Char) : Bool :=
  c.isAlpha || c == '_'

/-- Letters, digits and the underscore continue an identifier. -/
def isWordPart (c : Char) : Bool :=
  c.isAlphanum || c == '_'

/-- Whether a text is one identifier. -/
def isWord : List Char → Bool
  | [] => false
  | c :: rest => isWordStart c && rest.all isWordPart

namespace Path

/-- Follows a dotted path character by character; `fresh` says that a segment has to start. -/
def accepts : (fresh : Bool) → List Char → Bool
  | fresh, [] => !fresh
  | true, c :: rest => isWordStart c && accepts false rest
  | false, c :: rest => if c = '.' then accepts true rest else isWordPart c && accepts false rest

/-- Whether a text is a list of identifiers with single dots between them, and not empty. -/
def isDotted (path : String) : Bool :=
  accepts true path.toList

/-- The pieces of a text between its dots, the first of them preceded by `piece` backwards. -/
def piecesFrom (piece : List Char) : List Char → List (List Char)
  | [] => [piece.reverse]
  | c :: rest => if c = '.' then piece.reverse :: piecesFrom [] rest else piecesFrom (c :: piece) rest

/-- The segments of a path; empty ones are dropped. -/
def split (path : String) : List String :=
  ((piecesFrom [] path.toList).filter (!·.isEmpty)).map String.ofList

def join (segments : List String) : String :=
  ".".intercalate segments

def isRelative (name : String) : Bool :=
  name.toList.head? == some '.'

/-- A relative name is put below the namespace; every other name stays as it is. -/
def resolve (name : String) (home : List String) : String :=
  match name.toList with
  | '.' :: rest =>
    if home.isEmpty then String.ofList rest else join home ++ "." ++ String.ofList rest
  | _ => name

end Path

end SoyTree
