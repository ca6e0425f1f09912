import SoyTree.Grammar.File
import SoyTree.Nesting
import SoyTree.Options
import SoyTree.ParseError

/-! # Parsing

A source is parsed in three steps: its nesting is checked against the limit, its namespace is
read, and then the whole file, with names resolved against that namespace.
-/

namespace SoyTree

def Rule.parse {α : Type} (p : Rule α) (text : List Char) : Except Failure α :=
  match p (.ofChars text) with
  | .ok value _ _ => .ok value
  | .fail e => .error e

def parseChars (text : List Char) (options : Options) : Except ParseError Program :=
  let lines := Lines.ofChars text
  match Nesting.check text options.maxDepth with
  | .error offset => .error (.locate lines offset (.tooDeep options.maxDepth))
  | .ok _ =>
    match Grammar.fileHeader.parse text with
    | .error e => .error (.ofFailure text lines e)
    | .ok home =>
      match (Grammar.file home).parse text with
      | .error e => .error (.ofFailure text lines e)
      | .ok program => .ok program

def parseWith (source : String) (options : Options) : Except ParseError Program :=
  parseChars source.toList options

/-- Parses a source with the default options. -/
def parse (source : String) : Except ParseError Program :=
  parseWith source {}

end SoyTree
