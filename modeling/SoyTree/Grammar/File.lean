import SoyTree.Grammar.Comment
import SoyTree.Grammar.Template

/-! # Files

A file is a namespace tag followed by at least one template.
-/

namespace SoyTree.Grammar

open Rule

def isPathChar (c : Char) : Bool :=
  Text.isAlphanumeric c || c == '_' || c == '.'

def namespacePath : Rule (List String) :=
  check (run1 (.satisfying isPathChar)) fun path =>
    let path := String.ofList path
    if Path.isDotted path then .ok (Path.split path) else .error (.notDotted path)

/-- The namespace tag; what follows its path is passed over. -/
def namespaceTag : Rule (List String) := do
  char '\x7b'
  keyword "namespace"
  blanks1
  let path ← namespacePath
  let _ ← maybe do
    blanks1
    run (.noneOf ['\x7d'])
  char '\x7d'
  pure path

/-- The namespace of a file, read without the rest of it. -/
def fileHeader : Rule (List String) := do
  fileTrivia
  namespaceTag

def templateItem (home : List String) (item : Rule Node) : Rule Template :=
  choice [plainTemplate home item, delegateTemplate item]

/-- A whole file whose relative names are resolved against `home`. -/
def file (home : List String) : Rule Program := do
  fileTrivia
  let program ← marked
    (fun mark (path, templates) => ⟨mark, path, templates⟩)
    (do
      let path ← namespaceTag
      let templates ← many1 do
        trivia
        templateItem home (bodyItem home)
      pure (path, templates))
  trivia
  endOfInput
  pure program

end SoyTree.Grammar
