import SoyTree.Grammar.Body

/-! # Templates

Doc blocks, parameter declarations, and the two kinds of templates.
-/

namespace SoyTree.Grammar

open Rule

/-- The type of a parameter that only a doc block declares. -/
def docParamType : String := "any"

inductive DocLine where
  | param (decl : ParamDecl)
  | text (line : List Char)

/-- A line of a doc block ends at a line break or with the block. -/
def docLineEnd : Rule Unit :=
  either (char '\n') (text "*/")

/-- Blanks and one star at the start of a line, unless the star ends the block. -/
def docMargin : Rule Unit := do
  let _ ← run inlineBlank
  void (maybe do
    char '*'
    ahead (one (.noneOf ['/'])))

def docParam : Rule ParamDecl :=
  marked (fun mark (mayMiss, name) => ⟨mark, !mayMiss, name, docParamType⟩) do
    text "@param"
    let mayMiss ← maybe (char '?')
    let _ ← run1 inlineBlank
    let name ← identifier
    pure (mayMiss.isSome, name)

def docLine : Rule DocLine := do
  docMargin
  choice [
    do
      let _ ← run inlineBlank
      let decl ← docParam
      let _ ← rawUntil docLineEnd
      pure (.param decl),
    do
      let text ← rawUntil docLineEnd
      pure (.text (Text.trim text))]

namespace DocLine

def param? : DocLine → Option ParamDecl
  | .param decl => some decl
  | .text _ => none

def text? : DocLine → Option (List Char)
  | .param _ => none
  | .text line => some line

end DocLine

/-- The text of a doc block: its text lines joined, without blanks at the ends. -/
def docText (lines : List DocLine) : String :=
  String.ofList (Text.trim (['\n'].intercalate (lines.filterMap DocLine.text?)))

def docBlock : Rule Doc :=
  marked (fun mark lines => ⟨mark, docText lines, lines.filterMap DocLine.param?⟩) do
    text "/**"
    let lines ← sepBy docLine (char '\n')
    text "*/"
    pure lines

/-- A parameter declared in a template header; its type is kept as text. -/
def paramDecl : Rule ParamDecl :=
  marked
    (fun mark (required, name, type) =>
      ⟨mark, required, name, String.ofList (Text.trim type)⟩)
    do
      text "\x7b@param"
      let mayMiss ← maybe (char '?')
      blanks1
      let name ← identifier
      blanks
      char ':'
      let type ← rawThrough (char '\x7d')
      pure (mayMiss.isNone, name, type)

structure Declaration where
  name : String
  attributes : List Attribute
  params : List ParamDecl
  body : List Node

/-- The header, parameters and body of a template with the command `word`. -/
def declaration (word : String) (item : Rule Node) : Rule Declaration :=
  closed do
    char '\x7b'
    keyword word
    blanks1
    let name ← templateName
    let attributes ← attributes
    blanks
    char '\x7d'
    let params ← many do
      blanks
      paramDecl
    let body ← bodyContent word [] item
    pure ⟨name, attributes, params, body⟩

/-- A declaration with an optional doc block in front. -/
def documented (word : String) (item : Rule Node) : Rule (Option Doc × Declaration) := do
  let doc ← maybe do
    let doc ← docBlock
    blanks
    pure doc
  let decl ← declaration word item
  pure (doc, decl)

/-- A plain template; its name is resolved against `home`. -/
def plainTemplate (home : List String) (item : Rule Node) : Rule Template :=
  marked
    (fun mark (doc, decl) =>
      ⟨mark, .plain, doc, Path.resolve decl.name home, decl.attributes, decl.params, decl.body⟩)
    (documented "template" item)

def isVariant (a : Attribute) : Bool :=
  a.name == "variant"

/-- A delegate template. Its name stays as written, and its variant is taken from its
attributes. -/
def delegateTemplate (item : Rule Node) : Rule Template :=
  marked
    (fun mark (doc, decl) =>
      ⟨mark, .delegate ((decl.attributes.find? isVariant).map (·.value)), doc, decl.name,
        decl.attributes.filter (!isVariant ·), decl.params, decl.body⟩)
    (documented "deltemplate" item)

end SoyTree.Grammar
