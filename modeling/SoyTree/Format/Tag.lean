import SoyTree.Tree.Program

/-! # The tag format

The tree as nested elements. Names and flags are attributes of an element, texts its content, and
each child stands on a line of its own.
-/

namespace SoyTree

inductive Element where
  /-- An element without content. -/
  | empty (tag : String) (attributes : List (String × String))
  /-- An element with nothing but text in it. -/
  | leaf (tag : String) (attributes : List (String × String)) (text : String)
  /-- An element with children, behind an initial text. -/
  | block (tag : String) (attributes : List (String × String)) (lead : String)
      (children : List Element)
  deriving Repr

namespace Element

def replaceChar (c : Char) (entity : String) (text : List Char) : List Char :=
  text.flatMap fun x => if x = c then entity.toList else [x]

/-- Replaces the characters that have a meaning in tags, the ampersand first. -/
def escape (text : String) : String :=
  String.ofList <|
    replaceChar '\'' "&apos;" <|
    replaceChar '"' "&quot;" <|
    replaceChar '>' "&gt;" <|
    replaceChar '<' "&lt;" <|
    replaceChar '&' "&amp;" text.toList

def head (tag : String) (attributes : List (String × String)) : String :=
  tag ++ String.join (attributes.map fun (name, value) => " " ++ name ++ "=\"" ++ escape value ++ "\"")

def pad (level : Nat) : String :=
  String.ofList (List.replicate (2 * level) ' ')

mutual

/-- An element at some level; its first line has no blanks in front. -/
def render (level : Nat) : Element → String
  | empty tag attributes => "<" ++ head tag attributes ++ "/>"
  | leaf tag attributes text =>
    "<" ++ head tag attributes ++ ">" ++ escape text ++ "</" ++ tag ++ ">"
  | block tag attributes lead children =>
    "<" ++ head tag attributes ++ ">" ++ escape lead ++ "\n" ++
      renderAll (level + 1) children ++ pad level ++ "</" ++ tag ++ ">"

def renderAll (level : Nat) : List Element → String
  | [] => ""
  | e :: rest => pad level ++ e.render level ++ "\n" ++ renderAll level rest

end

end Element

def Expr.tagKind : Expr → String
  | reference _ _ => "reference"
  | string _ => "string"
  | boolean _ _ => "boolean"
  | number _ _ => "number"
  | map _ _ => "map"
  | call _ _ _ => "function-call"
  | ternary _ _ _ _ => "ternary"
  | raw _ _ => "other"

namespace Node

mutual

def element : Node → Element
  | text _ content => .leaf "text" [] content
  | interpolation _ raw => .leaf "interpolation" [] raw
  | call _ target delegate params =>
    let tag := if delegate then "delcall" else "call"
    if params.isEmpty then .empty tag [("template", target)]
    else .block tag [("template", target)] "" (paramElements params)
  | binding _ name value => valueElement "let" name value
  | control _ block body =>
    if body.isEmpty then .empty block.word [] else .block block.word [] "" (elements body)

def elements : List Node → List Element
  | [] => []
  | n :: rest => n.element :: elements rest

def paramElements : List Param → List Element
  | [] => []
  | .mk _ name value :: rest => valueElement "with-param" name value :: paramElements rest

def valueElement (tag name : String) : Value → Element
  | .inline expr => .leaf tag [("name", name), ("expression", expr.tagKind)] expr.toSource
  | .block body => .block tag [("name", name)] "" (elements body)

end

end Node

def ParamDecl.element (d : ParamDecl) : Element :=
  .empty "param"
    [("name", d.name), ("required", if d.required then "true" else "false"), ("type", d.type)]

def Doc.element (d : Doc) : Element :=
  if d.params.isEmpty then .leaf "doc" [] d.text
  else .block "doc" [] d.text (d.params.map ParamDecl.element)

def Attribute.element (a : Attribute) : Element :=
  .leaf "attribute" [("name", a.name)] a.value

namespace TemplateKind

def tag : TemplateKind → String
  | plain => "template"
  | delegate _ => "deltemplate"

def tagAttributes : TemplateKind → List (String × String)
  | delegate (some variant) => [("variant", variant)]
  | _ => []

end TemplateKind

def Template.element (t : Template) : Element :=
  .block t.kind.tag (("name", t.name) :: t.kind.tagAttributes) ""
    (t.doc.toList.map Doc.element ++ t.attributes.map Attribute.element ++
      t.params.map ParamDecl.element ++ Node.elements t.body)

def Program.element (p : Program) : Element :=
  .block "program" [("namespace", ".".intercalate p.namespacePath)] ""
    (p.templates.map Template.element)

def Program.renderTag (p : Program) : String :=
  p.element.render 0

end SoyTree
