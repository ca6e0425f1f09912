import SoyTree.Tree.Node

/-! # Programs

A file: its namespace and its templates, with their doc blocks, attributes and parameters.
-/

namespace SoyTree

/-- A parameter that a template declares, in its header or in its doc block. -/
structure ParamDecl where
  mark : Mark
  required : Bool
  name : String
  type : String
  deriving DecidableEq, Repr

/-- The doc block in front of a template. -/
structure Doc where
  mark : Mark
  text : String
  params : List ParamDecl
  deriving DecidableEq, Repr

structure Attribute where
  mark : Mark
  name : String
  value : String
  deriving DecidableEq, Repr

/-- Plain templates are called by name, delegates are chosen by name and variant. -/
inductive TemplateKind where
  | plain
  | delegate (variant : Option String)
  deriving DecidableEq, Repr

structure Template where
  mark : Mark
  kind : TemplateKind
  doc : Option Doc
  name : String
  attributes : List Attribute
  params : List ParamDecl
  body : List Node
  deriving Repr

namespace Template

/-- The value of the first attribute with this name. -/
def attribute? (t : Template) (name : String) : Option String :=
  (t.attributes.find? (·.name == name)).map (·.value)

end Template

structure Program where
  mark : Mark
  namespacePath : List String
  templates : List Template
  deriving Repr

namespace Program

/-- The first template with this name. -/
def find? (p : Program) (name : String) : Option Template :=
  p.templates.find? (·.name == name)

end Program

end SoyTree
