import SoyTree.Tree.Brief

/-! # The outline format

One line for each node, children below their parent, with lines drawn along the margin. Labels
are cut off after thirty characters.
-/

namespace SoyTree

/-- A node that has its own line, with the nodes below it. -/
inductive Outline where
  | entry (brief : Brief) (children : List Outline)
  deriving Repr

namespace Outline

def labelWidth : Nat := 30

/-- A text with at most `width` characters, and dots if some are missing. -/
def truncate (width : Nat) (text : String) : String :=
  if width < text.length then String.ofList (text.toList.take width) ++ "..." else text

def title (brief : Brief) : String :=
  brief.kind ++ ": " ++ truncate labelWidth brief.label

def connector (last : Bool) : String :=
  if last then "└─" else "├─"

/-- What an entry adds to the margin of the entries below it. -/
def cell (last : Bool) : String :=
  if last then "  " else "│ "

mutual

def lines (margin : String) (last : Bool) : Outline → List String
  | entry brief children =>
    (margin ++ connector last ++ " " ++ title brief) :: linesAll (margin ++ cell last) children

def linesAll (margin : String) : List Outline → List String
  | [] => []
  | e :: rest => e.lines margin rest.isEmpty ++ linesAll margin rest

end

def render (entries : List Outline) : String :=
  String.join ((linesAll "" entries).map (· ++ "\n"))

end Outline

namespace Expr

mutual

def outline : Expr → Outline
  | e@(map _ items) => .entry e.brief (outlineItems items)
  | e@(call _ _ args) => .entry e.brief (outlineArgs args)
  | e@(ternary _ cond left right) => .entry e.brief [cond.outline, left.outline, right.outline]
  | e => .entry e.brief []

def outlineArgs : List Expr → List Outline
  | [] => []
  | e :: rest => e.outline :: outlineArgs rest

/-- Of map items only the values have a line. -/
def outlineItems : List MapItem → List Outline
  | [] => []
  | .mk _ _ value :: rest => value.outline :: outlineItems rest

end

end Expr

namespace Node

mutual

def outline : Node → Outline
  | n@(call _ _ _ params) => .entry n.brief (outlineParams params)
  | n@(binding _ _ value) => .entry n.brief (outlineValue value)
  | n@(control _ _ body) => .entry n.brief (outlineAll body)
  | n => .entry n.brief []

def outlineAll : List Node → List Outline
  | [] => []
  | n :: rest => n.outline :: outlineAll rest

def outlineParams : List Param → List Outline
  | [] => []
  | p@(.mk _ _ value) :: rest => .entry p.brief (outlineValue value) :: outlineParams rest

def outlineValue : Value → List Outline
  | .inline expr => [expr.outline]
  | .block body => outlineAll body

end

end Node

def ParamDecl.outline (d : ParamDecl) : Outline :=
  .entry d.brief []

def Doc.outline (d : Doc) : Outline :=
  .entry d.brief (d.params.map ParamDecl.outline)

/-- Attributes have no line. -/
def Template.outline (t : Template) : Outline :=
  .entry t.brief
    (t.doc.toList.map Doc.outline ++ t.params.map ParamDecl.outline ++ Node.outlineAll t.body)

def Program.outline (p : Program) : List Outline :=
  p.templates.map Template.outline

def Program.renderOutline (p : Program) : String :=
  Outline.render p.outline

end SoyTree
