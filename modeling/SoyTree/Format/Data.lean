import SoyTree.Json.Basic
import SoyTree.Tree.Brief

/-! # Trees as data

The tree as records, lists and scalars, which the JSON and YAML formats write. Fields stand in a
fixed order, the kind of a node first.
-/

namespace SoyTree

inductive Data where
  | null
  | bool (value : Bool)
  | nat (value : Nat)
  | number (value : Number.Binary64)
  | string (value : String)
  | list (items : List Data)
  | record (fields : List (String × Data))
  deriving Repr

namespace Data

def ofOption {α : Type} (f : α → Data) : Option α → Data
  | none => .null
  | some a => f a

end Data

def Position.toData (p : Position) : Data :=
  .record [("line", .nat p.line), ("column", .nat p.column), ("index", .nat p.index)]

def Mark.toData (m : Mark) : Data :=
  .record [("start", m.start.toData), ("end", m.stop.toData)]

/-- A record for a node: its kind if it has one, its mark and its other fields. -/
def nodeData (kind : Option String) (mark : Mark) (fields : List (String × Data)) : Data :=
  .record (kind.toList.map (fun k => ("type", .string k)) ++ ("mark", mark.toData) :: fields)

def Literal.toData (kind : Option String) (l : Literal) : Data :=
  nodeData kind l.mark [("value", .string l.value)]

namespace Expr

mutual

def toData : Expr → Data
  | reference mark name => nodeData "Reference" mark [("name", .string name)]
  | string literal => literal.toData (some "String")
  | boolean mark value => nodeData "Boolean" mark [("value", .bool value)]
  | number mark value => nodeData "Number" mark [("value", .number value)]
  | map mark items => nodeData "Map" mark [("items", .list (itemsData items))]
  | call mark name args =>
    nodeData "FunctionCall" mark [("name", .string name), ("args", .list (argsData args))]
  | ternary mark cond left right =>
    nodeData "Ternary" mark
      [("cond", cond.toData), ("left", left.toData), ("right", right.toData)]
  | raw mark text => nodeData "Other" mark [("raw", .string text)]

def argsData : List Expr → List Data
  | [] => []
  | e :: rest => e.toData :: argsData rest

def itemsData : List MapItem → List Data
  | [] => []
  | .mk mark key value :: rest =>
    nodeData none mark [("key", key.toData none), ("value", value.toData)] :: itemsData rest

end

end Expr

namespace Node

mutual

def toData : Node → Data
  | text mark content => nodeData "Text" mark [("text", .string content)]
  | interpolation mark raw => nodeData "Interpolation" mark [("raw", .string raw)]
  | call mark target delegate params =>
    nodeData "Call" mark
      [("template_name", .string target), ("delegate", .bool delegate),
        ("params", .list (paramsData params))]
  | binding mark name value =>
    nodeData "Let" mark [("name", .string name), ("value", valueData value)]
  | control mark block body =>
    nodeData "OtherCmd" mark [("name", .string block.word), ("body", .list (nodesData body))]

def nodesData : List Node → List Data
  | [] => []
  | node :: rest => node.toData :: nodesData rest

def paramsData : List Param → List Data
  | [] => []
  | .mk mark name value :: rest =>
    nodeData none mark [("name", .string name), ("value", valueData value)] :: paramsData rest

def valueData : Value → Data
  | .inline expr => .record [("kind", .string "Expression"), ("value", expr.toData)]
  | .block body => .record [("kind", .string "Body"), ("value", .list (nodesData body))]

end

end Node

def ParamDecl.toData (d : ParamDecl) : Data :=
  nodeData none d.mark
    [("required", .bool d.required), ("name", .string d.name), ("type_expr", .string d.type)]

def Doc.toData (d : Doc) : Data :=
  nodeData none d.mark
    [("text", .string d.text), ("params", .list (d.params.map ParamDecl.toData))]

def Attribute.toData (a : Attribute) : Data :=
  nodeData none a.mark [("name", .string a.name), ("value", .string a.value)]

namespace TemplateKind

/-- The fields that only one kind of template has. -/
def fields : TemplateKind → List (String × Data)
  | plain => []
  | delegate variant => [("variant", .ofOption .string variant)]

end TemplateKind

def Template.toData (t : Template) : Data :=
  nodeData t.kind.name t.mark
    ([("doc", .ofOption Doc.toData t.doc), ("name", .string t.name)] ++ t.kind.fields ++
      [("attributes", .list (t.attributes.map Attribute.toData)),
        ("params", .list (t.params.map ParamDecl.toData)),
        ("body", .list (Node.nodesData t.body))])

def Program.toData (p : Program) : Data :=
  nodeData none p.mark
    [("namespace", .list (p.namespacePath.map .string)),
      ("templates", .list (p.templates.map Template.toData))]

end SoyTree
