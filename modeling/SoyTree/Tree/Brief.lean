import SoyTree.Text.Blank
import SoyTree.Text.Quoted
import SoyTree.Tree.Program

/-! # Briefs

What every node of a tree can tell about itself: its kind, a short label and its mark.
-/

namespace SoyTree

structure Brief where
  kind : String
  label : String
  mark : Mark
  deriving DecidableEq, Repr

def Expr.kind : Expr → String
  | reference _ _ => "Reference"
  | string _ => "StringLiteral"
  | boolean _ _ => "BooleanLiteral"
  | number _ _ => "NumberLiteral"
  | map _ _ => "MapLiteral"
  | call _ _ _ => "FunctionCall"
  | ternary _ _ _ _ => "Ternary"
  | raw _ _ => "OtherExpression"

def Expr.brief (e : Expr) : Brief :=
  ⟨e.kind, e.toSource, e.mark⟩

def Node.kind : Node → String
  | text _ _ => "Text"
  | interpolation _ _ => "Interpolation"
  | call _ _ _ _ => "Call"
  | binding _ _ _ => "Let"
  | control _ _ _ => "OtherCmd"

/-- Text is quoted, interpolations keep their braces, delegate calls and bindings are marked as
such. -/
def Node.label : Node → String
  | text _ content => Text.quoteString content
  | interpolation _ raw => "\x7b" ++ raw ++ "\x7d"
  | call _ target delegate _ => if delegate then "delcall " ++ target else target
  | binding _ name _ => "$" ++ name
  | control _ block _ => block.word

def Node.brief (n : Node) : Brief :=
  ⟨n.kind, n.label, n.mark⟩

def Param.brief (p : Param) : Brief :=
  ⟨"Param", p.name, p.mark⟩

def ParamDecl.brief (d : ParamDecl) : Brief :=
  ⟨"ParamDeclaration", d.name ++ (if d.required then "" else "?") ++ ": " ++ d.type, d.mark⟩

def Attribute.brief (a : Attribute) : Brief :=
  ⟨"Attribute", a.name ++ "=\"" ++ a.value ++ "\"", a.mark⟩

/-- A doc block shows its first line. -/
def Doc.brief (d : Doc) : Brief :=
  ⟨"SoyDoc", (Text.lines d.text).headD "", d.mark⟩

namespace TemplateKind

def name : TemplateKind → String
  | plain => "Template"
  | delegate _ => "DelTemplate"

def suffix : TemplateKind → String
  | delegate (some variant) => " (" ++ variant ++ ")"
  | _ => ""

end TemplateKind

def Template.brief (t : Template) : Brief :=
  ⟨t.kind.name, t.name ++ t.kind.suffix, t.mark⟩

def Program.brief (p : Program) : Brief :=
  ⟨"Program", ".".intercalate p.namespacePath, p.mark⟩

end SoyTree
