import SoyTree.Tree.Expr

/-! # Body nodes

What stands between the opening and the closing tag of a template or block: text, interpolations,
calls, bindings and control blocks. The branches of a control block are one flat body.
-/

namespace SoyTree

/-- The blocks that group content. -/
inductive Control where
  | cond
  | foreach
  | loop
  | message
  | switch
  | plural
  | select
  | literal
  deriving DecidableEq, Repr

namespace Control

/-- The command word of a block. -/
def word : Control → String
  | cond => "if"
  | foreach => "foreach"
  | loop => "for"
  | message => "msg"
  | switch => "switch"
  | plural => "plural"
  | select => "select"
  | literal => "literal"

/-- The commands that may divide the content of a block. -/
def interior : Control → List String
  | cond => ["elseif", "else"]
  | foreach => ["ifempty"]
  | message => ["fallbackmsg"]
  | switch | plural | select => ["case", "default"]
  | loop | literal => []

end Control

mutual

/-- A part of a body. -/
inductive Node where
  | text (mark : Mark) (content : String)
  | interpolation (mark : Mark) (raw : String)
  | call (mark : Mark) (target : String) (delegate : Bool) (params : List Param)
  | binding (mark : Mark) (name : String) (value : Value)
  | control (mark : Mark) (block : Control) (body : List Node)
  deriving Repr

/-- A parameter handed to a call. -/
inductive Param where
  | mk (mark : Mark) (name : String) (value : Value)
  deriving Repr

/-- What a parameter or binding stands for: an expression or a body. -/
inductive Value where
  | inline (expr : Expr)
  | block (body : List Node)
  deriving Repr

end

namespace Value

def expr? : Value → Option Expr
  | inline expr => some expr
  | block _ => none

/-- The body of a block value, empty for an inline value. -/
def body : Value → List Node
  | inline _ => []
  | block body => body

end Value

namespace Param

def mark : Param → Mark
  | mk mark _ _ => mark

def name : Param → String
  | mk _ name _ => name

def value : Param → Value
  | mk _ _ value => value

end Param

namespace Node

def mark : Node → Mark
  | text mark _ => mark
  | interpolation mark _ => mark
  | call mark _ _ _ => mark
  | binding mark _ _ => mark
  | control mark _ _ => mark

/-- The nodes directly below a node, in source order. -/
def children : Node → List Node
  | text _ _ => []
  | interpolation _ _ => []
  | call _ _ _ params => params.flatMap (·.value.body)
  | binding _ _ value => value.body
  | control _ _ body => body

end Node

/-- The first parameter with this name. -/
def findParam (params : List Param) (name : String) : Option Param :=
  params.find? (·.name == name)

end SoyTree
