import SoyTree.Tree.Brief

/-! # Queries

Nodes are picked by paths: the index of a template, of a node in its body, and of children below.
-/

namespace SoyTree

namespace Node

def descend (n : Node) : List Nat → Option Node
  | [] => some n
  | i :: rest => do (← n.children[i]?).descend rest

/-- The expression of a binding with an inline value; `none` inside for a block. -/
def bound? : Node → Option (Option Expr)
  | binding _ _ value => some value.expr?
  | _ => none

def params? : Node → Option (List Param)
  | call _ _ _ params => some params
  | _ => none

end Node

namespace Program

/-- The body node that a path picks; paths have at least two indices. -/
def pick? (p : Program) : List Nat → Option Node
  | t :: i :: rest => do
    let template ← p.templates[t]?
    let node ← template.body[i]?
    node.descend rest
  | _ => none

end Program

end SoyTree
