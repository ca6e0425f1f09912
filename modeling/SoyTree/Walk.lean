import SoyTree.Tree.Brief

/-! # Walks

All nodes of a program in source order, each in front of the nodes below it, with their depth and
the mark of the node they belong to.
-/

namespace SoyTree

/-- A node met on a walk. -/
structure Step where
  depth : Nat
  brief : Brief
  /-- The mark of the node above, or of the map item around. -/
  parent : Mark
  deriving DecidableEq, Repr

namespace Expr

mutual

def walk (depth : Nat) (parent : Mark) : Expr → List Step
  | e@(map _ items) => ⟨depth, e.brief, parent⟩ :: walkItems (depth + 1) items
  | e@(call mark _ args) => ⟨depth, e.brief, parent⟩ :: walkAll (depth + 1) mark args
  | e@(ternary mark cond left right) =>
    ⟨depth, e.brief, parent⟩ ::
      (cond.walk (depth + 1) mark ++ left.walk (depth + 1) mark ++ right.walk (depth + 1) mark)
  | e => [⟨depth, e.brief, parent⟩]

def walkAll (depth : Nat) (parent : Mark) : List Expr → List Step
  | [] => []
  | e :: rest => e.walk depth parent ++ walkAll depth parent rest

/-- Keys and values stand at one depth, inside the mark of their item. -/
def walkItems (depth : Nat) : List MapItem → List Step
  | [] => []
  | .mk mark key value :: rest =>
    ⟨depth, (string key).brief, mark⟩ :: (value.walk depth mark ++ walkItems depth rest)

end

end Expr

namespace Node

mutual

def walk (depth : Nat) (parent : Mark) : Node → List Step
  | n@(call mark _ _ params) => ⟨depth, n.brief, parent⟩ :: walkParams (depth + 1) mark params
  | n@(binding mark _ value) => ⟨depth, n.brief, parent⟩ :: walkValue (depth + 1) mark value
  | n@(control mark _ body) => ⟨depth, n.brief, parent⟩ :: walkAll (depth + 1) mark body
  | n => [⟨depth, n.brief, parent⟩]

def walkAll (depth : Nat) (parent : Mark) : List Node → List Step
  | [] => []
  | n :: rest => n.walk depth parent ++ walkAll depth parent rest

def walkParams (depth : Nat) (parent : Mark) : List Param → List Step
  | [] => []
  | p@(.mk mark _ value) :: rest =>
    ⟨depth, p.brief, parent⟩ :: (walkValue (depth + 1) mark value ++ walkParams depth parent rest)

def walkValue (depth : Nat) (parent : Mark) : Value → List Step
  | .inline expr => expr.walk depth parent
  | .block body => walkAll depth parent body

end

end Node

def Doc.walk (depth : Nat) (parent : Mark) (d : Doc) : List Step :=
  ⟨depth, d.brief, parent⟩ :: d.params.map (fun p => ⟨depth + 1, p.brief, d.mark⟩)

def Template.walk (depth : Nat) (parent : Mark) (t : Template) : List Step :=
  ⟨depth, t.brief, parent⟩ ::
    (t.doc.toList.flatMap (Doc.walk (depth + 1) t.mark) ++
      t.attributes.map (fun a => ⟨depth + 1, a.brief, t.mark⟩) ++
      t.params.map (fun p => ⟨depth + 1, p.brief, t.mark⟩) ++
      Node.walkAll (depth + 1) t.mark t.body)

/-- The program comes first and counts as its own parent. -/
def Program.walk (p : Program) : List Step :=
  ⟨0, p.brief, p.mark⟩ :: p.templates.flatMap (Template.walk 1 p.mark)

end SoyTree
