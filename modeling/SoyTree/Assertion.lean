import SoyTree.TextMatch
import SoyTree.Tree.Brief

/-! # Assertions

Checks on parts of a program. A subject is a part together with its place, which a failed check
names. Checks either pass or tell what they found instead; steps lead from a subject to a part of
it.
-/

namespace SoyTree

/-- Why a check fails. -/
inductive Mismatch where
  /-- Two values differ; both are given as shown in the message. -/
  | unequal (context left right : String)
  | refused (message : String)
  deriving DecidableEq, Repr

def Mismatch.message : Mismatch → String
  | unequal context left right =>
    "assertion `left == right` failed: " ++ context ++ "\n  left: " ++ left ++ "\n right: " ++ right
  | refused message => message

abbrev Checked (α : Type) := Except Mismatch α

/-- A part of a program and the place where it stands. -/
structure Subject (α : Type) where
  part : α
  place : String

namespace Checked

/-- Passes if two values are equal, which `describe` shows if not. -/
def equal {α : Type} [DecidableEq α] (describe : α → String) (context : String) (left right : α) :
    Checked Unit :=
  if left = right then .ok () else .error (.unequal context (describe left) (describe right))

def equalText (context left right : String) : Checked Unit :=
  equal Text.quoteString context left right

def equalNat (context : String) (left right : Nat) : Checked Unit :=
  equal toString context left right

def equalNames (context : String) (left right : List String) : Checked Unit :=
  equal Text.quoteList context left right

def refuse {α : Type} (message : String) : Checked α :=
  .error (.refused message)

def matching (expected : TextMatch) (actual context : String) : Checked Unit :=
  if expected.accepts actual then .ok ()
  else
    refuse (context ++ ": expected text " ++ expected.describe ++ ", found " ++
      Text.quoteString actual)

end Checked

open Checked

def showBool (b : Bool) : String :=
  if b then "true" else "false"

namespace Subject

/-! ## Programs -/

def ofProgram (p : Program) : Subject Program :=
  ⟨p, "program"⟩

def namespaceIs (s : Subject Program) (expected : String) : Checked Unit :=
  equalText "program namespace" (".".intercalate s.part.namespacePath) expected

def templateCount (s : Subject Program) (expected : Nat) : Checked Unit :=
  let names := s.part.templates.map (·.name)
  equalNat
    ("Expected " ++ toString expected ++ " templates, found " ++ toString names.length ++ ": " ++
      Text.quoteList names)
    names.length expected

def template (s : Subject Program) (index : Nat) : Checked (Subject Template) :=
  match s.part.templates[index]? with
  | some t => .ok ⟨t, "templates[" ++ toString index ++ "]"⟩
  | none =>
    refuse ("Template index " ++ toString index ++ " out of bounds (program has " ++
      toString s.part.templates.length ++ " templates)")

/-! ## Templates -/

def nameIs (s : Subject Template) (expected : String) : Checked Unit :=
  equalText (s.place ++ ": template name") s.part.name expected

def variantIs (s : Subject Template) (expected : Option String) : Checked Unit :=
  match s.part.kind with
  | .delegate variant =>
    equal Text.quoteOption (s.place ++ ": deltemplate variant") variant expected
  | .plain => refuse (s.place ++ ": Expected DelTemplate, found Template '" ++ s.part.name ++ "'")

def paramCount (s : Subject Template) (expected : Nat) : Checked Unit :=
  equalNat (s.place ++ ": header param count") s.part.params.length expected

def showDecl (decl : String × Bool × String) : String :=
  "(" ++ Text.quoteString decl.1 ++ ", " ++ showBool decl.2.1 ++ ", " ++
    Text.quoteString decl.2.2 ++ ")"

def paramIs (s : Subject Template) (index : Nat) (name : String) (required : Bool)
    (type : String) : Checked Unit :=
  match s.part.params[index]? with
  | some d =>
    equal showDecl (s.place ++ ": params[" ++ toString index ++ "]")
      (d.name, d.required, d.type) (name, required, type)
  | none => refuse (s.place ++ ": no header param at index " ++ toString index)

def docMatches (s : Subject Template) (expected : TextMatch) : Checked Unit :=
  match s.part.doc with
  | some doc => matching expected doc.text (s.place ++ ".doc")
  | none => refuse (s.place ++ ": Expected a doc block, found none")

def docParamsAre (s : Subject Template) (expected : List String) : Checked Unit :=
  equalNames (s.place ++ ": doc params")
    ((s.part.doc.map fun doc => doc.params.map (·.name)).getD []) expected

def templateBody (s : Subject Template) : Subject (List Node) :=
  ⟨s.part.body, s.place ++ ".body"⟩

/-! ## Bodies and nodes -/

def summary (nodes : List Node) : String :=
  ", ".intercalate (nodes.map fun n => n.kind ++ "(" ++ n.label ++ ")")

def nodeCount (s : Subject (List Node)) (expected : Nat) : Checked Unit :=
  equalNat
    (s.place ++ ": Expected " ++ toString expected ++ " nodes, found " ++
      toString s.part.length ++ ": [" ++ summary s.part ++ "]")
    s.part.length expected

def node (s : Subject (List Node)) (index : Nat) : Checked (Subject Node) :=
  match s.part[index]? with
  | some n => .ok ⟨n, s.place ++ "[" ++ toString index ++ "]"⟩
  | none =>
    refuse (s.place ++ ": node index " ++ toString index ++ " out of bounds (" ++
      toString s.part.length ++ " nodes)")

def otherKind {α : Type} (s : Subject Node) (expected : String) : Checked α :=
  refuse (s.place ++ ": Expected " ++ expected ++ ", found " ++ s.part.kind ++ " " ++ s.part.label)

def text (s : Subject Node) : Checked (Subject String) :=
  match s.part with
  | .text _ content => .ok ⟨content, s.place⟩
  | _ => s.otherKind "Text"

def textMatches (s : Subject String) (expected : TextMatch) : Checked Unit :=
  matching expected s.part s.place

def interpolationIs (s : Subject Node) (expected : String) : Checked Unit :=
  match s.part with
  | .interpolation _ raw => equalText (s.place ++ ": interpolation") raw expected
  | _ => s.otherKind "Interpolation"

def command (s : Subject Node) (word : String) : Checked (Subject (List Node)) :=
  match s.part with
  | .control _ block body =>
    if block.word = word then .ok ⟨body, s.place ++ "." ++ word⟩
    else s.otherKind ("\x7b" ++ word ++ "\x7d block")
  | _ => s.otherKind ("\x7b" ++ word ++ "\x7d block")

/-! ## Calls -/

structure CallPart where
  target : String
  delegate : Bool
  params : List Param

def call (s : Subject Node) : Checked (Subject CallPart) :=
  match s.part with
  | .call _ target delegate params => .ok ⟨⟨target, delegate, params⟩, s.place⟩
  | _ => s.otherKind "Call"

def targetIs (s : Subject CallPart) (expected : String) : Checked Unit :=
  equalText (s.place ++ ": call target") s.part.target expected

def delegateIs (s : Subject CallPart) (expected : Bool) : Checked Unit :=
  equal showBool (s.place ++ ": delcall") s.part.delegate expected

def paramNamesAre (s : Subject CallPart) (expected : List String) : Checked Unit :=
  equalNames (s.place ++ ": call params") (s.part.params.map (·.name)) expected

def param (s : Subject CallPart) (name : String) : Checked Param :=
  match findParam s.part.params name with
  | some p => .ok p
  | none => refuse (s.place ++ ": no param named " ++ Text.quoteString name)

def paramExpression (s : Subject CallPart) (name : String) : Checked (Subject Expr) := do
  match (← s.param name).value with
  | .inline expr => .ok ⟨expr, s.place ++ "." ++ name⟩
  | .block _ => refuse (s.place ++ ": param " ++ Text.quoteString name ++ " has a block body")

def paramBody (s : Subject CallPart) (name : String) : Checked (Subject (List Node)) := do
  match (← s.param name).value with
  | .block body => .ok ⟨body, s.place ++ "." ++ name⟩
  | .inline expr =>
    refuse (s.place ++ ": param " ++ Text.quoteString name ++ " is inline (" ++ expr.toSource ++ ")")

/-! ## Bindings -/

structure BindingPart where
  name : String
  value : Value

def binding (s : Subject Node) : Checked (Subject BindingPart) :=
  match s.part with
  | .binding _ name value => .ok ⟨⟨name, value⟩, s.place⟩
  | _ => s.otherKind "Let"

def bindingNameIs (s : Subject BindingPart) (expected : String) : Checked Unit :=
  equalText (s.place ++ ": let name") s.part.name expected

def bindingExpression (s : Subject BindingPart) : Checked (Subject Expr) :=
  match s.part.value with
  | .inline expr => .ok ⟨expr, s.place ++ ".value"⟩
  | .block _ => refuse (s.place ++ ": let has a block body")

def bindingBody (s : Subject BindingPart) : Checked (Subject (List Node)) :=
  match s.part.value with
  | .block body => .ok ⟨body, s.place ++ ".body"⟩
  | .inline _ => refuse (s.place ++ ": let is inline")

/-! ## Expressions -/

def ofExpr (e : Expr) : Subject Expr :=
  ⟨e, "expression"⟩

def kindIs (s : Subject Expr) (expected : String) : Checked Unit :=
  equalText (s.place ++ ": " ++ s.part.toSource) s.part.kind expected

def sourceIs (s : Subject Expr) (expected : String) : Checked Unit :=
  equalText s.place s.part.toSource expected

/-- The mark of the expression covers this text of the source. -/
def marksText (s : Subject Expr) (source expected : String) : Checked Unit :=
  equalText (s.place ++ ": marked text") (s.part.mark.slice source) expected

end Subject

end SoyTree
