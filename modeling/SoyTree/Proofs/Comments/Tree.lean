import SoyTree.Proofs.Concrete.File
import SoyTree.Proofs.Grammar.Values
import SoyTree.Proofs.Rule.Moved

/-! # Trees of moved texts

The tree of a text that is moved is the tree of the text with all its marks moved along.
-/

namespace SoyTree

section Trees

variable (φ : Position → Position)

def Mark.moved (m : Mark) : Mark :=
  ⟨φ m.start, φ m.stop⟩

def Literal.moved (l : Literal) : Literal :=
  ⟨l.mark.moved φ, l.value⟩

mutual

def Expr.moved : Expr → Expr
  | .reference mark name => .reference (mark.moved φ) name
  | .string literal => .string (literal.moved φ)
  | .boolean mark value => .boolean (mark.moved φ) value
  | .number mark value => .number (mark.moved φ) value
  | .map mark items => .map (mark.moved φ) (Expr.itemsMoved items)
  | .call mark name args => .call (mark.moved φ) name (Expr.argsMoved args)
  | .ternary mark cond left right => .ternary (mark.moved φ) cond.moved left.moved right.moved
  | .raw mark text => .raw (mark.moved φ) text

def Expr.argsMoved : List Expr → List Expr
  | [] => []
  | e :: rest => e.moved :: Expr.argsMoved rest

def Expr.itemsMoved : List MapItem → List MapItem
  | [] => []
  | .mk mark key value :: rest =>
    .mk (mark.moved φ) (key.moved φ) value.moved :: Expr.itemsMoved rest

end

def MapItem.moved : MapItem → MapItem
  | .mk mark key value => .mk (mark.moved φ) (key.moved φ) (value.moved φ)

mutual

def Node.moved : Node → Node
  | .text mark content => .text (mark.moved φ) content
  | .interpolation mark raw => .interpolation (mark.moved φ) raw
  | .call mark target delegate params => .call (mark.moved φ) target delegate (Node.paramsMoved params)
  | .binding mark name value => .binding (mark.moved φ) name value.moved
  | .control mark block body => .control (mark.moved φ) block (Node.bodyMoved body)

def Value.moved : Value → Value
  | .inline e => .inline (e.moved φ)
  | .block body => .block (Node.bodyMoved body)

def Node.paramsMoved : List Param → List Param
  | [] => []
  | .mk mark name value :: rest => .mk (mark.moved φ) name value.moved :: Node.paramsMoved rest

def Node.bodyMoved : List Node → List Node
  | [] => []
  | n :: rest => n.moved :: Node.bodyMoved rest

end

def Attribute.moved (a : Attribute) : Attribute :=
  { a with mark := a.mark.moved φ }

def ParamDecl.moved (d : ParamDecl) : ParamDecl :=
  { d with mark := d.mark.moved φ }

def Doc.moved (d : Doc) : Doc :=
  ⟨d.mark.moved φ, d.text, d.params.map (ParamDecl.moved φ)⟩

def Template.moved (t : Template) : Template where
  mark := t.mark.moved φ
  kind := t.kind
  doc := t.doc.map (Doc.moved φ)
  name := t.name
  attributes := t.attributes.map (Attribute.moved φ)
  params := t.params.map (ParamDecl.moved φ)
  body := Node.bodyMoved φ t.body

theorem Expr.argsMoved_eq (args : List Expr) : Expr.argsMoved φ args = args.map (Expr.moved φ) := by
  induction args with
  | nil => rfl
  | cons e args ih => rw [Expr.argsMoved, ih, List.map_cons]

theorem Expr.itemsMoved_eq (items : List MapItem) :
    Expr.itemsMoved φ items = items.map (MapItem.moved φ) := by
  induction items with
  | nil => rfl
  | cons item items ih =>
    obtain ⟨mark, key, value⟩ := item
    rw [Expr.itemsMoved, ih]
    rfl

mutual

theorem Node.values_moved : ∀ n : Node, (n.moved φ).values = n.values.map (Expr.moved φ)
  | .text _ _ => rfl
  | .interpolation _ _ => rfl
  | .call _ _ _ params => Node.paramsValues_moved params
  | .binding _ _ value => value.values_moved
  | .control _ _ body => Node.bodyValues_moved body

theorem Value.values_moved : ∀ v : Value, (v.moved φ).values = v.values.map (Expr.moved φ)
  | .inline _ => rfl
  | .block body => Node.bodyValues_moved body

theorem Node.paramsValues_moved : ∀ params : List Param,
    Node.paramsValues (Node.paramsMoved φ params) = (Node.paramsValues params).map (Expr.moved φ)
  | [] => rfl
  | .mk _ _ value :: rest => by
    rw [Node.paramsMoved, Node.paramsValues, Node.paramsValues, value.values_moved,
      Node.paramsValues_moved rest, List.map_append]

theorem Node.bodyValues_moved : ∀ body : List Node,
    Node.bodyValues (Node.bodyMoved φ body) = (Node.bodyValues body).map (Expr.moved φ)
  | [] => rfl
  | n :: rest => by
    rw [Node.bodyMoved, Node.bodyValues, Node.bodyValues, n.values_moved, Node.bodyValues_moved rest,
      List.map_append]

end

end Trees

namespace Grammar

variable (φ : Position → Position)

def DocLine.moved : DocLine → DocLine
  | .param decl => .param (decl.moved φ)
  | .text line => .text line

theorem docText_moved (lines : List DocLine) :
    docText (lines.map (DocLine.moved φ)) = docText lines := by
  have htext : DocLine.text? ∘ DocLine.moved φ = DocLine.text? := by
    funext line
    cases line <;> rfl
  rw [docText, List.filterMap_map, htext, docText]

theorem docParams_moved (lines : List DocLine) :
    (lines.map (DocLine.moved φ)).filterMap DocLine.param? =
      (lines.filterMap DocLine.param?).map (ParamDecl.moved φ) := by
  rw [List.filterMap_map, List.map_filterMap]
  refine congrArg (List.filterMap · lines) (funext fun line => ?_)
  cases line <;> rfl

/-- Moving an attribute does not turn it into the one that names the variant. -/
theorem variant_moved (attrs : List Attribute) :
    ((attrs.map (Attribute.moved φ)).find? isVariant).map (·.value) =
      (attrs.find? isVariant).map (·.value) := by
  rw [List.find?_map, Option.map_map]
  rfl

theorem others_moved (attrs : List Attribute) :
    (attrs.map (Attribute.moved φ)).filter (!isVariant ·) =
      (attrs.filter (!isVariant ·)).map (Attribute.moved φ) :=
  List.filter_map ..

end Grammar

namespace Concrete

open Position

variable {φ : Position → Position} {p p' : Position} {home : List String}

theorem markAt_moved (h : Moved φ p p') (text : List Char) :
    (markAt p text).moved φ = markAt p' text := by
  rw [Mark.moved, markAt, h.eq, h text, markAt]

theorem Quoted.tree_moved (q : Quoted) (h : Moved φ p p') : (q.tree p).moved φ = q.tree p' := by
  rw [Quoted.tree, Literal.moved, markAt_moved h, Quoted.tree]

mutual

theorem Expr.tree_moved {inside : Bool} (e : Expr inside) {p p' : Position} (h : Moved φ p p') :
    (e.tree p).moved φ = e.tree p' := by
  match e with
  | .reference name => simp only [Expr.tree, SoyTree.Expr.moved, markAt_moved h]
  | .string literal => simp only [Expr.tree, SoyTree.Expr.moved, literal.tree_moved h]
  | .boolean value => simp only [Expr.tree, SoyTree.Expr.moved, markAt_moved h]
  | .number numeral => simp only [Expr.tree, SoyTree.Expr.moved, markAt_moved h]
  | .map before items behind =>
    simp only [Expr.tree, SoyTree.Expr.moved, markAt_moved h, items.trees_moved (h.after _)]
  | .call name before args behind =>
    simp only [Expr.tree, SoyTree.Expr.moved, markAt_moved h, args.trees_moved (h.after _)]
  | .ternary cond gap₁ gap₂ left gap₃ gap₄ right =>
    simp only [Expr.tree, SoyTree.Expr.moved, markAt_moved h, cond.tree_moved h,
      left.tree_moved ((h.after _).after _),
      right.tree_moved ((((h.after _).after _).after _).after _)]
  | .raw text => simp only [Expr.tree, SoyTree.Expr.moved, markAt_moved h]

theorem Args.trees_moved (args : Args) {p p' : Position} (h : Moved φ p p') :
    SoyTree.Expr.argsMoved φ (args.trees p) = args.trees p' := by
  match args with
  | .nil => rfl
  | .cons separator value rest =>
    simp only [Args.trees, SoyTree.Expr.argsMoved, value.tree_moved (h.after _),
      rest.trees_moved ((h.after _).after _)]

theorem Items.trees_moved (items : Items) {p p' : Position} (h : Moved φ p p') :
    SoyTree.Expr.itemsMoved φ (items.trees p) = items.trees p' := by
  match items with
  | .nil => rfl
  | .cons separator key gap₁ gap₂ value rest =>
    simp only [Items.trees, SoyTree.Expr.itemsMoved, markAt_moved (h.after _),
      key.tree_moved (h.after _), value.tree_moved (((h.after _).after _).after _),
      rest.trees_moved ((h.after _).after _)]

end

mutual

theorem Item.tree_moved (i : Item) {p p' : Position} (h : Moved φ p p') :
    (i.tree home p).moved φ = i.tree home p' := by
  match i with
  | .plain content => simp only [Item.tree, Node.moved, markAt_moved h]
  | .interpolation raw => simp only [Item.tree, Node.moved, markAt_moved h]
  | .closedCall head => simp only [Item.tree, Node.moved, Node.paramsMoved, markAt_moved h]
  | .blockCall head open_ params gap close =>
    simp only [Item.tree, Node.moved, markAt_moved h, params.trees_moved (h.after _)]
  | .binding gap name value =>
    simp only [Item.tree, Node.moved, markAt_moved h, value.tree_moved (h.after _)]
  | .control block parsed args body close =>
    simp only [Item.tree, Node.moved, markAt_moved h, body.trees_moved (h.after _)]
  | .literal gap content close =>
    by_cases hempty : content.chars.isEmpty
    · simp only [Item.tree, Node.moved, markAt_moved h, hempty, if_true, Node.bodyMoved]
    · simp only [Item.tree, Node.moved, markAt_moved h, hempty, Bool.false_eq_true, if_false,
        Node.bodyMoved, markAt_moved (h.after _)]

theorem Binding.tree_moved (b : Binding) {p p' : Position} (h : Moved φ p p') :
    (b.tree home p).moved φ = b.tree home p' := by
  match b with
  | .inline gap₁ gap₂ value gap₃ =>
    simp only [Binding.tree, Value.moved, value.tree_moved (h.after _)]
  | .block attrs gap body close =>
    simp only [Binding.tree, Value.moved, body.trees_moved (h.after _)]

theorem Params.trees_moved (params : Params) {p p' : Position} (h : Moved φ p p') :
    Node.paramsMoved φ (params.trees home p) = params.trees home p' := by
  match params with
  | .nil => rfl
  | .cons lead gap name value rest =>
    simp only [Params.trees, Node.paramsMoved, markAt_moved (h.after _),
      value.tree_moved ((h.after _).after _), rest.trees_moved ((h.after _).after _)]

theorem Body.trees_moved {interior : List String} (body : Body interior) {p p' : Position}
    (h : Moved φ p p') : Node.bodyMoved φ (body.trees home p) = body.trees home p' := by
  match body with
  | .nil => rfl
  | .item first rest =>
    simp only [Body.trees, Node.bodyMoved, first.tree_moved h, rest.trees_moved (h.after _)]
  | .tag word _ args rest => simp only [Body.trees, rest.trees_moved (h.after _)]

end

theorem attrsTree_moved (attrs : List Attr) (h : Moved φ p p') :
    (attrsTree attrs p).map (Attribute.moved φ) = attrsTree attrs p' := by
  induction attrs generalizing p p' with
  | nil => rfl
  | cons a rest ih =>
    simp only [attrsTree, List.map_cons, ih (h.after _), Attr.tree, Pair.tree, Attribute.moved,
      markAt_moved (h.after _)]

theorem headerParamsTree_moved (params : List HeaderParam) (h : Moved φ p p') :
    (headerParamsTree p params).map (ParamDecl.moved φ) = headerParamsTree p' params := by
  induction params generalizing p p' with
  | nil => rfl
  | cons d rest ih =>
    simp only [headerParamsTree, List.map_cons, ih (h.after _), HeaderParam.tree, ParamDecl.moved,
      markAt_moved (h.after _)]

theorem DocLine.tree_moved (line : DocLine) (h : Moved φ p p') :
    (line.tree p).moved φ = line.tree p' := by
  cases line with
  | param lead optional gap name tail =>
    simp only [DocLine.tree, Grammar.DocLine.moved, ParamDecl.moved, markAt_moved (h.after _)]
  | prose margin content => rfl

theorem moreLinesTree_moved (lines : List DocLine) (h : Moved φ p p') :
    (moreLinesTree p lines).map (Grammar.DocLine.moved φ) = moreLinesTree p' lines := by
  induction lines generalizing p p' with
  | nil => rfl
  | cons line rest ih =>
    have hbreak : Moved φ (p.next '\n') (p'.next '\n') := h.after ['\n']
    simp only [moreLinesTree, List.map_cons, line.tree_moved hbreak, ih (hbreak.after _)]

theorem linesTree_moved (lines : List DocLine) (h : Moved φ p p') :
    (linesTree p lines).map (Grammar.DocLine.moved φ) = linesTree p' lines := by
  cases lines with
  | nil => rfl
  | cons line rest =>
    simp only [linesTree, List.map_cons, line.tree_moved h, moreLinesTree_moved rest (h.after _)]

theorem DocBlock.tree_moved (d : DocBlock) (h : Moved φ p p') : (d.tree p).moved φ = d.tree p' := by
  simp only [DocBlock.tree, Doc.moved, markAt_moved h, ← linesTree_moved d.lines (h.after _),
    Grammar.docText_moved, Grammar.docParams_moved]

theorem Template.tree_moved (T : Concrete.Template) (h : Moved φ p p') :
    (T.tree home p).moved φ = T.tree home p' := by
  have hdoc := h.after T.docText
  have hattrs := attrsTree_moved T.attrs (hdoc.after T.nameText)
  have hparams := headerParamsTree_moved T.params (hdoc.after T.headText)
  have hbody := (hdoc.after T.headText).after (headerParamsText T.params)
  have hblock : (T.doc.map fun d => d.1.tree p).map (Doc.moved φ) = T.doc.map fun d => d.1.tree p' := by
    rw [Option.map_map]
    exact congrArg (Option.map · T.doc) (funext fun d => d.1.tree_moved h)
  simp only [Template.tree, Template.moved, markAt_moved h, hblock, hparams,
    T.body.trees_moved hbody, ← hattrs,
    Grammar.variant_moved, apply_ite (List.map (Attribute.moved φ)), Grammar.others_moved]

theorem entriesTree_moved (es : List Entry) (h : Moved φ p p') :
    (entriesTree home p es).map (Template.moved φ) = entriesTree home p' es := by
  induction es generalizing p p' with
  | nil => rfl
  | cons e es ih =>
    rw [entriesTree, List.map_cons, e.template.tree_moved (h.after _), ih ((h.after _).after _),
      entriesTree]

end Concrete

end SoyTree
