import SoyTree.Proofs.Grammar.File

/-! # Nesting of marks

The marks of a program form a tree of their own. After a parse every mark covers some source, the
marks below a node lie within its mark, and the marks of siblings follow each other.
-/

namespace SoyTree

/-- The mark of a node and, in source order, the marks below it. -/
inductive MarkTree where
  | node (mark : Mark) (children : List MarkTree)

namespace MarkTree

def mark : MarkTree → Mark
  | node mark _ => mark

/-- In a source with `length` characters every mark is nonempty, encloses the marks below it, and
ends before the next mark beside it starts. -/
inductive Proper (length : Nat) : MarkTree → Prop where
  | node {mark : Mark} {children : List MarkTree}
      (nonempty : mark.start.index < mark.stop.index)
      (within : mark.stop.index ≤ length)
      (enclosed : ∀ c ∈ children, mark.encloses c.mark = true)
      (ordered : children.Pairwise fun a b => a.mark.stop.index ≤ b.mark.start.index)
      (proper : ∀ c ∈ children, Proper length c) : Proper length (node mark children)

end MarkTree

section Trees

open MarkTree

mutual

def Expr.markTree : Expr → MarkTree
  | .reference mark _ => node mark []
  | .string literal => node literal.mark []
  | .boolean mark _ => node mark []
  | .number mark _ => node mark []
  | .map mark items => node mark (Expr.itemMarks items)
  | .call mark _ args => node mark (Expr.argMarks args)
  | .ternary mark cond left right => node mark [cond.markTree, left.markTree, right.markTree]
  | .raw mark _ => node mark []

def Expr.argMarks : List Expr → List MarkTree
  | [] => []
  | e :: rest => e.markTree :: Expr.argMarks rest

def Expr.itemMarks : List MapItem → List MarkTree
  | [] => []
  | .mk mark key value :: rest =>
    node mark [node key.mark [], value.markTree] :: Expr.itemMarks rest

end

mutual

def Node.markTree : Node → MarkTree
  | .text mark _ => node mark []
  | .interpolation mark _ => node mark []
  | .call mark _ _ params => node mark (Node.paramMarks params)
  | .binding mark _ value => node mark value.marks
  | .control mark _ body => node mark (Node.bodyMarks body)

def Value.marks : Value → List MarkTree
  | .inline expr => [expr.markTree]
  | .block body => Node.bodyMarks body

def Node.paramMarks : List Param → List MarkTree
  | [] => []
  | .mk mark _ value :: rest => node mark value.marks :: Node.paramMarks rest

def Node.bodyMarks : List Node → List MarkTree
  | [] => []
  | n :: rest => n.markTree :: Node.bodyMarks rest

end

def ParamDecl.markTree (d : ParamDecl) : MarkTree :=
  node d.mark []

def Attribute.markTree (a : Attribute) : MarkTree :=
  node a.mark []

def Doc.markTree (d : Doc) : MarkTree :=
  node d.mark (d.params.map ParamDecl.markTree)

def Template.markTree (t : Template) : MarkTree :=
  node t.mark (t.doc.toList.map Doc.markTree ++ (t.attributes.map Attribute.markTree ++
    (t.params.map ParamDecl.markTree ++ Node.bodyMarks t.body)))

def Program.markTree (p : Program) : MarkTree :=
  node p.mark (p.templates.map Template.markTree)

end Trees

namespace MarkTree

variable {lo hi lo' hi' : Nat} {t : MarkTree} {ts us : List MarkTree}

section Rows

theorem Proper.mono {m n : Nat} (h : t.Proper m) (hmn : m ≤ n) : t.Proper n := by
  induction h with
  | node nonempty within enclosed ordered proper ih =>
    exact .node nonempty (within.trans hmn) enclosed ordered ih

theorem Proper.bounds (h : t.Proper hi) :
    t.mark.start.index < t.mark.stop.index ∧ t.mark.stop.index ≤ hi := by
  cases h with
  | node nonempty within enclosed ordered proper => exact ⟨nonempty, within⟩

/-- Proper trees one after the other, all between two offsets. -/
def Row (hi : Nat) : (lo : Nat) → List MarkTree → Prop
  | lo, [] => lo ≤ hi
  | lo, t :: ts => lo ≤ t.mark.start.index ∧ t.Proper hi ∧ Row hi t.mark.stop.index ts

theorem Row.le (h : Row hi lo ts) : lo ≤ hi := by
  cases ts with
  | nil => exact h
  | cons t ts =>
    obtain ⟨hlo, ht, -⟩ := h
    have := ht.bounds
    omega

theorem Row.mono (h : Row hi lo ts) (hlo : lo' ≤ lo) (hhi : hi ≤ hi') : Row hi' lo' ts := by
  induction ts generalizing lo lo' with
  | nil => exact hlo.trans (h.trans hhi)
  | cons t ts ih => exact ⟨hlo.trans h.1, h.2.1.mono hhi, ih h.2.2 le_rfl⟩

theorem Row.append {mid : Nat} (h : Row mid lo ts) (h' : Row hi mid us) : Row hi lo (ts ++ us) := by
  induction ts generalizing lo with
  | nil => exact h'.mono h le_rfl
  | cons t ts ih => exact ⟨h.1, h.2.1.mono h'.le, ih h.2.2⟩

theorem Row.sublist (hs : us.Sublist ts) (h : Row hi lo ts) : Row hi lo us := by
  induction hs generalizing lo with
  | slnil => exact h
  | cons t hs ih =>
    have hlt := h.2.1.bounds.1
    exact ih (h.2.2.mono (h.1.trans hlt.le) le_rfl)
  | cons_cons t hs ih => exact ⟨h.1, h.2.1, ih h.2.2⟩

theorem Row.forall (h : Row hi lo ts) : ∀ t ∈ ts, lo ≤ t.mark.start.index ∧ t.Proper hi := by
  induction ts generalizing lo with
  | nil => simp
  | cons t ts ih =>
    rintro u (_ | ⟨_, hu⟩)
    · exact ⟨h.1, h.2.1⟩
    · obtain ⟨hlo, hu⟩ := ih h.2.2 u hu
      exact ⟨h.1.trans (h.2.1.bounds.1.le.trans hlo), hu⟩

theorem Row.ordered (h : Row hi lo ts) :
    ts.Pairwise fun a b => a.mark.stop.index ≤ b.mark.start.index := by
  induction ts generalizing lo with
  | nil => exact .nil
  | cons t ts ih => exact .cons (fun u hu => (h.2.2.forall u hu).1) (ih h.2.2)

/-- A mark around a row of proper trees is the root of a proper tree. -/
theorem Row.node {m : Mark} (h : Row hi lo ts) (hlo : m.start.index ≤ lo)
    (hhi : hi ≤ m.stop.index) (hm : m.start.index < m.stop.index) :
    (MarkTree.node m ts).Proper m.stop.index := by
  refine .node hm le_rfl (fun t ht => ?_) h.ordered fun t ht => (h.forall t ht).2.mono hhi
  obtain ⟨hstart, hproper⟩ := h.forall t ht
  have hstop := hproper.bounds.2
  exact decide_eq_true ⟨hlo.trans hstart, hstop.trans hhi⟩

end Rows

section Spans

open Concrete

variable {p : Position} {text : List Char}

/-- The tree of a text that starts at `p`. -/
structure Spans (p : Position) (text : List Char) (t : MarkTree) : Prop where
  mark : t.mark = markAt p text
  proper : t.Proper (p.index + text.length)

theorem Row.spans (h : Row hi lo ts) (hlo : p.index ≤ lo) (hhi : hi ≤ p.index + text.length)
    (hne : 0 < text.length) : Spans p text (MarkTree.node (markAt p text) ts) := by
  have hstop : (markAt p text).stop.index = p.index + text.length := Position.index_after p text
  have hm : (markAt p text).start.index < (markAt p text).stop.index := by
    rw [hstop]
    exact Nat.lt_add_of_pos_right hne
  refine ⟨rfl, ?_⟩
  rw [← hstop]
  exact h.node hlo (hhi.trans hstop.ge) hm

theorem spans_leaf (hne : 0 < text.length) : Spans p text (MarkTree.node (markAt p text) []) := by
  have h : Row p.index p.index [] := le_refl p.index
  exact h.spans le_rfl (Nat.le_add_right _ _) hne

theorem Spans.cons (h : Spans p text t) (hlo : lo ≤ p.index)
    (hts : Row hi (p.index + text.length) ts) : Row hi lo (t :: ts) := by
  refine ⟨?_, h.proper.mono hts.le, ?_⟩
  · rw [h.mark]
    exact hlo
  · rw [h.mark]
    exact (Position.index_after p text).symm ▸ hts

theorem Spans.row (h : Spans p text t) (hlo : lo ≤ p.index) (hhi : p.index + text.length ≤ hi) :
    Row hi lo [t] :=
  h.cons hlo hhi

end Spans

end MarkTree

namespace Concrete

open MarkTree

variable {p : Position} {home : List String}

section Expressions

theorem Quoted.spans (q : Quoted) : Spans p q.text (node (q.tree p).mark []) :=
  spans_leaf (by simp [Quoted.text])

mutual

theorem Expr.spans {inside : Bool} (p : Position) (e : Expr inside) :
    Spans p e.text (e.tree p).markTree := by
  match e with
  | .reference name => exact spans_leaf (by simp [Expr.text])
  | .string literal => exact literal.spans
  | .boolean value => exact spans_leaf (by cases value <;> simp [Expr.text])
  | .number numeral =>
    have := List.length_pos_of_ne_nil numeral.nonempty
    exact spans_leaf (by simp only [Expr.text, Numeral.text, List.length_append]; omega)
  | .map before items behind =>
    have h := Items.row (p.after ('[' :: before.chars)) items
    refine h.spans ?_ ?_ ?_ <;> simp only [Expr.text, Position.index_after, List.length_cons,
      List.length_append] <;> omega
  | .call name before args behind =>
    have h := Args.row (p.after (name.chars ++ '(' :: before.chars)) args
    refine h.spans ?_ ?_ ?_ <;> simp only [Expr.text, Position.index_after, List.length_cons,
      List.length_append] <;> omega
  | .ternary cond gap₁ gap₂ left gap₃ gap₄ right =>
    have hcond := Expr.spans p cond
    have hleft := Expr.spans ((p.after cond.text).after (gap₁.chars ++ '?' :: gap₂.chars)) left
    have hright := Expr.spans ((((p.after cond.text).after (gap₁.chars ++ '?' :: gap₂.chars)).after
      left.text).after (gap₃.chars ++ ':' :: gap₄.chars)) right
    refine (hcond.cons le_rfl (hleft.cons ?_ (hright.row ?_ le_rfl))).spans le_rfl ?_ ?_ <;>
      simp only [Expr.text, Position.index_after, List.length_cons, List.length_append] <;> omega
  | .raw text =>
    refine spans_leaf (List.length_pos_of_ne_nil fun h => ?_)
    have hvisible := text.visible
    rw [show text.chars = [] from h] at hvisible
    cases hvisible

theorem Args.row (p : Position) (args : Args) :
    Row (p.index + args.text.length) p.index (SoyTree.Expr.argMarks (args.trees p)) := by
  match args with
  | .nil => exact Nat.le_refl _
  | .cons separator value rest =>
    have hvalue := Expr.spans (p.after separator.chars) value
    have hrest := Args.row ((p.after separator.chars).after value.text) rest
    refine hvalue.cons ?_ (hrest.mono ?_ ?_) <;> simp only [Args.text, Position.index_after,
      List.length_append] <;> omega

theorem Items.row (p : Position) (items : Items) :
    Row (p.index + items.text.length) p.index (SoyTree.Expr.itemMarks (items.trees p)) := by
  match items with
  | .nil => exact Nat.le_refl _
  | .cons separator key gap₁ gap₂ value rest =>
    let q := p.after separator.chars
    let r := (q.after key.text).after (gap₁.chars ++ ':' :: gap₂.chars)
    let text := key.text ++ (gap₁.chars ++ (':' :: (gap₂.chars ++ value.text)))
    have hkey := key.spans (p := q)
    have hvalue := Expr.spans r value
    have hrest := Items.row (q.after text) rest
    have hitem : Spans q text (node (markAt q text) [node (key.tree q).mark [],
        (value.tree r).markTree]) := by
      refine (hkey.cons le_rfl (hvalue.row ?_ le_rfl)).spans le_rfl ?_ ?_ <;>
        simp only [r, text, Position.index_after, List.length_append, List.length_cons] <;> omega
    refine hitem.cons ?_ (hrest.mono ?_ ?_) <;> simp only [Items.text, q, text,
      Position.index_after, List.length_append, List.length_cons] <;> omega

end

end Expressions

section Bodies

mutual

theorem Item.spans (home : List String) (p : Position) (i : Item) :
    Spans p i.text (i.tree home p).markTree := by
  match i with
  | .plain content => exact spans_leaf (List.length_pos_of_ne_nil content.nonempty)
  | .interpolation raw => exact spans_leaf (by simp [Item.text])
  | .closedCall head => exact spans_leaf (by simp [Item.text])
  | .blockCall head open_ params gap close =>
    have h := Params.row home (p.after (head.text ++ ['\x7d'])) params
    refine h.spans ?_ ?_ ?_ <;> simp only [Item.text, Position.index_after, List.length_cons,
      List.length_append, List.length_nil] <;> omega
  | .binding gap name value =>
    have h := Binding.row home "let" (p.after (letHead gap name)) value
    refine h.spans ?_ ?_ ?_ <;> simp only [Item.text, letHead, Position.index_after,
      List.length_cons, List.length_append] <;> omega
  | .control block parsed args body close =>
    have h := Body.row home (p.after (tagText block.word args.chars)) body
    refine h.spans ?_ ?_ ?_ <;> simp only [Item.text, tagText, Position.index_after,
      List.length_cons, List.length_append] <;> omega
  | .literal gap content close =>
    simp only [Item.tree, Node.markTree]
    split
    · exact spans_leaf (by simp [Item.text, literalHead])
    · have hcontent : 0 < content.chars.length :=
        List.length_pos_of_ne_nil (by simpa using ‹¬ content.chars.isEmpty = true›)
      have h := (spans_leaf (p := p.after (literalHead gap)) hcontent).row le_rfl le_rfl
      refine h.spans ?_ ?_ ?_ <;> simp only [Item.text, literalHead, Position.index_after,
        List.length_cons, List.length_append] <;> omega

theorem Binding.row (home : List String) (word : String) (p : Position) (b : Binding) :
    Row (p.index + (b.text word).length) p.index (b.tree home p).marks := by
  match b with
  | .inline gap₁ gap₂ value gap₃ =>
    have h := Expr.spans (p.after (gap₁.chars ++ ':' :: gap₂.chars)) value
    refine h.row ?_ ?_ <;> simp only [Binding.text, Position.index_after, List.length_append,
      List.length_cons] <;> omega
  | .block attrs gap body close =>
    have h := Body.row home (p.after (attrsText attrs ++ (gap.chars ++ ['\x7d']))) body
    refine h.mono ?_ ?_ <;> simp only [Binding.text, Position.index_after, List.length_append,
      List.length_cons, List.length_nil] <;> omega

theorem Params.row (home : List String) (p : Position) (ps : Params) :
    Row (p.index + ps.text.length) p.index (Node.paramMarks (ps.trees home p)) := by
  match ps with
  | .nil => exact Nat.le_refl _
  | .cons lead gap name value rest =>
    let q := p.after lead.chars
    let text := paramHead gap name ++ value.text "param"
    have hvalue := Binding.row home "param" (q.after (paramHead gap name)) value
    have hrest := Params.row home (q.after text) rest
    have hparam : Spans q text (node (markAt q text)
        (value.tree home (q.after (paramHead gap name))).marks) := by
      refine hvalue.spans ?_ ?_ ?_ <;> simp only [text, paramHead, Position.index_after,
        List.length_append, List.length_cons] <;> omega
    refine hparam.cons ?_ (hrest.mono ?_ ?_) <;> simp only [Params.text, q, text,
      Position.index_after, List.length_append] <;> omega

theorem Body.row {interior : List String} (home : List String) (p : Position)
    (b : Body interior) : Row (p.index + b.text.length) p.index (Node.bodyMarks (b.trees home p)) := by
  match b with
  | .nil => exact Nat.le_refl _
  | .item first rest =>
    have hfirst := Item.spans home p first
    have hrest := Body.row home (p.after first.text) rest
    refine hfirst.cons le_rfl (hrest.mono ?_ ?_) <;> simp only [Body.text, Position.index_after,
      List.length_append] <;> omega
  | .tag word allowed args rest =>
    have hrest := Body.row home (p.after (tagText word args.chars)) rest
    refine hrest.mono ?_ ?_ <;> simp only [Body.text, Position.index_after, List.length_append] <;>
      omega

end

end Bodies

section Templates

theorem attrs_row (p : Position) (attrs : List Attr) :
    Row (p.index + (attrsText attrs).length) p.index
      ((attrsTree attrs p).map Attribute.markTree) := by
  induction attrs generalizing p with
  | nil => exact Nat.le_refl _
  | cons a rest ih =>
    have ha : Spans (p.after a.gap.chars) a.pair.text (a.tree p).markTree :=
      spans_leaf (by simp only [Pair.text, List.length_append, List.length_cons]; omega)
    refine ha.cons ?_ ((ih (p.after a.text)).mono ?_ ?_) <;> simp only [attrsText, Attr.text,
      Position.index_after, List.flatMap_cons, List.length_append] <;> omega

theorem headerParams_row (p : Position) (ds : List HeaderParam) :
    Row (p.index + (headerParamsText ds).length) p.index
      ((headerParamsTree p ds).map ParamDecl.markTree) := by
  induction ds generalizing p with
  | nil => exact Nat.le_refl _
  | cons d rest ih =>
    have htag : d.tag ≠ [] := fun h => absurd (List.append_eq_nil_iff.1 h).1 (by decide)
    have hd : Spans (p.after d.lead.chars) d.tag (d.tree p).markTree :=
      spans_leaf (List.length_pos_of_ne_nil htag)
    refine hd.cons ?_ ((ih (p.after d.text)).mono ?_ ?_) <;> simp only [headerParamsText,
      HeaderParam.text, Position.index_after, List.length_append] <;> omega

theorem docLine_row (p : Position) (l : DocLine) :
    Row (p.index + l.text.length) p.index
      (((l.tree p).param?.toList).map ParamDecl.markTree) := by
  cases l with
  | param lead optional gap name tail =>
    have hmention : DocLine.mention optional gap name ≠ [] :=
      fun h => absurd (List.append_eq_nil_iff.1 h).1 (by decide)
    have h : Spans (p.after lead) (DocLine.mention optional gap name)
        (node (markAt (p.after lead) (DocLine.mention optional gap name)) []) :=
      spans_leaf (List.length_pos_of_ne_nil hmention)
    refine h.row ?_ ?_ <;> simp only [DocLine.text, Position.index_after, List.length_append] <;>
      omega
  | prose margin content => exact Nat.le_add_right _ _

theorem filterMap_cons_toList {α β : Type} (f : α → Option β) (a : α) (l : List α) :
    (a :: l).filterMap f = (f a).toList ++ l.filterMap f := by
  cases h : f a <;> simp [h]

theorem moreLines_row (p : Position) (ls : List DocLine) :
    Row (p.index + (moreLinesText ls).length) p.index
      (((moreLinesTree p ls).filterMap Grammar.DocLine.param?).map ParamDecl.markTree) := by
  induction ls generalizing p with
  | nil => exact Nat.le_refl _
  | cons l rest ih =>
    rw [moreLinesTree, filterMap_cons_toList, List.map_append]
    have hl := docLine_row (p.next '\n') l
    have hrest := ih ((p.next '\n').after l.text)
    rw [Position.index_after] at hrest
    refine (hl.append hrest).mono ?_ ?_ <;> simp only [moreLinesText, Position.index_next,
      List.length_cons, List.length_append] <;> omega

theorem DocBlock.spans (d : DocBlock) : Spans p d.text (d.tree p).markTree := by
  have h : Row ((p.after "/**".toList).index + (linesText d.lines).length)
      (p.after "/**".toList).index (((linesTree (p.after "/**".toList) d.lines).filterMap
        Grammar.DocLine.param?).map ParamDecl.markTree) := by
    cases d.lines with
    | nil => exact Nat.le_refl _
    | cons l rest =>
      rw [linesTree, filterMap_cons_toList, List.map_append]
      have hl := docLine_row (p.after "/**".toList) l
      have hrest := moreLines_row ((p.after "/**".toList).after l.text) rest
      rw [Position.index_after] at hrest
      refine (hl.append hrest).mono le_rfl ?_
      simp only [linesText, List.length_append]
      omega
  have hopen : 0 < "/**".toList.length := by decide
  refine h.spans ?_ ?_ ?_ <;> simp only [DocBlock.text, Position.index_after,
    List.length_append] <;> omega

/-- Without its variant attribute a template still has its attributes in order. -/
theorem attributes_row (home : List String) (t : Template) :
    Row ((p.after t.docText).index + t.headText.length) (p.after t.docText).index
      ((t.tree home p).attributes.map Attribute.markTree) := by
  have h := attrs_row ((p.after t.docText).after t.nameText) t.attrs
  have hrow : Row ((p.after t.docText).index + t.headText.length) (p.after t.docText).index
      ((attrsTree t.attrs ((p.after t.docText).after t.nameText)).map Attribute.markTree) := by
    refine h.mono ?_ ?_ <;> simp only [Template.headText, Position.index_after,
      List.length_append] <;> omega
  refine Row.sublist (List.Sublist.map _ ?_) hrow
  simp only [Template.tree]
  split
  · exact List.filter_sublist
  · exact List.Sublist.refl _

theorem doc_row (home : List String) (t : Template) :
    Row (p.index + t.docText.length) p.index ((t.tree home p).doc.toList.map Doc.markTree) := by
  simp only [Template.tree, Template.docText]
  cases t.doc with
  | none => exact Nat.le_refl _
  | some d => exact d.1.spans.row le_rfl (by simp only [List.length_append]; omega)

theorem Template.spans (home : List String) (p : Position) (t : Template) :
    Spans p t.text (t.tree home p).markTree := by
  have hdoc := doc_row (p := p) home t
  have hattrs := attributes_row (p := p) home t
  have hparams := headerParams_row ((p.after t.docText).after t.headText) t.params
  have hbody := Body.row home (((p.after t.docText).after t.headText).after
    (headerParamsText t.params)) t.body
  simp only [Position.index_after] at hattrs hparams hbody
  refine (hdoc.append (hattrs.append (hparams.append hbody))).spans le_rfl ?_ ?_ <;>
    simp only [Template.text, Template.headText, Template.nameText, List.length_append,
      List.length_cons] <;> omega

theorem entries_row (home : List String) (p : Position) (es : List Entry) :
    Row (p.index + (entriesText es).length) p.index
      ((entriesTree home p es).map SoyTree.Template.markTree) := by
  induction es generalizing p with
  | nil => exact Nat.le_refl _
  | cons e rest ih =>
    have he := Template.spans home (p.after e.lead.chars) e.template
    have hrest := ih ((p.after e.lead.chars).after e.template.text)
    refine he.cons ?_ (hrest.mono ?_ ?_) <;> simp only [entriesText, Position.index_after,
      List.length_append] <;> omega

theorem File.proper (f : File) : f.program.markTree.Proper f.text.length := by
  let p := Position.origin.after f.lead.chars
  have hentries := entries_row f.tag.segments (p.after f.tag.text) f.entries
  have h : Spans p (f.tag.text ++ entriesText f.entries) f.program.markTree := by
    refine hentries.spans ?_ ?_ ?_ <;> simp only [NamespaceTag.text, Position.index_after,
      List.length_append, List.length_cons] <;> omega
  refine h.proper.mono ?_
  simp only [p, File.text, Position.index_after, Position.origin, List.length_append]
  omega

end Templates

end Concrete

/-- After a parse the marks of the program nest: each covers at least one character of the source,
lies within the mark of the node above it, and ends before the mark beside it starts. -/
theorem parse_marks_nest {source : String} {options : Options} {program : Program}
    (h : parseWith source options = .ok program) : program.markTree.Proper source.length := by
  obtain ⟨f, htext, rfl⟩ := Grammar.parse_spelled h
  have hf := f.proper
  rwa [htext, String.length_toList] at hf

def markedSample : String :=
  "\x7bnamespace a.b\x7d\n/** Doc.\n * @param? x\n */\n\x7btemplate .t kind=\"k\"\x7d " ++
    "\x7b@param p: s\x7dtext\x7bif $p\x7d\x7bcall .u\x7d " ++
    "\x7bparam q: f(['k': $p], 2) ? $a : $b ? 1 : 'c' /\x7d\x7b/call\x7d\x7belse\x7d\x7b$x\x7d" ++
    "\x7b/if\x7d\x7b/template\x7d // end\n\x7bdeltemplate d variant=\"v\" w=\"\"\x7d" ++
    "\x7blet $y\x7dz\x7b/let\x7d\x7bliteral\x7d\x7b\x7b/literal\x7d\x7b/deltemplate\x7d"

theorem markedSample_marks_nest : ∃ program, parseWith markedSample {} = .ok program ∧
    program.markTree.Proper markedSample.length := by
  obtain ⟨program, h⟩ := Grammar.exists_program markedSample {} (by decide +kernel)
  exact ⟨program, h, parse_marks_nest h⟩

end SoyTree
