import SoyTree.Proofs.Grammar.File

/-! # Coverage of the source

After a parse every character of the source belongs to a marked part, to a tag of the construct
around it, or to blanks and comments at a place where the grammar allows them.
-/

namespace SoyTree

open Concrete

section Parts

variable (source : List Char)

/-- Marked parts of the source with blanks in front of each. -/
inductive Led : List Mark → List Char → Prop where
  | nil : Led [] []
  | cons {m : Mark} {ms : List Mark} {rest : List Char} (lead : Blanks) (h : Led ms rest) :
      Led (m :: ms) (lead.chars ++ (m.sliceChars source ++ rest))

/-- Marked parts of the source with tags of the `interior` commands among them. -/
inductive Interleaved (interior : List String) : List Mark → List Char → Prop where
  | nil : Interleaved interior [] []
  | part {m : Mark} {ms : List Mark} {rest : List Char} (h : Interleaved interior ms rest) :
      Interleaved interior (m :: ms) (m.sliceChars source ++ rest)
  | tag {ms : List Mark} {rest : List Char} (word : String) (allowed : word ∈ interior)
      (args : TagArgs) (h : Interleaved interior ms rest) :
      Interleaved interior ms (tagText word args.chars ++ rest)

/-- An opening part, a body of `nodes` and the closing tag of `word`. -/
def IsBlock (word : String) (interior : List String) (opening : List Char) (nodes : List Node)
    (text : List Char) : Prop :=
  ∃ (body : List Char) (close : Blanks), Interleaved source interior (nodes.map Node.mark) body ∧
    text = opening ++ (body ++ closeText word close)

/-- The start of a tag, and a value: either the rest of the tag with an expression in it, or the
rest of the tag with attributes, a body, and the closing tag of `word`. -/
def IsBinding (word : String) (head : List Char) (value : Value) (text : List Char) : Prop :=
  match value with
  | .inline e => ∃ gap₁ gap₂ gap₃ : Blanks, text = head ++ (gap₁.chars ++ (':' :: (gap₂.chars ++
      (e.mark.sliceChars source ++ (gap₃.chars ++ ['/', '\x7d'])))))
  | .block body => ∃ (attrs : List Attr) (gap : Blanks),
      IsBlock source word [] (head ++ (attrsText attrs ++ (gap.chars ++ ['\x7d']))) body text

/-- A tag that closes itself, or an opening tag, parameters with blanks in front of each, blanks
and a closing tag. -/
def IsCall (delegate : Bool) (params : List Param) (text : List Char) : Prop :=
  ∃ head : CallHead, head.delegate = delegate ∧
    (params = [] ∧ text = head.text ++ ['/', '\x7d'] ∨
      head.extra.chars.getLast? ≠ some '/' ∧ ∃ (body : List Char) (gap close : Blanks),
        Led source (params.map Param.mark) body ∧ text = head.text ++ ('\x7d' ::
          (body ++ (gap.chars ++ closeText (callWord delegate) close))))

mutual

/-- Every construct within a node is made up of its opening part, what stands below it, and its
closing tag. -/
def Node.Covered : Node → Prop
  | .text mark content => mark.sliceChars source = content.toList
  | .interpolation mark raw => mark.sliceChars source = '\x7b' :: (raw.toList ++ ['\x7d'])
  | .call mark _ delegate params =>
    IsCall source delegate params (mark.sliceChars source) ∧ Node.ParamsCovered params
  | .binding mark name value =>
    (∃ (gap : Gap) (word : Word), name = String.ofList word.chars ∧
      IsBinding source "let" (letHead gap word) value (mark.sliceChars source)) ∧ value.Covered
  | .control mark block body =>
    (∃ args : TagArgs, IsBlock source block.word block.interior (tagText block.word args.chars) body
      (mark.sliceChars source)) ∧ Node.BodyCovered body

def Value.Covered : Value → Prop
  | .inline _ => True
  | .block body => Node.BodyCovered body

def Node.ParamsCovered : List Param → Prop
  | [] => True
  | .mk mark name value :: rest =>
    (∃ (gap : Gap) (word : Word), name = String.ofList word.chars ∧
      IsBinding source "param" (paramHead gap word) value (mark.sliceChars source)) ∧
      value.Covered ∧ Node.ParamsCovered rest

def Node.BodyCovered : List Node → Prop
  | [] => True
  | n :: rest => n.Covered ∧ Node.BodyCovered rest

end

/-- A doc block is one comment, with blanks behind it. -/
def IsDoc (doc : Option Doc) (text : List Char) : Prop :=
  match doc with
  | none => text = []
  | some doc => ∃ (inner : List Char) (gap : Blanks), Unended (inner ++ ['*']) ∧
      doc.mark.sliceChars source = "/**".toList ++ (inner ++ "*/".toList) ∧
      text = doc.mark.sliceChars source ++ gap.chars

def TemplateKind.word : TemplateKind → String
  | .plain => "template"
  | .delegate _ => "deltemplate"

/-- The header tag of a template with the command `word`. -/
def IsHeader (word : String) (text : List Char) : Prop :=
  ∃ (gap₁ : Gap) (name : Name) (attrs : List Attr) (gap₂ : Blanks), text =
    '\x7b' :: (word.toList ++ (gap₁.chars ++ (name.text ++ (attrsText attrs ++
      (gap₂.chars ++ ['\x7d'])))))

/-- A template is an optional doc block, its header tag, its parameters with blanks in front of
each, its body and its closing tag. -/
def Template.Covered (t : Template) : Prop :=
  (∃ doc header params : List Char, IsDoc source t.doc doc ∧ IsHeader t.kind.word header ∧
    Led source (t.params.map ParamDecl.mark) params ∧
    IsBlock source t.kind.word [] (doc ++ (header ++ params)) t.body (t.mark.sliceChars source)) ∧
  Node.BodyCovered source t.body

/-- Templates with blanks and comments in front of each. -/
inductive TemplatesIn : List Template → List Char → Prop where
  | nil : TemplatesIn [] []
  | cons {t : Template} {ts : List Template} {lead rest : List Char}
      (hl : IsTrivia BlockComment false lead) (ht : t.Covered source) (h : TemplatesIn ts rest) :
      TemplatesIn (t :: ts) (lead ++ (t.mark.sliceChars source ++ rest))

end Parts

/-- A source is made up of blanks and comments, the namespace tag, the templates of the program
with blanks and comments in front of each, and blanks and comments at its end. -/
def Program.Covers (program : Program) (source : List Char) : Prop :=
  ∃ (lead : List Char) (tag : NamespaceTag) (body final : List Char),
    IsTrivia AnyComment false lead ∧ tag.segments = program.namespacePath ∧
    TemplatesIn source program.templates body ∧ IsTrivia BlockComment true final ∧
    source = lead ++ (tag.text ++ (body ++ final))

namespace Concrete

variable {source : List Char} {p : Position} {home : List String}

section Places

variable {a b text : List Char}

/-- The text stands at `p` in the source. -/
def Stands (source : List Char) (p : Position) (text : List Char) : Prop :=
  text <+: source.drop p.index

theorem Stands.left (h : Stands source p (a ++ b)) : Stands source p a :=
  (List.prefix_append a b).trans h

theorem Stands.right (h : Stands source p (a ++ b)) : Stands source (p.after a) b := by
  obtain ⟨rest, hrest⟩ := h
  rw [List.append_assoc] at hrest
  refine ⟨rest, ?_⟩
  rw [Position.index_after, ← List.drop_drop, ← hrest, List.drop_left]

theorem Stands.behind {c : List Char} (h : Stands source p (a ++ (b ++ c))) :
    Stands source (p.after (a ++ b)) c := by
  rw [← List.append_assoc] at h
  exact h.right

theorem Stands.slice (h : Stands source p text) : (markAt p text).sliceChars source = text := by
  have hlength : (markAt p text).length = text.length := by
    simp [Mark.length, markAt]
  rw [Mark.sliceChars, hlength]
  exact (List.prefix_iff_eq_take.1 h).symm

end Places

theorem Expr.mark_tree {inside : Bool} (e : Expr inside) : (e.tree p).mark = markAt p e.text := by
  cases e <;> rfl

theorem Item.mark_tree (i : Item) : (i.tree home p).mark = markAt p i.text := by
  cases i <;> rfl

/-- The content of a literal block as the nodes of its body. -/
theorem literal_interleaved {content : LiteralText} (h : Stands source p content.chars) :
    Interleaved source [] ((if content.chars.isEmpty then ([] : List Node)
      else [.text (markAt p content.chars) (String.ofList content.chars)]).map Node.mark)
      content.chars := by
  by_cases hc : content.chars = []
  · simpa [hc] using Interleaved.nil
  · have hpart : Interleaved source [] [markAt p content.chars]
        ((markAt p content.chars).sliceChars source ++ []) := .part .nil
    rw [List.append_nil, h.slice] at hpart
    simpa [hc, Node.mark] using hpart

section Bodies

theorem Body.interleaved {interior : List String} (home : List String) (p : Position)
    (b : Body interior) (h : Stands source p b.text) :
    Interleaved source interior ((b.trees home p).map Node.mark) b.text := by
  match b with
  | .nil => exact .nil
  | .item first rest =>
    have hfirst : ((first.tree home p).mark).sliceChars source = first.text := by
      rw [Item.mark_tree]
      exact h.left.slice
    have hrest := Body.interleaved home (p.after first.text) rest h.right
    have hpart := hrest.part (m := (first.tree home p).mark)
    rwa [hfirst] at hpart
  | .tag word allowed args rest =>
    exact (Body.interleaved home (p.after (tagText word args.chars)) rest h.right).tag word allowed
      args

theorem Params.led (home : List String) (p : Position) (ps : Params)
    (h : Stands source p ps.text) :
    Led source ((ps.trees home p).map Param.mark) ps.text := by
  match ps with
  | .nil => exact .nil
  | .cons lead gap name value rest =>
    have hparam : (markAt (p.after lead.chars) (paramHead gap name ++
        value.text "param")).sliceChars source = paramHead gap name ++ value.text "param" :=
      h.right.left.slice
    have hrest := Params.led home ((p.after lead.chars).after
      (paramHead gap name ++ value.text "param")) rest h.right.right
    have hled := hrest.cons (m := markAt (p.after lead.chars) (paramHead gap name ++
        value.text "param")) lead
    rwa [hparam] at hled

theorem Binding.isBinding (home : List String) (word : String) (head : List Char) (p : Position)
    (b : Binding) (h : Stands source p (head ++ b.text word)) :
    IsBinding source word head (b.tree home (p.after head)) (head ++ b.text word) := by
  cases b with
  | inline gap₁ gap₂ value gap₃ =>
    have hvalue := h.right
    rw [Binding.text_inline] at hvalue
    refine ⟨gap₁, gap₂, gap₃, ?_⟩
    rw [Expr.mark_tree, hvalue.right.left.slice]
    rfl
  | block attrs gap body close =>
    have hbody := h.right
    rw [Binding.text_block] at hbody
    refine ⟨attrs, gap, body.text, close, body.interleaved home _ hbody.right.left, ?_⟩
    simp [Binding.text]

mutual

theorem Item.covered (home : List String) (p : Position) (i : Item)
    (h : Stands source p i.text) : (i.tree home p).Covered source := by
  match i with
  | .plain content =>
    simp only [Item.tree, Node.Covered, String.toList_ofList]
    exact h.slice
  | .interpolation raw =>
    simp only [Item.tree, Node.Covered, String.toList_ofList]
    exact h.slice
  | .closedCall head =>
    refine ⟨⟨head, rfl, Or.inl ⟨rfl, h.slice⟩⟩, trivial⟩
  | .blockCall head open_ params gap close =>
    have hparams : Stands source (p.after (head.text ++ ['\x7d'])) (params.text ++
        (gap.chars ++ closeText (callWord head.delegate) close)) := Stands.behind (b := ['\x7d']) h
    exact ⟨⟨head, rfl, Or.inr ⟨open_, params.text, gap, close,
      params.led home _ hparams.left, h.slice⟩⟩, Params.covered home _ params hparams.left⟩
  | .binding gap name value =>
    have hvalue := value.isBinding home "let" (letHead gap name) p h
    refine ⟨⟨gap, name, rfl, ?_⟩, Binding.covered home "let" _ value h.right⟩
    exact Eq.substr (p := fun text => IsBinding source "let" (letHead gap name) _ text) h.slice hvalue
  | .control block parsed args body close =>
    refine ⟨⟨args, body.text, close, body.interleaved home _ h.right.left, h.slice⟩, ?_⟩
    exact Body.covered home _ body h.right.left
  | .literal gap content close =>
    have hcontent : Stands source (p.after (literalHead gap)) content.chars := h.right.left
    have hopen : '\x7d' ∉ gap.chars := fun hc => absurd (gap.blank _ hc) (by decide)
    refine ⟨⟨⟨⟨gap.chars, hopen⟩, gap.apart⟩, content.chars, close,
      literal_interleaved hcontent, h.slice⟩, ?_⟩
    by_cases hc : content.chars = []
    · simp [hc, Node.BodyCovered]
    · simp only [List.isEmpty_iff, hc, if_false, Node.BodyCovered, Node.Covered,
        String.toList_ofList, and_true]
      exact hcontent.slice

theorem Binding.covered (home : List String) (word : String) (p : Position) (b : Binding)
    (h : Stands source p (b.text word)) : (b.tree home p).Covered source := by
  match b with
  | .inline gap₁ gap₂ value gap₃ => trivial
  | .block attrs gap body close =>
    rw [Binding.text_block] at h
    exact Body.covered home _ body h.right.left

theorem Params.covered (home : List String) (p : Position) (ps : Params)
    (h : Stands source p ps.text) : Node.ParamsCovered source (ps.trees home p) := by
  match ps with
  | .nil => trivial
  | .cons lead gap name value rest =>
    have hparam := h.right.left
    refine ⟨⟨gap, name, rfl, ?_⟩, Binding.covered home "param" _ value hparam.right,
      Params.covered home _ rest h.right.right⟩
    have hvalue := value.isBinding home "param" (paramHead gap name) _ hparam
    exact Eq.substr (p := fun text => IsBinding source "param" (paramHead gap name) _ text)
      hparam.slice hvalue

theorem Body.covered {interior : List String} (home : List String) (p : Position)
    (b : Body interior) (h : Stands source p b.text) :
    Node.BodyCovered source (b.trees home p) := by
  match b with
  | .nil => trivial
  | .item first rest =>
    exact ⟨Item.covered home p first h.left, Body.covered home _ rest h.right⟩
  | .tag word allowed args rest => exact Body.covered home _ rest h.right

end

end Bodies

section Templates

theorem headerParams_led (p : Position) (ds : List HeaderParam)
    (h : Stands source p (headerParamsText ds)) :
    Led source ((headerParamsTree p ds).map ParamDecl.mark) (headerParamsText ds) := by
  induction ds generalizing p with
  | nil => exact .nil
  | cons d rest ih =>
    have hd : ((d.tree p).mark).sliceChars source = d.tag := h.left.right.slice
    have hled := (ih (p.after d.text) h.right).cons (m := (d.tree p).mark) d.lead
    rw [hd, ← List.append_assoc] at hled
    exact hled

theorem Template.isDoc (home : List String) (t : Template) (h : Stands source p t.docText) :
    IsDoc source (t.tree home p).doc t.docText := by
  obtain ⟨doc, delegate, gap₁, name, attrs, gap₂, params, body, close⟩ := t
  cases doc with
  | none => rfl
  | some d =>
    obtain ⟨doc, gap⟩ := d
    have hdoc : (markAt p doc.text).sliceChars source = doc.text := h.left.slice
    refine ⟨linesText doc.lines, gap, doc.unended, hdoc, ?_⟩
    exact congrArg (· ++ gap.chars) hdoc.symm

theorem Template.isHeader (t : Template) : IsHeader (templateWord t.delegate) t.headText :=
  ⟨t.gap₁, t.name, t.attrs, t.gap₂, by simp [Template.headText, Template.nameText]⟩

theorem Template.word_kind (home : List String) (t : Template) :
    (t.tree home p).kind.word = templateWord t.delegate := by
  simp only [Template.tree, templateWord]
  cases t.delegate <;> rfl

theorem Template.covered (home : List String) (p : Position) (t : Template)
    (h : Stands source p t.text) : (t.tree home p).Covered source := by
  have hparams : Stands source ((p.after t.docText).after t.headText) (headerParamsText t.params) :=
    h.right.right.left
  have hbody : Stands source (((p.after t.docText).after t.headText).after
      (headerParamsText t.params)) t.body.text := h.right.right.right.left
  refine ⟨⟨t.docText, t.headText, headerParamsText t.params, t.isDoc home h.left, ?_,
    headerParams_led _ _ hparams, ?_⟩, t.body.covered home _ hbody⟩
  · rw [t.word_kind home]
    exact t.isHeader
  · rw [t.word_kind home]
    refine ⟨t.body.text, t.close, t.body.interleaved home _ hbody, ?_⟩
    refine h.slice.trans ?_
    simp only [Template.text, List.append_assoc]

theorem entries_templatesIn (home : List String) (p : Position) (es : List Entry)
    (h : Stands source p (entriesText es)) :
    TemplatesIn source (entriesTree home p es) (entriesText es) := by
  induction es generalizing p with
  | nil => exact .nil
  | cons e rest ih =>
    have ht := h.right.left
    have hslice : ((e.template.tree home (p.after e.lead.chars)).mark).sliceChars source =
        e.template.text := ht.slice
    have hin := (ih _ h.right.right).cons e.lead.isTrivia (e.template.covered home _ ht)
    rwa [hslice] at hin

theorem File.covers (f : File) : f.program.Covers f.text := by
  have h : Stands f.text Position.origin f.text := List.prefix_rfl
  exact ⟨f.lead.chars, f.tag, entriesText f.entries, f.final.chars, f.lead.isTrivia, rfl,
    entries_templatesIn _ _ _ h.right.right.left, f.final.isTrivia, rfl⟩

end Templates

end Concrete

/-- Nothing in a source that is parsed is dropped: it is made up of the program's templates with
blanks and comments between them, and each construct with a body is made up of its opening part,
what stands below it, the tags that may divide it, and its closing tag. -/
theorem parse_covers_source {source : String} {options : Options} {program : Program}
    (h : parseWith source options = .ok program) : program.Covers source.toList := by
  obtain ⟨f, htext, rfl⟩ := Grammar.parse_spelled h
  rw [← htext]
  exact f.covers

def coveredSample : String :=
  "/** lead */ // line\n\x7bnamespace a\x7d /* between */\n\x7btemplate .t\x7d\x7bif $p\x7done" ++
    "\x7belseif $q /\x7dtwo\x7belse\x7d\x7bcall .u\x7d \x7bparam v\x7dw\x7b/param \x7d " ++
    "\x7bparam x: '\x7d' /\x7d\n\x7b/call\x7d\x7b/if\x7d\x7b/template\x7d\n// last"

theorem coveredSample_covered : ∃ program, parseWith coveredSample {} = .ok program ∧
    program.Covers coveredSample.toList := by
  obtain ⟨program, h⟩ := Grammar.exists_program coveredSample {} (by decide +kernel)
  exact ⟨program, h, parse_covers_source h⟩

end SoyTree
