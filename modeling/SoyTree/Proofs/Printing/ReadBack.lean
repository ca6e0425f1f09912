import SoyTree.Proofs.Canonical.ReadBack
import SoyTree.Proofs.Printing.Layout

/-! # Parsing undoes printing

A canonical text of a program is a canonical file whose program differs in marks only. Such files
are read back, so that a parse gives the program that was printed.
-/

namespace SoyTree

open Concrete

section Bodies

theorem Expr.Prints.exists_simple {e : Expr} {text : List Char} (he : e.Printable)
    (h : e.Prints text) : ∃ value : Concrete.Expr false, value.Simple ∧ value.text = text ∧
      ∀ p, (value.tree p).unmarked = e.unmarked := by
  match e, he, h with
  | .reference _ name, he, h =>
    refine ⟨.reference ⟨name.toList, he⟩, trivial, h.symm, fun p => ?_⟩
    simp [Concrete.Expr.tree, Expr.unmarked]
  | .string literal, _, ⟨q, hq, h⟩ =>
    refine ⟨.string q, trivial, h.symm, fun p => ?_⟩
    simp [Concrete.Expr.tree, Quoted.tree, Expr.unmarked, hq]

theorem Dividers.exists_body {interior : List String} {tags : List Char}
    (h : Dividers interior tags) (b : Body interior) :
    ∃ b' : Body interior, b'.text = tags ++ b.text ∧ (b.Canonical → b'.Canonical) ∧
      ∀ home p, b'.trees home p = b.trees home (p.after tags) := by
  induction h with
  | nil => exact ⟨b, rfl, id, fun _ _ => rfl⟩
  | cons word allowed args _ ih =>
    obtain ⟨b', htext, hcanonical, htrees⟩ := ih
    refine ⟨.tag word allowed args b', ?_, hcanonical, fun home p => ?_⟩
    · rw [Body.text, htext, List.append_assoc]
    · rw [Body.trees, htrees, Position.after_append]

theorem startsPlain_of_head {interior : List String} {b : Body interior}
    (h : ∀ c ∈ b.text.head?, c = '\x7b') : b.startsPlain = false := by
  match b with
  | .nil => rfl
  | .tag word allowed args rest => rfl
  | .item first rest =>
    cases first with
    | plain content =>
      obtain ⟨chars, nonempty, plain⟩ := content
      obtain ⟨c, chars, rfl⟩ := List.exists_cons_of_ne_nil nonempty
      obtain rfl : c = '\x7b' := h c rfl
      exact absurd List.mem_cons_self plain
    | _ => rfl

theorem exists_callHead {target : String} (home : List String) (delegate : Bool) (gap : Gap)
    (extra : TagRest) (htarget : Path.isDotted target = true)
    (hextra : ∀ c ∈ extra.chars.head?, Grammar.blank.accepts c = true) :
    ∃ head : CallHead, head.Canonical ∧ head.delegate = delegate ∧
      head.text = '\x7b' :: ((callWord delegate).toList ++
        (gap.chars ++ (target.toList ++ extra.chars))) ∧
      head.target home = target ∧ head.extra = extra := by
  obtain ⟨name, hname⟩ := Path.exists_name htarget
  have hvalue : name.value = target := by rw [Name.value, hname, String.ofList_toList]
  refine ⟨⟨delegate, gap, name, extra⟩, fun c hc => Grammar.endsName_of_blank (hextra c hc), rfl, ?_,
    ?_, rfl⟩
  · rw [CallHead.text, hname]
  · rw [CallHead.target, hvalue, Path.resolve_dotted htarget, ite_self]

theorem exists_literalText {body : List Node} (h : Node.IsLiteralBody body) :
    ∃ content : LiteralText, content.chars = Node.literalText body ∧ ∀ p,
      Node.bodyUnmarked (if content.chars.isEmpty then [] else
        [.text (markAt p content.chars) (String.ofList content.chars)]) = Node.bodyUnmarked body := by
  match body, h with
  | [], _ =>
    have hopen : ∀ a gap b, [] ≠ a ++ closeText "literal" gap ++ b := by simp [closeText]
    exact ⟨⟨[], hopen⟩, rfl, fun _ => rfl⟩
  | [.text _ content], h =>
    refine ⟨⟨content.toList, h.2⟩, rfl, fun p => ?_⟩
    have hne : content.toList.isEmpty = false := by simpa using h.1
    simp [hne, Node.bodyUnmarked, Node.unmarked]

mutual

/-- A canonical text of a node is an item that gives the node back. -/
theorem Node.exists_item (home : List String) (n : Node) (hn : n.Printable) {text : List Char}
    (h : n.Prints text) : ∃ i : Item, i.Canonical ∧ i.isPlain = n.isText ∧ i.text = text ∧
      ∀ p, (i.tree home p).unmarked = n.unmarked := by
  match n with
  | .text _ content =>
    refine ⟨.plain ⟨content.toList, hn.1, hn.2⟩, trivial, rfl, h.symm, fun p => ?_⟩
    simp [Item.tree, Node.unmarked]
  | .interpolation _ raw =>
    refine ⟨.interpolation ⟨raw.toList, hn.1, hn.2.1⟩, hn.2.2, rfl, h.symm, fun p => ?_⟩
    simp [Item.tree, Node.unmarked]
  | .call _ target delegate params =>
    obtain ⟨gap, extra, _, hextra, rfl, hform⟩ := h
    obtain ⟨head, hhead, hdelegate, htext, htarget, rfl⟩ :=
      exists_callHead home delegate gap extra hn.1 hextra
    subst hdelegate
    rcases hform with ⟨rfl, rfl⟩ | ⟨hopen, inner, gap', close, hinner, rfl⟩
    · refine ⟨.closedCall head, hhead, rfl, by rw [Item.text, htext], fun p => ?_⟩
      simp [Item.tree, Node.unmarked, Node.paramsUnmarked, htarget]
    · obtain ⟨ps, hps, rfl, htrees⟩ := Node.exists_params home params hn.2 hinner
      refine ⟨.blockCall head hopen ps gap' close, ⟨hhead, hps⟩, rfl, by rw [Item.text, htext],
        fun p => ?_⟩
      simp [Item.tree, Node.unmarked, htarget, htrees]
  | .binding _ name value =>
    obtain ⟨gap, rest, hvalue, rfl⟩ := h
    obtain ⟨b, hb, hbtext, htree⟩ := Value.exists_binding home "let" value hn.2 hvalue
    refine ⟨.binding gap ⟨name.toList, hn.1⟩ b, hb, rfl, ?_, fun p => ?_⟩
    · rw [Item.text, hbtext]
      rfl
    · simp [Item.tree, Node.unmarked, htree]
  | .control _ block body =>
    by_cases hblock : block = .literal
    · subst hblock
      obtain ⟨gap, close, rfl⟩ := h.1 rfl
      obtain ⟨content, hcontent, htree⟩ := exists_literalText (hn.1 rfl)
      refine ⟨.literal gap content close, trivial, rfl, by rw [Item.text, hcontent], fun p => ?_⟩
      simp only [Item.tree, Node.unmarked, htree]
    · obtain ⟨args, inner, close, hinner, rfl⟩ := h.2 hblock
      obtain ⟨b, hb, hbtext, htrees⟩ := Node.exists_body home block.interior body (hn.2 hblock) hinner
      refine ⟨.control block hblock args b close, hb, rfl, ?_, fun p => ?_⟩
      · rw [Item.text, hbtext]
      · simp [Item.tree, Node.unmarked, htrees]

theorem Value.exists_binding (home : List String) (word : String) (v : Value) (hv : v.Printable)
    {text : List Char} (h : v.Prints word text) : ∃ b : Binding, b.Canonical ∧ b.text word = text ∧
      ∀ p, (b.tree home p).unmarked = v.unmarked := by
  match v with
  | .inline expr =>
    obtain ⟨gap₁, gap₂, gap₃, inner, hinner, rfl⟩ := h
    obtain ⟨value, hsimple, rfl, htree⟩ := hinner.exists_simple hv
    refine ⟨.inline gap₁ gap₂ value gap₃, hsimple, rfl, fun p => ?_⟩
    simp [Binding.tree, Value.unmarked, htree]
  | .block body =>
    obtain ⟨attrs, gap, close, inner, hinner, rfl⟩ := h
    obtain ⟨b, hb, rfl, htrees⟩ := Node.exists_body home [] body hv hinner
    refine ⟨.block attrs gap b close, hb, rfl, fun p => ?_⟩
    simp [Binding.tree, Value.unmarked, htrees]

theorem Node.exists_params (home : List String) (ps : List Param) (hps : Node.ParamsPrintable ps)
    {text : List Char} (h : Node.ParamsPrint ps text) : ∃ params : Params, params.Canonical ∧
      params.text = text ∧
      ∀ p, Node.paramsUnmarked (params.trees home p) = Node.paramsUnmarked ps := by
  match ps with
  | [] => exact ⟨.nil, trivial, h.symm, fun _ => rfl⟩
  | .mk _ name value :: rest =>
    obtain ⟨lead, gap, inner, more, hinner, hmore, rfl⟩ := h
    obtain ⟨b, hb, rfl, htree⟩ := Value.exists_binding home "param" value hps.2.1 hinner
    obtain ⟨params, hparams, rfl, htrees⟩ := Node.exists_params home rest hps.2.2 hmore
    refine ⟨.cons lead gap ⟨name.toList, hps.1⟩ b params, ⟨hb, hparams⟩, rfl, fun p => ?_⟩
    simp [Params.trees, Node.paramsUnmarked, htree, htrees]

theorem Node.exists_body (home interior : List String) (nodes : List Node)
    (hn : Node.BodyPrintable interior nodes) {text : List Char}
    (h : Node.BodyPrints interior nodes text) : ∃ b : Body interior, b.Canonical ∧ b.text = text ∧
      ∀ p, Node.bodyUnmarked (b.trees home p) = Node.bodyUnmarked nodes := by
  match nodes with
  | [] =>
    obtain ⟨b, htext, hcanonical, htrees⟩ := h.exists_body .nil
    refine ⟨b, hcanonical trivial, ?_, fun p => ?_⟩
    · rw [htext, Body.text, List.append_nil]
    · rw [htrees]
      rfl
  | n :: rest =>
    obtain ⟨tags, first, more, htags, hfirst, hmore, hnext, rfl⟩ := h
    obtain ⟨i, hi, hplain, rfl, htree⟩ := Node.exists_item home n hn.1 hfirst
    obtain ⟨b, hb, rfl, htrees⟩ := Node.exists_body home interior rest hn.2.2 hmore
    obtain ⟨b', htext, hcanonical, htrees'⟩ := htags.exists_body (.item i b)
    refine ⟨b', hcanonical ⟨hi, fun h => startsPlain_of_head (hnext (hplain ▸ h)), hb⟩, htext,
      fun p => ?_⟩
    simp [htrees', Body.trees, Node.bodyUnmarked, htree, htrees]

end

end Bodies

section Templates

theorem Attribute.exists_attrs {as : List Attribute} (h : ∀ a ∈ as, a.Printable) {text : List Char}
    (ht : Attribute.ListPrints as text) : ∃ attrs : List Attr, attrsText attrs = text ∧
      ∀ p, (attrsTree attrs p).map Attribute.unmarked = as.map Attribute.unmarked := by
  induction as generalizing text with
  | nil => exact ⟨[], ht.symm, fun _ => rfl⟩
  | cons a as ih =>
    obtain ⟨gap, more, hmore, rfl⟩ := ht
    obtain ⟨attrs, rfl, htree⟩ := ih (fun b hb => h b (List.mem_cons_of_mem _ hb)) hmore
    obtain ⟨hne, hplain, hclosed⟩ := h a List.mem_cons_self
    refine ⟨⟨gap, a.name.toList, hne, hplain, a.value.toList, hclosed⟩ :: attrs, rfl, fun p => ?_⟩
    simp [attrsTree, Attr.tree, Pair.tree, Attribute.unmarked, htree]

theorem ParamDecl.exists_headerParams {ds : List ParamDecl} (h : ∀ d ∈ ds, d.Printable)
    {text : List Char} (ht : ParamDecl.ListPrints ds text) :
    ∃ params : List HeaderParam, headerParamsText params = text ∧
      ∀ p, (headerParamsTree p params).map ParamDecl.unmarked = ds.map ParamDecl.unmarked := by
  induction ds generalizing text with
  | nil => exact ⟨[], ht.symm, fun _ => rfl⟩
  | cons d ds ih =>
    obtain ⟨lead, gap₁, gap₂, type, more, htype, hmore, rfl⟩ := ht
    obtain ⟨params, rfl, htree⟩ := ih (fun d' hd' => h d' (List.mem_cons_of_mem _ hd')) hmore
    let param : HeaderParam := ⟨lead, !d.required, gap₁, ⟨d.name.toList, (h d (by simp)).1⟩, gap₂, type⟩
    refine ⟨param :: params, ?_, fun p => ?_⟩
    · rw [headerParamsText, HeaderParam.text]
      unfold HeaderParam.tag
      cases hd : d.required <;> simp only [param, hd] <;> rfl
    · simp [headerParamsTree, HeaderParam.tree, param, ParamDecl.unmarked, htype, htree]

theorem variant_of_unmarked {as bs : List Attribute}
    (h : as.map Attribute.unmarked = bs.map Attribute.unmarked) :
    (as.find? Grammar.isVariant).map (·.value) = (bs.find? Grammar.isVariant).map (·.value) := by
  have hfind : ∀ l : List Attribute, (l.find? Grammar.isVariant).map (·.value) =
      ((l.map Attribute.unmarked).find? Grammar.isVariant).map (·.value) := by
    intro l
    rw [List.find?_map, Option.map_map]
    rfl
  rw [hfind, h, ← hfind]

theorem others_of_unmarked {as bs : List Attribute}
    (h : as.map Attribute.unmarked = bs.map Attribute.unmarked) :
    (as.filter (!Grammar.isVariant ·)).map Attribute.unmarked =
      (bs.filter (!Grammar.isVariant ·)).map Attribute.unmarked := by
  have hfilter : ∀ l : List Attribute, (l.filter (!Grammar.isVariant ·)).map Attribute.unmarked =
      (l.map Attribute.unmarked).filter (!Grammar.isVariant ·) := by
    intro l
    rw [List.filter_map]
    rfl
  rw [hfilter, h, ← hfilter]

theorem TemplateKind.Writes.printable {kind : TemplateKind} {attributes written : List Attribute}
    (hw : kind.Writes attributes written) (hk : kind.Printable attributes)
    (ha : ∀ a ∈ attributes, a.Printable) : ∀ a ∈ written, a.Printable := by
  intro a hmem
  cases kind with
  | plain => exact ha a (hw ▸ hmem)
  | delegate variant =>
    cases hv : Grammar.isVariant a with
    | false =>
      refine ha a ?_
      rw [← hw.1, List.mem_filter]
      exact ⟨hmem, by simp [hv]⟩
    | true =>
      have hname : a.name = "variant" := by simpa [Grammar.isVariant] using hv
      have hvalue : a.value ∈ variant.toList := by
        rw [← hw.2]
        exact List.mem_map_of_mem (List.mem_filter.2 ⟨hmem, hv⟩)
      have hplain : "variant".toList.all (fun c => c.isAlphanum || c == '_' || c == '-') = true := by
        decide
      rw [← hname] at hplain
      exact ⟨by rw [hname]; decide, List.all_eq_true.1 hplain, hk.2 _ (by simpa using hvalue)⟩

theorem TemplateKind.Writes.read {kind : TemplateKind} {attributes written read : List Attribute}
    (hw : kind.Writes attributes written)
    (hread : read.map Attribute.unmarked = written.map Attribute.unmarked) :
    (if kind.isDelegate then
      TemplateKind.delegate ((read.find? Grammar.isVariant).map (·.value)) else .plain) = kind ∧
    (if kind.isDelegate then read.filter (!Grammar.isVariant ·) else read).map Attribute.unmarked =
      attributes.map Attribute.unmarked := by
  cases kind with
  | plain =>
    refine ⟨rfl, ?_⟩
    obtain rfl : written = attributes := hw
    exact hread
  | delegate variant =>
    obtain ⟨rfl, hvariant⟩ := hw
    refine ⟨?_, others_of_unmarked hread⟩
    have hfind : (written.find? Grammar.isVariant).map (·.value) = variant := by
      rw [← List.head?_filter, ← List.head?_map, hvariant]
      cases variant <;> rfl
    simp only [TemplateKind.isDelegate, if_true, variant_of_unmarked hread, hfind]

theorem Template.exists_template (home : List String) (t : Template) (ht : t.Printable)
    {text : List Char} (h : t.Prints text) : ∃ T : Concrete.Template, T.Canonical ∧ T.text = text ∧
      ∀ p, (T.tree home p).unmarked = t.unmarked := by
  obtain ⟨gap₁, written, attrs, gap₂, params, body, close, hwritten, hattrs, hparams, hbody, rfl⟩ := h
  obtain ⟨attrs, rfl, hattrsTree⟩ :=
    Attribute.exists_attrs (hwritten.printable ht.kind ht.attributes) hattrs
  obtain ⟨params, rfl, hparamsTree⟩ := ParamDecl.exists_headerParams ht.params hparams
  obtain ⟨body, hcanonical, rfl, htrees⟩ := Node.exists_body home [] t.body ht.body hbody
  obtain ⟨name, hname⟩ := Path.exists_name ht.name
  have hvalue : name.value = t.name := by rw [Name.value, hname, String.ofList_toList]
  let T : Concrete.Template :=
    ⟨none, t.kind.isDelegate, gap₁, name, attrs, gap₂, params, body, close⟩
  refine ⟨T, ⟨rfl, hcanonical⟩, ?_, fun p => ?_⟩
  · rw [Template.text, Template.headText, Template.nameText, hname]
    rfl
  · obtain ⟨hkind, hattributes⟩ :=
      hwritten.read (hattrsTree ((p.after T.docText).after T.nameText))
    simp only [T] at hkind hattributes
    simp only [Template.unmarked, Concrete.Template.tree, T, hkind, hattributes, hparamsTree, htrees,
      hvalue, Path.resolve_dotted ht.name, ite_self, ht.doc, Option.map_none]

end Templates

section Files

theorem blanks_isTrivia {comment : List Char → Prop} {final : Bool} (b : Blanks) :
    IsTrivia comment final b.chars := by
  obtain ⟨chars, h⟩ := b
  induction chars with
  | nil => exact .nil
  | cons c chars ih => exact .blank (h c (by simp)) (ih fun d hd => h d (by simp [hd]))

theorem Template.exists_entries (home : List String) {ts : List Template}
    (hts : ∀ t ∈ ts, t.Printable) {text : List Char} (h : Template.ListPrints ts text) :
    ∃ es : List Entry, (∀ e ∈ es, e.Canonical) ∧ entriesText es = text ∧
      ∀ p, (entriesTree home p es).map Template.unmarked = ts.map Template.unmarked := by
  induction ts generalizing text with
  | nil => exact ⟨[], by simp, h.symm, fun _ => rfl⟩
  | cons t ts ih =>
    obtain ⟨lead, first, more, hfirst, hmore, rfl⟩ := h
    obtain ⟨T, hT, rfl, htree⟩ := t.exists_template home (hts t List.mem_cons_self) hfirst
    obtain ⟨es, hes, rfl, htrees⟩ := ih (fun t' ht' => hts t' (List.mem_cons_of_mem _ ht')) hmore
    refine ⟨⟨⟨lead.chars, blanks_isTrivia lead⟩, T⟩ :: es, ?_, rfl, fun p => ?_⟩
    · rintro e (_ | ⟨_, he⟩)
      · exact ⟨lead.blank, hT⟩
      · exact hes e he
    · simp [entriesTree, htree, htrees]

/-- A canonical text of a program is a canonical file whose program differs in marks only. -/
theorem Program.Prints.exists_file {p : Program} (hp : p.Printable) {text : List Char}
    (h : p.Prints text) : ∃ f : Concrete.File, f.Canonical ∧ f.text = text ∧
      f.program.unmarked = p.unmarked := by
  obtain ⟨lead, gap, extra, templates, final, hextra, htemplates, rfl⟩ := h
  obtain ⟨es, hes, rfl, htrees⟩ := Template.exists_entries p.namespacePath hp.templates htemplates
  obtain ⟨w, ws, hpath⟩ := List.exists_cons_of_ne_nil hp.named
  have hwords := hp.path
  rw [hpath] at hwords
  have hdotted : Path.isDotted (String.ofList (Path.join p.namespacePath).toList) = true := by
    rw [String.ofList_toList, hpath]
    exact Path.isDotted_join w ws hwords
  let tag : NamespaceTag := ⟨gap, (Path.join p.namespacePath).toList, hdotted, extra, hextra⟩
  have hsegments : tag.segments = p.namespacePath := by
    rw [NamespaceTag.segments, String.ofList_toList, hpath]
    exact Path.split_join w ws hwords
  have hne : es ≠ [] := by
    rintro rfl
    exact hp.nonempty (List.map_eq_nil_iff.1 (htrees .origin).symm)
  refine ⟨⟨⟨lead.chars, blanks_isTrivia lead⟩, tag, es, hne, ⟨final.chars, blanks_isTrivia final⟩⟩,
    ⟨lead.blank, hes, final.blank⟩, rfl, ?_⟩
  simp only [File.program, Program.unmarked, hsegments, htrees]

end Files

/-- Parsing undoes printing: every printable program has a canonical text, and a canonical text of
it is parsed if and only if it does not nest too deep, to the same program but for the marks. -/
theorem parse_undoes_printing (p : Program) (hp : p.Printable) :
    (∃ text, p.Prints text) ∧ ∀ text (options : Options), p.Prints text →
      ((∃ parsed, parseWith (String.ofList text) options = .ok parsed ∧
        parsed.unmarked = p.unmarked) ↔ Nesting.deepest text ≤ options.maxDepth) := by
  refine ⟨p.exists_prints hp, fun text options h => ?_⟩
  obtain ⟨f, hf, rfl, hprogram⟩ := h.exists_file hp
  rw [← Grammar.parse_canonical_iff f hf options]
  constructor
  · rintro ⟨parsed, hparsed, -⟩
    rw [Grammar.parse_canonical_iff f hf options, ← Nesting.check_ok_iff]
    rw [parseWith, String.toList_ofList] at hparsed
    exact (Grammar.parseChars_ok_iff.1 hparsed).1
  · exact fun hparse => ⟨f.program, hparse, hprogram⟩

/-- Texts on both sides of a dividing tag, a value with a quote and a brace in it, and a literal
block. -/
def printedSample : Program where
  mark := noMark
  namespacePath := ["a", "b"]
  templates := [{
    mark := noMark
    kind := .delegate (some "v")
    doc := none
    name := "a.t"
    attributes := [⟨noMark, "kind", "html"⟩]
    params := [⟨noMark, false, "x", "string"⟩]
    body := [.control noMark .cond [.text noMark "one", .text noMark "two"],
      .interpolation noMark "$x",
      .call noMark "a.u" false [.mk noMark "y" (.inline (.string ⟨noMark, "it's \x7d"⟩)),
        .mk noMark "z" (.block [.text noMark "w"])],
      .control noMark .literal [.text noMark "\x7braw\x7d"]] }]

theorem printedSample_printable : printedSample.Printable where
  named := by decide
  path := by decide
  nonempty := by simp [printedSample]
  templates := by
    have hraw : '\x7d' ∉ "$x".toList ∧ Grammar.isCommand "$x".toList = false ∧
        String.ofList (Grammar.leadWord "$x".toList) ∉ Grammar.reservedWords := by
      decide
    have hliteral : Node.IsLiteralBody [.text noMark "\x7braw\x7d"] := by
      refine ⟨by decide, fun a gap b h => ?_⟩
      have hslash : '/' ∉ "\x7braw\x7d".toList := by decide
      exact hslash (by rw [h]; simp [closeText])
    have hdivided : Node.BodyPrintable Control.cond.interior
        [.text noMark "one", .text noMark "two"] :=
      ⟨by simp [Node.Printable], by decide, by simp [Node.Printable], by decide, trivial⟩
    have hblock : Node.BodyPrintable [] [.text noMark "w"] :=
      ⟨by simp [Node.Printable], by decide, trivial⟩
    rintro t (_ | ⟨_, ⟨⟩⟩)
    refine ⟨rfl, by decide, ⟨by decide, by decide⟩, by simp [Attribute.Printable], ?_, ?_⟩
    · rintro d (_ | ⟨_, ⟨⟩⟩)
      exact ⟨by decide, by decide, by decide⟩
    · exact ⟨⟨(by cases ·), fun _ => hdivided⟩, by decide, hraw, by decide,
        ⟨by decide, by decide, trivial, by decide, hblock, trivial⟩, by decide,
        ⟨fun _ => hliteral, fun h => absurd rfl h⟩, by decide, trivial⟩

def printedText : List Char :=
  "\x7bnamespace a.b\x7d\n".toList ++ "\x7bdeltemplate a.t kind=\"html\" variant=\"v\"\x7d".toList ++
    "\n\x7b@param? x: string\x7d".toList ++
    "\x7bif $x > 0\x7done\x7belse\x7dtwo\x7b/if\x7d\x7b$x\x7d".toList ++
    "\x7bcall a.u data=\"all\"\x7d \x7bparam y: 'it\\'s \x7d' /\x7d".toList ++
    " \x7bparam z\x7dw\x7b/param\x7d\x7b/call\x7d".toList ++
    "\x7bliteral\x7d\x7braw\x7d\x7b/literal\x7d\x7b/deltemplate\x7d\n".toList

theorem printedSample_prints : printedSample.Prints printedText := by
  let line : Blanks := ⟨['\n'], by simp [Grammar.blank, CharClass.oneOf]⟩
  let condition : TagArgs := ⟨⟨" $x > 0".toList, by decide⟩, by simp; decide⟩
  let data : TagRest := ⟨" data=\"all\"".toList, by decide⟩
  let type : TagRest := ⟨" string".toList, by decide⟩
  let quoted : Quoted := ⟨[.plain 'i' (by decide), .plain 't' (by decide), .escaped '\'',
    .plain 's' (by decide), .plain ' ' (by decide), .plain '\x7d' (by decide)]⟩
  have hdivided : Node.Prints (.control noMark .cond [.text noMark "one", .text noMark "two"])
      "\x7bif $x > 0\x7done\x7belse\x7dtwo\x7b/if\x7d".toList := by
    refine ⟨(by cases ·), fun _ => ⟨condition, "one\x7belse\x7dtwo".toList, noBlanks, ?_, by decide⟩⟩
    exact ⟨[], _, "\x7belse\x7dtwo".toList, .nil, rfl,
      ⟨_, _, [], .cons "else" (by decide) noBlanks.args .nil, rfl, .nil, by simp, by decide⟩,
      by simp, by decide⟩
  have hblock : Value.Prints "param" (.block [.text noMark "w"]) "\x7dw\x7b/param\x7d".toList :=
    ⟨[], noBlanks, noBlanks, "w".toList, ⟨[], _, [], .nil, rfl, .nil, by simp, by decide⟩, by decide⟩
  have hinline : Value.Prints "param" (.inline (.string ⟨noMark, "it's \x7d"⟩))
      ": 'it\\'s \x7d' /\x7d".toList :=
    ⟨noBlanks, oneSpace.toBlanks, oneSpace.toBlanks, quoted.text, ⟨quoted, by decide, rfl⟩, by decide⟩
  have hcall : Node.Prints (.call noMark "a.u" false
      [.mk noMark "y" (.inline (.string ⟨noMark, "it's \x7d"⟩)),
        .mk noMark "z" (.block [.text noMark "w"])])
      ("\x7bcall a.u data=\"all\"\x7d \x7bparam y: 'it\\'s \x7d' /\x7d".toList ++
        " \x7bparam z\x7dw\x7b/param\x7d\x7b/call\x7d".toList) :=
    ⟨oneSpace, data, _, by simp [data]; decide, rfl, Or.inr ⟨by decide, _, noBlanks, noBlanks,
      ⟨oneSpace.toBlanks, oneSpace, _, _, hinline,
        ⟨oneSpace.toBlanks, oneSpace, _, [], hblock, rfl, rfl⟩, rfl⟩, by decide⟩⟩
  have hliteral : Node.Prints (.control noMark .literal [.text noMark "\x7braw\x7d"])
      "\x7bliteral\x7d\x7braw\x7d\x7b/literal\x7d".toList :=
    ⟨fun _ => ⟨noBlanks, noBlanks, by decide⟩, fun h => absurd rfl h⟩
  have hattrs : Attribute.ListPrints [⟨noMark, "kind", "html"⟩, ⟨noMark, "variant", "v"⟩]
      " kind=\"html\" variant=\"v\"".toList :=
    ⟨oneSpace, _, ⟨oneSpace, [], rfl, rfl⟩, by decide⟩
  have hparams : ParamDecl.ListPrints [⟨noMark, false, "x", "string"⟩]
      "\n\x7b@param? x: string\x7d".toList :=
    ⟨line, oneSpace, noBlanks, type, [], by decide, rfl, by decide⟩
  refine ⟨noBlanks, oneSpace, noRest, _, line, by simp [noRest], ⟨line, _, [], ⟨oneSpace, _, _, noBlanks, _, _,
    noBlanks, ⟨by decide, by decide⟩, hattrs, hparams, ⟨[], _, _, .nil, hdivided,
      ⟨[], _, _, .nil, rfl, ⟨[], _, _, .nil, hcall, ⟨[], _, [], .nil, hliteral, .nil, by decide, rfl⟩,
        by decide, rfl⟩, by decide, rfl⟩, by decide, rfl⟩, rfl⟩, rfl, rfl⟩, ?_⟩
  decide +kernel

theorem printedSample_undone : printedSample.Printable ∧ printedSample.Prints printedText ∧
    ∃ parsed, parseWith (String.ofList printedText) {} = .ok parsed ∧
      parsed.unmarked = printedSample.unmarked :=
  ⟨printedSample_printable, printedSample_prints,
    ((parse_undoes_printing _ printedSample_printable).2 _ {} printedSample_prints).2
      (by decide +kernel)⟩

end SoyTree
