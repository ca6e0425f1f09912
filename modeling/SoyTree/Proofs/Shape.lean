import SoyTree.Proofs.Expression.RawText
import SoyTree.Proofs.Expression.Canonical
import SoyTree.Proofs.Expression.Trimmed
import SoyTree.Proofs.Grammar.Nodes
import SoyTree.Proofs.Printing.Layout

/-! # The shape of parsed trees

The types of the tree allow more than the grammar produces. What a consumer may rely on beyond them
is one condition on every expression, one on every node and one on every template.
-/

namespace SoyTree

open Concrete

section Shapes

/-- Names are identifiers, no keyword is called, and only the second branch of a ternary can be a
ternary again. -/
def Expr.Shaped : Expr → Prop
  | .reference _ name => isWord name.toList = true
  | .call _ name _ => isWord name.toList = true ∧ name ≠ "true" ∧ name ≠ "false"
  | .ternary _ cond left _ => cond.isTernary = false ∧ left.isTernary = false
  | _ => True

def TextsApart (nodes : List Node) : Prop :=
  nodes.IsChain fun a b => ¬ (a.isText = true ∧ b.isText = true)

def Value.Shaped : Value → Prop
  | .inline _ => True
  | .block body => TextsApart body

def controlWords : List String :=
  ["if", "foreach", "for", "msg", "switch", "plural", "select", "literal"]

def Node.Shaped : Node → Prop
  | .text _ content => content ≠ ""
  | .interpolation _ raw => Grammar.isCommand raw.toList = false
  | .call _ _ _ params => ∀ q ∈ params, isWord q.name.toList = true ∧ q.value.Shaped
  | .binding _ name value => isWord name.toList = true ∧ value.Shaped
  | .control _ block body =>
    block.word ∈ controlWords ∧ (block = .loop → TextsApart body) ∧
      (block = .literal →
        body = [] ∨ ∃ mark content, body = [.text mark content] ∧ content ≠ "")

/-- The variant of a delegate is the value of the first attribute with that name in its header tag,
and its attributes are all those in the tag with other names, in their order. -/
def Template.VariantSplit (source : List Char) (T : Template) : Prop :=
  ∀ variant, T.kind = .delegate variant →
    ∃ (doc : List Char) (gap₁ : Gap) (name : Name) (attrs : List Attr) (gap₂ : Blanks)
      (rest : List Char),
      IsDoc source T.doc doc ∧
      T.mark.sliceChars source = doc ++ ('\x7b' :: ("deltemplate".toList ++ (gap₁.chars ++
        (name.text ++ (attrsText attrs ++ (gap₂.chars ++ '\x7d' :: rest)))))) ∧
      variant = ((attrs.find? fun a => a.pair.name == "variant".toList).map fun a =>
        String.ofList a.pair.value) ∧
      T.attributes.map (fun a => (a.name, a.value)) =
        (attrs.filter fun a => a.pair.name != "variant".toList).map fun a =>
          (String.ofList a.pair.name, String.ofList a.pair.value)

structure Template.Shaped (source : List Char) (T : Template) : Prop where
  body : TextsApart T.body
  params : ∀ d ∈ T.params, isWord d.name.toList = true
  variantSplit : T.VariantSplit source
  noVariant : (∃ variant, T.kind = .delegate variant) → ∀ a ∈ T.attributes, a.name ≠ "variant"

structure Program.Shaped (source : List Char) (program : Program) : Prop where
  nonempty : program.templates ≠ []
  templates : ∀ T ∈ program.templates, T.Shaped source
  nodes : ∀ n ∈ program.nodes, n.Shaped
  exprs : ∀ x ∈ program.occurrences, x.expr.Shaped

end Shapes

namespace Grammar

open Rule Cursor

variable {α : Type} {s t u : Cursor} {stop : Rule Unit} {nested again : Rule SoyTree.Expr}
  {home : List String} {item : Rule Node} {n : Node}

section Expressions

/-- The condition holds of an expression and of everything below it. -/
def ShapedWithin (e : SoyTree.Expr) : Prop :=
  ∀ inside place, ∀ x ∈ e.occurrences inside place, x.expr.Shaped

theorem shapedWithin_of {e : SoyTree.Expr} (h : e.Shaped)
    (hinner : ∀ inside, ∀ x ∈ e.inner inside, x.expr.Shaped) : ShapedWithin e := by
  rintro inside place x (_ | ⟨_, hx⟩)
  · exact h
  · exact hinner inside x hx

def ReadsShaped (p : Rule SoyTree.Expr) : Prop :=
  p.Ensures fun _ e _ => ShapedWithin e

theorem word_of_identifier {name : String} (h : identifier.Yields s name t) :
    isWord name.toList = true := by
  obtain ⟨w, -, rfl, -⟩ := yields_identifier.1 h
  rw [String.toList_ofList]
  exact w.isWord

theorem reference_shaped : ReadsShaped reference := by
  intro s e t h
  simp only [reference, yields_marked, yields_bind] at h
  obtain ⟨name, ⟨-, u, -, hname⟩, rfl⟩ := h
  exact shapedWithin_of (word_of_identifier hname) (by simp [Expr.inner])

theorem mapLiteral_shaped (hn : ReadsShaped nested) : ReadsShaped (mapLiteral nested) := by
  intro s e t h
  obtain ⟨items, hi, rfl⟩ := yields_marked.1 h
  have hitem : (mapItem nested).Ensures fun s i _ => Visible s → ShapedWithin i.value := by
    intro s i t hi _
    obtain ⟨u, -, hy⟩ := mapItem_value hi
    exact hn _ _ _ hy
  refine shapedWithin_of trivial fun inside x hx => ?_
  rw [Expr.inner, itemsInner_eq] at hx
  obtain ⟨i, hi', hx⟩ := List.mem_flatMap.1 hx
  exact bracketed_visible hitem hi i hi' _ _ x hx

/-- The keywords are tried in front of a call, so that they are never taken for its name. -/
theorem functionCall_shaped (hn : ReadsShaped nested) {e : SoyTree.Expr} (hb : boolean.Fails s)
    (h : (functionCall nested).Yields s e t) : ShapedWithin e := by
  simp only [functionCall, yields_marked, yields_bind, yields_pure] at h
  obtain ⟨_, ⟨name, u, hname, args, _, ha, rfl, rfl⟩, rfl⟩ := h
  have hother : ∀ word, (keyword word).Fails s → name ≠ word := by
    rintro word hf rfl
    have hy : (keyword name).Yields s () u := yields_check.2 ⟨name, hname, by simp⟩
    exact hy.not_fails hf
  obtain ⟨htrue, hfalse⟩ := fails_either.1 (fails_marked.1 hb)
  refine shapedWithin_of ⟨word_of_identifier hname, hother _ ?_, hother _ ?_⟩ fun inside x hx => ?_
  · exact (fails_bind.1 htrue).resolve_right (by simp)
  · exact (fails_bind.1 hfalse).resolve_right (by simp)
  · rw [Expr.inner, argsInner_eq] at hx
    obtain ⟨arg, harg, hx⟩ := List.mem_flatMap.1 hx
    exact bracketed_visible (fun s e t h _ => hn s e t h) ha arg harg _ _ x hx

theorem operand_shaped (hn : ReadsShaped nested) :
    (operand stop nested).Ensures fun _ e _ => ShapedWithin e ∧ e.isTernary = false := by
  intro s e t h
  rcases operand_reads h with he | h
  · unfold forms at he
    rcases yields_choice_cons.1 he with he | ⟨-, he⟩
    · obtain ⟨name, -, heq⟩ := yields_marked.1 he
      exact ⟨reference_shaped _ _ _ he, by rw [heq]; rfl⟩
    rcases yields_choice_cons.1 he with he | ⟨-, he⟩
    · obtain ⟨l, -, rfl⟩ := yields_marked.1 he
      exact ⟨shapedWithin_of trivial (by simp [Expr.inner]), rfl⟩
    rcases yields_choice_cons.1 he with he | ⟨hboolean, he⟩
    · obtain ⟨b, -, rfl⟩ := yields_marked.1 he
      exact ⟨shapedWithin_of trivial (by simp [Expr.inner]), rfl⟩
    rcases yields_choice_cons.1 he with he | ⟨-, he⟩
    · obtain ⟨items, -, heq⟩ := yields_marked.1 he
      exact ⟨mapLiteral_shaped hn _ _ _ he, by rw [heq]; rfl⟩
    rcases yields_choice_cons.1 he with he | ⟨-, he⟩
    · obtain ⟨x, -, rfl⟩ := yields_marked.1 he
      exact ⟨shapedWithin_of trivial (by simp [Expr.inner]), rfl⟩
    · rw [choice_singleton] at he
      obtain ⟨x, -, heq⟩ := yields_marked.1 he
      exact ⟨functionCall_shaped hn hboolean he, by rw [heq]; rfl⟩
  · obtain ⟨text, -, rfl⟩ := yields_marked.1 h
    exact ⟨shapedWithin_of trivial (by simp [Expr.inner]), rfl⟩

theorem branches_shaped {x : SoyTree.Expr × SoyTree.Expr} (hn : ReadsShaped nested)
    (hagain : ReadsShaped again) (h : (branches stop nested again).Yields s x t) :
    (ShapedWithin x.1 ∧ x.1.isTernary = false) ∧ ShapedWithin x.2 := by
  simp only [branches, yields_bind, yields_pure] at h
  obtain ⟨-, u₁, -, _, u₂, -, left, u₃, hleft, -, u₄, -, _, u₅, -, right, u₆, hright, rfl, -⟩ := h
  exact ⟨operand_shaped hn _ _ _ hleft, hagain _ _ _ hright⟩

theorem expressionWith_shaped (hn : ReadsShaped nested) : ReadsShaped (expressionWith stop nested) := by
  rw [expressionWith_eq_recursive]
  refine Ensures.recursive fun again hagain s e t h => ?_
  cases expressionStep_reads h with
  | operand alone ends => exact (operand_shaped hn _ _ _ alone).1
  | ternary condition both ends =>
    obtain ⟨hcond, hplain⟩ := operand_shaped hn _ _ _ condition
    obtain ⟨⟨hleft, hplain'⟩, hright⟩ := branches_shaped hn hagain both
    refine shapedWithin_of ⟨hplain, hplain'⟩ fun inside x hx => ?_
    rw [Expr.inner, List.mem_append, List.mem_append] at hx
    rcases hx with hx | hx | hx
    · exact hcond _ _ x hx
    · exact hleft _ _ x hx
    · exact hright _ _ x hx
  | raw text =>
    obtain ⟨text, -, -, rfl⟩ := rawExpression_reads text
    exact shapedWithin_of trivial (by simp [Expr.inner])

theorem nestedExpression_shaped : ReadsShaped nestedExpression :=
  Ensures.recursive fun _ hn => expressionWith_shaped hn

end Expressions

section Bodies

/-- A text is read up to the next tag, and not at a tag. -/
def ReadsTextWhole (item : Rule Node) : Prop :=
  item.Ensures fun s n t => n.isText = true →
    s.rest.head? ≠ some '\x7b' ∧ s.rest ≠ [] ∧ ∀ c ∈ t.rest.head?, c = '\x7b'

theorem bodyItem_textWhole (home : List String) : ReadsTextWhole (bodyItem home) := by
  intro s n t h htext
  obtain ⟨item, hi, hrule⟩ := bodyItem_byRule h
  cases hrule with
  | text h =>
    obtain ⟨content, hr, hnext, -⟩ := textRun_reads h
    obtain ⟨c, cs, hchars⟩ := List.exists_cons_of_ne_nil content.nonempty
    refine ⟨?_, ?_, hnext⟩
    · rw [hr.rest, hchars]
      rintro ⟨⟩
      exact absurd (by simp [hchars]) content.plain
    · rw [hr.rest, hchars]
      simp
  | call delegate h =>
    obtain ⟨mark, target, params, rfl, -⟩ := call_parts hi.spelled h
    cases htext
  | binding h =>
    obtain ⟨mark, name, value, rfl, -⟩ := letBinding_parts h
    cases htext
  | control block parsed h =>
    obtain ⟨mark, body, rfl, -⟩ := controlBlock_parts h
    cases htext
  | literal h =>
    obtain ⟨mark, body, rfl, -⟩ := literal_parts h
    cases htext
  | interpolation h =>
    obtain ⟨mark, raw, rfl, -⟩ := interpolation_parts h
    cases htext

/-- Where no tag may stand between the items of a body, each text goes up to the next item that is
none. -/
theorem bodyContent_textsApart {word : String} {nodes : List Node} (hi : ReadsTextWhole item)
    (h : (bodyContent word [] item).Yields s nodes t) : TextsApart nodes := by
  obtain ⟨parts, u, hm, -, rfl⟩ := bodyContent_reads h
  have hmain : TextsApart (parts.filterMap id) ∧
      ∀ n ∈ (parts.filterMap id).head?, n.isText = true →
        s.rest.head? ≠ some '\x7b' ∧ s.rest ≠ [] := by
    refine hm.many_induction (P := fun s parts _ => TextsApart (parts.filterMap id) ∧
      ∀ n ∈ (parts.filterMap id).head?, n.isText = true →
        s.rest.head? ≠ some '\x7b' ∧ s.rest ≠ []) (fun s => ⟨.nil, by simp⟩) ?_
    rintro s part u parts t hp ⟨hapart, hhead⟩
    obtain ⟨n, rfl, hn⟩ : ∃ n, part = some n ∧ item.Yields s n u := by
      rcases bodyPart_cases hp with ⟨-, htag⟩ | ⟨n, hpart, -, hn⟩
      · obtain ⟨w, hw, -⟩ := yields_openTag.1 htag
        exact absurd hw List.not_mem_nil
      · exact ⟨n, hpart, hn⟩
    refine ⟨List.isChain_cons.2 ⟨?_, hapart⟩, ?_⟩
    · rintro m hm ⟨hn', hm'⟩
      obtain ⟨hbrace, hne⟩ := hhead m hm hm'
      obtain ⟨c, rest, hrest⟩ := List.exists_cons_of_ne_nil hne
      have hc := (hi _ _ _ hn hn').2.2 c (by rw [hrest]; rfl)
      exact hbrace (by rw [hrest, hc]; rfl)
    · rintro m (_ | _) htext
      obtain ⟨hbrace, hne, -⟩ := hi _ _ _ hn htext
      exact ⟨hbrace, hne⟩
  exact hmain.1

theorem ReadsAsItem.textWhole (h : ReadsAsItem home item) : ReadsTextWhole item :=
  fun s n t hy => bodyItem_textWhole home s n t (h s n t hy)

theorem ReadsBody.textsApart {body : List Node} (hi : ReadsAsItem home item)
    (h : ReadsBody item s body) : TextsApart body := by
  obtain ⟨u, v, word, -, hy⟩ := h
  exact bodyContent_textsApart hi.textWhole hy

theorem bindingValue_shaped {word : String} {value : Value} (hi : ReadsAsItem home item)
    (h : (bindingValue word item).Yields s value t) : value.Shaped := by
  cases value with
  | inline e => trivial
  | block body => exact (bindingValue_body h).textsApart hi

theorem bodyItem_shaped (h : (bodyItem home).Yields s n t) : n.Shaped := by
  obtain ⟨item, hi, hrule⟩ := bodyItem_byRule h
  cases hrule with
  | text h =>
    obtain ⟨mark, content, rfl, hne⟩ := textRun_parts h
    exact hne
  | call delegate h =>
    obtain ⟨mark, target, params, rfl, hparams⟩ := call_parts hi.spelled h
    intro q hq
    obtain ⟨u, u', -, hy⟩ := hparams q hq
    obtain ⟨hword, v, v', -, hvalue⟩ := param_parts hy
    exact ⟨hword, bindingValue_shaped hi hvalue⟩
  | binding h =>
    obtain ⟨mark, name, value, rfl, hword, u, u', -, hvalue⟩ := letBinding_parts h
    exact ⟨hword, bindingValue_shaped hi hvalue⟩
  | control block parsed h =>
    obtain ⟨mark, body, rfl, u, u', -, hbody⟩ := controlBlock_parts h
    refine ⟨by cases block <;> decide, ?_, fun hliteral => absurd hliteral parsed⟩
    rintro rfl
    exact bodyContent_textsApart hi.textWhole hbody
  | literal h =>
    obtain ⟨mark, body, rfl, hbody⟩ := literal_parts h
    exact ⟨by decide, by simp, fun _ => hbody⟩
  | interpolation h =>
    obtain ⟨mark, raw, rfl, hraw⟩ := interpolation_parts h
    exact hraw

end Bodies

section Templates

variable {source : List Char} {T : SoyTree.Template}

theorem isVariant_tree (a : Attr) (p : Position) :
    isVariant (a.tree p) = (a.pair.name == "variant".toList) := by
  rw [Bool.eq_iff_iff, isVariant, beq_iff_eq, beq_iff_eq, Attr.tree, Pair.tree]
  constructor
  · intro h
    rw [← h, String.toList_ofList]
  · intro h
    rw [h, String.ofList_toList]

theorem find?_variant (attrs : List Attr) (p : Position) :
    ((attrsTree attrs p).find? isVariant).map (·.value) =
      (attrs.find? fun a => a.pair.name == "variant".toList).map fun a =>
        String.ofList a.pair.value := by
  induction attrs generalizing p with
  | nil => rfl
  | cons a rest ih =>
    simp only [attrsTree, List.find?_cons, isVariant_tree]
    split
    · rfl
    · exact ih _

theorem filter_variant (attrs : List Attr) (p : Position) :
    ((attrsTree attrs p).filter (!isVariant ·)).map (fun a => (a.name, a.value)) =
      (attrs.filter fun a => a.pair.name != "variant".toList).map fun a =>
        (String.ofList a.pair.name, String.ofList a.pair.value) := by
  induction attrs generalizing p with
  | nil => rfl
  | cons a rest ih =>
    rw [attrsTree, List.filter_cons, List.filter_cons, isVariant_tree, ← bne]
    split
    · rw [List.map_cons, List.map_cons, ih]
      rfl
    · exact ih _

theorem variantSplit_tree (C : Concrete.Template) (p : Position) (h : Stands source p C.text) :
    (C.tree home p).VariantSplit source := by
  intro variant hkind
  have hdelegate : C.delegate = true := by
    cases hd : C.delegate with
    | true => rfl
    | false => simp [Concrete.Template.tree, hd] at hkind
  refine ⟨C.docText, C.gap₁, C.name, C.attrs, C.gap₂, headerParamsText C.params ++ (C.body.text ++
    closeText (templateWord C.delegate) C.close), C.isDoc home h.left, ?_, ?_, ?_⟩
  · refine h.slice.trans ?_
    simp only [Concrete.Template.text, Concrete.Template.headText, Concrete.Template.nameText,
      hdelegate, templateWord, if_true, List.append_assoc, List.cons_append, List.nil_append]
  · simp only [Concrete.Template.tree, hdelegate, if_true, TemplateKind.delegate.injEq] at hkind
    rw [← hkind, find?_variant]
  · simp only [Concrete.Template.tree, hdelegate, if_true]
    exact filter_variant _ _

theorem templateItem_shaped (hu : (ofChars source).Reaches u)
    (h : (templateItem home (bodyItem home)).Yields u T t) : T.Shaped source := by
  obtain ⟨delegate, x, hx, hT⟩ := templateItem_parts h
  obtain ⟨hbody, hparams⟩ := documented_parts hx
  constructor
  · exact (templateItem_body h).textsApart fun _ _ _ h => h
  · rw [hT]
    cases delegate <;> exact hparams
  · obtain ⟨C, hr, hC⟩ := templateItem_spelled (bodyItem_spelled home) h
    rw [hC]
    exact variantSplit_tree C u.position (hr.stands hu)
  · rintro ⟨variant, hkind⟩ a ha
    rw [hT] at hkind ha
    cases delegate with
    | false => cases hkind
    | true => simpa [isVariant] using (List.mem_filter.1 ha).2

end Templates

end Grammar

/-- The tree of a parsed source keeps to its shape: names are identifiers, texts are never empty and
stand apart from each other wherever no command divides a body, no command is interpolated, no
operand of a ternary but the last is a ternary, and delegates give up their variant. -/
theorem parse_shaped {source : String} {options : Options} {program : Program}
    (h : parseWith source options = .ok program) : program.Shaped source.toList := by
  obtain ⟨hne, htemplates⟩ := Grammar.parse_templates h
  constructor
  · exact hne
  · intro T hT
    obtain ⟨u, t, hu, hy⟩ := htemplates T hT
    exact Grammar.templateItem_shaped hu hy
  · intro n hn
    rcases Grammar.parse_nodes h n hn with ⟨u, t, -, hy⟩ | ⟨mark, content, rfl, hcontent⟩
    · exact Grammar.bodyItem_shaped hy
    · exact hcontent
  · intro x hx
    obtain ⟨e, he, hx⟩ := List.mem_flatMap.1 hx
    obtain ⟨u, t, -, -, hy⟩ := Grammar.parse_values h e he
    exact Grammar.expressionWith_shaped Grammar.nestedExpression_shaped u e t hy _ _ x hx

def shapedSample : String :=
  "\x7bnamespace a\x7d\x7bdeltemplate a.d one=\"1\" variant=\"x\" variant=\"y\" two=\"2\"\x7d" ++
    "\x7b@param p: ?\x7dtext\x7b$p\x7d\x7blet $v: f($p ? true : $p ? 1 : 2) /\x7d" ++
    "\x7bif $p\x7done\x7belse\x7dtwo\x7b/if\x7d\x7bliteral\x7d\x7b/literal\x7d" ++
    "\x7bliteral\x7d\x7bif\x7d\x7b/literal\x7d\x7bcall .t\x7d\x7bparam q\x7dtext" ++
    "\x7b/param\x7d\x7b/call\x7d\x7b/deltemplate\x7d"

theorem shapedSample_shaped : ∃ program, parseWith shapedSample {} = .ok program ∧
    program.Shaped shapedSample.toList := by
  obtain ⟨program, h⟩ := Grammar.exists_program shapedSample {} (by decide +kernel)
  exact ⟨program, h, parse_shaped h⟩

end SoyTree
