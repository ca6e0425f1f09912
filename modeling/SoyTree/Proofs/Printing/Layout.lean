import SoyTree.Proofs.Concrete.File
import SoyTree.Proofs.Grammar.Lexical

/-! # Canonical syntax

Which programs can be written down so that they are read back, and how they are written. Where the
syntax leaves a choice, as with blanks, the rest of a tag or the tags that divide a block, any
choice is canonical.
-/

namespace SoyTree

open Concrete

section Unmarked

def noMark : Mark := ⟨.origin, .origin⟩

mutual

def Expr.unmarked : Expr → Expr
  | .reference _ name => .reference noMark name
  | .string literal => .string ⟨noMark, literal.value⟩
  | .boolean _ value => .boolean noMark value
  | .number _ value => .number noMark value
  | .map _ items => .map noMark (Expr.itemsUnmarked items)
  | .call _ name args => .call noMark name (Expr.argsUnmarked args)
  | .ternary _ cond left right => .ternary noMark cond.unmarked left.unmarked right.unmarked
  | .raw _ text => .raw noMark text

def Expr.argsUnmarked : List Expr → List Expr
  | [] => []
  | e :: rest => e.unmarked :: Expr.argsUnmarked rest

def Expr.itemsUnmarked : List MapItem → List MapItem
  | [] => []
  | .mk _ key value :: rest =>
    .mk noMark ⟨noMark, key.value⟩ value.unmarked :: Expr.itemsUnmarked rest

end

mutual

def Node.unmarked : Node → Node
  | .text _ content => .text noMark content
  | .interpolation _ raw => .interpolation noMark raw
  | .call _ target delegate params => .call noMark target delegate (Node.paramsUnmarked params)
  | .binding _ name value => .binding noMark name value.unmarked
  | .control _ block body => .control noMark block (Node.bodyUnmarked body)

def Value.unmarked : Value → Value
  | .inline expr => .inline expr.unmarked
  | .block body => .block (Node.bodyUnmarked body)

def Node.paramsUnmarked : List Param → List Param
  | [] => []
  | .mk _ name value :: rest => .mk noMark name value.unmarked :: Node.paramsUnmarked rest

def Node.bodyUnmarked : List Node → List Node
  | [] => []
  | n :: rest => n.unmarked :: Node.bodyUnmarked rest

end

def Attribute.unmarked (a : Attribute) : Attribute :=
  { a with mark := noMark }

def ParamDecl.unmarked (d : ParamDecl) : ParamDecl :=
  { d with mark := noMark }

def Doc.unmarked (d : Doc) : Doc :=
  { d with mark := noMark, params := d.params.map ParamDecl.unmarked }

def Template.unmarked (t : Template) : Template :=
  { t with
    mark := noMark
    doc := t.doc.map Doc.unmarked
    attributes := t.attributes.map Attribute.unmarked
    params := t.params.map ParamDecl.unmarked
    body := Node.bodyUnmarked t.body }

def Program.unmarked (p : Program) : Program :=
  { p with mark := noMark, templates := p.templates.map Template.unmarked }

end Unmarked

section Printable

def Node.isText : Node → Bool
  | .text _ _ => true
  | _ => false

def Node.startsText : List Node → Bool
  | [] => false
  | n :: _ => n.isText

/-- Nothing, or one text that does not hold the closing tag of its block. -/
def Node.IsLiteralBody : List Node → Prop
  | [] => True
  | [.text _ content] =>
    content.toList ≠ [] ∧ ∀ a gap b, content.toList ≠ a ++ closeText "literal" gap ++ b
  | _ => False

def Expr.Printable : Expr → Prop
  | .reference _ name => isWord name.toList = true
  | .string _ => True
  | _ => False

mutual

/-- What a node has to keep to be read back: text holds no opening brace, an interpolation is no
command, names are names, inline values are simple, and texts of one body are kept apart. -/
def Node.Printable : Node → Prop
  | .text _ content => content.toList ≠ [] ∧ '\x7b' ∉ content.toList
  | .interpolation _ raw =>
    '\x7d' ∉ raw.toList ∧ Grammar.isCommand raw.toList = false ∧
      String.ofList (Grammar.leadWord raw.toList) ∉ Grammar.reservedWords
  | .call _ target _ params => Path.isDotted target = true ∧ Node.ParamsPrintable params
  | .binding _ name value => isWord name.toList = true ∧ value.Printable
  | .control _ block body =>
    (block = .literal → Node.IsLiteralBody body) ∧
      (block ≠ .literal → Node.BodyPrintable block.interior body)

def Value.Printable : Value → Prop
  | .inline expr => expr.Printable
  | .block body => Node.BodyPrintable [] body

def Node.ParamsPrintable : List Param → Prop
  | [] => True
  | .mk _ name value :: rest =>
    isWord name.toList = true ∧ value.Printable ∧ Node.ParamsPrintable rest

/-- Two texts in a row need a tag that may stand between them. -/
def Node.BodyPrintable (interior : List String) : List Node → Prop
  | [] => True
  | n :: rest =>
    n.Printable ∧ (n.isText = true → Node.startsText rest = true → interior ≠ []) ∧
      Node.BodyPrintable interior rest

end

def Attribute.Printable (a : Attribute) : Prop :=
  a.name.toList ≠ [] ∧ (∀ c ∈ a.name.toList, (c.isAlphanum || c == '_' || c == '-') = true) ∧
    '"' ∉ a.value.toList

def ParamDecl.Printable (d : ParamDecl) : Prop :=
  isWord d.name.toList = true ∧ Text.trim d.type.toList = d.type.toList ∧ '\x7d' ∉ d.type.toList

/-- The variant of a delegate is written as an attribute, so that no other attribute has its
name. -/
def TemplateKind.Printable (kind : TemplateKind) (attributes : List Attribute) : Prop :=
  match kind with
  | .plain => True
  | .delegate variant =>
    (∀ a ∈ attributes, Grammar.isVariant a = false) ∧ ∀ v ∈ variant, '"' ∉ v.toList

structure Template.Printable (t : Template) : Prop where
  doc : t.doc = none
  name : Path.isDotted t.name = true
  kind : t.kind.Printable t.attributes
  attributes : ∀ a ∈ t.attributes, a.Printable
  params : ∀ d ∈ t.params, d.Printable
  body : Node.BodyPrintable [] t.body

/-- A program that has a canonical text. -/
structure Program.Printable (p : Program) : Prop where
  named : p.namespacePath ≠ []
  path : ∀ w ∈ p.namespacePath, isWord w.toList = true
  nonempty : p.templates ≠ []
  templates : ∀ t ∈ p.templates, t.Printable

end Printable

section Prints

/-- Tags that may divide a body, and nothing else. -/
inductive Dividers (interior : List String) : List Char → Prop where
  | nil : Dividers interior []
  | cons {rest : List Char} (word : String) (allowed : word ∈ interior) (args : TagArgs)
      (h : Dividers interior rest) : Dividers interior (tagText word args.chars ++ rest)

/-- References are written with a dollar sign, strings with any of the escapes for a character. -/
def Expr.Prints : Expr → List Char → Prop
  | .reference _ name, text => text = '$' :: name.toList
  | .string literal, text =>
    ∃ q : Quoted, q.chars.map StringChar.value = literal.value.toList ∧ text = q.text
  | _, _ => False

def Node.literalText : List Node → List Char
  | [.text _ content] => content.toList
  | _ => []

mutual

/-- The text is the node in canonical syntax. -/
def Node.Prints : Node → List Char → Prop
  | .text _ content, text => text = content.toList
  | .interpolation _ raw, text => text = '\x7b' :: (raw.toList ++ ['\x7d'])
  | .call _ target delegate params, text =>
    ∃ (gap : Gap) (extra : TagRest) (head : List Char),
      (∀ c ∈ extra.chars.head?, Grammar.blank.accepts c = true) ∧
      head = '\x7b' :: ((callWord delegate).toList ++
        (gap.chars ++ (target.toList ++ extra.chars))) ∧
      (params = [] ∧ text = head ++ ['/', '\x7d'] ∨
        extra.chars.getLast? ≠ some '/' ∧ ∃ (inner : List Char) (gap close : Blanks),
          Node.ParamsPrint params inner ∧ text = head ++ ('\x7d' :: (inner ++
            (gap.chars ++ closeText (callWord delegate) close))))
  | .binding _ name value, text =>
    ∃ (gap : Gap) (rest : List Char), value.Prints "let" rest ∧
      text = '\x7b' :: ("let".toList ++ (gap.chars ++ ('$' :: name.toList))) ++ rest
  | .control _ block body, text =>
    (block = .literal → ∃ gap close : Blanks,
      text = literalHead gap ++ (Node.literalText body ++ closeText "literal" close)) ∧
    (block ≠ .literal → ∃ (args : TagArgs) (inner : List Char) (close : Blanks),
      Node.BodyPrints block.interior body inner ∧
        text = tagText block.word args.chars ++ (inner ++ closeText block.word close))

/-- The rest of a tag of `word` behind the name, with a value in it or a body behind it. -/
def Value.Prints (word : String) : Value → List Char → Prop
  | .inline expr, text =>
    ∃ (gap₁ gap₂ gap₃ : Blanks) (inner : List Char), expr.Prints inner ∧
      text = gap₁.chars ++ (':' :: (gap₂.chars ++ (inner ++ (gap₃.chars ++ ['/', '\x7d']))))
  | .block body, text =>
    ∃ (attrs : List Attr) (gap close : Blanks) (inner : List Char), Node.BodyPrints [] body inner ∧
      text = attrsText attrs ++ (gap.chars ++ ('\x7d' :: (inner ++ closeText word close)))

def Node.ParamsPrint : List Param → List Char → Prop
  | [], text => text = []
  | .mk _ name value :: rest, text =>
    ∃ (lead : Blanks) (gap : Gap) (inner more : List Char), value.Prints "param" inner ∧
      Node.ParamsPrint rest more ∧ text = lead.chars ++
        (('\x7b' :: ("param".toList ++ (gap.chars ++ name.toList)) ++ inner) ++ more)

/-- Dividing tags may stand anywhere between nodes, and have to where texts would meet. -/
def Node.BodyPrints (interior : List String) : List Node → List Char → Prop
  | [], text => Dividers interior text
  | n :: rest, text =>
    ∃ tags first more, Dividers interior tags ∧ n.Prints first ∧
      Node.BodyPrints interior rest more ∧ (n.isText = true → ∀ c ∈ more.head?, c = '\x7b') ∧
      text = tags ++ (first ++ more)

end

def Attribute.ListPrints : List Attribute → List Char → Prop
  | [], text => text = []
  | a :: rest, text =>
    ∃ (gap : Gap) (more : List Char), Attribute.ListPrints rest more ∧
      text = (gap.chars ++ (a.name.toList ++ ('=' :: '"' :: (a.value.toList ++ ['"'])))) ++ more

def ParamDecl.ListPrints : List ParamDecl → List Char → Prop
  | [], text => text = []
  | d :: rest, text =>
    ∃ (lead : Blanks) (gap₁ : Gap) (gap₂ : Blanks) (type : TagRest) (more : List Char),
      Text.trim type.chars = d.type.toList ∧ ParamDecl.ListPrints rest more ∧
      text = (lead.chars ++ ("\x7b@param".toList ++ ((if d.required then [] else ['?']) ++
        (gap₁.chars ++ (d.name.toList ++ (gap₂.chars ++ (':' :: (type.chars ++ ['\x7d'])))))))) ++ more

namespace TemplateKind

def isDelegate : TemplateKind → Bool
  | plain => false
  | delegate _ => true

/-- The attributes that are written, the variant among them. -/
def Writes (kind : TemplateKind) (attributes written : List Attribute) : Prop :=
  match kind with
  | plain => written = attributes
  | delegate variant =>
    written.filter (!Grammar.isVariant ·) = attributes ∧
      (written.filter Grammar.isVariant).map (·.value) = variant.toList

end TemplateKind

def Template.Prints (t : Template) (text : List Char) : Prop :=
  ∃ (gap₁ : Gap) (written : List Attribute) (attrs : List Char) (gap₂ : Blanks)
    (params body : List Char) (close : Blanks),
    t.kind.Writes t.attributes written ∧ Attribute.ListPrints written attrs ∧
    ParamDecl.ListPrints t.params params ∧ Node.BodyPrints [] t.body body ∧
    text = ('\x7b' :: ((templateWord t.kind.isDelegate).toList ++ (gap₁.chars ++ t.name.toList)) ++
      (attrs ++ (gap₂.chars ++ ['\x7d']))) ++
        (params ++ (body ++ closeText (templateWord t.kind.isDelegate) close))

def Template.ListPrints : List Template → List Char → Prop
  | [], text => text = []
  | t :: rest, text =>
    ∃ (lead : Blanks) (first more : List Char), t.Prints first ∧ Template.ListPrints rest more ∧
      text = lead.chars ++ (first ++ more)

/-- The text is the program in canonical syntax. -/
def Program.Prints (p : Program) (text : List Char) : Prop :=
  ∃ (lead : Blanks) (gap : Gap) (extra : TagRest) (templates : List Char) (final : Blanks),
    (∀ c ∈ extra.chars.head?, Grammar.blank.accepts c = true) ∧
    Template.ListPrints p.templates templates ∧
    text = lead.chars ++ ('\x7b' :: ("namespace".toList ++ (gap.chars ++
      ((Path.join p.namespacePath).toList ++ (extra.chars ++ ['\x7d'])))) ++
        (templates ++ final.chars))

end Prints

section Existence

theorem exists_quoted (value : List Char) : ∃ q : Quoted, q.chars.map StringChar.value = value := by
  induction value with
  | nil => exact ⟨⟨[]⟩, rfl⟩
  | cons c value ih =>
    obtain ⟨q, hq⟩ := ih
    by_cases h : c ≠ '\\' ∧ c ≠ '\''
    · exact ⟨⟨.plain c h :: q.chars⟩, by rw [List.map_cons, hq]; rfl⟩
    · have hescape : Grammar.unescape c = c := by
        rcases (by simpa [Decidable.not_and_iff_or_not, -not_and] using h : c = '\\' ∨ c = '\'') with
          rfl | rfl <;> decide
      exact ⟨⟨.escaped c :: q.chars⟩, by rw [List.map_cons, hq, StringChar.value, hescape]⟩

theorem Expr.exists_prints (e : Expr) (h : e.Printable) : ∃ text, e.Prints text := by
  match e, h with
  | .reference _ name, _ => exact ⟨_, rfl⟩
  | .string literal, _ =>
    obtain ⟨q, hq⟩ := exists_quoted literal.value.toList
    exact ⟨q.text, q, hq, rfl⟩

/-- One more dividing tag may stand in front of a body. -/
theorem Node.BodyPrints.divide {interior : List String} {nodes : List Node} {text : List Char}
    (h : Node.BodyPrints interior nodes text) {word : String} (hw : word ∈ interior)
    (args : TagArgs) : Node.BodyPrints interior nodes (tagText word args.chars ++ text) := by
  cases nodes with
  | nil => exact .cons word hw args h
  | cons n rest =>
    obtain ⟨tags, first, more, htags, hfirst, hmore, hnext, rfl⟩ := h
    exact ⟨_, first, more, .cons word hw args htags, hfirst, hmore, hnext,
      by rw [List.append_assoc]⟩

mutual

theorem Node.exists_prints (n : Node) (h : n.Printable) :
    ∃ text, n.Prints text ∧ (n.isText = false → text.head? = some '\x7b') := by
  match n with
  | .text _ content => exact ⟨_, rfl, fun h => by cases h⟩
  | .interpolation _ raw => exact ⟨_, rfl, fun _ => rfl⟩
  | .call _ target delegate params =>
    obtain ⟨inner, hinner⟩ := Node.exists_paramsPrint params h.2
    exact ⟨_, ⟨oneSpace, noRest, _, by simp [noRest], rfl,
      Or.inr ⟨by simp [noRest], inner, noBlanks, noBlanks, hinner, rfl⟩⟩, fun _ => rfl⟩
  | .binding _ name value =>
    obtain ⟨rest, hrest⟩ := Value.exists_prints "let" value h.2
    exact ⟨_, ⟨oneSpace, rest, hrest, rfl⟩, fun _ => rfl⟩
  | .control _ block body =>
    by_cases hb : block = .literal
    · exact ⟨_, ⟨fun _ => ⟨noBlanks, noBlanks, rfl⟩, fun hne => absurd hb hne⟩, fun _ => rfl⟩
    · obtain ⟨inner, hinner, -⟩ := Node.exists_bodyPrints block.interior body (h.2 hb)
      exact ⟨_, ⟨fun heq => absurd heq hb, fun _ => ⟨noBlanks.args, inner, noBlanks, hinner, rfl⟩⟩,
        fun _ => rfl⟩

theorem Value.exists_prints (word : String) (v : Value) (h : v.Printable) :
    ∃ text, v.Prints word text := by
  match v with
  | .inline expr =>
    obtain ⟨inner, hinner⟩ := expr.exists_prints h
    exact ⟨_, noBlanks, noBlanks, noBlanks, inner, hinner, rfl⟩
  | .block body =>
    obtain ⟨inner, hinner, -⟩ := Node.exists_bodyPrints [] body h
    exact ⟨_, [], noBlanks, noBlanks, inner, hinner, rfl⟩

theorem Node.exists_paramsPrint (ps : List Param) (h : Node.ParamsPrintable ps) :
    ∃ text, Node.ParamsPrint ps text := by
  match ps with
  | [] => exact ⟨[], rfl⟩
  | .mk _ name value :: rest =>
    obtain ⟨inner, hinner⟩ := Value.exists_prints "param" value h.2.1
    obtain ⟨more, hmore⟩ := Node.exists_paramsPrint rest h.2.2
    exact ⟨_, noBlanks, oneSpace, inner, more, hinner, hmore, rfl⟩

theorem Node.exists_bodyPrints (interior : List String) (nodes : List Node)
    (h : Node.BodyPrintable interior nodes) :
    ∃ text, Node.BodyPrints interior nodes text ∧
      (Node.startsText nodes = false → ∀ c ∈ text.head?, c = '\x7b') := by
  match nodes with
  | [] => exact ⟨[], .nil, by simp⟩
  | n :: rest =>
    obtain ⟨first, hfirst, hbrace⟩ := Node.exists_prints n h.1
    obtain ⟨more, hmore, hnext⟩ := Node.exists_bodyPrints interior rest h.2.2
    have hhead : n.isText = false → ∀ more, ∀ c ∈ (first ++ more).head?, c = '\x7b' := by
      intro hn more c hc
      rw [List.head?_append, hbrace hn] at hc
      exact (Option.some.inj hc).symm
    by_cases hmeet : n.isText = true ∧ Node.startsText rest = true
    · obtain ⟨word, words, rfl⟩ := List.exists_cons_of_ne_nil (h.2.1 hmeet.1 hmeet.2)
      refine ⟨_, ⟨[], first, _, .nil, hfirst, hmore.divide List.mem_cons_self noBlanks.args,
        fun _ => ?_, rfl⟩, fun hn => hhead hn _⟩
      rintro c (_ | _)
      rfl
    · refine ⟨_, ⟨[], first, more, .nil, hfirst, hmore, fun hn => hnext ?_, rfl⟩,
        fun hn => hhead hn _⟩
      simpa [hn] using hmeet

end

theorem Attribute.exists_listPrints (as : List Attribute) : ∃ text, Attribute.ListPrints as text := by
  induction as with
  | nil => exact ⟨[], rfl⟩
  | cons a as ih =>
    obtain ⟨more, hmore⟩ := ih
    exact ⟨_, oneSpace, more, hmore, rfl⟩

theorem ParamDecl.exists_listPrints (ds : List ParamDecl) (h : ∀ d ∈ ds, d.Printable) :
    ∃ text, ParamDecl.ListPrints ds text := by
  induction ds with
  | nil => exact ⟨[], rfl⟩
  | cons d ds ih =>
    obtain ⟨more, hmore⟩ := ih fun d' hd' => h d' (by simp [hd'])
    obtain ⟨-, htrim, hopen⟩ := h d (by simp)
    exact ⟨_, noBlanks, oneSpace, noBlanks, ⟨d.type.toList, hopen⟩, more, htrim, hmore, rfl⟩

theorem TemplateKind.exists_writes {kind : TemplateKind} {attributes : List Attribute}
    (h : kind.Printable attributes) : ∃ written, kind.Writes attributes written := by
  cases kind with
  | plain => exact ⟨attributes, rfl⟩
  | delegate variant =>
    have hvariant : ∀ v, Grammar.isVariant ⟨noMark, "variant", v⟩ = true := fun v => rfl
    have hnone : attributes.filter Grammar.isVariant = [] :=
      List.filter_eq_nil_iff.2 fun a ha => by simp [h.1 a ha]
    have hall : attributes.filter (!Grammar.isVariant ·) = attributes :=
      List.filter_eq_self.2 fun a ha => by simp [h.1 a ha]
    cases variant with
    | none => exact ⟨attributes, hall, by simp [hnone]⟩
    | some v =>
      refine ⟨⟨noMark, "variant", v⟩ :: attributes, ?_, ?_⟩
      · simp [hvariant, hall]
      · simp [hvariant, hnone]

theorem Template.exists_prints (t : Template) (h : t.Printable) : ∃ text, t.Prints text := by
  obtain ⟨written, hwritten⟩ := TemplateKind.exists_writes h.kind
  obtain ⟨attrs, hattrs⟩ := Attribute.exists_listPrints written
  obtain ⟨params, hparams⟩ := ParamDecl.exists_listPrints t.params h.params
  obtain ⟨body, hbody, -⟩ := Node.exists_bodyPrints [] t.body h.body
  exact ⟨_, oneSpace, written, attrs, noBlanks, params, body, noBlanks, hwritten, hattrs, hparams,
    hbody, rfl⟩

theorem Template.exists_listPrints (ts : List Template) (h : ∀ t ∈ ts, t.Printable) :
    ∃ text, Template.ListPrints ts text := by
  induction ts with
  | nil => exact ⟨[], rfl⟩
  | cons t ts ih =>
    obtain ⟨first, hfirst⟩ := t.exists_prints (h t (by simp))
    obtain ⟨more, hmore⟩ := ih fun t' ht' => h t' (by simp [ht'])
    exact ⟨_, noBlanks, first, more, hfirst, hmore, rfl⟩

/-- Every printable program has a canonical text. -/
theorem Program.exists_prints (p : Program) (h : p.Printable) : ∃ text, p.Prints text := by
  obtain ⟨templates, htemplates⟩ := Template.exists_listPrints p.templates h.templates
  exact ⟨_, noBlanks, oneSpace, noRest, templates, noBlanks, by simp [noRest], htemplates, rfl⟩

end Existence

end SoyTree
