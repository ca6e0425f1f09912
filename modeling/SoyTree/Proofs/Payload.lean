import SoyTree.Proofs.Canonical.Body
import SoyTree.Proofs.Coverage
import SoyTree.Proofs.Expression.Trimmed

/-! # Payloads and marks

What a node keeps of its text agrees with the part of the source under its mark: texts and raw
values are that part, names and values can be read off it, and a command starts with its word and
ends with its own end.
-/

namespace SoyTree

open Concrete

section Faithful

/-- What the content of a string literal stands for. A quote or a lone backslash cannot be part
of it. -/
def unescapeAll? : List Char → Option (List Char)
  | [] => some []
  | '\\' :: c :: rest => (unescapeAll? rest).map (Grammar.unescape c :: ·)
  | c :: rest =>
    if c = '\\' ∨ c = '\'' then none else (unescapeAll? rest).map (c :: ·)

def IsNumeral (text : List Char) : Prop :=
  ∃ (sign : Option Char) (digits : List Char), (∀ c ∈ sign, c = '+' ∨ c = '-') ∧ digits ≠ [] ∧
    (∀ c ∈ digits, c.isDigit = true ∨ c = '.') ∧ text = sign.toList ++ digits

/-- A text that starts with a brace and the command word, and ends at once with its tag or with the
closing tag of the command. -/
structure CommandText (word : String) (atOnce : Bool) (text : List Char) : Prop where
  opens : ∃ rest, text = '\x7b' :: (word.toList ++ rest) ∧ ∀ c ∈ rest.head?, isWordPart c = false
  ends : if atOnce then ['/', '\x7d'] <:+ text else ∃ close : Blanks, closeText word close <:+ text

/-- In `text ++ closing` no closing tag of a literal block starts before the end of `text`. -/
def FirstClose (text closing : List Char) : Prop :=
  ∀ before close rest, text ++ closing = before ++ (closeText "literal" close ++ rest) →
    text.length ≤ before.length

variable (source : List Char)

def Literal.Faithful (l : Literal) : Prop :=
  ∃ inner, l.mark.sliceChars source = '\'' :: (inner ++ ['\'']) ∧
    unescapeAll? inner = some l.value.toList

mutual

/-- Every part of an expression can be read off the source under its mark. -/
def Expr.Faithful : Expr → Prop
  | .reference mark name => mark.sliceChars source = '$' :: name.toList
  | .string literal => literal.Faithful source
  | .boolean mark value =>
    mark.sliceChars source = (if value then "true" else "false").toList
  | .number mark value => IsNumeral (mark.sliceChars source) ∧
    Number.Binary64.read? (mark.sliceChars source) = some value
  | .map _ items => Expr.ItemsFaithful items
  | .call _ _ args => Expr.ArgsFaithful args
  | .ternary _ cond left right => cond.Faithful ∧ left.Faithful ∧ right.Faithful
  | .raw mark text => mark.sliceChars source = text.toList ∧ Unpadded text.toList ∧
    Text.isAllBlank text.toList = false

def Expr.ArgsFaithful : List Expr → Prop
  | [] => True
  | e :: rest => e.Faithful ∧ Expr.ArgsFaithful rest

def Expr.ItemsFaithful : List MapItem → Prop
  | [] => True
  | .mk _ key value :: rest =>
    key.Faithful source ∧ value.Faithful ∧ Expr.ItemsFaithful rest

end

/-- A literal block holds one text, unless it is empty: what stands between its opening tag and the
first closing tag behind that. -/
def IsLiteralBlock (mark : Mark) (body : List Node) : Prop :=
  ∃ (gap : Blanks) (content : List Char) (close : Blanks),
    mark.sliceChars source = literalHead gap ++ (content ++ closeText "literal" close) ∧
    FirstClose content (closeText "literal" close) ∧
    (content = [] ∧ body = [] ∨
      content ≠ [] ∧ ∃ inner : Mark, body = [.text inner (String.ofList content)] ∧
        inner.sliceChars source = content ∧
        inner.start.index = mark.start.index + (literalHead gap).length)

def Value.atOnce : Value → Bool
  | .inline _ => true
  | .block _ => false

mutual

/-- Every part of a node can be read off the source under its mark. -/
def Node.Faithful : Node → Prop
  | .text mark content => mark.sliceChars source = content.toList ∧ '\x7b' ∉ content.toList
  | .interpolation mark raw =>
    mark.sliceChars source = '\x7b' :: (raw.toList ++ ['\x7d']) ∧ '\x7d' ∉ raw.toList
  | .call mark _ delegate params =>
    (∃ atOnce, CommandText (callWord delegate) atOnce (mark.sliceChars source) ∧
      (atOnce = true → params = [])) ∧ Node.ParamsFaithful params
  | .binding mark _ value =>
    CommandText "let" value.atOnce (mark.sliceChars source) ∧ value.Faithful
  | .control mark block body =>
    CommandText block.word false (mark.sliceChars source) ∧
      if block = .literal then IsLiteralBlock source mark body else Node.BodyFaithful body

def Value.Faithful : Value → Prop
  | .inline e => e.Faithful source
  | .block body => Node.BodyFaithful body

def Node.ParamsFaithful : List Param → Prop
  | [] => True
  | .mk mark _ value :: rest =>
    CommandText "param" value.atOnce (mark.sliceChars source) ∧ value.Faithful ∧
      Node.ParamsFaithful rest

def Node.BodyFaithful : List Node → Prop
  | [] => True
  | n :: rest => n.Faithful ∧ Node.BodyFaithful rest

end

def Attribute.Faithful (a : Attribute) : Prop :=
  a.mark.sliceChars source = a.name.toList ++ ('=' :: '"' :: (a.value.toList ++ ['"'])) ∧
    '"' ∉ a.value.toList

/-- Every attribute and every node of a program can be read off the source under its mark. -/
def Program.Faithful (program : Program) : Prop :=
  ∀ t ∈ program.templates,
    (∀ a ∈ t.attributes, a.Faithful source) ∧ Node.BodyFaithful source t.body

end Faithful

namespace Concrete

variable {source : List Char} {p : Position} {home : List String}

section Expressions

theorem unescapeAll?_text (chars : List StringChar) :
    unescapeAll? (chars.flatMap StringChar.text) = some (chars.map StringChar.value) := by
  induction chars with
  | nil => rfl
  | cons c rest ih =>
    cases c with
    | plain c free =>
      have hcons : unescapeAll? (c :: rest.flatMap StringChar.text) =
          if c = '\\' ∨ c = '\'' then none
          else (unescapeAll? (rest.flatMap StringChar.text)).map (c :: ·) := by
        rw [unescapeAll?]
        intro d rest' hc _
        exact free.1 hc
      simpa [StringChar.text, StringChar.value, free, ih] using hcons
    | escaped c => simp [StringChar.text, StringChar.value, unescapeAll?, ih]

theorem Quoted.faithful (q : Quoted) (h : Stands source p q.text) :
    (q.tree p).Faithful source :=
  ⟨q.chars.flatMap StringChar.text, h.slice, by
    simp only [Quoted.tree, String.toList_ofList, unescapeAll?_text]⟩

theorem Numeral.isNumeral (n : Numeral) : IsNumeral n.text := by
  refine ⟨n.sign, n.digits, n.signed, n.nonempty, fun c hc => ?_, rfl⟩
  simpa [Grammar.isNumberChar] using n.numeric c hc

mutual

theorem Expr.faithful {inside : Bool} (p : Position) (e : Expr inside)
    (h : Stands source p e.text) (ht : (e.tree p).Trimmed) : (e.tree p).Faithful source := by
  match e with
  | .reference name =>
    simp only [Expr.tree, SoyTree.Expr.Faithful, String.toList_ofList]
    exact h.slice
  | .string literal => exact literal.faithful h
  | .boolean value => exact h.slice
  | .number numeral =>
    have hslice : (markAt p numeral.text).sliceChars source = numeral.text := h.slice
    simp only [Expr.tree, SoyTree.Expr.Faithful, hslice]
    exact ⟨numeral.isNumeral, numeral.reads⟩
  | .map before items behind =>
    have hitems : Stands source (p.after ('[' :: before.chars)) items.text :=
      (Stands.right (a := '[' :: before.chars) h).left
    exact Items.faithful _ items hitems ht
  | .call name before args behind =>
    have hargs : Stands source (p.after (name.chars ++ '(' :: before.chars)) args.text :=
      (Stands.behind (b := '(' :: before.chars) h).left
    exact Args.faithful _ args hargs ht
  | .ternary cond gap₁ gap₂ left gap₃ gap₄ right =>
    have hleft := Stands.behind (b := '?' :: gap₂.chars) h.right
    have hright := Stands.behind (b := ':' :: gap₄.chars) hleft.right
    exact ⟨Expr.faithful _ cond h.left ht.1, Expr.faithful _ left hleft.left ht.2.1,
      Expr.faithful _ right hright ht.2.2⟩
  | .raw text =>
    simp only [Expr.tree, SoyTree.Expr.Trimmed, SoyTree.Expr.Faithful, String.toList_ofList] at ht ⊢
    exact ⟨h.slice, ht, text.visible⟩

theorem Args.faithful (p : Position) (args : Args) (h : Stands source p args.text)
    (ht : SoyTree.Expr.ArgsTrimmed (args.trees p)) :
    SoyTree.Expr.ArgsFaithful source (args.trees p) := by
  match args with
  | .nil => trivial
  | .cons separator value rest =>
    exact ⟨Expr.faithful _ value h.right.left ht.1, Args.faithful _ rest h.right.right ht.2⟩

theorem Items.faithful (p : Position) (items : Items) (h : Stands source p items.text)
    (ht : SoyTree.Expr.ItemsTrimmed (items.trees p)) :
    SoyTree.Expr.ItemsFaithful source (items.trees p) := by
  match items with
  | .nil => trivial
  | .cons separator key gap₁ gap₂ value rest =>
    have hitem := h.right.left
    have hvalue := Stands.behind (b := ':' :: gap₂.chars) hitem.right
    exact ⟨key.faithful hitem.left, Expr.faithful _ value hvalue ht.1,
      Items.faithful _ rest h.right.right ht.2⟩

end

end Expressions

section Commands

theorem commandText_gap {word : String} {atOnce : Bool} {text : List Char} (rest : List Char)
    (gap : Gap) (hopens : text = '\x7b' :: (word.toList ++ (gap.chars ++ rest)))
    (hends : if atOnce then ['/', '\x7d'] <:+ text
      else ∃ close : Blanks, closeText word close <:+ text) : CommandText word atOnce text :=
  ⟨⟨gap.chars ++ rest, hopens, gap.forall_head rest fun _ => isWordPart_of_blank⟩, hends⟩

theorem commandText_block {word : String} (args : TagArgs) (content : List Char) (close : Blanks) :
    CommandText word false (tagText word args.chars ++ (content ++ closeText word close)) := by
  refine ⟨⟨args.chars ++ '\x7d' :: (content ++ closeText word close), by simp [tagText], ?_⟩, close,
    tagText word args.chars ++ content, by simp⟩
  refine forall_head?_append args.apart ?_
  rintro c (_ | _)
  decide

/-- What follows the name in a binding ends it at once or with its closing tag. -/
theorem Binding.ends (b : Binding) (home : List String) (p : Position) (word : String)
    (head : List Char) :
    if (b.tree home p).atOnce then ['/', '\x7d'] <:+ head ++ b.text word
    else ∃ close : Blanks, closeText word close <:+ head ++ b.text word := by
  cases b with
  | inline gap₁ gap₂ value gap₃ =>
    exact ⟨head ++ (gap₁.chars ++ (':' :: (gap₂.chars ++ (value.text ++ gap₃.chars)))),
      by simp [Binding.text]⟩
  | block attrs gap body close =>
    exact ⟨close, head ++ (attrsText attrs ++ (gap.chars ++ '\x7d' :: body.text)),
      by simp [Binding.text]⟩

theorem LiteralText.firstClose (content : LiteralText) (close : Blanks) :
    FirstClose content.chars (closeText "literal" close) := by
  intro before close' rest htexts
  by_contra hlt
  rcases List.append_eq_append_iff.1 htexts with ⟨x, hx, -⟩ | ⟨x, hcontent, hx⟩
  · rw [hx, List.length_append] at hlt
    omega
  · have hne : x ≠ [] := by
      rintro rfl
      rw [hcontent, List.append_nil] at hlt
      omega
    -- such a tag would be met before the end of the content
    have hr := Cursor.reads_append Position.origin (closeText "literal" close) []
    have hfails := Grammar.misses_literalClose (s := .ofChars content.chars) content close hr
      before x hcontent hne
    have hread := Cursor.reads_append (Position.origin.after before) (closeText "literal" close') rest
    rw [hx, ← List.append_nil (closeText "literal" close)] at hread
    have hyields : (Grammar.closeTag "literal").Yields _ () _ :=
      (Grammar.yields_closeTag (by decide)).2 ⟨close', hread⟩
    exact hyields.not_fails hfails

end Commands

section Bodies

mutual

theorem Item.faithful (home : List String) (p : Position) (i : Item) (h : Stands source p i.text)
    (ht : ∀ e ∈ (i.tree home p).values, e.Trimmed) : (i.tree home p).Faithful source := by
  match i with
  | .plain content =>
    simp only [Item.tree, Node.Faithful, String.toList_ofList]
    exact ⟨h.slice, content.plain⟩
  | .interpolation raw =>
    simp only [Item.tree, Node.Faithful, String.toList_ofList]
    exact ⟨h.slice, raw.open_⟩
  | .closedCall head =>
    refine ⟨⟨true, ?_, fun _ => rfl⟩, trivial⟩
    rw [h.slice]
    exact commandText_gap (head.name.text ++ (head.extra.chars ++ ['/', '\x7d'])) head.gap
      (by simp [Item.text, CallHead.text]) ⟨head.text, rfl⟩
  | .blockCall head open_ params gap close =>
    have hparams : Stands source (p.after (head.text ++ ['\x7d'])) (params.text ++
        (gap.chars ++ closeText (callWord head.delegate) close)) := Stands.behind (b := ['\x7d']) h
    refine ⟨⟨false, ?_, by simp⟩, Params.faithful home _ params hparams.left ht⟩
    rw [h.slice]
    exact commandText_gap (head.name.text ++ (head.extra.chars ++ '\x7d' ::
      (params.text ++ (gap.chars ++ closeText (callWord head.delegate) close)))) head.gap
      (by simp [Item.text, CallHead.text])
      ⟨close, head.text ++ '\x7d' :: (params.text ++ gap.chars), by simp [Item.text]⟩
  | .binding gap name value =>
    refine ⟨?_, Binding.faithful home "let" _ value h.right ht⟩
    rw [h.slice]
    exact commandText_gap ('$' :: (name.chars ++ value.text "let")) gap
      (by simp [Item.text, letHead]) (value.ends home _ "let" (letHead gap name))
  | .control block parsed args body close =>
    refine ⟨?_, ?_⟩
    · rw [h.slice]
      exact commandText_block args body.text close
    · rw [if_neg parsed]
      exact Body.faithful home _ body h.right.left ht
  | .literal gap content close =>
    have hcontent : Stands source (p.after (literalHead gap)) content.chars := h.right.left
    refine ⟨?_, ?_⟩
    · rw [h.slice]
      exact commandText_block gap.args content.chars close
    · rw [if_pos rfl]
      refine ⟨gap, content.chars, close, h.slice, content.firstClose close, ?_⟩
      by_cases hc : content.chars = []
      · exact Or.inl ⟨hc, by simp [hc]⟩
      · refine Or.inr ⟨hc, markAt (p.after (literalHead gap)) content.chars, by simp [hc],
          hcontent.slice, ?_⟩
        simp [markAt]

theorem Binding.faithful (home : List String) (word : String) (p : Position) (b : Binding)
    (h : Stands source p (b.text word)) (ht : ∀ e ∈ (b.tree home p).values, e.Trimmed) :
    (b.tree home p).Faithful source := by
  match b with
  | .inline gap₁ gap₂ value gap₃ =>
    rw [Binding.text_inline] at h
    exact Expr.faithful _ value h.right.left (ht _ (by simp [Binding.tree, Value.values]))
  | .block attrs gap body close =>
    rw [Binding.text_block] at h
    exact Body.faithful home _ body h.right.left ht

theorem Params.faithful (home : List String) (p : Position) (ps : Params)
    (h : Stands source p ps.text) (ht : ∀ e ∈ Node.paramsValues (ps.trees home p), e.Trimmed) :
    Node.ParamsFaithful source (ps.trees home p) := by
  match ps with
  | .nil => trivial
  | .cons lead gap name value rest =>
    have hparam := h.right.left
    simp only [Params.trees, Node.paramsValues, List.mem_append] at ht
    refine ⟨?_, Binding.faithful home "param" _ value hparam.right fun e he => ht e (Or.inl he),
      Params.faithful home _ rest h.right.right fun e he => ht e (Or.inr he)⟩
    rw [hparam.slice]
    exact commandText_gap (name.chars ++ value.text "param") gap (by simp [paramHead])
      (value.ends home _ "param" (paramHead gap name))

theorem Body.faithful {interior : List String} (home : List String) (p : Position)
    (b : Body interior) (h : Stands source p b.text)
    (ht : ∀ e ∈ Node.bodyValues (b.trees home p), e.Trimmed) :
    Node.BodyFaithful source (b.trees home p) := by
  match b with
  | .nil => trivial
  | .item first rest =>
    simp only [Body.trees, Node.bodyValues, List.mem_append] at ht
    exact ⟨Item.faithful home p first h.left fun e he => ht e (Or.inl he),
      Body.faithful home _ rest h.right fun e he => ht e (Or.inr he)⟩
  | .tag word allowed args rest => exact Body.faithful home _ rest h.right ht

end

end Bodies

section Files

theorem attrs_faithful (attrs : List Attr) (p : Position) (h : Stands source p (attrsText attrs)) :
    ∀ a ∈ attrsTree attrs p, a.Faithful source := by
  induction attrs generalizing p with
  | nil => simp [attrsTree]
  | cons a rest ih =>
    have hrest := ih _ (Stands.right (a := a.text) h)
    have hpair : Stands source (p.after a.gap.chars) a.pair.text := (Stands.left (a := a.text) h).right
    rintro b (_ | ⟨_, hb⟩)
    · refine ⟨?_, ?_⟩
      · simp only [Attr.tree, Pair.tree, String.toList_ofList]
        exact hpair.slice
      · simpa [Attr.tree, Pair.tree] using a.pair.closed
    · exact hrest b hb

theorem Template.faithful (home : List String) (p : Position) (t : Template)
    (h : Stands source p t.text)
    (ht : ∀ e ∈ Node.bodyValues (t.tree home p).body, e.Trimmed) :
    (∀ a ∈ (t.tree home p).attributes, a.Faithful source) ∧
      Node.BodyFaithful source (t.tree home p).body := by
  have hbody : Stands source (((p.after t.docText).after t.headText).after
      (headerParamsText t.params)) t.body.text := h.right.right.right.left
  have hattrs : Stands source ((p.after t.docText).after t.nameText) (attrsText t.attrs) :=
    h.right.left.right.left
  have hall := attrs_faithful t.attrs _ hattrs
  refine ⟨fun a ha => hall a ?_, Body.faithful home _ t.body hbody ht⟩
  -- a delegate leaves the attribute with its variant out
  simp only [Template.tree] at ha
  split at ha
  · exact List.mem_of_mem_filter ha
  · exact ha

theorem entries_faithful (home : List String) (p : Position) (es : List Entry)
    (h : Stands source p (entriesText es))
    (ht : ∀ t ∈ entriesTree home p es, ∀ e ∈ Node.bodyValues t.body, e.Trimmed) :
    ∀ t ∈ entriesTree home p es,
      (∀ a ∈ t.attributes, a.Faithful source) ∧ Node.BodyFaithful source t.body := by
  induction es generalizing p with
  | nil => simp [entriesTree]
  | cons e rest ih =>
    rintro t (_ | ⟨_, hmem⟩)
    · exact e.template.faithful home _ h.right.left (ht _ List.mem_cons_self)
    · exact ih _ h.right.right (fun t ht' => ht t (List.mem_cons_of_mem _ ht')) t hmem

end Files

end Concrete

/-- After a parse every payload is what its mark says. -/
theorem parse_faithful {source : String} {options : Options} {program : Program}
    (h : parseWith source options = .ok program) : program.Faithful source.toList := by
  have htrimmed := Grammar.parse_trimmed h
  obtain ⟨f, htext, rfl⟩ := Grammar.parse_spelled h
  have hstands : Stands source.toList Position.origin f.text := by
    rw [← htext]
    exact List.prefix_rfl
  refine entries_faithful _ _ f.entries hstands.right.right.left fun t ht e he => ?_
  exact htrimmed e (List.mem_flatMap.2 ⟨t, ht, he⟩)

def payloadSample : String :=
  "\x7bnamespace a\x7d\x7bdeltemplate b variant=\"v\" kind=\"html\"\x7d\n  \x7b$x|id\x7d" ++
    "\x7bliteral\x7d\x7bif\x7d\x7b/literal \x7d\x7bcall .c /\x7d\x7bcall d\x7d\n" ++
    "\x7bparam p: f('it\\'s', -1.5 , true) /\x7d\x7bparam q kind=\"text\"\x7dz\x7b/param\x7d\x7b/call\x7d" ++
    "\x7blet $y:  $a + 1  ? ['k':  $b.c ] : $d /\x7d\x7b/deltemplate\x7d"

theorem payloadSample_faithful : ∃ program, parseWith payloadSample {} = .ok program ∧
    program.Faithful payloadSample.toList := by
  obtain ⟨program, h⟩ := Grammar.exists_program payloadSample {} (by decide +kernel)
  exact ⟨program, h, parse_faithful h⟩

end SoyTree
