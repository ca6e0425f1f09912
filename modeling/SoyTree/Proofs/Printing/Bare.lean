import SoyTree.Proofs.Expression.Canonical

/-! # Bare programs

Canonical syntax in which every brace belongs to a tag and every bracket to a map or a call: no
text, string, attribute, type or rest of a tag holds one. Inline values are written by their
canonical text, calls without parameters close themselves, no opening tag of a block ends in a
slash, and there are no comments.
-/

namespace SoyTree

open Concrete

section Texts

def Bare (text : List Char) : Prop :=
  ∀ c ∈ text, c ∉ ['\x7b', '\x7d', '(', ')', '[', ']']

/-- What a tag holds behind its command or name: nothing, or a blank and more. -/
structure BareArgs where
  chars : List Char
  bare : Bare chars
  apart : ∀ c ∈ chars.head?, Grammar.blank.accepts c = true

/-- Tags that may divide a body, and nothing else. -/
inductive BareDividers (interior : List String) : List Char → Prop where
  | nil : BareDividers interior []
  | cons {rest : List Char} (word : String) (allowed : word ∈ interior) (args : TagArgs)
      (bare : Bare args.chars) (h : BareDividers interior rest) :
      BareDividers interior (tagText word args.chars ++ rest)

end Texts

section Values

mutual

/-- Names are names, numbers are finite, and strings and raw texts are bare. -/
def Expr.Bare : Expr → Prop
  | .reference _ name => isWord name.toList = true
  | .string literal => SoyTree.Bare literal.value.toList
  | .boolean _ _ => True
  | .number _ value => value.Finite
  | .map _ items => Expr.ItemsBare items
  | .call _ name args => isWord name.toList = true ∧ Expr.ArgsBare args
  | .ternary _ cond left right => cond.Bare ∧ left.Bare ∧ right.Bare
  | .raw _ text => SoyTree.Bare text.toList

def Expr.ArgsBare : List Expr → Prop
  | [] => True
  | e :: rest => e.Bare ∧ Expr.ArgsBare rest

def Expr.ItemsBare : List MapItem → Prop
  | [] => True
  | .mk _ key value :: rest =>
    SoyTree.Bare key.value.toList ∧ value.Bare ∧ Expr.ItemsBare rest

end

end Values

section Prints

def callHead (delegate : Bool) (gap : Gap) (target : String) (extra : BareArgs) : List Char :=
  '\x7b' :: ((callWord delegate).toList ++ (gap.chars ++ (target.toList ++ extra.chars)))

mutual

/-- The text is the node in bare canonical syntax. -/
def Node.BarePrints : Node → List Char → Prop
  | .text _ content, text => text = content.toList ∧ Bare text
  | .interpolation _ raw, text =>
    Grammar.isCommand raw.toList = false ∧ Bare raw.toList ∧
      text = '\x7b' :: (raw.toList ++ ['\x7d'])
  | .call _ target delegate [], text =>
    Path.isDotted target = true ∧ ∃ (gap : Gap) (extra : BareArgs),
      text = callHead delegate gap target extra ++ ['/', '\x7d']
  | .call _ target delegate (q :: qs), text =>
    Path.isDotted target = true ∧ ∃ (gap : Gap) (extra : BareArgs) (inner : List Char)
      (behind close : Blanks), extra.chars.getLast? ≠ some '/' ∧
      Node.ParamsBarePrint (q :: qs) inner ∧
      text = callHead delegate gap target extra ++ ('\x7d' :: (inner ++
        (behind.chars ++ closeText (callWord delegate) close)))
  | .binding _ name value, text =>
    isWord name.toList = true ∧ ∃ (gap : Gap) (rest : List Char), value.BarePrints "let" rest ∧
      text = '\x7b' :: ("let".toList ++ (gap.chars ++ ('$' :: name.toList))) ++ rest
  | .control _ block body, text =>
    (block = .literal → Node.IsLiteralBody body ∧ Bare (Node.literalText body) ∧
      ∃ gap : Blanks, text = literalHead gap ++
        (Node.literalText body ++ closeText "literal" noBlanks)) ∧
    (block ≠ .literal → ∃ (args : BareArgs) (inner : List Char) (close : Blanks),
      args.chars.getLast? ≠ some '/' ∧ Node.BodyBarePrints block.interior body inner ∧
      text = tagText block.word args.chars ++ (inner ++ closeText block.word close))

/-- The rest of a tag of `word` behind the name, with a value in it or a body behind it. -/
def Value.BarePrints (word : String) : Value → List Char → Prop
  | .inline expr, text =>
    expr.Bare ∧ ∃ gap₁ gap₂ gap₃ : Blanks, text = gap₁.chars ++ (':' :: (gap₂.chars ++
      (expr.toSource.toList ++ (gap₃.chars ++ ['/', '\x7d']))))
  | .block body, text =>
    ∃ (attrs : List Attr) (gap close : Blanks) (inner : List Char),
      (∀ a ∈ attrs, Bare a.pair.value) ∧ Node.BodyBarePrints [] body inner ∧
      text = attrsText attrs ++ (gap.chars ++ ('\x7d' :: (inner ++ closeText word close)))

def Node.ParamsBarePrint : List Param → List Char → Prop
  | [], text => text = []
  | .mk _ name value :: rest, text =>
    isWord name.toList = true ∧ ∃ (lead : Blanks) (gap : Gap) (inner more : List Char),
      value.BarePrints "param" inner ∧ Node.ParamsBarePrint rest more ∧ text = lead.chars ++
        (('\x7b' :: ("param".toList ++ (gap.chars ++ name.toList)) ++ inner) ++ more)

/-- Dividing tags may stand anywhere between nodes. -/
def Node.BodyBarePrints (interior : List String) : List Node → List Char → Prop
  | [], text => BareDividers interior text
  | n :: rest, text =>
    ∃ tags first more, BareDividers interior tags ∧ n.BarePrints first ∧
      Node.BodyBarePrints interior rest more ∧ text = tags ++ (first ++ more)

end

def Template.BarePrints (t : Template) (text : List Char) : Prop :=
  t.doc = none ∧ Path.isDotted t.name = true ∧
  ∃ (gap₁ : Gap) (written : List Attribute) (attrs : List Char) (gap₂ : Blanks)
    (params body : List Char) (close : Blanks),
    t.kind.Writes t.attributes written ∧ Attribute.ListPrints written attrs ∧
    (∀ a ∈ written, a.Printable ∧ Bare a.value.toList) ∧
    ParamDecl.ListPrints t.params params ∧
    (∀ d ∈ t.params, isWord d.name.toList = true ∧ Bare d.type.toList) ∧
    Node.BodyBarePrints [] t.body body ∧
    text = ('\x7b' :: ((templateWord t.kind.isDelegate).toList ++ (gap₁.chars ++ t.name.toList)) ++
      (attrs ++ (gap₂.chars ++ ['\x7d']))) ++
        (params ++ (body ++ closeText (templateWord t.kind.isDelegate) close))

def Template.ListBarePrints : List Template → List Char → Prop
  | [], text => text = []
  | t :: rest, text =>
    ∃ (lead : Blanks) (first more : List Char), t.BarePrints first ∧
      Template.ListBarePrints rest more ∧ text = lead.chars ++ (first ++ more)

def Program.BarePrints (p : Program) (text : List Char) : Prop :=
  p.namespacePath ≠ [] ∧ (∀ w ∈ p.namespacePath, isWord w.toList = true) ∧ p.templates ≠ [] ∧
  ∃ (lead : Blanks) (gap : Gap) (extra : BareArgs) (templates : List Char) (final : Blanks),
    Template.ListBarePrints p.templates templates ∧
    text = lead.chars ++ ('\x7b' :: ("namespace".toList ++ (gap.chars ++
      ((Path.join p.namespacePath).toList ++ (extra.chars ++ ['\x7d'])))) ++
        (templates ++ final.chars))

end Prints

end SoyTree
