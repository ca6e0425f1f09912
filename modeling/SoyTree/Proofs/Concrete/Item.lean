import SoyTree.Proofs.Concrete.Expr

/-! # Bodies as written

The parts of a body with everything that their tags hold, and the tags between them that the tree
leaves out. The content of a body may be divided only by the tags that its command allows.
-/

namespace SoyTree.Concrete

structure PlainText where
  chars : List Char
  nonempty : chars ≠ []
  plain : '\x7b' ∉ chars

/-- The inside of a tag that is no command. -/
structure Inserted where
  chars : List Char
  open_ : '\x7d' ∉ chars
  free : Grammar.isCommand chars = false

/-- A tag that is no command starts with no command word, unless there are blanks in front. -/
theorem Inserted.word_free (raw : Inserted) (h : ∀ c ∈ raw.chars.head?, Text.isBlank c = false) :
    raw.chars.head? ≠ some '/' ∧
      String.ofList (raw.chars.takeWhile Grammar.isCommandChar) ∉ Grammar.reservedWords := by
  have htrim : Text.trimStart raw.chars = raw.chars := by
    cases hraw : raw.chars with
    | nil => rfl
    | cons c rest => simp [Text.trimStart, h c (by simp [hraw])]
  have hfree := raw.free
  rw [Grammar.isCommand, htrim] at hfree
  simpa using hfree

/-- The content of a literal block, up to its first closing tag. -/
structure LiteralText where
  chars : List Char
  open_ : ∀ a gap b, chars ≠ a ++ closeText "literal" gap ++ b

def callWord (delegate : Bool) : String :=
  if delegate then "delcall" else "call"

/-- The opening tag of a call, up to its end. -/
structure CallHead where
  delegate : Bool
  gap : Gap
  name : Name
  extra : TagRest

def CallHead.text (h : CallHead) : List Char :=
  '\x7b' :: ((callWord h.delegate).toList ++ (h.gap.chars ++ (h.name.text ++ h.extra.chars)))

def CallHead.target (h : CallHead) (home : List String) : String :=
  if h.delegate then h.name.value else Path.resolve h.name.value home

mutual

/-- A part of a body. -/
inductive Item where
  | plain (content : PlainText)
  | interpolation (raw : Inserted)
  | closedCall (head : CallHead)
  | blockCall (head : CallHead) (open_ : head.extra.chars.getLast? ≠ some '/') (params : Params)
      (gap : Blanks) (close : Blanks)
  | binding (gap : Gap) (name : Word) (value : Binding)
  | control (block : Control) (parsed : block ≠ .literal) (args : TagArgs)
      (body : Body block.interior) (close : Blanks)
  | literal (gap : Blanks) (content : LiteralText) (close : Blanks)

/-- What follows the name in a binding: an expression up to the end of the tag, or the rest of the
tag and a body. -/
inductive Binding where
  | inline (gap₁ gap₂ : Blanks) (value : Expr false) (gap₃ : Blanks)
  | block (attrs : List Attr) (gap : Blanks) (body : Body []) (close : Blanks)

/-- The parameters of a call, each with the blanks in front of it. -/
inductive Params where
  | nil
  | cons (lead : Blanks) (gap : Gap) (name : Word) (value : Binding) (rest : Params)

/-- The content of a body that `interior` commands may divide. -/
inductive Body : (interior : List String) → Type where
  | nil {interior : List String} : Body interior
  | item {interior : List String} (first : Item) (rest : Body interior) : Body interior
  | tag {interior : List String} (word : String) (allowed : word ∈ interior) (args : TagArgs)
      (rest : Body interior) : Body interior

end

def letHead (gap : Gap) (name : Word) : List Char :=
  '\x7b' :: ("let".toList ++ (gap.chars ++ ('$' :: name.chars)))

def paramHead (gap : Gap) (name : Word) : List Char :=
  '\x7b' :: ("param".toList ++ (gap.chars ++ name.chars))

def literalHead (gap : Blanks) : List Char :=
  '\x7b' :: ("literal".toList ++ (gap.chars ++ ['\x7d']))

mutual

def Item.text : Item → List Char
  | .plain content => content.chars
  | .interpolation raw => '\x7b' :: (raw.chars ++ ['\x7d'])
  | .closedCall head => head.text ++ ['/', '\x7d']
  | .blockCall head _ params gap close =>
    head.text ++ ('\x7d' :: (params.text ++ (gap.chars ++ closeText (callWord head.delegate) close)))
  | .binding gap name value => letHead gap name ++ value.text "let"
  | .control block _ args body close =>
    tagText block.word args.chars ++ (body.text ++ closeText block.word close)
  | .literal gap content close =>
    literalHead gap ++ (content.chars ++ closeText "literal" close)

def Binding.text (word : String) : Binding → List Char
  | .inline gap₁ gap₂ value gap₃ =>
    gap₁.chars ++ (':' :: (gap₂.chars ++ (value.text ++ (gap₃.chars ++ ['/', '\x7d']))))
  | .block attrs gap body close =>
    attrsText attrs ++ (gap.chars ++ ('\x7d' :: (body.text ++ closeText word close)))

def Params.text : Params → List Char
  | .nil => []
  | .cons lead gap name value rest =>
    lead.chars ++ ((paramHead gap name ++ value.text "param") ++ rest.text)

def Body.text {interior : List String} : Body interior → List Char
  | .nil => []
  | .item first rest => first.text ++ rest.text
  | .tag word _ args rest => tagText word args.chars ++ rest.text

end

section Bindings

variable {word : String}

theorem Binding.text_inline (gap₁ gap₂ gap₃ : Blanks) (value : Expr false) :
    (Binding.inline gap₁ gap₂ value gap₃).text word =
      (gap₁.chars ++ ':' :: gap₂.chars) ++ (value.text ++ (gap₃.chars ++ ['/', '\x7d'])) := by
  simp [Binding.text]

theorem Binding.text_block (attrs : List Attr) (gap : Blanks) (body : Body []) (close : Blanks) :
    (Binding.block attrs gap body close).text word =
      (attrsText attrs ++ (gap.chars ++ ['\x7d'])) ++ (body.text ++ closeText word close) := by
  simp [Binding.text]

end Bindings

mutual

/-- The tree of an item that starts at `p`, in a file with the namespace `home`. -/
def Item.tree (home : List String) (p : Position) : Item → Node
  | .plain content => .text (markAt p content.chars) (String.ofList content.chars)
  | .interpolation raw =>
    .interpolation (markAt p ('\x7b' :: (raw.chars ++ ['\x7d']))) (String.ofList raw.chars)
  | .closedCall head =>
    .call (markAt p (Item.closedCall head).text) (head.target home) head.delegate []
  | .blockCall head open_ params gap close =>
    .call (markAt p (Item.blockCall head open_ params gap close).text) (head.target home)
      head.delegate (params.trees home (p.after (head.text ++ ['\x7d'])))
  | .binding gap name value =>
    .binding (markAt p (Item.binding gap name value).text) (String.ofList name.chars)
      (value.tree home (p.after (letHead gap name)))
  | .control block parsed args body close =>
    .control (markAt p (Item.control block parsed args body close).text) block
      (body.trees home (p.after (tagText block.word args.chars)))
  | .literal gap content close =>
    .control (markAt p (Item.literal gap content close).text) .literal
      (if content.chars.isEmpty then []
        else [.text (markAt (p.after (literalHead gap)) content.chars)
          (String.ofList content.chars)])

def Binding.tree (home : List String) (p : Position) : Binding → Value
  | .inline gap₁ gap₂ value _ => .inline (value.tree (p.after (gap₁.chars ++ ':' :: gap₂.chars)))
  | .block attrs gap body _ =>
    .block (body.trees home (p.after (attrsText attrs ++ (gap.chars ++ ['\x7d']))))

def Params.trees (home : List String) (p : Position) : Params → List Param
  | .nil => []
  | .cons lead gap name value rest =>
    let q := p.after lead.chars
    let text := paramHead gap name ++ value.text "param"
    .mk (markAt q text) (String.ofList name.chars) (value.tree home (q.after (paramHead gap name))) ::
      rest.trees home (q.after text)

def Body.trees {interior : List String} (home : List String) (p : Position) :
    Body interior → List Node
  | .nil => []
  | .item first rest => first.tree home p :: rest.trees home (p.after first.text)
  | .tag word _ args rest => rest.trees home (p.after (tagText word args.chars))

end

end SoyTree.Concrete
