import SoyTree.Proofs.Concrete.Lexical

/-! # Expressions as written

An expression with all blanks, escapes and digits in place. Its text and, for a place where it
starts, its tree are read off.
-/

namespace SoyTree.Concrete

/-- A character of a string literal: as it stands, or behind a backslash. -/
inductive StringChar where
  | plain (c : Char) (free : c ≠ '\\' ∧ c ≠ '\'')
  | escaped (c : Char)

namespace StringChar

def text : StringChar → List Char
  | plain c _ => [c]
  | escaped c => ['\\', c]

def value : StringChar → Char
  | plain c _ => c
  | escaped c => Grammar.unescape c

end StringChar

structure Quoted where
  chars : List StringChar

namespace Quoted

def text (q : Quoted) : List Char :=
  '\'' :: (q.chars.flatMap StringChar.text ++ ['\''])

def tree (q : Quoted) (p : Position) : Literal :=
  ⟨markAt p q.text, String.ofList (q.chars.map StringChar.value)⟩

end Quoted

/-- An optional sign, digits and points that make up a number. -/
structure Numeral where
  sign : Option Char
  signed : ∀ c ∈ sign, c = '+' ∨ c = '-'
  digits : List Char
  nonempty : digits ≠ []
  numeric : ∀ c ∈ digits, Grammar.isNumberChar c = true
  value : Number.Binary64
  reads : Number.Binary64.read? (sign.toList ++ digits) = some value

def Numeral.text (n : Numeral) : List Char :=
  n.sign.toList ++ n.digits

/-- Raw text. Inside brackets it stops in front of commas and closing brackets. -/
structure Raw (inside : Bool) where
  chars : List Char
  visible : Text.isAllBlank chars = false
  stops : inside = true → ∀ c ∈ chars, c ≠ ',' ∧ c ≠ ')' ∧ c ≠ ']'

/-- What stands in front of an argument or map item: nothing, or a comma with blanks. -/
structure Separator where
  chars : List Char
  plain : ∀ c ∈ chars, c = ',' ∨ Grammar.blank.accepts c = true

mutual

/-- An expression; `inside` says whether it is an argument or map value. -/
inductive Expr : (inside : Bool) → Type where
  | reference {inside : Bool} (name : Word) : Expr inside
  | string {inside : Bool} (literal : Quoted) : Expr inside
  | boolean {inside : Bool} (value : Bool) : Expr inside
  | number {inside : Bool} (numeral : Numeral) : Expr inside
  | map {inside : Bool} (before : Blanks) (items : Items) (behind : Blanks) : Expr inside
  | call {inside : Bool} (name : Word) (before : Blanks) (args : Args) (behind : Blanks) :
      Expr inside
  | ternary {inside : Bool} (cond : Expr inside) (gap₁ gap₂ : Blanks) (left : Expr inside)
      (gap₃ gap₄ : Blanks) (right : Expr inside) : Expr inside
  | raw {inside : Bool} (text : Raw inside) : Expr inside

inductive Args where
  | nil
  | cons (separator : Separator) (value : Expr true) (rest : Args)

inductive Items where
  | nil
  | cons (separator : Separator) (key : Quoted) (gap₁ gap₂ : Blanks) (value : Expr true)
      (rest : Items)

end

mutual

def Expr.text {inside : Bool} : Expr inside → List Char
  | .reference name => '$' :: name.chars
  | .string literal => literal.text
  | .boolean value => (if value then "true" else "false").toList
  | .number numeral => numeral.text
  | .map before items behind =>
    '[' :: (before.chars ++ (items.text ++ (behind.chars ++ [']'])))
  | .call name before args behind =>
    name.chars ++ ('(' :: (before.chars ++ (args.text ++ (behind.chars ++ [')']))))
  | .ternary cond gap₁ gap₂ left gap₃ gap₄ right =>
    cond.text ++ (gap₁.chars ++ ('?' :: (gap₂.chars ++ (left.text ++ (gap₃.chars ++
      (':' :: (gap₄.chars ++ right.text)))))))
  | .raw text => text.chars

def Args.text : Args → List Char
  | .nil => []
  | .cons separator value rest => separator.chars ++ (value.text ++ rest.text)

def Items.text : Items → List Char
  | .nil => []
  | .cons separator key gap₁ gap₂ value rest =>
    separator.chars ++
      ((key.text ++ (gap₁.chars ++ (':' :: (gap₂.chars ++ value.text)))) ++ rest.text)

end

mutual

/-- The tree of an expression that starts at `p`. -/
def Expr.tree {inside : Bool} (p : Position) : Expr inside → SoyTree.Expr
  | .reference name => .reference (markAt p ('$' :: name.chars)) (String.ofList name.chars)
  | .string literal => .string (literal.tree p)
  | .boolean value => .boolean (markAt p (if value then "true" else "false").toList) value
  | .number numeral => .number (markAt p numeral.text) numeral.value
  | .map before items behind =>
    .map (markAt p (Expr.map before items behind : Expr inside).text)
      (items.trees (p.after ('[' :: before.chars)))
  | .call name before args behind =>
    .call (markAt p (Expr.call name before args behind : Expr inside).text)
      (String.ofList name.chars) (args.trees (p.after (name.chars ++ '(' :: before.chars)))
  | .ternary cond gap₁ gap₂ left gap₃ gap₄ right =>
    .ternary (markAt p (Expr.ternary cond gap₁ gap₂ left gap₃ gap₄ right).text)
      (cond.tree p)
      (left.tree ((p.after cond.text).after (gap₁.chars ++ '?' :: gap₂.chars)))
      (right.tree ((((p.after cond.text).after (gap₁.chars ++ '?' :: gap₂.chars)).after
        left.text).after (gap₃.chars ++ ':' :: gap₄.chars)))
  | .raw text => .raw (markAt p text.chars) (String.ofList text.chars)

def Args.trees (p : Position) : Args → List SoyTree.Expr
  | .nil => []
  | .cons separator value rest =>
    value.tree (p.after separator.chars) ::
      rest.trees ((p.after separator.chars).after value.text)

def Items.trees (p : Position) : Items → List SoyTree.MapItem
  | .nil => []
  | .cons separator key gap₁ gap₂ value rest =>
    let q := p.after separator.chars
    let text := key.text ++ (gap₁.chars ++ (':' :: (gap₂.chars ++ value.text)))
    .mk (markAt q text) (key.tree q)
        (value.tree ((q.after key.text).after (gap₁.chars ++ ':' :: gap₂.chars))) ::
      rest.trees (q.after text)

end

end SoyTree.Concrete
