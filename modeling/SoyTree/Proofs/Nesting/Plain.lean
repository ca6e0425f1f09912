import SoyTree.Proofs.Concrete.File
import SoyTree.Proofs.Nesting.Scan

/-! # Nesting of trees against the nesting scan

How deep a program nests, and what a file has to keep for the scan to see all of it: no braces in
comments and attribute values, no braces or stray closing brackets in inline values, no slash at
the end of a control tag, and no blanks in the tag that closes a literal block.
-/

namespace SoyTree

section Depth

mutual

/-- The largest number of calls and maps around a part of an expression. -/
def Expr.depth : Expr → Nat
  | .reference _ _ => 0
  | .string _ => 0
  | .boolean _ _ => 0
  | .number _ _ => 0
  | .map _ items => Expr.itemsDepth items + 1
  | .call _ _ args => Expr.argsDepth args + 1
  | .ternary _ cond left right => max cond.depth (max left.depth right.depth)
  | .raw _ _ => 0

def Expr.argsDepth : List Expr → Nat
  | [] => 0
  | e :: rest => max e.depth (Expr.argsDepth rest)

def Expr.itemsDepth : List MapItem → Nat
  | [] => 0
  | .mk _ _ value :: rest => max value.depth (Expr.itemsDepth rest)

end

mutual

/-- The largest number of nesting constructs around a part of a node, the node itself included: a
call counts if it has parameters, and a value if it is a body. -/
def Node.depth : Node → Nat
  | .text _ _ => 0
  | .interpolation _ _ => 0
  | .call _ _ _ [] => 0
  | .call _ _ _ (p :: ps) => Node.paramsDepth (p :: ps) + 1
  | .binding _ _ value => value.depth
  | .control _ _ body => Node.bodyDepth body + 1

def Value.depth : Value → Nat
  | .inline expr => expr.depth
  | .block body => Node.bodyDepth body + 1

def Node.paramsDepth : List Param → Nat
  | [] => 0
  | .mk _ _ value :: rest => max value.depth (Node.paramsDepth rest)

def Node.bodyDepth : List Node → Nat
  | [] => 0
  | n :: rest => max n.depth (Node.bodyDepth rest)

end

def Template.depth (t : Template) : Nat :=
  Node.bodyDepth t.body + 1

/-- The largest number of nesting constructs on a path from the root of a program. -/
def Program.depth (p : Program) : Nat :=
  (p.templates.map Template.depth).foldr max 0

end Depth

namespace Concrete

open Nesting

section Plain

mutual

/-- No string within brackets holds a closing bracket. -/
def Expr.Plain {inside : Bool} : Expr inside → Prop
  | .reference _ => True
  | .string literal => inside = true → Unclosed literal.text
  | .boolean _ => True
  | .number _ => True
  | .map _ items _ => items.Plain
  | .call _ _ args _ => args.Plain
  | .ternary cond _ _ left _ _ right => cond.Plain ∧ left.Plain ∧ right.Plain
  | .raw _ => True

def Args.Plain : Args → Prop
  | .nil => True
  | .cons _ value rest => value.Plain ∧ rest.Plain

def Items.Plain : Items → Prop
  | .nil => True
  | .cons _ key _ _ value rest => Unclosed key.text ∧ value.Plain ∧ rest.Plain

end

/-- No value of an attribute holds a closing brace. -/
def PlainAttrs (attrs : List Attr) : Prop :=
  ∀ a ∈ attrs, '\x7d' ∉ a.pair.value

mutual

/-- The scan sees every tag of the item as the grammar does. -/
def Item.Plain : Item → Prop
  | .plain _ => True
  | .interpolation _ => True
  | .closedCall _ => True
  | .blockCall _ _ params _ _ => params.Plain
  | .binding _ _ value => value.Plain
  | .control _ _ args body _ =>
    (∀ c ∈ args.chars.head?, Grammar.isCommandChar c = false) ∧
      args.chars.getLast? ≠ some '/' ∧ body.Plain
  | .literal _ _ close => close.chars = []

def Binding.Plain : Binding → Prop
  | .inline _ _ value _ => '\x7d' ∉ value.text ∧ value.Plain
  | .block attrs _ body _ => PlainAttrs attrs ∧ body.Plain

def Params.Plain : Params → Prop
  | .nil => True
  | .cons _ _ _ value rest => value.Plain ∧ rest.Plain

def Body.Plain {interior : List String} : Body interior → Prop
  | .nil => True
  | .item first rest => first.Plain ∧ rest.Plain
  | .tag _ _ _ rest => rest.Plain

end

def Template.Plain (t : Template) : Prop :=
  '\x7b' ∉ t.docText ∧ PlainAttrs t.attrs ∧ t.body.Plain

/-- Comments hold no opening brace, and all templates are plain. -/
def File.Plain (f : File) : Prop :=
  '\x7b' ∉ f.lead.chars ∧ ∀ e ∈ f.entries, '\x7b' ∉ e.lead.chars ∧ e.template.Plain

end Plain

section Brackets

variable {p : Position} {home : List String}

theorem Blanks.unclosed (b : Blanks) : Unclosed b.chars := by
  intro c hc
  have hb := b.blank c hc
  constructor <;> rintro rfl <;> exact absurd hb (by decide)

theorem Separator.unclosed (s : Separator) : Unclosed s.chars := by
  intro c hc
  rcases s.plain c hc with rfl | hb
  · decide
  · constructor <;> rintro rfl <;> exact absurd hb (by decide)

theorem Word.unclosed (w : Word) : Unclosed w.chars := by
  intro c hc
  have hw := w.isWordPart c hc
  constructor <;> rintro rfl <;> exact absurd hw (by decide)

theorem unclosed_singleton {c : Char} (h : c ≠ ')' ∧ c ≠ ']') : Unclosed [c] := by
  intro d hd
  obtain rfl := List.mem_singleton.1 hd
  exact h

theorem Numeral.unclosed (n : Numeral) : Unclosed n.text := by
  intro c hc
  rcases List.mem_append.1 hc with hc | hc
  · rcases n.signed c (by simpa using hc) with rfl | rfl <;> decide
  · have hn := n.numeric c hc
    constructor <;> rintro rfl <;> exact absurd hn (by decide)

theorem unclosed_padded {c : Char} (h : c ≠ ')' ∧ c ≠ ']') (before behind : Blanks) :
    Unclosed (before.chars ++ c :: behind.chars) :=
  before.unclosed.append ((unclosed_singleton h).append behind.unclosed)

theorem lifts_padded {k : Nat} {text : List Char} (before behind : Blanks) (h : Lifts k text) :
    Lifts k (before.chars ++ (text ++ behind.chars)) := by
  have := before.unclosed.lifts.append (h.append behind.unclosed.lifts)
  simpa using this

mutual

theorem Expr.lifts {inside : Bool} (p : Position) (e : Expr inside) (hi : inside = true)
    (h : e.Plain) : Lifts (e.tree p).depth e.text := by
  match e with
  | .reference name =>
    exact (Unclosed.append (unclosed_singleton (by decide)) name.unclosed).lifts
  | .string literal => exact Unclosed.lifts (h hi)
  | .boolean value =>
    have hvalue : Unclosed (if value then "true" else "false").toList := by
      cases value <;> simp [Unclosed]
    exact hvalue.lifts
  | .number numeral => exact numeral.unclosed.lifts
  | .map before items behind =>
    have hitems := Items.lifts (p.after ('[' :: before.chars)) items h
    have := (lifts_padded before behind hitems).bracketed (Or.inr rfl) (Or.inr rfl)
    simpa only [Expr.text, Expr.tree, SoyTree.Expr.depth, List.append_assoc] using this
  | .call name before args behind =>
    have hargs := Args.lifts (p.after (name.chars ++ '(' :: before.chars)) args h
    have := name.unclosed.lifts.append
      ((lifts_padded before behind hargs).bracketed (Or.inl rfl) (Or.inl rfl))
    simpa only [Expr.text, Expr.tree, SoyTree.Expr.depth, List.append_assoc, Nat.zero_max] using this
  | .ternary cond gap₁ gap₂ left gap₃ gap₄ right =>
    let q := (p.after cond.text).after (gap₁.chars ++ '?' :: gap₂.chars)
    have hcond := Expr.lifts p cond hi h.1
    have hleft := Expr.lifts q left hi h.2.1
    have hright := Expr.lifts ((q.after left.text).after (gap₃.chars ++ ':' :: gap₄.chars)) right hi
      h.2.2
    have hquestion := (unclosed_padded (c := '?') (by decide) gap₁ gap₂).lifts
    have hcolon := (unclosed_padded (c := ':') (by decide) gap₃ gap₄).lifts
    have hall := hcond.append (hquestion.append (hleft.append (hcolon.append hright)))
    simpa only [Expr.text, Expr.tree, SoyTree.Expr.depth, List.append_assoc, List.cons_append,
      Nat.zero_max] using hall
  | .raw text =>
    exact Unclosed.lifts fun c hc => (text.stops hi c hc).2

theorem Args.lifts (p : Position) (args : Args) (h : args.Plain) :
    Lifts (SoyTree.Expr.argsDepth (args.trees p)) args.text := by
  match args with
  | .nil => exact Unclosed.lifts (by simp [Args.text, Unclosed])
  | .cons separator value rest =>
    have hvalue := Expr.lifts (p.after separator.chars) value rfl h.1
    have hrest := Args.lifts ((p.after separator.chars).after value.text) rest h.2
    have := separator.unclosed.lifts.append (hvalue.append hrest)
    rwa [Nat.zero_max] at this

theorem Items.lifts (p : Position) (items : Items) (h : items.Plain) :
    Lifts (SoyTree.Expr.itemsDepth (items.trees p)) items.text := by
  match items with
  | .nil => exact Unclosed.lifts (by simp [Items.text, Unclosed])
  | .cons separator key gap₁ gap₂ value rest =>
    let q := p.after separator.chars
    have hvalue := Expr.lifts ((q.after key.text).after (gap₁.chars ++ ':' :: gap₂.chars)) value rfl
      h.2.1
    have hrest := Items.lifts (q.after
      (key.text ++ (gap₁.chars ++ (':' :: (gap₂.chars ++ value.text))))) rest h.2.2
    have hkey := separator.unclosed.append (Unclosed.append h.1
      (unclosed_padded (c := ':') (by decide) gap₁ gap₂))
    have hall := hkey.lifts.append (hvalue.append hrest)
    simpa only [Items.text, Items.trees, SoyTree.Expr.itemsDepth, List.append_assoc,
      List.cons_append, Nat.zero_max] using hall

end

/-- The brackets of an inline value go as deep as its tree. -/
theorem Expr.depth_le_bracketDepth {inside : Bool} (p : Position) (e : Expr inside)
    (h : e.Plain) : (e.tree p).depth ≤ bracketDepth e.text := by
  match e with
  | .reference _ => exact Nat.zero_le _
  | .string _ => exact Nat.zero_le _
  | .boolean _ => exact Nat.zero_le _
  | .number _ => exact Nat.zero_le _
  | .map before items behind =>
    -- brackets are the same inside and outside of others
    exact (Expr.lifts p (.map before items behind : Expr true) rfl h).le_bracketDepth
  | .call name before args behind =>
    exact (Expr.lifts p (.call name before args behind : Expr true) rfl h).le_bracketDepth
  | .ternary cond gap₁ gap₂ left gap₃ gap₄ right =>
    let question := gap₁.chars ++ '?' :: gap₂.chars
    let colon := gap₃.chars ++ ':' :: gap₄.chars
    let q := (p.after cond.text).after question
    have hcond := Expr.depth_le_bracketDepth p cond h.1
    have hleft := Expr.depth_le_bracketDepth q left h.2.1
    have hright := Expr.depth_le_bracketDepth ((q.after left.text).after colon) right h.2.2
    have htext : (Expr.ternary cond gap₁ gap₂ left gap₃ gap₄ right).text =
        cond.text ++ (question ++ (left.text ++ (colon ++ right.text))) := by
      simp [Expr.text, question, colon]
    have hcond' := le_bracketDepth_append [] cond.text (question ++ (left.text ++ (colon ++ right.text)))
    have hleft' := le_bracketDepth_append (cond.text ++ question) left.text (colon ++ right.text)
    have hright' := le_bracketDepth_append (cond.text ++ (question ++ (left.text ++ colon)))
      right.text []
    simp only [List.nil_append, List.append_nil, List.append_assoc, ← htext] at hcond' hleft' hright'
    exact Nat.max_le.2 ⟨hcond.trans hcond', Nat.max_le.2 ⟨hleft.trans hleft', hright.trans hright'⟩⟩
  | .raw _ => exact Nat.zero_le _

end Brackets

end Concrete

end SoyTree
