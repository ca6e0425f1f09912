import SoyTree.Proofs.Canonical.Expression
import SoyTree.Proofs.Expression.Stops
import SoyTree.Proofs.Number.ReadBack
import SoyTree.Proofs.Printing.Layout

/-! # Canonical expressions

The expressions whose text is read back as it was meant: names are names, ternaries stand in the
second branch of a ternary only, and raw text holds nothing that ends an operand and is no other
form of operand. Their text is described character by character.
-/

namespace SoyTree

open Concrete Grammar

section Canonical

def Expr.isTernary : Expr → Bool
  | .ternary _ _ _ _ => true
  | _ => false

/-- Characters that end an operand, or open a string, a map or a list of arguments. -/
def reservedChars : List Char :=
  ['?', ':', ',', '(', ')', '[', ']', '\'']

/-- Raw text that stays raw text when it is read as an operand. -/
structure CanonicalRaw (text : List Char) : Prop where
  visible : Text.isAllBlank text = false
  head : ∀ c ∈ text.head?, blank.accepts c = false
  last : ∀ c ∈ text.getLast?, blank.accepts c = false
  free : ∀ c ∈ text, c ∉ reservedChars
  inTag : ¬ Grammar.tagEnd <:+: text
  notReference : text.head? = some '$' → isWord text.tail = false
  notBoolean : ∀ value : Bool, text ≠ (if value then "true" else "false").toList
  notNumber : Number.Binary64.read? text = none

mutual

/-- Expressions that can be told apart by their text. -/
def Expr.Canonical : Expr → Prop
  | .reference _ name => isWord name.toList = true
  | .string _ => True
  | .boolean _ _ => True
  | .number _ value => value.Finite
  | .map _ items => Expr.ItemsCanonical items
  | .call _ name args =>
    isWord name.toList = true ∧ name ≠ "true" ∧ name ≠ "false" ∧ Expr.ArgsCanonical args
  | .ternary _ cond left right =>
    (cond.Canonical ∧ cond.isTernary = false) ∧ (left.Canonical ∧ left.isTernary = false) ∧
      right.Canonical
  | .raw _ text => CanonicalRaw text.toList

def Expr.ArgsCanonical : List Expr → Prop
  | [] => True
  | e :: rest => e.Canonical ∧ Expr.ArgsCanonical rest

def Expr.ItemsCanonical : List MapItem → Prop
  | [] => True
  | .mk _ _ value :: rest => value.Canonical ∧ Expr.ItemsCanonical rest

end

end Canonical

section Texts

/-- Every character of a string is written so that it is read back. -/
theorem exists_stringChar (c : Char) :
    ∃ x : StringChar, x.text = Expr.escapeChar c ∧ x.value = c := by
  by_cases hquote : c = '\''
  · exact ⟨.escaped '\'', by rw [hquote]; rfl, hquote.symm⟩
  by_cases hslash : c = '\\'
  · exact ⟨.escaped '\\', by rw [hslash]; rfl, hslash.symm⟩
  by_cases hline : c = '\n'
  · exact ⟨.escaped 'n', by rw [hline]; rfl, hline.symm⟩
  by_cases htab : c = '\t'
  · exact ⟨.escaped 't', by rw [htab]; rfl, htab.symm⟩
  by_cases hreturn : c = '\r'
  · exact ⟨.escaped 'r', by rw [hreturn]; rfl, hreturn.symm⟩
  refine ⟨.plain c ⟨hslash, hquote⟩, ?_, rfl⟩
  simp [StringChar.text, Expr.escapeChar, hquote, hslash, hline, htab, hreturn]

theorem exists_quote (value : String) : ∃ q : Quoted, q.text = (Expr.quote value).toList ∧
    ∀ p, (q.tree p).value = value := by
  have hchars : ∀ cs : List Char, ∃ xs : List StringChar,
      xs.flatMap StringChar.text = cs.flatMap Expr.escapeChar ∧ xs.map StringChar.value = cs := by
    intro cs
    induction cs with
    | nil => exact ⟨[], rfl, rfl⟩
    | cons c cs ih =>
      obtain ⟨x, hx, hvalue⟩ := exists_stringChar c
      obtain ⟨xs, hxs, hvalues⟩ := ih
      exact ⟨x :: xs, by rw [List.flatMap_cons, List.flatMap_cons, hx, hxs],
        by rw [List.map_cons, hvalue, hvalues]⟩
  obtain ⟨xs, hxs, hvalues⟩ := hchars value.toList
  refine ⟨⟨xs⟩, ?_, fun p => ?_⟩
  · simp [Quoted.text, Expr.quote, hxs]
  · simp [Quoted.tree, hvalues]

def commaText : List (List Char) → List Char
  | [] => []
  | x :: xs => x ++ xs.flatMap fun y => ',' :: ' ' :: y

theorem intercalate_comma (texts : List (List Char)) :
    [',', ' '].intercalate texts = commaText texts := by
  cases texts with
  | nil => rfl
  | cons x xs =>
    induction xs generalizing x with
    | nil => simp [commaText]
    | cons y ys ih =>
      rw [List.intercalate_cons_cons, ih]
      simp [commaText]

def MapItem.source (i : MapItem) : List Char :=
  (Expr.quote i.key.value).toList ++ ':' :: ' ' :: i.value.toSource.toList

theorem argSources_eq (args : List Expr) : Expr.argSources args = args.map Expr.toSource := by
  induction args with
  | nil => rfl
  | cons e rest ih => rw [Expr.argSources, ih, List.map_cons]

theorem toList_itemSources (items : List MapItem) :
    (Expr.itemSources items).map String.toList = items.map MapItem.source := by
  induction items with
  | nil => rfl
  | cons i rest ih =>
    obtain ⟨mark, key, value⟩ := i
    simp [Expr.itemSources, ih, MapItem.source, MapItem.key, MapItem.value]

theorem toSource_map (mark : Mark) (items : List MapItem) :
    (Expr.map mark items).toSource.toList =
      '[' :: (commaText (items.map MapItem.source) ++ [']']) := by
  simp [Expr.toSource, toList_itemSources, intercalate_comma]

theorem toSource_call (mark : Mark) (name : String) (args : List Expr) :
    (Expr.call mark name args).toSource.toList = name.toList ++
      '(' :: (commaText (args.map fun e => e.toSource.toList) ++ [')']) := by
  simp [Expr.toSource, argSources_eq, intercalate_comma, Function.comp_def]

theorem toSource_ternary (mark : Mark) (cond left right : Expr) :
    (Expr.ternary mark cond left right).toSource.toList = cond.toSource.toList ++
      (" ? ".toList ++ (left.toSource.toList ++ (" : ".toList ++ right.toSource.toList))) := by
  simp [Expr.toSource]

def MapItem.unmarked (i : MapItem) : MapItem :=
  .mk noMark ⟨noMark, i.key.value⟩ i.value.unmarked

theorem argsUnmarked_eq (args : List Expr) :
    Expr.argsUnmarked args = args.map Expr.unmarked := by
  induction args with
  | nil => rfl
  | cons e rest ih => rw [Expr.argsUnmarked, ih, List.map_cons]

theorem itemsUnmarked_eq (items : List MapItem) :
    Expr.itemsUnmarked items = items.map MapItem.unmarked := by
  induction items with
  | nil => rfl
  | cons i rest ih =>
    obtain ⟨mark, key, value⟩ := i
    rw [Expr.itemsUnmarked, ih, List.map_cons]
    rfl

end Texts

section Numerals

theorem Number.Magnitude.numeric_of_read {text : List Char} {m : Number.Magnitude}
    (h : Number.Magnitude.read? text = some m) :
    text ≠ [] ∧ ∀ c ∈ text, isNumberChar c = true := by
  have hsplit := List.takeWhile_append_dropWhile (p := Char.isDigit) (l := text)
  have hdigits : ∀ c ∈ text.takeWhile Char.isDigit, isNumberChar c = true := fun c hc => by
    simp [isNumberChar, List.all_eq_true.1 List.all_takeWhile c hc]
  unfold Number.Magnitude.read? at h
  simp only at h
  split at h
  · next hrest =>
    rw [hrest, List.append_nil] at hsplit
    split at h
    · cases h
    · next hne =>
      rw [← hsplit]
      exact ⟨by simpa only [List.isEmpty_iff] using hne, hdigits⟩
  · next c places hrest =>
    split at h
    · next hpoint =>
      simp only [Bool.and_eq_true, decide_eq_true_eq, List.all_eq_true] at hpoint
      obtain ⟨⟨rfl, hplaces⟩, -⟩ := hpoint
      rw [← hsplit, hrest]
      refine ⟨by simp, fun d hd => ?_⟩
      rcases List.mem_append.1 hd with hd | hd
      · exact hdigits d hd
      · rcases List.mem_cons.1 hd with rfl | hd
        · decide
        · simp [isNumberChar, hplaces d hd]
    · cases h

/-- Whatever reads as a number is an optional sign in front of digits and points. -/
theorem exists_numeral {text : List Char} {value : Number.Binary64}
    (h : Number.Binary64.read? text = some value) :
    ∃ n : Numeral, n.text = text ∧ n.value = value := by
  have hread := h
  unfold Number.Binary64.read? at h
  split at h
  · obtain ⟨m, hm, -⟩ := Option.map_eq_some_iff.1 h
    obtain ⟨hne, hnum⟩ := Number.Magnitude.numeric_of_read hm
    exact ⟨⟨some '-', by simp, _, hne, hnum, value, hread⟩, rfl, rfl⟩
  · obtain ⟨m, hm, -⟩ := Option.map_eq_some_iff.1 h
    obtain ⟨hne, hnum⟩ := Number.Magnitude.numeric_of_read hm
    exact ⟨⟨some '+', by simp, _, hne, hnum, value, hread⟩, rfl, rfl⟩
  · obtain ⟨m, hm, -⟩ := Option.map_eq_some_iff.1 h
    obtain ⟨hne, hnum⟩ := Number.Magnitude.numeric_of_read hm
    exact ⟨⟨none, by simp, _, hne, hnum, value, hread⟩, rfl, rfl⟩

theorem exists_written_numeral {value : Number.Binary64} (h : value.Finite) :
    ∃ n : Numeral, n.text = (Expr.numberLayout.write value).toList ∧ n.value = value :=
  exists_numeral (Number.Binary64.read?_write (fun _ => rfl) rfl h)

def startsNumber (c : Char) : Bool :=
  isNumberChar c || c == '+' || c == '-'

theorem Concrete.Numeral.head (n : Numeral) :
    ∃ c rest, n.text = c :: rest ∧ startsNumber c = true := by
  obtain ⟨sign, signed, digits, nonempty, numeric, value, reads⟩ := n
  cases sign with
  | some c =>
    refine ⟨c, digits, rfl, ?_⟩
    rcases signed c rfl with rfl | rfl <;> decide
  | none =>
    obtain ⟨c, rest, rfl⟩ := List.exists_cons_of_ne_nil nonempty
    exact ⟨c, rest, rfl, by simp [startsNumber, numeric c (by simp)]⟩

theorem startsNumber_of_blank {c : Char} (h : blank.accepts c = true) : startsNumber c = false := by
  rcases eq_of_blank h with rfl | rfl | rfl | rfl <;> decide

theorem isDigit_of_isWordStart {c : Char} (h : isWordStart c = true) : c.isDigit = false := by
  rw [← Bool.not_eq_true]
  intro hdigit
  simp only [isWordStart, Bool.or_eq_true, beq_iff_eq] at h
  rcases h with h | rfl
  · have hlow := (toNat_of_isAlpha h).1
    have hhigh := (toNat_of_isDigit hdigit).2
    omega
  · cases hdigit

theorem startsNumber_of_isWordStart {c : Char} (h : isWordStart c = true) :
    startsNumber c = false := by
  rw [← Bool.not_eq_true]
  intro hc
  simp only [startsNumber, isNumberChar, isDigit_of_isWordStart h, Bool.false_or, Bool.or_eq_true,
    beq_iff_eq] at hc
  rcases hc with (rfl | rfl) | rfl <;> cases h

end Numerals

section Heads

theorem CanonicalRaw.exists_cons {text : List Char} (h : CanonicalRaw text) :
    ∃ c rest, text = c :: rest ∧ blank.accepts c = false := by
  cases text with
  | nil => exact absurd h.visible (by decide)
  | cons c rest => exact ⟨c, rest, rfl, h.head c rfl⟩

theorem exists_cons_of_isWord {text : List Char} (h : isWord text = true) (behind : List Char) :
    ∃ c rest, text ++ behind = c :: rest ∧ blank.accepts c = false := by
  cases text with
  | nil => cases h
  | cons c rest =>
    simp only [isWord, Bool.and_eq_true] at h
    exact ⟨c, rest ++ behind, rfl, blank_of_isWordPart (isWordPart_of_isWordStart h.1)⟩

theorem Expr.Canonical.exists_cons (e : Expr) (h : e.Canonical) :
    ∃ c rest, e.toSource.toList = c :: rest ∧ blank.accepts c = false := by
  match e with
  | .reference _ name => exact ⟨'$', name.toList, by simp [Expr.toSource], by decide⟩
  | .string literal =>
    obtain ⟨q, hq, -⟩ := exists_quote literal.value
    exact ⟨'\'', _, by rw [Expr.toSource, ← hq]; rfl, by decide⟩
  | .boolean _ value =>
    cases value with
    | false => exact ⟨'f', "alse".toList, by simp [Expr.toSource], by decide⟩
    | true => exact ⟨'t', "rue".toList, by simp [Expr.toSource], by decide⟩
  | .number _ value =>
    obtain ⟨n, hn, -⟩ := exists_written_numeral h
    obtain ⟨c, rest, htext, hc⟩ := n.head
    rw [Expr.toSource, ← hn, htext]
    refine ⟨c, rest, rfl, ?_⟩
    rw [← Bool.not_eq_true]
    intro hblank
    rw [startsNumber_of_blank hblank] at hc
    cases hc
  | .map mark items => exact ⟨'[', _, toSource_map mark items, by decide⟩
  | .call mark name args =>
    rw [toSource_call]
    exact exists_cons_of_isWord h.1 _
  | .ternary mark cond left right =>
    obtain ⟨c, rest, hcond, hc⟩ := Expr.Canonical.exists_cons cond h.1.1
    rw [toSource_ternary, hcond]
    exact ⟨c, _, rfl, hc⟩
  | .raw _ text => exact CanonicalRaw.exists_cons h

theorem Expr.Canonical.not_blank {e : Expr} {s t : Cursor} (h : e.Canonical)
    (hr : s.Reads e.toSource.toList t) : ∀ c ∈ s.rest.head?, blank.accepts c = false := by
  obtain ⟨c, rest, htext, hc⟩ := h.exists_cons
  rw [htext] at hr
  exact hr.forall_cons hc

end Heads

end SoyTree
