import SoyTree.Proofs.Nesting.Plain
import SoyTree.Proofs.Printing.Bare

/-! # Brackets of bare expressions

A bare expression has no brackets but those of its calls and maps, so they are matched, and go as
deep as calls and maps are nested.
-/

namespace SoyTree

open Concrete Nesting

section Texts

variable {a b text : List Char}

@[simp] theorem bare_nil : Bare [] :=
  fun _ hc => absurd hc List.not_mem_nil

@[simp] theorem bare_append : Bare (a ++ b) ↔ Bare a ∧ Bare b := by
  simp only [Bare, List.mem_append, or_imp, forall_and]

@[simp] theorem bare_cons {c : Char} : Bare (c :: a) ↔
    c ∉ ['\x7b', '\x7d', '(', ')', '[', ']'] ∧ Bare a := by
  simp only [Bare, List.mem_cons, or_imp, forall_and, forall_eq]

/-- A text is bare if its characters are of a kind that neither braces nor brackets are. -/
theorem bare_of_forall {p : Char → Bool} (h : ∀ c ∈ text, p c = true)
    (hp : ['\x7b', '\x7d', '(', ')', '[', ']'].all (!p ·) = true) : Bare text := by
  intro c hc hmem
  have := List.all_eq_true.1 hp c hmem
  rw [h c hc] at this
  cases this

theorem Concrete.Blanks.bare (b : Blanks) : Bare b.chars :=
  bare_of_forall b.blank (by decide)

theorem bare_word (h : isWord text = true) : Bare text :=
  bare_of_forall (Word.isWordPart ⟨text, h⟩) (by decide)

theorem bare_dotted {path : String} (h : Path.isDotted path = true) : Bare path.toList := by
  refine bare_of_forall (p := fun c => isWordPart c || c == '.') (fun c hc => ?_) (by decide)
  simpa using Path.chars_of_dotted h c hc

theorem bare_blockWord {word : String} (h : word ∈ blockWords) : Bare word.toList :=
  bare_of_forall (isCommandChar_of_mem h) (by decide +kernel)

theorem Concrete.Numeral.bare (n : Numeral) : Bare n.text := by
  refine bare_of_forall (p := fun c => c == '+' || c == '-' || Grammar.isNumberChar c)
    (fun c hc => ?_) (by decide)
  rcases List.mem_append.1 hc with hc | hc
  · simpa [← or_assoc] using Or.inl (n.signed c (by simpa using hc))
  · simp [n.numeric c hc]

theorem bare_quote {value : String} (h : Bare value.toList) : Bare (Expr.quote value).toList := by
  have hescape : ∀ c : Char, Bare [c] → Bare (Expr.escapeChar c) := by
    intro c hc
    unfold Expr.escapeChar
    repeat' split
    all_goals first | exact hc | simp
  have hchars : ∀ cs : List Char, Bare cs → Bare (cs.flatMap Expr.escapeChar) := by
    intro cs hcs
    induction cs with
    | nil => exact bare_nil
    | cons c cs ih =>
      rw [bare_cons] at hcs
      rw [List.flatMap_cons, bare_append]
      exact ⟨hescape c (by simpa using hcs.1), ih hcs.2⟩
  simp [Expr.quote, hchars _ h]

theorem isBlank_or_mem_dropWhile {c : Char} (h : c ∈ text) :
    Text.isBlank c = true ∨ c ∈ text.dropWhile Text.isBlank := by
  rw [← List.takeWhile_append_dropWhile (p := Text.isBlank) (l := text), List.mem_append] at h
  exact h.imp_left fun h => List.all_eq_true.1 List.all_takeWhile c h

/-- Trimming takes nothing but blanks away. -/
theorem bare_of_trim (h : Bare (Text.trim text)) : Bare text := by
  have hblank : ∀ c, Text.isBlank c = true → c ∉ ['\x7b', '\x7d', '(', ')', '[', ']'] := by
    intro c hc hmem
    have hall : ['\x7b', '\x7d', '(', ')', '[', ']'].all (!Text.isBlank ·) = true := by decide
    have := List.all_eq_true.1 hall c hmem
    rw [hc] at this
    cases this
  intro c hc
  rcases isBlank_or_mem_dropWhile hc with hc | hc
  · exact hblank c hc
  rcases isBlank_or_mem_dropWhile (List.mem_reverse.2 hc) with hc | hc
  · exact hblank c hc
  · exact h c (List.mem_reverse.2 hc)

end Texts

end SoyTree

namespace SoyTree.Nesting

open Concrete

section Brackets

variable {a b text : List Char} {j k : Nat}

/-- No tag ends within the text, and its brackets are matched and go `k` deep. -/
structure Nested (k : Nat) (text : List Char) : Prop where
  open_ : '\x7d' ∉ text
  peak : ∀ n, max n (bracketDepthFrom n text) = n + k
  level : ∀ n, bracketLevel n text = n

theorem nested_of_bare (h : Bare text) : Nested 0 text := by
  have hlevels : ∀ n, bracketDepthFrom n text = 0 ∧ bracketLevel n text = n := by
    intro n
    induction text with
    | nil => exact ⟨rfl, rfl⟩
    | cons c text ih =>
      rw [bare_cons] at h
      have hc := h.1
      simp only [List.mem_cons, List.not_mem_nil, or_false, not_or] at hc
      simpa [bracketDepthFrom, bracketLevel, hc] using ih h.2
  constructor
  · exact fun hc => absurd (h _ hc) (by decide)
  · intro n
    rw [(hlevels n).1]
    omega
  · exact fun n => (hlevels n).2

theorem Nested.append (ha : Nested j a) (hb : Nested k b) : Nested (max j k) (a ++ b) := by
  constructor
  · exact fun hc => (List.mem_append.1 hc).elim ha.open_ hb.open_
  · intro n
    have hpeak := ha.peak n
    have hpeak' := hb.peak n
    rw [bracketDepthFrom_append, ha.level]
    omega
  · intro n
    rw [bracketLevel_append, ha.level, hb.level]

theorem Nested.around (h : Nested k text) (ha : Bare a) (hb : Bare b) :
    Nested k (a ++ (text ++ b)) := by
  have := (nested_of_bare ha).append (h.append (nested_of_bare hb))
  simpa using this

theorem Nested.bracketed {opening closing : Char} (h : Nested k text)
    (hbrackets : opening = '(' ∧ closing = ')' ∨ opening = '[' ∧ closing = ']') :
    Nested (k + 1) (opening :: (text ++ [closing])) := by
  have ho : opening = '(' ∨ opening = '[' := hbrackets.imp And.left And.left
  have hc : closing = ')' ∨ closing = ']' := hbrackets.imp And.right And.right
  have hc' : ¬ (closing = '(' ∨ closing = '[') := by
    rcases hc with rfl | rfl <;> decide
  constructor
  · simp only [List.mem_cons, List.mem_append, List.not_mem_nil, or_false, not_or]
    refine ⟨?_, h.open_, ?_⟩
    · rcases ho with rfl | rfl <;> decide
    · rcases hc with rfl | rfl <;> decide
  · intro n
    have hpeak := h.peak (n + 1)
    simp only [bracketDepthFrom, ho, if_true, bracketDepthFrom_append, h.level, hc, hc', if_false]
    omega
  · intro n
    simp only [bracketLevel, ho, if_true, bracketLevel_append, h.level, hc, hc', if_false]
    omega

theorem Nested.bracketDepth_eq (h : Nested k text) : bracketDepth text = k := by
  have := h.peak 0
  rw [bracketDepth]
  omega

end Brackets

section Values

theorem nested_comma {j k : Nat} {x : List Char} {xs : List (List Char)} (hx : Nested j x)
    (hxs : Nested k (xs.flatMap fun y => ',' :: ' ' :: y)) :
    Nested (max j k) (commaText (x :: xs)) :=
  hx.append hxs

theorem nested_separated {k : Nat} {text : List Char} (h : Nested k text) :
    Nested k (',' :: ' ' :: text) := by
  have := h.around (a := [',', ' ']) (by simp) bare_nil
  simpa using this

theorem nested_item {mark : Mark} {key : Literal} {value : Expr} (hkey : Bare key.value.toList)
    (hvalue : Nested value.depth value.toSource.toList) :
    Nested value.depth (MapItem.mk mark key value).source := by
  have hcolon : Bare ((Expr.quote key.value).toList ++ [':', ' ']) := by
    simp [bare_quote hkey]
  have hall := hvalue.around hcolon bare_nil
  simpa [MapItem.source, MapItem.key, MapItem.value] using hall

mutual

/-- The brackets of a bare expression go as deep as its tree. -/
theorem nested_expr (e : Expr) (h : e.Bare) : Nested e.depth e.toSource.toList := by
  match e, h with
  | .reference _ name, h =>
    have hname : Bare ("$" ++ name).toList := by
      simp [bare_word h]
    exact nested_of_bare hname
  | .string literal, h => exact nested_of_bare (bare_quote h)
  | .boolean _ value, _ =>
    have hvalue : Bare (if value then "true" else "false").toList := by
      cases value <;> simp
    exact nested_of_bare hvalue
  | .number _ value, h =>
    obtain ⟨numeral, hnumeral, -⟩ := exists_written_numeral h
    have hbare := numeral.bare
    rw [hnumeral] at hbare
    exact nested_of_bare hbare
  | .map mark items, h =>
    have hitems : Nested (Expr.itemsDepth items) (commaText (items.map MapItem.source)) := by
      match items, h with
      | [], _ => exact nested_of_bare bare_nil
      | .mk _ key value :: rest, h =>
        exact nested_comma (nested_item h.1 (nested_expr value h.2.1)) (nested_items rest h.2.2)
    rw [toSource_map]
    exact hitems.bracketed (Or.inr ⟨rfl, rfl⟩)
  | .call mark name args, h =>
    have hargs : Nested (Expr.argsDepth args)
        (commaText (args.map fun e => e.toSource.toList)) := by
      match args, h.2 with
      | [], _ => exact nested_of_bare bare_nil
      | e :: rest, hargs => exact nested_comma (nested_expr e hargs.1) (nested_args rest hargs.2)
    have hall := (nested_of_bare (bare_word h.1)).append (hargs.bracketed (Or.inl ⟨rfl, rfl⟩))
    rw [toSource_call]
    simpa [Expr.depth] using hall
  | .ternary mark cond left right, h =>
    have hquestion : Bare " ? ".toList := by simp
    have hcolon : Bare " : ".toList := by simp
    have hbranches := (nested_expr left h.2.1).append
      ((nested_of_bare hcolon).append (nested_expr right h.2.2))
    have hall := (nested_expr cond h.1).append ((nested_of_bare hquestion).append hbranches)
    rw [toSource_ternary]
    simpa [Expr.depth] using hall
  | .raw _ text, h => exact nested_of_bare h

theorem nested_args (args : List Expr) (h : Expr.ArgsBare args) : Nested (Expr.argsDepth args)
    ((args.map fun e => e.toSource.toList).flatMap fun y => ',' :: ' ' :: y) := by
  match args, h with
  | [], _ => exact nested_of_bare bare_nil
  | e :: rest, h =>
    exact (nested_separated (nested_expr e h.1)).append (nested_args rest h.2)

theorem nested_items (items : List MapItem) (h : Expr.ItemsBare items) :
    Nested (Expr.itemsDepth items)
      ((items.map MapItem.source).flatMap fun y => ',' :: ' ' :: y) := by
  match items, h with
  | [], _ => exact nested_of_bare bare_nil
  | .mk _ key value :: rest, h =>
    exact (nested_separated (nested_item h.1 (nested_expr value h.2.1))).append
      (nested_items rest h.2.2)

end

end Values

end SoyTree.Nesting
