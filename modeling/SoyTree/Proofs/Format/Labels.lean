import SoyTree.Proofs.Format.Entries
import SoyTree.Proofs.Names
import SoyTree.Proofs.Shape

/-! # Line breaks in labels

Names, quoted texts and numbers never break a line. What is kept as it was written may: interpolations,
raw expressions, declared types and variants.
-/

namespace SoyTree

section Unbroken

theorem break_not_mem_toDigits (n : Nat) : '\n' ∉ Nat.toDigits 16 n := by
  induction n using Nat.strongRecOn with
  | ind n ih =>
    rw [Nat.toDigits_eq_if (by decide)]
    split
    · simp [Ne.symm (Nat.digitChar_ne (n := n) '\n' (by decide))]
    · simp [ih (n / 16) (by omega), Ne.symm (Nat.digitChar_ne (n := n % 16) '\n' (by decide))]

theorem break_not_mem_escapeFor {quote : Char} (hquote : quote ≠ '\n') (c : Char) :
    '\n' ∉ (Text.escapeFor quote c).toList := by
  unfold Text.escapeFor
  repeat' split
  all_goals simp_all [Text.hex, break_not_mem_toDigits, eq_comm (a := '\n')]

theorem break_not_mem_quoteString (text : String) : '\n' ∉ (Text.quoteString text).toList := by
  simp [Text.quoteString, String.toList_join, break_not_mem_escapeFor]

theorem break_not_mem_quote (value : String) : '\n' ∉ (Expr.quote value).toList := by
  have hescape : ∀ c, '\n' ∉ Expr.escapeChar c := by
    intro c
    unfold Expr.escapeChar
    repeat' split
    all_goals simp_all [eq_comm (a := '\n')]
  simp [Expr.quote, hescape]

theorem break_not_mem_positional {digits : String} (h : '\n' ∉ digits.toList) (exponent : Int) :
    '\n' ∉ (Number.Layout.positional "" digits exponent).toList := by
  have hzeros : ∀ n, '\n' ∉ (Number.Layout.zeros n).toList := fun n hmem => by
    simp [Number.Layout.zeros] at hmem
  have htake : ∀ n, '\n' ∉ digits.toList.take n := fun n hmem => h (List.mem_of_mem_take hmem)
  have hdrop : ∀ n, '\n' ∉ digits.toList.drop n := fun n hmem => h (List.mem_of_mem_drop hmem)
  unfold Number.Layout.positional
  split
  · simp [h, hzeros]
  · dsimp only
    split
    · simp [htake, hdrop]
    · simp [h, hzeros]

theorem break_not_mem_write (value : Number.Binary64) :
    '\n' ∉ (Expr.numberLayout.write value).toList := by
  have hdigits : ∀ n, '\n' ∉ (toString n).toList := fun n hmem =>
    absurd (Number.isDigit_of_mem_toDigits (Number.toList_toString n ▸ hmem)) (by decide)
  unfold Number.Layout.write
  split
  · split <;> decide
  · next mantissa exponent _ =>
    have hsign : '\n' ∉ (if value.negative then "-" else "").toList := by split <;> decide
    have hshortest := hdigits (Number.shortest .up mantissa exponent).coefficient
    simpa [Number.Layout.writeDecimal, Expr.numberLayout, hsign] using
      break_not_mem_positional hshortest _

theorem break_not_mem_linesFrom {line text : List Char} (h : '\n' ∉ line) :
    ∀ l ∈ Text.linesFrom line text, '\n' ∉ l := by
  induction text generalizing line with
  | nil =>
    rw [Text.linesFrom]
    split
    · simp
    · simpa using h
  | cons c text ih =>
    rw [Text.linesFrom]
    split
    · have hdrop : '\n' ∉ Text.dropReturn line := by
        unfold Text.dropReturn
        split
        · exact fun hmem => h (List.mem_cons_of_mem _ hmem)
        · exact h
      simpa using ⟨hdrop, ih (by simp)⟩
    · next hc => exact ih (by simpa using ⟨Ne.symm hc, h⟩)

theorem break_not_mem_of_isWord {word : List Char} (h : isWord word = true) : '\n' ∉ word := fun hmem =>
  absurd (Concrete.Word.isWordPart ⟨word, h⟩ _ hmem) (by decide)

theorem break_not_mem_of_isDotted {path : String} (h : Path.isDotted path = true) :
    '\n' ∉ path.toList := fun hmem =>
  (Path.chars_of_dotted h _ hmem).elim (fun hpart => absurd hpart (by decide)) (by decide)

theorem WrittenName.break_not_mem (n : WrittenName) : '\n' ∉ n.text.toList := by
  have hpath := break_not_mem_of_isDotted n.dotted
  unfold WrittenName.text
  split
  · simpa using hpath
  · exact hpath

end Unbroken

section Expressions

namespace Expr

variable {e : Expr}

theorem sizeOf_operand {o : Expr} (h : o ∈ e.operands) : sizeOf o < sizeOf e := by
  cases e with
  | map mark items =>
    obtain ⟨⟨itemMark, key, value⟩, hi, rfl⟩ := List.mem_map.1 h
    have hitem := List.sizeOf_lt_of_mem hi
    simp only [MapItem.mk.sizeOf_spec, map.sizeOf_spec, MapItem.value] at hitem ⊢
    omega
  | call mark name args =>
    have harg : sizeOf o < sizeOf args := List.sizeOf_lt_of_mem h
    simp only [call.sizeOf_spec]
    omega
  | ternary mark cond left right =>
    simp only [operands, List.mem_cons, List.not_mem_nil, or_false] at h
    rcases h with rfl | rfl | rfl <;> simp only [ternary.sizeOf_spec] <;> omega
  | _ => cases h

/-- What goes over from operands to the expressions above them holds of all expressions. -/
theorem operands_induction {P : Expr → Prop} (h : ∀ e, (∀ o ∈ e.operands, P o) → P e) (e : Expr) :
    P e :=
  h e fun o _ => operands_induction h o
termination_by sizeOf e
decreasing_by exact sizeOf_operand ‹_›

def parts (e : Expr) : List Expr :=
  (e.occurrences false .whole).map Occurrence.expr

theorem inner_exprs (inside : Bool) :
    (e : Expr) → (e.inner inside).map Occurrence.expr = (e.inner false).map Occurrence.expr
  | .ternary _ cond left right => by
    simp only [inner, List.map_append, List.map_cons, inner_exprs inside cond,
      inner_exprs inside left, inner_exprs inside right]
  | .reference _ _ => rfl
  | .string _ => rfl
  | .boolean _ _ => rfl
  | .number _ _ => rfl
  | .map _ _ => rfl
  | .call _ _ _ => rfl
  | .raw _ _ => rfl

theorem occurrences_exprs (inside : Bool) (place : Place) (e : Expr) :
    (e.occurrences inside place).map Occurrence.expr = e.parts := by
  rw [parts, occurrences, occurrences, List.map_cons, List.map_cons, inner_exprs]

theorem parts_eq (e : Expr) : e.parts = e :: e.operands.flatMap parts := by
  rw [parts, occurrences, List.map_cons]
  cases e with
  | map mark items =>
    simp only [inner, Grammar.itemsInner_eq, List.map_flatMap, occurrences_exprs, operands,
      List.flatMap_map]
  | call mark name args =>
    simp only [inner, Grammar.argsInner_eq, List.map_flatMap, occurrences_exprs, operands]
  | ternary mark cond left right => simp [inner, operands, parts, occurrences]
  | _ => rfl

end Expr

theorem mem_commaText {c : Char} (hcomma : c ≠ ',') (hblank : c ≠ ' ') (texts : List (List Char)) :
    c ∈ commaText texts ↔ ∃ text ∈ texts, c ∈ text := by
  cases texts with
  | nil => simp [commaText]
  | cons text texts => simp [commaText, hcomma, hblank]

variable {e : Expr}

/-- A line break in the text of an expression stands in the text of an operand or in raw text. -/
theorem break_mem_toSource (h : e.Shaped) : '\n' ∈ e.toSource.toList ↔
    (∃ o ∈ e.operands, '\n' ∈ o.toSource.toList) ∨ ∃ text ∈ e.rawText?, '\n' ∈ text.toList := by
  cases e with
  | reference mark name =>
    simpa [Expr.toSource, Expr.operands, Expr.rawText?] using break_not_mem_of_isWord h
  | string literal =>
    simpa [Expr.toSource, Expr.operands, Expr.rawText?] using break_not_mem_quote literal.value
  | boolean mark value => cases value <;> simp [Expr.toSource, Expr.operands, Expr.rawText?]
  | number mark value =>
    simpa [Expr.toSource, Expr.operands, Expr.rawText?] using break_not_mem_write value
  | map mark items =>
    have hitem : ∀ i : MapItem, '\n' ∈ i.source ↔ '\n' ∈ i.value.toSource.toList := by
      simp [MapItem.source, break_not_mem_quote]
    simp [toSource_map, mem_commaText, hitem, Expr.operands, Expr.rawText?]
  | call mark name args =>
    simp [toSource_call, mem_commaText, break_not_mem_of_isWord h.1, Expr.operands, Expr.rawText?]
  | ternary mark cond left right =>
    simp [toSource_ternary, Expr.operands, Expr.rawText?]
  | raw mark text => simp [Expr.toSource, Expr.operands, Expr.rawText?]

def Expr.rawTexts (e : Expr) : List String :=
  e.parts.filterMap Expr.rawText?

theorem Expr.mem_rawTexts {text : String} :
    text ∈ e.rawTexts ↔ (∃ o ∈ e.operands, text ∈ o.rawTexts) ∨ text ∈ e.rawText? := by
  simp only [rawTexts, List.mem_filterMap]
  rw [parts_eq]
  simp only [List.mem_cons, List.mem_flatMap, Option.mem_def]
  constructor
  · rintro ⟨x, rfl | ⟨o, ho, hx⟩, htext⟩
    · exact .inr htext
    · exact .inl ⟨o, ho, x, hx, htext⟩
  · rintro (⟨o, ho, x, hx, htext⟩ | htext)
    · exact ⟨x, .inr ⟨o, ho, hx⟩, htext⟩
    · exact ⟨e, .inl rfl, htext⟩

theorem break_mem_toSource_iff (h : ∀ x ∈ e.parts, x.Shaped) :
    '\n' ∈ e.toSource.toList ↔ ∃ text ∈ e.rawTexts, '\n' ∈ text.toList := by
  induction e using Expr.operands_induction with
  | h e ih =>
    rw [Expr.parts_eq, List.forall_mem_cons] at h
    have hoperands : (∃ o ∈ e.operands, '\n' ∈ o.toSource.toList) ↔
        ∃ o ∈ e.operands, ∃ text ∈ o.rawTexts, '\n' ∈ text.toList :=
      exists_congr fun o => and_congr_right fun ho =>
        ih o ho fun x hx => h.2 x (List.mem_flatMap.2 ⟨o, ho, hx⟩)
    rw [break_mem_toSource h.1, hoperands]
    simp only [Expr.mem_rawTexts (e := e), or_and_right, exists_or]
    refine or_congr_left ?_
    constructor
    · rintro ⟨o, ho, text, htext, hbreak⟩
      exact ⟨text, ⟨o, ho, htext⟩, hbreak⟩
    · rintro ⟨text, ⟨o, ho, htext⟩, hbreak⟩
      exact ⟨o, ho, text, htext, hbreak⟩

end Expressions

namespace Outline

section Labels

/-- The names that a node and its parameters are labelled with break no line. -/
def Named : Node → Prop
  | .call _ target _ params => '\n' ∉ target.toList ∧ ∀ q ∈ params, '\n' ∉ q.name.toList
  | .binding _ name _ => '\n' ∉ name.toList
  | _ => True

structure AllNamed (nodes : List Node) (values : List Expr) : Prop where
  nodes : ∀ n ∈ nodes, Named n
  values : ∀ v ∈ values, ∀ x ∈ v.parts, x.Shaped

namespace Entry

/-- The names in an entry and below it break no line. -/
def NamedBelow : Entry → Prop
  | template t => '\n' ∉ t.name.toList ∧
      (∀ d ∈ t.doc, ∀ q ∈ d.params, '\n' ∉ q.name.toList) ∧
      (∀ d ∈ t.params, '\n' ∉ d.name.toList) ∧ AllNamed (Node.bodyNodes t.body) (Node.bodyValues t.body)
  | doc d => ∀ q ∈ d.params, '\n' ∉ q.name.toList
  | declaration d => '\n' ∉ d.name.toList
  | node n => AllNamed (n :: n.within) n.values
  | param q => '\n' ∉ q.name.toList ∧ AllNamed q.value.nodes q.value.values
  | expr e => ∀ x ∈ e.parts, x.Shaped

/-- The texts in the label of an entry that are kept as they were written. -/
def captured : Entry → List String
  | template ⟨_, .delegate (some variant), _, _, _, _, _⟩ => [variant]
  | declaration d => [d.type]
  | node (.interpolation _ raw) => [raw]
  | expr e => e.rawTexts
  | _ => []

variable {e : Entry}

theorem break_not_mem_doc (d : Doc) : '\n' ∉ d.brief.label.toList := by
  have hlines : ∀ line ∈ Text.lines d.text, '\n' ∉ line.toList := by
    intro line hline
    obtain ⟨l, hl, rfl⟩ := List.mem_map.1 hline
    simpa using break_not_mem_linesFrom (by simp) l hl
  cases hshown : Text.lines d.text with
  | nil => simp [Doc.brief, hshown]
  | cons line more =>
    simpa [Doc.brief, hshown] using hlines line (by simp [hshown])

/-- Labels break their line only in what they keep as it was written. -/
theorem break_mem_label (h : e.NamedBelow) :
    '\n' ∈ e.brief.label.toList ↔ ∃ text ∈ e.captured, '\n' ∈ text.toList := by
  cases e with
  | template t =>
    obtain ⟨mark, kind, doc, name, attributes, params, body⟩ := t
    obtain ⟨hname, -⟩ := h
    cases kind with
    | plain => simpa [brief, Template.brief, TemplateKind.suffix, captured] using hname
    | delegate variant =>
      cases variant with
      | none => simpa [brief, Template.brief, TemplateKind.suffix, captured] using hname
      | some variant =>
        simp only at hname
        simp [brief, Template.brief, TemplateKind.suffix, captured, hname]
  | doc d => simpa [brief, captured] using break_not_mem_doc d
  | declaration d =>
    have hmarker : '\n' ∉ (if d.required then "" else "?").toList := by split <;> decide
    have hname : '\n' ∉ d.name.toList := h
    simp [brief, ParamDecl.brief, captured, hname, hmarker]
  | node n =>
    have hn := h.nodes n (by simp)
    cases n with
    | text mark content =>
      simpa [brief, Node.brief, Node.label, captured] using break_not_mem_quoteString content
    | interpolation mark raw => simp [brief, Node.brief, Node.label, captured]
    | call mark target delegate params =>
      have htarget : '\n' ∉ target.toList := hn.1
      cases delegate <;> simpa [brief, Node.brief, Node.label, captured] using htarget
    | binding mark name value =>
      have hname : '\n' ∉ name.toList := hn
      simpa [brief, Node.brief, Node.label, captured] using hname
    | control mark block body =>
      cases block <;> simp [brief, Node.brief, Node.label, captured, Control.word]
  | param q =>
    have hname : '\n' ∉ q.name.toList := h.1
    simpa [brief, Param.brief, captured] using hname
  | expr e => exact break_mem_toSource_iff h

theorem namedBelow_body {body : List Node}
    (h : AllNamed (Node.bodyNodes body) (Node.bodyValues body)) :
    ∀ c ∈ body.map node, c.NamedBelow := by
  induction body with
  | nil => simp
  | cons n body ih =>
    obtain ⟨hnodes, hvalues⟩ := h
    rw [Node.bodyNodes, ← List.cons_append] at hnodes
    rw [Node.bodyValues] at hvalues
    rw [List.map_cons, List.forall_mem_cons]
    rw [List.forall_mem_append] at hnodes hvalues
    exact ⟨⟨hnodes.1, hvalues.1⟩, ih ⟨hnodes.2, hvalues.2⟩⟩

theorem namedBelow_value {value : Value} (h : AllNamed value.nodes value.values) :
    ∀ c ∈ ofValue value, c.NamedBelow := by
  cases value with
  | inline e => simpa [ofValue, NamedBelow] using h.values e (by simp [Value.values])
  | block body => exact namedBelow_body h

theorem namedBelow_params {params : List Param} (hnames : ∀ q ∈ params, '\n' ∉ q.name.toList)
    (h : AllNamed (Node.paramsNodes params) (Node.paramsValues params)) :
    ∀ c ∈ params.map param, c.NamedBelow := by
  induction params with
  | nil => simp
  | cons q params ih =>
    obtain ⟨mark, name, value⟩ := q
    obtain ⟨hnodes, hvalues⟩ := h
    rw [Node.paramsNodes, List.forall_mem_append] at hnodes
    rw [Node.paramsValues, List.forall_mem_append] at hvalues
    rw [List.map_cons, List.forall_mem_cons]
    rw [List.forall_mem_cons] at hnames
    exact ⟨⟨hnames.1, hnodes.1, hvalues.1⟩, ih hnames.2 ⟨hnodes.2, hvalues.2⟩⟩

theorem NamedBelow.children (h : e.NamedBelow) : ∀ c ∈ e.children, c.NamedBelow := by
  cases e with
  | template t =>
    obtain ⟨-, hdoc, hparams, hbody⟩ := h
    simp only [Entry.children, List.forall_mem_append]
    refine ⟨⟨?_, ?_⟩, namedBelow_body hbody⟩
    · simpa [NamedBelow] using hdoc
    · simpa [NamedBelow] using hparams
  | doc d => simpa [Entry.children, NamedBelow] using h
  | declaration d => simp [Entry.children]
  | node n =>
    obtain ⟨hnodes, hvalues⟩ := h
    rw [List.forall_mem_cons] at hnodes
    cases n with
    | text mark content => simp [Entry.children]
    | interpolation mark raw => simp [Entry.children]
    | call mark target delegate params => exact namedBelow_params hnodes.1.2 ⟨hnodes.2, hvalues⟩
    | binding mark name value => exact namedBelow_value ⟨hnodes.2, hvalues⟩
    | control mark block body => exact namedBelow_body ⟨hnodes.2, hvalues⟩
  | param q => exact namedBelow_value h.2
  | expr e =>
    intro c hc
    obtain ⟨o, ho, rfl⟩ := List.mem_map.1 hc
    intro x hx
    refine h x ?_
    rw [Expr.parts_eq]
    exact List.mem_cons_of_mem _ (List.mem_flatMap.2 ⟨o, ho, hx⟩)

end Entry

end Labels

end Outline

end SoyTree
