import SoyTree.Proofs.Expression.Operands

/-! # Reading canonical expressions back

The text of a canonical expression is read as that expression, with other marks. By induction on
the expression, its text is read back as an operand whatever stop follows it, and as an expression
inside and outside brackets; a ternary is read back as an expression only.
-/

namespace SoyTree.Grammar

open Rule Cursor Concrete

variable {s t u : Cursor} {stop : Rule Unit} {nested : Rule SoyTree.Expr} {e : SoyTree.Expr}

section Nested

/-- Behind `s` the rule reads arguments and map values as they are read everywhere. -/
def NestedBehind (s : Cursor) (nested : Rule SoyTree.Expr) : Prop :=
  ∀ u : Cursor, u.rest.length < s.rest.length → nested u = nestedExpression u

theorem NestedBehind.later (h : NestedBehind s nested) (hle : t.rest.length ≤ s.rest.length) :
    NestedBehind t nested :=
  fun u hu => h u (Nat.lt_of_lt_of_le hu hle)

theorem nestedBehind_beyond (s : Cursor) : NestedBehind s (beyond s nestedExpression) :=
  fun u hu => by rw [beyond, if_pos hu]

theorem NestedBehind.yields (h : NestedBehind s nested) (hlt : u.rest.length < s.rest.length)
    (hy : nestedExpression.Yields u e t) : nested.Yields u e t := by
  unfold Yields
  rwa [h u hlt]

theorem nested_head : (e : Concrete.Expr true) →
    ∃ c rest, e.text = c :: rest ∧ endsNested c = false
  | .reference name => ⟨'$', name.chars, rfl, by decide⟩
  | .string literal => ⟨'\'', _, rfl, by decide⟩
  | .boolean value => by
    cases value with
    | false => exact ⟨'f', "alse".toList, by simp [Concrete.Expr.text], by decide⟩
    | true => exact ⟨'t', "rue".toList, by simp [Concrete.Expr.text], by decide⟩
  | .number numeral => by
    obtain ⟨c, rest, htext, hc⟩ := numeral.head
    refine ⟨c, rest, htext, ?_⟩
    rw [← Bool.not_eq_true]
    intro hends
    simp only [endsNested, Bool.or_eq_true, beq_iff_eq] at hends
    rcases hends with (rfl | rfl) | rfl <;> cases hc
  | .map before items behind => ⟨'[', _, rfl, by decide⟩
  | .call name before args behind => by
    obtain ⟨c, rest, hname⟩ := List.exists_cons_of_ne_nil name.ne_nil
    have hc := endsOperand_of_isWordPart (name.isWordPart c (by simp [hname]))
    rw [Concrete.Expr.text, hname]
    exact ⟨c, _, rfl, (Bool.or_eq_false_iff.1 hc).2⟩
  | .ternary cond gap₁ gap₂ left gap₃ gap₄ right => by
    obtain ⟨c, rest, hcond, hc⟩ := nested_head cond
    rw [Concrete.Expr.text, hcond]
    exact ⟨c, _, rfl, hc⟩
  | .raw ⟨[], visible, _⟩ => absurd visible (by decide)
  | .raw ⟨c :: chars, _, stops⟩ => ⟨c, chars, rfl, by simpa [endsNested, and_assoc] using stops rfl c⟩

theorem nestedExpression_fails {c : Char} (h : s.rest.head? = some c) (hc : endsNested c = true) :
    nestedExpression.Fails s := by
  refine fails_iff.2 fun e t hy => ?_
  obtain ⟨written, hr, -⟩ := nestedExpression_spelled s e t hy
  obtain ⟨c', rest, htext, hc'⟩ := nested_head written
  simp only [hr.rest, htext] at h
  obtain rfl : c' = c := by simpa using h
  rw [hc] at hc'
  cases hc'

end Nested

section Expressions

/-- The rule reads the expression, up to marks. -/
def ReadsBack (p : Rule SoyTree.Expr) (e : SoyTree.Expr) (s t : Cursor) : Prop :=
  ∃ e', p.Yields s e' t ∧ e'.unmarked = e.unmarked

/-- The text of the expression is read back as an operand, whatever ends it. -/
def OperandReads (e : SoyTree.Expr) : Prop :=
  ∀ (stop : Rule Unit) (nested : Rule SoyTree.Expr) (s t : Cursor), NestedBehind s nested →
    Ends stop t → s.Reads e.toSource.toList t → ReadsBack (operand stop nested) e s t

/-- The text of the expression is read back as an expression, inside and outside brackets. -/
def ExpressionReads (e : SoyTree.Expr) : Prop :=
  ∀ (inside : Bool) (nested : Rule SoyTree.Expr) (s t : Cursor), NestedBehind s nested →
    Ends (contextStop inside) t → s.Reads e.toSource.toList t →
    ReadsBack (expressionWith (contextStop inside) nested) e s t

theorem OperandReads.expression (h : OperandReads e) : ExpressionReads e := by
  intro inside nested s t hn hend hr
  obtain ⟨e', hy, he⟩ := h _ nested s t hn (hend.or_before stopsAtMarks_question) hr
  exact ⟨e', expressionWith_yields hy (question_fails_of_ends hend) hend.here, he⟩

theorem OperandReads.both (h : OperandReads e) :
    ExpressionReads e ∧ (e.isTernary = false → OperandReads e) :=
  ⟨h.expression, fun _ => h⟩

theorem ExpressionReads.argument (h : ExpressionReads e) (hn : NestedBehind s nested)
    (hlt : u.rest.length < s.rest.length) {c : Char} (hc : t.rest.head? = some c)
    (hends : endsNested c = true) (hr : u.Reads e.toSource.toList t) : ReadsBack nested e u t := by
  obtain ⟨e', hy, he⟩ := h true _ u t (nestedBehind_beyond u) (ends_nestedStop hc hends) hr
  refine ⟨e', hn.yields hlt ?_, he⟩
  unfold Yields
  rwa [nestedExpression, recursive_eq]

theorem reference_reads {mark : Mark} {name : String} (h : isWord name.toList = true) :
    OperandReads (.reference mark name) := by
  intro stop nested s t _ hend hr
  refine ⟨_, operand_yields [] rfl (by simp) (reference_yields ⟨name.toList, h⟩ ?_
    hend.not_wordPart) hend.here, by simp [SoyTree.Expr.unmarked]⟩
  simpa [SoyTree.Expr.toSource] using hr

theorem string_reads (literal : Literal) : OperandReads (.string literal) := by
  intro stop nested s t _ hend hr
  obtain ⟨q, hq, hvalue⟩ := exists_quote literal.value
  rw [SoyTree.Expr.toSource, ← hq] at hr
  have hreference : reference.Fails s := reference_fails (by
    rw [Reads.head_cons (c := '\'') hr]
    decide)
  refine ⟨_, operand_yields [reference] rfl (by simpa using hreference)
    (yields_marked.2 ⟨_, stringLiteral_yields q hr, rfl⟩) hend.here, ?_⟩
  simp [SoyTree.Expr.unmarked, hvalue]

theorem boolean_reads (mark : Mark) (value : Bool) : OperandReads (.boolean mark value) := by
  intro stop nested s t _ hend hr
  have hword : isWord (if value then "true" else "false").toList = true := by
    cases value <;> decide
  have hhead := word_head (P := fun c => c ≠ '$' ∧ c ≠ '\'') ⟨_, hword⟩ hr (fun c hc => by
    constructor <;> rintro rfl <;> cases hc)
  have hreference : reference.Fails s := reference_fails fun h => (hhead _ h).1 rfl
  have hstring := string_fails (s := s) fun h => (hhead _ h).2 rfl
  refine ⟨_, operand_yields [reference, marked (fun _ literal => .string literal) stringLiteral] rfl
    ?_ (boolean_yields value hr hend.not_wordPart) hend.here, by simp [SoyTree.Expr.unmarked]⟩
  simpa using ⟨hreference, hstring⟩

theorem number_reads {mark : Mark} {value : Number.Binary64} (h : value.Finite) :
    OperandReads (.number mark value) := by
  intro stop nested s t _ hend hr
  obtain ⟨n, hn, rfl⟩ := exists_written_numeral h
  rw [SoyTree.Expr.toSource, ← hn] at hr
  obtain ⟨c, rest, htext, hc⟩ := n.head
  have hs : s.rest.head? = some c := by
    rw [hr.rest, htext]
    rfl
  have hne : ∀ c', startsNumber c' = false → s.rest.head? ≠ some c' := fun c' hc' h => by
    obtain rfl : c = c' := Option.some.inj (hs.symm.trans h)
    rw [hc] at hc'
    cases hc'
  have hboolean : boolean.Fails s := boolean_fails_of_head fun c' hc' => by
    rw [← Bool.not_eq_true]
    exact fun hstart => hne c' (startsNumber_of_isWordStart hstart) hc'
  refine ⟨_, operand_yields [reference, marked (fun _ literal => .string literal) stringLiteral,
    boolean, mapLiteral nested] rfl ?_ (number_yields n hr hend.not_numberChar) hend.here,
    by simp [SoyTree.Expr.unmarked]⟩
  simpa using ⟨reference_fails (hne '$' (by decide)), string_fails (hne '\'' (by decide)), hboolean,
    mapLiteral_fails (hne '[' (by decide))⟩

theorem raw_reads {mark : Mark} {text : String} (h : CanonicalRaw text.toList) :
    OperandReads (.raw mark text) := by
  intro stop nested s t _ hend hr
  exact ⟨_, raw_yields h hend hr, by simp [SoyTree.Expr.unmarked]⟩

/-- A name that is no boolean is the start of a call only. -/
theorem forms_fail_of_word (nested : Rule SoyTree.Expr) (w : Word) (hr : s.Reads w.chars u)
    (hstop : ∀ c ∈ u.rest.head?, isWordPart c = false) (htrue : w.chars ≠ "true".toList)
    (hfalse : w.chars ≠ "false".toList) :
    ∀ p ∈ [reference, marked (fun _ literal => .string literal) stringLiteral, boolean,
      mapLiteral nested, number], p.Fails s := by
  have hlead : leadWord s.rest = w.chars := by
    rw [hr.rest]
    exact leadWord_append w.isWord hstop
  have hhead : ∀ c ∈ s.rest.head?, isWordStart c = true := word_head w hr fun _ h => h
  have hne : ∀ c, isWordStart c = false → s.rest.head? ≠ some c := fun c hc h => by
    rw [hhead c h] at hc
    cases hc
  have hboolean : boolean.Fails s :=
    boolean_fails (by rwa [hlead]) (by rwa [hlead])
  have hnumber : number.Fails s :=
    number_fails fun c hc => startsNumber_of_isWordStart (hhead c hc)
  simpa using ⟨reference_fails (hne '$' (by decide)), string_fails (hne '\'' (by decide)), hboolean,
    mapLiteral_fails (hne '[' (by decide)), hnumber⟩

theorem functionCall_yields {args : List SoyTree.Expr} (w : Word)
    (hargs : ∀ e ∈ args, e.Canonical ∧ ExpressionReads e) (hn : NestedBehind s nested)
    (hw : s.Reads w.chars u)
    (hlist : u.Reads ('(' :: (commaText (args.map fun e => e.toSource.toList) ++ [')'])) t) :
    ∃ es, (functionCall nested).Yields s
        (.call ⟨s.position, t.position⟩ (String.ofList w.chars) es) t ∧
      es.map SoyTree.Expr.unmarked = args.map SoyTree.Expr.unmarked := by
  have hitems : ReadsItems nested (fun e => e.toSource.toList) SoyTree.Expr.unmarked u.rest.length
      args := by
    refine ⟨fun e he => (hargs e he).1.exists_cons, fun e he v w c hlt hr hc hends => ?_⟩
    exact (hargs e he).2.argument hn (Nat.lt_of_lt_of_le hlt hw.le) hc hends hr
  have hnone : ∀ v : Cursor, v.rest.length < u.rest.length → v.rest.head? = some ')' →
      nested.Fails v := fun v hlt hv => by
    unfold Fails
    rw [hn v (Nat.lt_of_lt_of_le hlt hw.le)]
    exact nestedExpression_fails hv (by decide)
  obtain ⟨es, hes, hmap⟩ := bracketed_yields (by decide) (by decide) hitems (Nat.le_refl _) hnone
    hlist
  have hid := identifier_yields w hw (hlist.forall_cons (by decide))
  exact ⟨es, yields_marked.2 ⟨(String.ofList w.chars, es),
    hid.bind (hes.bind (yields_pure.2 ⟨rfl, rfl⟩)), rfl⟩, hmap⟩

theorem call_reads {mark : Mark} {name : String} {args : List SoyTree.Expr}
    (hname : isWord name.toList = true) (htrue : name ≠ "true") (hfalse : name ≠ "false")
    (hargs : ∀ e ∈ args, e.Canonical ∧ ExpressionReads e) : OperandReads (.call mark name args) := by
  intro stop nested s t hn hend hr
  rw [toSource_call] at hr
  obtain ⟨u, hw, hlist⟩ := hr.split
  obtain ⟨es, hes, hmap⟩ := functionCall_yields ⟨name.toList, hname⟩ hargs hn hw hlist
  have hfails := forms_fail_of_word nested ⟨name.toList, hname⟩ hw
    (hlist.forall_cons (by decide)) (fun h => htrue (String.toList_injective h))
    (fun h => hfalse (String.toList_injective h))
  refine ⟨_, operand_yields _ rfl hfails hes hend.here, ?_⟩
  simp [SoyTree.Expr.unmarked, argsUnmarked_eq, hmap]

theorem mapItem_reads {i : SoyTree.MapItem} {c : Char} (hi : i.value.Canonical)
    (h : ExpressionReads i.value) (hn : NestedBehind s nested)
    (hlt : u.rest.length < s.rest.length) (hr : u.Reads i.source t) (hc : t.rest.head? = some c)
    (hends : endsNested c = true) :
    ∃ i', (mapItem nested).Yields u i' t ∧ i'.unmarked = i.unmarked := by
  obtain ⟨q, hq, hkey⟩ := exists_quote i.key.value
  rw [MapItem.source, ← hq] at hr
  obtain ⟨v, hquoted, hrest⟩ := hr.split
  obtain ⟨w, hcolon, hvalue⟩ := Reads.split (a := [':', ' ']) (b := i.value.toSource.toList) hrest
  obtain ⟨e, hy, he⟩ := h.argument hn
    (Nat.lt_of_le_of_lt (Nat.le_trans hcolon.le hquoted.le) hlt) hc hends hvalue
  refine ⟨.mk ⟨u.position, t.position⟩ (q.tree u.position) e,
    yields_marked.2 ⟨(q.tree u.position, e), ?_, rfl⟩, ?_⟩
  · exact (stringLiteral_yields q hquoted).bind ((padded_yields (by decide) hcolon
      (hi.not_blank hvalue)).bind (hy.bind (yields_pure.2 ⟨rfl, rfl⟩)))
  · simp [MapItem.unmarked, MapItem.key, MapItem.value, hkey, he]

theorem map_reads {mark : Mark} {items : List SoyTree.MapItem}
    (hitems : ∀ i ∈ items, i.value.Canonical ∧ ExpressionReads i.value) :
    OperandReads (.map mark items) := by
  intro stop nested s t hn hend hr
  rw [toSource_map] at hr
  have hreads : ReadsItems (mapItem nested) MapItem.source MapItem.unmarked s.rest.length items := by
    refine ⟨fun i _ => ?_, fun i hi v w c hlt hr hc hends => ?_⟩
    · obtain ⟨q, hq, -⟩ := exists_quote i.key.value
      exact ⟨'\'', _, by rw [MapItem.source, ← hq]; rfl, by decide⟩
    · exact mapItem_reads (hitems i hi).1 (hitems i hi).2 hn hlt hr hc hends
  have hnone : ∀ v : Cursor, v.rest.length < s.rest.length → v.rest.head? = some ']' →
      (mapItem nested).Fails v := fun v _ hv => by
    refine fails_marked.2 (Fails.bind (fails_marked.2 (Fails.bind (fails_char.2 ?_))))
    rw [hv]
    decide
  obtain ⟨is, his, hmap⟩ := bracketed_yields (by decide) (by decide) hreads (Nat.le_refl _) hnone hr
  have hne : ∀ c, c ≠ '[' → s.rest.head? ≠ some c := fun c hc h => by
    rw [hr.head_cons] at h
    exact hc (Option.some.inj h).symm
  have hboolean : boolean.Fails s := boolean_fails_of_head (hr.forall_cons (by decide))
  refine ⟨_, operand_yields [reference, marked (fun _ literal => .string literal) stringLiteral,
    boolean] rfl ?_ (yields_marked.2 ⟨is, his, rfl⟩) hend.here, ?_⟩
  · simpa using ⟨reference_fails (hne '$' (by decide)), string_fails (hne '\'' (by decide)), hboolean⟩
  · simp [SoyTree.Expr.unmarked, itemsUnmarked_eq, hmap]

end Expressions

section Ternaries

/-- A condition and the branches behind it make up a ternary. -/
theorem expressionWith_ternary {cond left right : SoyTree.Expr}
    (hcond : (operand (either question stop) nested).Yields s cond u)
    (hbranches : (branches stop nested (beyond s (expressionWith stop nested))).Yields u
      (left, right) t) (hstop : ∃ d u, stop.Yields t d u) :
    (expressionWith stop nested).Yields s (.ternary ⟨s.position, t.position⟩ cond left right) t := by
  obtain ⟨d, v, hstop⟩ := hstop
  unfold Yields
  rw [expressionWith, recursive_eq]
  refine yields_either.2 (Or.inl (Yields.bind (t := t)
    (yields_marked.2 ⟨(cond, some (left, right)), ?_, rfl⟩) ?_))
  · exact hcond.bind ((yields_maybe.2 (Or.inl ⟨_, rfl, hbranches⟩)).bind (yields_pure.2 ⟨rfl, rfl⟩))
  · exact (yields_ahead.2 ⟨rfl, v, hstop⟩).bind (yields_pure.2 ⟨rfl, rfl⟩)

theorem question_yields (hr : s.Reads " ? ".toList t)
    (hnext : ∀ c ∈ t.rest.head?, blank.accepts c = false) :
    ∃ u, question.Yields s () u ∧ blanks.Yields u () t := by
  obtain ⟨u, hmark, hspace⟩ := Reads.split (a := [' ', '?']) (b := [' ']) hr
  refine ⟨u, yields_question.2 ⟨oneSpace.toBlanks, hmark, ' ', hspace.head_cons, by decide⟩, ?_⟩
  exact blanks_yields oneSpace.toBlanks hspace hnext

theorem colon_yields (hr : s.Reads " : ".toList t)
    (hnext : ∀ c ∈ t.rest.head?, blank.accepts c = false) :
    ∃ u, colon.Yields s () u ∧ blanks.Yields u () t := by
  obtain ⟨u, hmark, hspace⟩ := Reads.split (a := [' ', ':']) (b := [' ']) hr
  refine ⟨u, yields_colon.2 ⟨oneSpace.toBlanks, hmark⟩, ?_⟩
  exact blanks_yields oneSpace.toBlanks hspace hnext

theorem ternary_reads {mark : Mark} {cond left right : SoyTree.Expr} (hcond : OperandReads cond)
    (hleft : OperandReads left) (hright : ExpressionReads right) (hl : left.Canonical)
    (hr : right.Canonical) : ExpressionReads (.ternary mark cond left right) := by
  intro inside nested s t hn hend hall
  rw [toSource_ternary] at hall
  obtain ⟨u₁, hcondText, hall⟩ := hall.split
  obtain ⟨u₂, hquestionText, hall⟩ := hall.split
  obtain ⟨u₃, hleftText, hall⟩ := hall.split
  obtain ⟨u₄, hcolonText, hrightText⟩ := hall.split
  obtain ⟨v₁, hquestion, hblanks₁⟩ := question_yields hquestionText (hl.not_blank hleftText)
  obtain ⟨v₂, hcolon, hblanks₂⟩ := colon_yields hcolonText (hr.not_blank hrightText)
  have hends₁ : Ends question u₁ :=
    ⟨stopsAtMarks_question, ⟨(), v₁, hquestion⟩, ' ', hquestionText.head_cons, by decide⟩
  have hends₃ : Ends colon u₃ :=
    ⟨stopsAtMarks_colon, ⟨(), v₂, hcolon⟩, ' ', hcolonText.head_cons, by decide⟩
  have hle₂ : u₂.rest.length ≤ s.rest.length := (hcondText.trans hquestionText).le
  have hlt₄ : u₄.rest.length < s.rest.length :=
    ((hcondText.trans (hquestionText.trans (hleftText.trans hcolonText))).lt (by simp))
  obtain ⟨cond', hcondY, hcondE⟩ :=
    hcond _ nested s u₁ hn (hends₁.or_behind hend.marks) hcondText
  obtain ⟨left', hleftY, hleftE⟩ :=
    hleft _ nested u₂ u₃ (hn.later hle₂) (hends₃.or_behind hend.marks) hleftText
  obtain ⟨right', hrightY, hrightE⟩ :=
    hright inside nested u₄ t (hn.later (Nat.le_of_lt hlt₄)) hend hrightText
  have hbranches : (branches (contextStop inside) nested (beyond s (expressionWith
      (contextStop inside) nested))).Yields u₁ (left', right') t :=
    hquestion.bind (hblanks₁.bind (hleftY.bind (hcolon.bind (hblanks₂.bind
      ((yields_beyond.2 ⟨hlt₄, hrightY⟩).bind (yields_pure.2 ⟨rfl, rfl⟩))))))
  refine ⟨_, expressionWith_ternary hcondY hbranches hend.here, ?_⟩
  rw [SoyTree.Expr.unmarked, SoyTree.Expr.unmarked, hcondE, hleftE, hrightE]

end Ternaries

section Canonical

mutual

/-- A canonical expression is read back as an expression, and as an operand if it is no ternary. -/
theorem canonical_reads (e : SoyTree.Expr) (h : e.Canonical) :
    ExpressionReads e ∧ (e.isTernary = false → OperandReads e) := by
  match e with
  | .reference mark name => exact (reference_reads h).both
  | .string literal => exact (string_reads literal).both
  | .boolean mark value => exact (boolean_reads mark value).both
  | .number mark value => exact (number_reads h).both
  | .map mark items => exact (map_reads (items_read items h)).both
  | .call mark name args => exact (call_reads h.1 h.2.1 h.2.2.1 (args_read args h.2.2.2)).both
  | .ternary mark cond left right =>
    obtain ⟨⟨hcond, hc⟩, ⟨hleft, hl⟩, hright⟩ := h
    refine ⟨?_, fun h => by cases h⟩
    exact ternary_reads ((canonical_reads cond hcond).2 hc) ((canonical_reads left hleft).2 hl)
      (canonical_reads right hright).1 hleft hright
  | .raw mark text => exact (raw_reads h).both

theorem args_read (args : List SoyTree.Expr) (h : SoyTree.Expr.ArgsCanonical args) :
    ∀ e ∈ args, e.Canonical ∧ ExpressionReads e := by
  match args with
  | [] => simp
  | e :: rest =>
    rintro e' (_ | ⟨_, he⟩)
    · exact ⟨h.1, (canonical_reads e h.1).1⟩
    · exact args_read rest h.2 e' he

theorem items_read (items : List SoyTree.MapItem) (h : SoyTree.Expr.ItemsCanonical items) :
    ∀ i ∈ items, i.value.Canonical ∧ ExpressionReads i.value := by
  match items with
  | [] => simp
  | .mk mark key value :: rest =>
    rintro i (_ | ⟨_, hi⟩)
    · exact ⟨h.1, (canonical_reads value h.1).1⟩
    · exact items_read rest h.2 i hi

end

/-- The text of a canonical expression in front of the end of its tag is read back as a whole, and
gives the same expression up to marks. -/
theorem expression_toSource (e : SoyTree.Expr) (h : e.Canonical) :
    ∃ e', (expression slashClose).Yields (.ofChars (e.toSource ++ " /\x7d").toList) e'
        ⟨Position.origin.after e.toSource.toList, " /\x7d".toList⟩ ∧
      e'.unmarked = e.unmarked := by
  have hr : (Cursor.ofChars (e.toSource ++ " /\x7d").toList).Reads e.toSource.toList
      ⟨Position.origin.after e.toSource.toList, " /\x7d".toList⟩ := by
    rw [String.toList_append]
    exact reads_append Position.origin e.toSource.toList " /\x7d".toList
  have hend : Ends (contextStop false)
      ⟨Position.origin.after e.toSource.toList, " /\x7d".toList⟩ :=
    ends_slashClose (List.append_nil _).symm
  exact (canonical_reads e h).1 false nestedExpression _ _ (fun _ _ => rfl) hend hr

def canonicalSample : SoyTree.Expr :=
  .ternary noMark (.raw noMark "$a + 1 > 0")
    (.call noMark "pick" [.boolean noMark true, .number noMark ⟨true, .finite (3 * 2 ^ 51) (-52)⟩,
      .map noMark [.mk noMark ⟨noMark, "it's /\x7d ?"⟩ (.reference noMark "b")]])
    (.ternary noMark (.reference noMark "c") (.string ⟨noMark, "one\ntwo"⟩) (.raw noMark "$d.e"))

theorem canonicalSample_canonical : canonicalSample.Canonical := by
  refine ⟨⟨?cond, rfl⟩, ⟨⟨by decide, by decide, by decide, trivial, ?number, ⟨?value, trivial⟩,
    trivial⟩, rfl⟩, ⟨?inner, rfl⟩, ⟨trivial, rfl⟩, ?raw⟩
  case cond | raw =>
    exact ⟨by decide, by rintro _ ⟨⟩; decide, by rintro _ ⟨⟩; decide, by simp [reservedChars],
      by decide, by decide, by decide, by decide⟩
  case number => exact ⟨_, _, rfl, by constructor <;> decide⟩
  case value | inner => rfl

theorem canonicalSample_reads :
    canonicalSample.toSource =
      "$a + 1 > 0 ? pick(true, -1.5, ['it\\'s /\x7d ?': $b]) : $c ? 'one\\ntwo' : $d.e" ∧
    ∃ e', (expression slashClose).Yields (.ofChars (canonicalSample.toSource ++ " /\x7d").toList) e'
        ⟨Position.origin.after canonicalSample.toSource.toList, " /\x7d".toList⟩ ∧
      e'.unmarked = canonicalSample.unmarked :=
  ⟨by decide +kernel, expression_toSource canonicalSample canonicalSample_canonical⟩

end Canonical

end SoyTree.Grammar
