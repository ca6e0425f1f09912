import SoyTree.Proofs.Comments.Tree

/-! # Expressions of moved texts

What the rules for expressions read does not depend on where the text stands.
-/

namespace SoyTree

open Rule Cursor

namespace Grammar

variable {φ : Position → Position} {α : Type} {p : Rule α} {stop : Rule Unit}
  {nested : Rule SoyTree.Expr}

section Words

theorem moves_blanks : Moves φ id blanks blanks :=
  (moves_run _).void

theorem moves_padded {f : α → α} (h : Moves φ f p p) : Moves φ id (padded p) (padded p) :=
  moves_blanks.bind fun _ => h.bind fun _ => moves_blanks

theorem moves_spaced {f : α → α} (h : Moves φ f p p) : Moves φ id (spaced p) (spaced p) :=
  moves_blanks.bind fun _ => h.void

theorem moves_identifier : Moves φ id identifier identifier :=
  (moves_one _).bind fun _ => (moves_run _).bind fun _ => moves_pure rfl

theorem moves_keyword (name : String) : Moves φ id (keyword name) (keyword name) :=
  moves_identifier.check

end Words

section Stops

theorem moves_slashClose : Moves φ id slashClose slashClose :=
  moves_spaced (moves_text _)

theorem moves_nestedStop : Moves φ id nestedStop nestedStop :=
  moves_spaced (moves_one _)

theorem moves_question : Moves φ id question question :=
  moves_spaced ((moves_char _).bind fun _ => (moves_one _).ahead)

theorem moves_colon : Moves φ id colon colon :=
  moves_spaced (moves_char _)

end Stops

section Operands

theorem moves_reference : Moves φ (Expr.moved φ) reference reference :=
  Moves.marked ((moves_char _).bind fun _ => moves_identifier) fun _ _ _ => rfl

theorem moves_stringChar : Moves φ id stringChar stringChar :=
  (moves_one _).either ((moves_char _).bind fun _ => (moves_one _).bind fun _ => moves_pure rfl)

theorem moves_stringLiteral : Moves φ (Literal.moved φ) stringLiteral stringLiteral := by
  have hvalue : Moves φ id (many stringChar) (many stringChar) := by
    simpa using moves_stringChar (φ := φ).many
  exact Moves.marked ((moves_char _).bind fun _ => hvalue.bind fun _ => (moves_char _).bind fun _ =>
    moves_pure rfl) fun _ _ _ => rfl

theorem moves_boolean : Moves φ (Expr.moved φ) boolean boolean := by
  have hword : ∀ (word : String) (value : Bool),
      Moves φ id (keyword word >>= fun _ => pure value) (keyword word >>= fun _ => pure value) :=
    fun word value => (moves_keyword word).bind fun _ => moves_pure rfl
  exact ((hword "true" true).either (hword "false" false)).marked fun _ _ _ => rfl

theorem moves_number : Moves φ (Expr.moved φ) number number := by
  have hsign : Moves φ id (maybe (one (.oneOf ['+', '-']))) (maybe (one (.oneOf ['+', '-']))) := by
    simpa using (moves_one (φ := φ) (.oneOf ['+', '-'])).maybe
  refine Moves.marked (f := id) (Moves.check (Moves.bind hsign fun sign => ?_)) fun _ _ _ => rfl
  exact (moves_run1 _).bind fun _ => moves_pure rfl

theorem moves_bracketed {f : α → α} (opening closing : Char) (h : Moves φ f p p) :
    Moves φ (List.map f) (bracketed opening closing p) (bracketed opening closing p) :=
  (moves_char _).bind fun _ => moves_blanks.bind fun _ =>
    (h.sepBy (moves_padded (moves_char _))).bind fun _ => moves_blanks.bind fun _ =>
      (moves_char _).bind fun _ => moves_pure rfl

theorem moves_mapItem (h : Moves φ (Expr.moved φ) nested nested) :
    Moves φ (MapItem.moved φ) (mapItem nested) (mapItem nested) :=
  Moves.marked (f := Prod.map (Literal.moved φ) (Expr.moved φ)) (moves_stringLiteral.bind fun _ =>
    (moves_padded (moves_char _)).bind fun _ => h.bind fun _ => moves_pure rfl) fun _ _ _ => rfl

theorem moves_mapLiteral (h : Moves φ (Expr.moved φ) nested nested) :
    Moves φ (Expr.moved φ) (mapLiteral nested) (mapLiteral nested) :=
  Moves.marked (moves_bracketed '[' ']' (moves_mapItem h)) fun _ _ items => by
    rw [Expr.moved, Expr.itemsMoved_eq]
    rfl

theorem moves_functionCall (h : Moves φ (Expr.moved φ) nested nested) :
    Moves φ (Expr.moved φ) (functionCall nested) (functionCall nested) :=
  Moves.marked (f := Prod.map id (List.map (Expr.moved φ))) (moves_identifier.bind fun _ =>
    (moves_bracketed '(' ')' h).bind fun _ => moves_pure rfl) fun _ _ ⟨_, args⟩ => by
      rw [Expr.moved, Expr.argsMoved_eq]
      rfl

theorem moves_rawCapture (hstop : Moves φ id stop stop) :
    Moves φ id (rawCapture stop) (rawCapture stop) :=
  hstop.rawUntil.check

theorem moves_operand (hstop : Moves φ id stop stop) (h : Moves φ (Expr.moved φ) nested nested) :
    Moves φ (Expr.moved φ) (operand stop nested) (operand stop nested) := by
  have hraw : Moves φ (Expr.moved φ) (otherExpression stop) (otherExpression stop) :=
    (moves_rawCapture hstop).marked fun _ _ _ => rfl
  have hstring : Moves φ (Expr.moved φ) (marked (fun _ literal => .string literal) stringLiteral)
      (marked (fun _ literal => .string literal) stringLiteral) :=
    moves_stringLiteral.marked fun _ _ _ => rfl
  have hform : ∀ rule ∈ [reference, marked (fun _ literal => .string literal) stringLiteral, boolean,
      mapLiteral nested, number, functionCall nested], Moves φ (Expr.moved φ) rule rule := by
    simpa using ⟨moves_reference, hstring, moves_boolean, moves_mapLiteral h, moves_number,
      moves_functionCall h⟩
  refine Moves.either ((moves_choice hform).bind fun e => ?_) hraw
  exact hstop.ahead.bind fun _ => moves_pure rfl

end Operands

section Whole

theorem moves_branches {again : Rule SoyTree.Expr} (hstop : Moves φ id stop stop)
    (h : Moves φ (Expr.moved φ) nested nested) (hagain : Moves φ (Expr.moved φ) again again) :
    Moves φ (Prod.map (Expr.moved φ) (Expr.moved φ)) (branches stop nested again)
      (branches stop nested again) :=
  moves_question.bind fun _ => moves_blanks.bind fun _ =>
    (moves_operand (moves_colon.either hstop) h).bind fun _ => moves_colon.bind fun _ =>
      moves_blanks.bind fun _ => hagain.bind fun _ => moves_pure rfl

theorem moves_expressionWith (hstop : Moves φ id stop stop)
    (h : Moves φ (Expr.moved φ) nested nested) :
    Moves φ (Expr.moved φ) (expressionWith stop nested) (expressionWith stop nested) := by
  refine moves_recursive fun again hagain => Moves.either ?_ ?_
  · refine Moves.bind (f := Expr.moved φ) (Moves.marked (f := Prod.map (Expr.moved φ)
      (Option.map (Prod.map (Expr.moved φ) (Expr.moved φ)))) ?_ ?_) fun e => ?_
    · exact (moves_operand (moves_question.either hstop) h).bind fun _ =>
        (moves_branches hstop h hagain).maybe.bind fun _ => moves_pure rfl
    · rintro a b ⟨cond, _ | ⟨left, right⟩⟩ <;> rfl
    · exact hstop.ahead.bind fun _ => moves_pure rfl
  · exact (moves_rawCapture hstop).check.marked fun _ _ _ => rfl

theorem moves_nestedExpression : Moves φ (Expr.moved φ) nestedExpression nestedExpression :=
  moves_recursive fun _ h => moves_expressionWith moves_nestedStop h

/-- An inline value reads the same wherever its text and all that follows it stand. -/
theorem moves_expression :
    Moves φ (Expr.moved φ) (expression slashClose) (expression slashClose) :=
  moves_expressionWith moves_slashClose moves_nestedExpression

end Whole

end Grammar

end SoyTree
