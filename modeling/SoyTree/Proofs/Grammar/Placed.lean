import SoyTree.Grammar.File
import SoyTree.Proofs.Rule.Placed

/-! # What the grammar reports is placed

Every rule of the grammar is built from rules whose failures point to true places, and every block
that may be blamed starts with its opening brace.
-/

namespace SoyTree.Grammar

open Rule

variable {α : Type} {home : List String} {item : Rule Node} {word : String}

section Words

theorem placed_blanks : Placed blanks :=
  (placed_run _).void

theorem placed_blanks1 : Placed blanks1 :=
  (placed_run1 _).void

theorem placed_padded {p : Rule α} (hp : Placed p) : Placed (padded p) :=
  placed_blanks.bind fun _ => hp.bind fun _ => placed_blanks

theorem placed_spaced {p : Rule α} (hp : Placed p) : Placed (spaced p) :=
  placed_blanks.bind fun _ => hp.void

theorem placed_identifier : Placed identifier :=
  (placed_one _).bind fun _ => (placed_run _).bind fun _ => placed_pure _

theorem placed_keyword (name : String) : Placed (keyword name) :=
  placed_identifier.check

theorem placed_openTag (names : List String) : Placed (openTag names) :=
  (placed_char _).bind fun _ => placed_identifier.check.bind fun _ =>
    (placed_char _).rawThrough.void

theorem placed_closeTag (name : String) : Placed (closeTag name) :=
  (placed_text _).bind fun _ => (placed_keyword name).bind fun _ => placed_blanks.bind fun _ =>
    placed_char _

theorem placed_templateName : Placed templateName :=
  (placed_char _).maybe.bind fun _ => (placed_identifier.sepBy1 (placed_char _)).bind fun _ =>
    placed_pure _

end Words

section Expressions

variable {stop : Rule Unit} {nested again : Rule Expr}

theorem placed_slashClose : Placed slashClose :=
  placed_spaced (placed_text _)

theorem placed_nestedStop : Placed nestedStop :=
  placed_spaced (placed_one _)

theorem placed_question : Placed question :=
  placed_spaced ((placed_char _).bind fun _ => (placed_one _).ahead)

theorem placed_colon : Placed colon :=
  placed_spaced (placed_char _)

theorem placed_reference : Placed reference :=
  ((placed_char _).bind fun _ => placed_identifier).marked

theorem placed_stringChar : Placed stringChar :=
  (placed_one _).either ((placed_char _).bind fun _ => (placed_one _).bind fun _ => placed_pure _)

theorem placed_stringLiteral : Placed stringLiteral :=
  ((placed_char _).bind fun _ => placed_stringChar.many.bind fun _ =>
    (placed_char _).bind fun _ => placed_pure _).marked

theorem placed_boolean : Placed boolean :=
  (((placed_keyword _).bind fun _ => placed_pure _).either
    ((placed_keyword _).bind fun _ => placed_pure _)).marked

theorem placed_number : Placed number :=
  ((placed_one _).maybe.bind fun _ => (placed_run1 _).bind fun _ => placed_pure _).check.marked

theorem placed_bracketed {p : Rule α} (hp : Placed p) (opening closing : Char) :
    Placed (bracketed opening closing p) :=
  (placed_char _).bind fun _ => placed_blanks.bind fun _ =>
    (hp.sepBy (placed_padded (placed_char _))).bind fun _ => placed_blanks.bind fun _ =>
      (placed_char _).bind fun _ => placed_pure _

theorem placed_mapItem (hnested : Placed nested) : Placed (mapItem nested) :=
  (placed_stringLiteral.bind fun _ => (placed_padded (placed_char _)).bind fun _ =>
    hnested.bind fun _ => placed_pure _).marked

theorem placed_mapLiteral (hnested : Placed nested) : Placed (mapLiteral nested) :=
  (placed_bracketed (placed_mapItem hnested) _ _).marked

theorem placed_functionCall (hnested : Placed nested) : Placed (functionCall nested) :=
  (placed_identifier.bind fun _ => (placed_bracketed hnested _ _).bind fun _ =>
    placed_pure _).marked

theorem placed_rawCapture (hstop : Placed stop) : Placed (rawCapture stop) :=
  hstop.rawUntil.check

theorem placed_operand (hstop : Placed stop) (hnested : Placed nested) :
    Placed (operand stop nested) := by
  have hforms : ∀ p ∈ [reference, marked (fun _ literal => .string literal) stringLiteral,
      boolean, mapLiteral nested, number, functionCall nested], Placed p := by
    simp only [List.mem_cons, List.not_mem_nil, or_false]
    rintro p (rfl | rfl | rfl | rfl | rfl | rfl)
    · exact placed_reference
    · exact placed_stringLiteral.marked
    · exact placed_boolean
    · exact placed_mapLiteral hnested
    · exact placed_number
    · exact placed_functionCall hnested
  exact ((Placed.choice hforms).bind fun _ => hstop.ahead.bind fun _ => placed_pure _).either
    (placed_rawCapture hstop).marked

theorem placed_branches (hstop : Placed stop) (hnested : Placed nested) (hagain : Placed again) :
    Placed (branches stop nested again) :=
  placed_question.bind fun _ => placed_blanks.bind fun _ =>
    (placed_operand (placed_colon.either hstop) hnested).bind fun _ =>
      placed_colon.bind fun _ => placed_blanks.bind fun _ => hagain.bind fun _ => placed_pure _

theorem placed_expressionWith (hstop : Placed stop) (hnested : Placed nested) :
    Placed (expressionWith stop nested) := by
  apply Placed.recursive
  intro again hagain
  apply Placed.either
  · apply Placed.bind
    · exact ((placed_operand (placed_question.either hstop) hnested).bind fun _ =>
        (placed_branches hstop hnested hagain).maybe.bind fun _ => placed_pure _).marked
    · exact fun _ => hstop.ahead.bind fun _ => placed_pure _
  · exact (placed_rawCapture hstop).check.marked

theorem placed_nestedExpression : Placed nestedExpression :=
  Placed.recursive fun _ => placed_expressionWith placed_nestedStop

theorem placed_expression (hstop : Placed stop) : Placed (expression stop) :=
  placed_expressionWith hstop placed_nestedExpression

end Expressions

section Tags

theorem placed_textRun : Placed textRun :=
  (placed_run1 _).marked

theorem placed_interpolation : Placed interpolation :=
  ((placed_char _).bind fun _ => (placed_char _).rawThrough).check.marked

theorem placed_attributes : Placed attributes :=
  (placed_blanks1.bind fun _ => ((placed_run1 _).bind fun _ => (placed_char _).bind fun _ =>
    (placed_char _).bind fun _ => (placed_char _).rawThrough.bind fun _ =>
      placed_pure _).marked).many

theorem placed_paramDecl : Placed paramDecl :=
  ((placed_text _).bind fun _ => (placed_char _).maybe.bind fun _ => placed_blanks1.bind fun _ =>
    placed_identifier.bind fun _ => placed_blanks.bind fun _ => (placed_char _).bind fun _ =>
      (placed_char _).rawThrough.bind fun _ => placed_pure _).marked

theorem placed_namespaceTag : Placed namespaceTag :=
  (placed_char _).bind fun _ => (placed_keyword _).bind fun _ => placed_blanks1.bind fun _ =>
    (placed_run1 _).check.bind fun _ =>
      (placed_blanks1.bind fun _ => placed_run _).maybe.bind fun _ =>
        (placed_char _).bind fun _ => placed_pure _

end Tags

section Comments

theorem placed_blankChar : Placed blankChar :=
  (placed_one _).void

theorem placed_lineComment : Placed lineComment :=
  (placed_text _).bind fun _ => (placed_run _).void

theorem placed_blockComment : Placed blockComment :=
  (placed_text _).either ((placed_text _).bind fun _ => (placed_one _).bind fun _ =>
    (placed_text _).upTo.void)

theorem placed_anyBlockComment : Placed anyBlockComment :=
  (placed_text _).bind fun _ => (placed_text _).upTo.void

theorem placed_trivia : Placed trivia := by
  have helements : ∀ p ∈ [blankChar, lineComment, blockComment], Placed p := by
    simp only [List.mem_cons, List.not_mem_nil, or_false]
    rintro p (rfl | rfl | rfl)
    · exact placed_blankChar
    · exact placed_lineComment
    · exact placed_blockComment
  exact (Placed.choice helements).many.void

theorem placed_fileTrivia : Placed fileTrivia := by
  have helements : ∀ p ∈ [blankChar, lineComment, anyBlockComment], Placed p := by
    simp only [List.mem_cons, List.not_mem_nil, or_false]
    rintro p (rfl | rfl | rfl)
    · exact placed_blankChar
    · exact placed_lineComment
    · exact placed_anyBlockComment
  exact (Placed.choice helements).many.void

theorem placed_docLineEnd : Placed docLineEnd :=
  (placed_char _).either (placed_text _)

theorem placed_docMargin : Placed docMargin :=
  (placed_run _).bind fun _ => ((placed_char _).bind fun _ => (placed_one _).ahead).maybe.void

theorem placed_docParam : Placed docParam :=
  ((placed_text _).bind fun _ => (placed_char _).maybe.bind fun _ =>
    (placed_run1 _).bind fun _ => placed_identifier.bind fun _ => placed_pure _).marked

theorem placed_docLine : Placed docLine := by
  apply placed_docMargin.bind
  intro _
  apply Placed.choice
  simp only [List.mem_cons, List.not_mem_nil, or_false]
  rintro p (rfl | rfl)
  · exact (placed_run _).bind fun _ => placed_docParam.bind fun _ =>
      placed_docLineEnd.rawUntil.bind fun _ => placed_pure _
  · exact placed_docLineEnd.rawUntil.bind fun _ => placed_pure _

theorem placed_docBlock : Placed docBlock :=
  ((placed_text _).bind fun _ => (placed_docLine.sepBy (placed_char _)).bind fun _ =>
    (placed_text _).bind fun _ => placed_pure _).marked

end Comments

section Blocks

theorem placed_bodyContent (name : String) (interior : List String) (hitem : Placed item) :
    Placed (bodyContent name interior item) := by
  apply Placed.bind
  · exact (((placed_openTag _).bind fun _ => placed_pure _).either
      (hitem.bind fun _ => placed_pure _)).many
  · exact fun _ => (placed_closeTag name).bind fun _ => placed_pure _

theorem placed_bindingValue (word : String) (hitem : Placed item) :
    Placed (bindingValue word item) := by
  apply Placed.either
  · exact placed_blanks.bind fun _ => (placed_char _).bind fun _ => placed_blanks.bind fun _ =>
      (placed_expression placed_slashClose).bind fun _ =>
        placed_slashClose.bind fun _ => placed_pure _
  · exact placed_attributes.bind fun _ => placed_blanks.bind fun _ => (placed_char _).bind fun _ =>
      (placed_bodyContent word [] hitem).bind fun _ => placed_pure _

theorem placed_param (hitem : Placed item) : Placed (param item) := by
  apply Placed.closed
  · exact ((placed_char _).bind fun _ => (placed_keyword _).bind fun _ =>
      placed_blanks1.bind fun _ => placed_identifier.bind fun _ =>
        (placed_bindingValue _ hitem).bind fun _ => placed_pure _).marked
  · exact braceFirst_char.bind.marked

theorem placed_letBinding (hitem : Placed item) : Placed (letBinding item) := by
  apply Placed.closed
  · exact ((placed_char _).bind fun _ => (placed_keyword _).bind fun _ =>
      placed_blanks1.bind fun _ => (placed_char _).bind fun _ => placed_identifier.bind fun _ =>
        (placed_bindingValue _ hitem).bind fun _ => placed_pure _).marked
  · exact braceFirst_char.bind.marked

theorem placed_callParams (word : String) (hitem : Placed item) :
    Placed (callParams word item) :=
  (placed_char _).bind fun _ => (placed_blanks.bind fun _ => placed_param hitem).many.bind fun _ =>
    placed_blanks.bind fun _ => (placed_closeTag word).bind fun _ => placed_pure _

theorem placed_call (delegate : Bool) (hitem : Placed item) :
    Placed (call home delegate item) := by
  apply Placed.closed
  · apply Placed.marked
    exact (placed_char _).bind fun _ => (placed_keyword _).bind fun _ =>
      placed_blanks1.bind fun _ => placed_templateName.bind fun _ =>
        ((placed_text _).either (placed_char _)).ahead.upTo.bind fun _ =>
          (((placed_text _).bind fun _ => placed_pure _).either
            (placed_callParams _ hitem)).bind fun _ => placed_pure _
  · exact braceFirst_char.bind.marked

theorem placed_controlBlock (block : Control) (hitem : Placed item) :
    Placed (controlBlock block item) := by
  apply Placed.closed
  · exact ((placed_openTag _).bind fun _ => placed_bodyContent _ _ hitem).marked
  · exact (BraceFirst.bind braceFirst_char.bind).marked

theorem placed_literal : Placed literal := by
  apply Placed.closed
  · exact ((placed_char _).bind fun _ => (placed_keyword _).bind fun _ =>
      placed_blanks.bind fun _ => (placed_char _).bind fun _ =>
        (placed_closeTag _).rawUntil.marked.bind fun _ =>
          (placed_closeTag _).bind fun _ => placed_pure _).marked
  · exact braceFirst_char.bind.marked

theorem placed_bodyItem (home : List String) : Placed (bodyItem home) := by
  apply Placed.recursive
  intro item hitem
  apply Placed.choice
  simp only [List.mem_cons, List.not_mem_nil, or_false]
  rintro p (rfl | rfl | rfl | rfl | rfl | rfl | rfl | rfl | rfl | rfl | rfl | rfl | rfl)
  · exact placed_textRun
  · exact placed_call false hitem
  · exact placed_call true hitem
  · exact placed_letBinding hitem
  · exact placed_controlBlock .cond hitem
  · exact placed_controlBlock .foreach hitem
  · exact placed_controlBlock .loop hitem
  · exact placed_controlBlock .message hitem
  · exact placed_controlBlock .switch hitem
  · exact placed_controlBlock .plural hitem
  · exact placed_controlBlock .select hitem
  · exact placed_literal
  · exact placed_interpolation

end Blocks

section Files

theorem placed_declaration (word : String) (hitem : Placed item) :
    Placed (declaration word item) := by
  apply Placed.closed
  · exact (placed_char _).bind fun _ => (placed_keyword _).bind fun _ =>
      placed_blanks1.bind fun _ => placed_templateName.bind fun _ =>
        placed_attributes.bind fun _ => placed_blanks.bind fun _ => (placed_char _).bind fun _ =>
          (placed_blanks.bind fun _ => placed_paramDecl).many.bind fun _ =>
            (placed_bodyContent word [] hitem).bind fun _ => placed_pure _
  · exact braceFirst_char.bind

theorem placed_documented (word : String) (hitem : Placed item) :
    Placed (documented word item) :=
  (placed_docBlock.bind fun _ => placed_blanks.bind fun _ => placed_pure _).maybe.bind fun _ =>
    (placed_declaration word hitem).bind fun _ => placed_pure _

theorem placed_templateItem (hitem : Placed item) : Placed (templateItem home item) := by
  apply Placed.choice
  simp only [List.mem_cons, List.not_mem_nil, or_false]
  rintro p (rfl | rfl)
  · exact (placed_documented _ hitem).marked
  · exact (placed_documented _ hitem).marked

theorem placed_fileHeader : Placed fileHeader :=
  placed_fileTrivia.bind fun _ => placed_namespaceTag

theorem placed_file (home : List String) : Placed (file home) :=
  placed_fileTrivia.bind fun _ =>
    (placed_namespaceTag.bind fun _ => (placed_trivia.bind fun _ =>
      placed_templateItem (placed_bodyItem home)).many1.bind fun _ => placed_pure _).marked.bind
        fun _ => placed_trivia.bind fun _ => placed_endOfInput.bind fun _ => placed_pure _

end Files

end SoyTree.Grammar
