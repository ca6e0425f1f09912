import SoyTree.Proofs.Grammar.File
import SoyTree.Proofs.Rule.Progress

/-! # Progress of the grammar

No rule of the grammar goes back, and whatever may stand in a list of unbounded length takes up at
least one character: items and interior tags, parameters and attributes with the blanks in front of
them, comments, templates, and expressions.
-/

namespace SoyTree.Grammar

open Rule Cursor

variable {a : Bool}

section Words

variable {α : Type} {p : Rule α}

theorem leads_blanks : Leads false blanks :=
  (leads_run _).void

theorem leads_blanks1 : Leads true blanks1 :=
  (leads_run1 _).void

theorem leads_padded (hp : Leads true p) : Leads true (padded p) :=
  leads_blanks.bind fun _ => hp.bind fun _ => leads_blanks

theorem leads_spaced (hp : Leads true p) : Leads true (spaced p) :=
  leads_blanks.bind fun _ => hp.void

theorem leads_identifier : Leads true identifier :=
  (leads_one _).bind fun _ => (leads_run _).map

theorem leads_keyword (name : String) : Leads true (keyword name) :=
  leads_identifier.check

theorem leads_openTag (names : List String) : Leads true (openTag names) :=
  (leads_char _).bind fun _ => leads_identifier.check.bind fun _ => (leads_char _).rawThrough.void

theorem leads_closeTag (name : String) : Leads true (closeTag name) :=
  (leads_text _).bind fun _ => (leads_keyword name).bind fun _ =>
    leads_blanks.bind fun _ => leads_char _

theorem leads_templateName : Leads true templateName :=
  (leads_char _).maybe.bind fun _ => (leads_identifier.sepBy1 (leads_char _)).map

end Words

section Expressions

variable {stop : Rule Unit} {nested again : Rule Expr}

theorem leads_question : Leads true question :=
  leads_spaced ((leads_char _).bind fun _ => leads_ahead _)

theorem leads_colon : Leads true colon :=
  leads_spaced (leads_char _)

theorem leads_slashClose : Leads true slashClose :=
  leads_spaced (leads_text _)

theorem leads_reference : Leads true reference :=
  ((leads_char _).bind fun _ => leads_identifier).marked

theorem leads_stringChar : Leads true stringChar :=
  (leads_one _).either ((leads_char _).bind fun _ => (leads_one _).map)

theorem leads_stringLiteral : Leads true stringLiteral :=
  ((leads_char _).bind fun _ => leads_stringChar.many.bind fun _ => (leads_char _).map).marked

theorem leads_boolean : Leads true boolean :=
  ((leads_keyword _).map.either (leads_keyword _).map).marked

theorem leads_number : Leads true number :=
  ((leads_one _).maybe.bind fun _ => (leads_run1 _).map).check.marked

theorem leads_bracketed {α : Type} {p : Rule α} (hp : Leads a p) (opening closing : Char) :
    Leads true (bracketed opening closing p) :=
  (leads_char _).bind fun _ => leads_blanks.bind fun _ =>
    (hp.sepBy (leads_padded (leads_char _))).bind fun _ =>
      leads_blanks.bind fun _ => (leads_char _).map

theorem leads_mapItem (hnested : Leads a nested) : Leads true (mapItem nested) :=
  (leads_stringLiteral.bind fun _ => (leads_padded (leads_char _)).bind fun _ =>
    hnested.map).marked

theorem leads_form (hnested : Leads a nested) : ∀ p ∈ forms nested, Leads true p := by
  intro p hp
  cases form_of_mem hp with
  | reference => exact leads_reference
  | string => exact leads_stringLiteral.marked
  | boolean => exact leads_boolean
  | map => exact (leads_bracketed (leads_mapItem hnested) _ _).marked
  | number => exact leads_number
  | call => exact (leads_identifier.bind fun _ => (leads_bracketed hnested _ _).map).marked

/-- Raw text is never empty, as empty text is blank. -/
theorem leads_rawCapture : Leads true (rawCapture stop) := by
  intro s text t hy
  obtain ⟨cs, hcs, hok⟩ := yields_check.1 hy
  refine ⟨cs, ?_, (yields_rawUntil.1 hcs).1⟩
  rintro rfl
  simp [Text.isAllBlank] at hok

theorem leads_operand (hnested : Leads a nested) : Leads true (operand stop nested) :=
  ((Leads.choice (leads_form hnested)).bind fun _ => (leads_ahead stop).map).either
    leads_rawCapture.marked

theorem leads_branches (hnested : Leads a nested) (hagain : Leads false again) :
    Leads true (branches stop nested again) :=
  leads_question.bind fun _ => leads_blanks.bind fun _ => (leads_operand hnested).bind fun _ =>
    leads_colon.bind fun _ => leads_blanks.bind fun _ => hagain.map

theorem leads_expressionStep (hnested : Leads a nested) (hagain : Leads false again) :
    Leads true (expressionStep stop nested again) :=
  (((leads_operand hnested).bind fun _ => (leads_branches hnested hagain).maybe.map).marked.bind
    fun _ => (leads_ahead stop).map).either leads_rawCapture.check.marked

theorem leads_expressionWith (hnested : Leads a nested) : Leads true (expressionWith stop nested) :=
  Leads.recursive fun _ => leads_expressionStep hnested

theorem leads_nestedExpression : Leads true nestedExpression :=
  Leads.recursive fun _ => leads_expressionWith

theorem leads_expression (stop : Rule Unit) : Leads true (expression stop) :=
  leads_expressionWith leads_nestedExpression

end Expressions

section Bodies

variable {home : List String} {item : Rule Node}

theorem leads_bodyPart (interior : List String) (hitem : Leads a item) :
    Leads a (bodyPart interior item) :=
  (leads_openTag _).map.either hitem.map

theorem leads_bodyContent (name : String) (interior : List String) (hitem : Leads a item) :
    Leads true (bodyContent name interior item) :=
  (leads_bodyPart interior hitem).many.bind fun _ => (leads_closeTag name).map

theorem leads_attributePair : Leads true attributePair :=
  ((leads_run1 _).bind fun _ => (leads_char _).bind fun _ => (leads_char _).bind fun _ =>
    (leads_char _).rawThrough.map).marked

theorem leads_attribute : Leads true (blanks1 >>= fun _ => attributePair) :=
  leads_blanks1.bind fun _ => leads_attributePair

theorem leads_bindingValue (word : String) (hitem : Leads a item) :
    Leads true (bindingValue word item) :=
  (leads_blanks.bind fun _ => (leads_char _).bind fun _ => leads_blanks.bind fun _ =>
    (leads_expression _).bind fun _ => leads_slashClose.map).either
  (leads_attribute.many.bind fun _ => leads_blanks.bind fun _ => (leads_char _).bind fun _ =>
    (leads_bodyContent word [] hitem).map)

theorem leads_param (hitem : Leads a item) : Leads true (param item) :=
  ((leads_char _).bind fun _ => (leads_keyword _).bind fun _ => leads_blanks1.bind fun _ =>
    leads_identifier.bind fun _ => (leads_bindingValue _ hitem).map).marked.closed

theorem leads_letBinding (hitem : Leads a item) : Leads true (letBinding item) :=
  ((leads_char _).bind fun _ => (leads_keyword _).bind fun _ => leads_blanks1.bind fun _ =>
    (leads_char _).bind fun _ => leads_identifier.bind fun _ =>
      (leads_bindingValue _ hitem).map).marked.closed

theorem leads_spacedParam (hitem : Leads a item) : Leads true (blanks >>= fun _ => param item) :=
  leads_blanks.bind fun _ => leads_param hitem

theorem leads_callParams (word : String) (hitem : Leads a item) :
    Leads true (callParams word item) :=
  (leads_char _).bind fun _ => (leads_spacedParam hitem).many.bind fun _ =>
    leads_blanks.bind fun _ => (leads_closeTag word).map

theorem leads_call (delegate : Bool) (hitem : Leads a item) : Leads true (call home delegate item) :=
  ((leads_char _).bind fun _ => (leads_keyword _).bind fun _ => leads_blanks1.bind fun _ =>
    leads_templateName.bind fun _ => (leads_ahead _).upTo.bind fun _ =>
      ((leads_text _).map.either (leads_callParams _ hitem)).map).marked.closed

theorem leads_controlBlock (block : Control) (hitem : Leads a item) :
    Leads true (controlBlock block item) :=
  ((leads_openTag _).bind fun _ => leads_bodyContent _ _ hitem).marked.closed

theorem leads_literal : Leads true literal :=
  ((leads_char _).bind fun _ => (leads_keyword _).bind fun _ => leads_blanks.bind fun _ =>
    (leads_char _).bind fun _ => (leads_rawUntil _).marked.bind fun _ =>
      (leads_closeTag _).map).marked.closed

theorem leads_textRun : Leads true textRun :=
  (leads_run1 _).marked

theorem leads_interpolation : Leads true interpolation :=
  ((leads_char _).bind fun _ => (leads_char _).rawThrough).check.marked

/-- One part of a body, its inner bodies read by `item`. -/
def bodyStep (home : List String) (item : Rule Node) : Rule Node :=
  choice [textRun, call home false item, call home true item, letBinding item,
    controlBlock .cond item, controlBlock .foreach item, controlBlock .loop item,
    controlBlock .message item, controlBlock .switch item, controlBlock .plural item,
    controlBlock .select item, literal, interpolation]

theorem bodyItem_eq_recursive (home : List String) : bodyItem home = recursive (bodyStep home) := rfl

theorem leads_bodyStep (home : List String) (hitem : Leads a item) :
    Leads true (bodyStep home item) := by
  refine Leads.choice fun p hp => ?_
  have hp : p ∈ textRun :: ((commandRules home item).map Prod.snd ++ [interpolation]) := hp
  rcases bodyRule_cases hp with rfl | ⟨word, hrule⟩ | rfl
  · exact leads_textRun
  · cases hrule with
    | call delegate => exact leads_call delegate hitem
    | binding => exact leads_letBinding hitem
    | control block parsed => exact leads_controlBlock block hitem
    | literal => exact leads_literal
  · exact leads_interpolation

theorem leads_bodyItem (home : List String) : Leads true (bodyItem home) :=
  Leads.recursive fun _ => leads_bodyStep home

end Bodies

section Templates

variable {home : List String} {item : Rule Node}

theorem leads_paramDecl : Leads true paramDecl :=
  ((leads_text _).bind fun _ => (leads_char _).maybe.bind fun _ => leads_blanks1.bind fun _ =>
    leads_identifier.bind fun _ => leads_blanks.bind fun _ => (leads_char _).bind fun _ =>
      (leads_char _).rawThrough.map).marked

theorem leads_docMargin : Leads false docMargin :=
  (leads_run _).bind fun _ => ((leads_char _).bind fun _ => leads_ahead _).maybe.void

theorem leads_docParam : Leads true docParam :=
  ((leads_text _).bind fun _ => (leads_char _).maybe.bind fun _ => (leads_run1 _).bind fun _ =>
    leads_identifier.map).marked

/-- A line of a doc block may be empty. -/
theorem leads_docLine : Leads false docLine := by
  refine leads_docMargin.bind fun _ => Leads.choice ?_
  simp only [List.mem_cons, List.not_mem_nil, or_false]
  rintro p (rfl | rfl)
  · exact (leads_run _).bind fun _ => (leads_docParam.bind fun _ => (leads_rawUntil _).map).forward
  · exact (leads_rawUntil _).map

theorem leads_docBlock : Leads true docBlock :=
  ((leads_text _).bind fun _ => (leads_docLine.sepBy (leads_char _)).bind fun _ =>
    (leads_text _).map).marked

theorem leads_headerParam : Leads true (blanks >>= fun _ => paramDecl) :=
  leads_blanks.bind fun _ => leads_paramDecl

theorem leads_declaration (word : String) (hitem : Leads a item) :
    Leads true (declaration word item) :=
  ((leads_char _).bind fun _ => (leads_keyword _).bind fun _ => leads_blanks1.bind fun _ =>
    leads_templateName.bind fun _ => leads_attribute.many.bind fun _ =>
      leads_blanks.bind fun _ => (leads_char _).bind fun _ => leads_headerParam.many.bind fun _ =>
        (leads_bodyContent word [] hitem).map).closed

theorem leads_documented (word : String) (hitem : Leads a item) :
    Leads true (documented word item) :=
  (leads_docBlock.bind fun _ => leads_blanks.map).maybe.bind fun _ =>
    (leads_declaration word hitem).map

theorem leads_templateItem (hitem : Leads a item) : Leads true (templateItem home item) := by
  apply Leads.choice
  simp only [List.mem_cons, List.not_mem_nil, or_false]
  rintro p (rfl | rfl)
  · exact (leads_documented _ hitem).marked
  · exact (leads_documented _ hitem).marked

end Templates

section Trivia

theorem leads_blockComment : Leads true blockComment :=
  (leads_text _).either ((leads_text _).bind fun _ => (leads_one _).bind fun _ =>
    (leads_text _).upTo.void)

theorem leads_anyBlockComment : Leads true anyBlockComment :=
  (leads_text _).bind fun _ => (leads_text _).upTo.void

theorem leads_triviaPart {comment : Rule Unit} (h : Leads true comment) :
    Leads true (triviaPart comment) := by
  apply Leads.choice
  simp only [List.mem_cons, List.not_mem_nil, or_false]
  rintro p (rfl | rfl | rfl)
  · exact (leads_one _).void
  · exact (leads_text _).bind fun _ => (leads_run _).void
  · exact h

theorem leads_trivia : Leads false trivia :=
  (leads_triviaPart leads_blockComment).many.void

end Trivia

end SoyTree.Grammar
