import SoyTree.Proofs.Canonical.ReadBack
import SoyTree.Proofs.Grammar.Progress
import SoyTree.Proofs.Rule.Reentry

/-! # Re-entry of the grammar

Bodies stand in bodies, and expressions in expressions. Both rules are entered from within themselves
strictly behind the place where they were entered before, so their descriptions need no guard, and
the rounds of every repetition end one behind the other.
-/

namespace SoyTree.Grammar

open Rule Cursor

section Expressions

variable {stop : Rule Unit} {nested again : Rule Expr}

theorem enters_bracketed {α β : Type} {a : Bool} {step : Rule α → Rule β} (h : Enters a step)
    (hf : ∀ p, Forward p → Forward (step p)) (opening closing : Char) :
    Enters true fun p => bracketed opening closing (step p) :=
  (leads_char _).enters_bind fun _ => leads_blanks.enters_bind fun _ =>
    (h.sepBy hf (leads_padded (leads_char _)).forward).bind_const

theorem enters_mapItem : Enters true mapItem :=
  (leads_stringLiteral.enters_bind fun _ => (leads_padded (leads_char _)).enters_bind fun _ =>
    enters_self.bind_const).marked

theorem enters_mapLiteral : Enters true mapLiteral :=
  (enters_bracketed enters_mapItem (fun _ hp => (leads_mapItem hp).forward) _ _).marked

theorem enters_functionCall : Enters true functionCall :=
  (leads_identifier.enters_bind fun _ =>
    (enters_bracketed enters_self (fun _ hp => hp) _ _).bind_const).marked

theorem enters_forms : Enters true fun nested => choice (forms nested) := by
  have hforms : ∀ step ∈ [fun _ => reference,
      fun _ => marked (fun _ literal => .string literal) stringLiteral, fun _ => boolean, mapLiteral,
      fun _ => number, functionCall], Enters true step := by
    simp only [List.mem_cons, List.not_mem_nil, or_false]
    rintro step (rfl | rfl | rfl | rfl | rfl | rfl)
    · exact enters_const _
    · exact enters_const _
    · exact enters_const _
    · exact enters_mapLiteral
    · exact enters_const _
    · exact enters_functionCall
  exact Enters.choice hforms

theorem enters_operand : Enters true (operand stop) :=
  enters_forms.bind_const.either (enters_const _)

theorem enters_branches : Enters true fun nested => branches stop nested again :=
  leads_question.enters_bind fun _ => leads_blanks.enters_bind fun _ => enters_operand.bind_const

theorem branches_enters_again (hnested : Forward nested) : Enters true (branches stop nested) :=
  leads_question.enters_bind fun _ => leads_blanks.enters_bind fun _ =>
    (leads_operand hnested).enters_bind fun _ => leads_colon.enters_bind fun _ =>
      leads_blanks.enters_bind fun _ => enters_self.bind_const

theorem enters_expressionStep : Enters true fun nested => expressionStep stop nested again :=
  (enters_operand.bind (fun _ hp => leads_operand hp) fun _ =>
    enters_branches.maybe.bind_const).marked.bind_const.either (enters_const _)

theorem expressionStep_enters_again (hnested : Forward nested) :
    Enters true (expressionStep stop nested) :=
  ((leads_operand hnested).enters_bind fun _ =>
    (branches_enters_again hnested).maybe.bind_const).marked.bind_const.either (enters_const _)

theorem enters_expressionWith : Enters true (expressionWith stop) :=
  Enters.recursive (fun _ => enters_expressionStep)
    (fun _ hp => (expressionStep_enters_again hp).weaken (Bool.false_le true))
    fun _ hp _ hr => (leads_expressionStep hp hr).forward

end Expressions

section Bodies

theorem enters_bodyPart (interior : List String) : Enters false (bodyPart interior) :=
  (enters_const _).either enters_self.bind_const

theorem enters_bodyContent (name : String) (interior : List String) :
    Enters false (bodyContent name interior) :=
  ((enters_bodyPart interior).many fun _ hp => leads_bodyPart interior hp).bind_const

theorem enters_bindingValue (word : String) : Enters true (bindingValue word) :=
  (enters_const _).either (leads_attribute.many.enters_bind fun _ =>
    leads_blanks.enters_bind fun _ => (leads_char _).enters_bind fun _ =>
      (enters_bodyContent word []).bind_const)

theorem enters_param : Enters true param :=
  ((leads_char _).enters_bind fun _ => (leads_keyword _).enters_bind fun _ =>
    leads_blanks1.enters_bind fun _ => leads_identifier.enters_bind fun _ =>
      (enters_bindingValue _).bind_const).marked.closed

theorem enters_letBinding : Enters true letBinding :=
  ((leads_char _).enters_bind fun _ => (leads_keyword _).enters_bind fun _ =>
    leads_blanks1.enters_bind fun _ => (leads_char _).enters_bind fun _ =>
      leads_identifier.enters_bind fun _ => (enters_bindingValue _).bind_const).marked.closed

theorem enters_callParams (word : String) : Enters true (callParams word) := by
  have hparam : Enters true fun item => blanks >>= fun _ => param item :=
    leads_blanks.enters_bind fun _ => enters_param
  exact (leads_char _).enters_bind fun _ =>
    (hparam.many fun _ hp => (leads_spacedParam hp).forward).bind_const

theorem enters_call (home : List String) (delegate : Bool) : Enters true (call home delegate) :=
  ((leads_char _).enters_bind fun _ => (leads_keyword _).enters_bind fun _ =>
    leads_blanks1.enters_bind fun _ => leads_templateName.enters_bind fun _ =>
      (leads_ahead _).upTo.enters_bind fun _ =>
        ((enters_const _).either (enters_callParams _)).bind_const).marked.closed

theorem enters_controlBlock (block : Control) : Enters true (controlBlock block) :=
  ((leads_openTag _).enters_bind fun _ => enters_bodyContent _ _).marked.closed

theorem enters_bodyStep (home : List String) : Enters true (bodyStep home) := by
  have hparts : ∀ step ∈ [fun _ => textRun, call home false, call home true, letBinding,
      controlBlock .cond, controlBlock .foreach, controlBlock .loop, controlBlock .message,
      controlBlock .switch, controlBlock .plural, controlBlock .select, fun _ => literal,
      fun _ => interpolation], Enters true step := by
    simp only [List.mem_cons, List.not_mem_nil, or_false]
    rintro step (rfl | rfl | rfl | rfl | rfl | rfl | rfl | rfl | rfl | rfl | rfl | rfl | rfl)
    · exact enters_const _
    · exact enters_call home false
    · exact enters_call home true
    · exact enters_letBinding
    · exact enters_controlBlock .cond
    · exact enters_controlBlock .foreach
    · exact enters_controlBlock .loop
    · exact enters_controlBlock .message
    · exact enters_controlBlock .switch
    · exact enters_controlBlock .plural
    · exact enters_controlBlock .select
    · exact enters_const _
    · exact enters_const _
  exact Enters.choice hparts

end Bodies

section Rounds

variable {α : Type} {p : Rule α} {home : List String}

/-- What the repetitions of the grammar repeat: the elements of a list, with what separates them. -/
inductive Round (home : List String) : {α : Type} → Rule α → Prop
  | character (cls : CharClass) : Round home (one cls)
  | nameSegment : Round home (char '.' >>= fun _ => identifier)
  | stringChar : Round home stringChar
  | mapItem : Round home (padded (char ',') >>= fun _ => mapItem nestedExpression)
  | argument : Round home (padded (char ',') >>= fun _ => nestedExpression)
  | tagAttribute : Round home (blanks1 >>= fun _ => attributePair)
  | bodyPart (interior : List String) : Round home (bodyPart interior (bodyItem home))
  | param : Round home (blanks >>= fun _ => param (bodyItem home))
  | docLine : Round home (char '\n' >>= fun _ => docLine)
  | headerParam : Round home (blanks >>= fun _ => paramDecl)
  | template : Round home (trivia >>= fun _ => templateItem home (bodyItem home))
  | trivia : Round home (triviaPart blockComment)
  | fileTrivia : Round home (triviaPart anyBlockComment)

theorem Round.advances (h : Round home p) : Advances p := by
  have hitem : Leads true (bodyItem home) := leads_bodyItem home
  have hcomma : Leads true (padded (char ',')) := leads_padded (leads_char _)
  cases h with
  | character cls => exact leads_one cls
  | nameSegment => exact (leads_char _).bind fun _ => leads_identifier
  | stringChar => exact leads_stringChar
  | mapItem => exact hcomma.bind fun _ => leads_mapItem leads_nestedExpression
  | argument => exact hcomma.bind fun _ => leads_nestedExpression
  | tagAttribute => exact leads_attribute
  | bodyPart interior => exact leads_bodyPart interior hitem
  | param => exact leads_spacedParam hitem
  | docLine => exact (leads_char _).bind fun _ => leads_docLine
  | headerParam => exact leads_headerParam
  | template => exact leads_trivia.bind fun _ => leads_templateItem hitem
  | trivia => exact leads_triviaPart leads_blockComment
  | fileTrivia => exact leads_triviaPart leads_anyBlockComment

end Rounds

theorem bodyItem_progresses (home : List String) :
    Progresses (bodyItem home) (bodyStep home) := by
  rw [bodyItem_eq_recursive]
  exact .recursive (enters_bodyStep home) fun _ => leads_bodyStep home

theorem nestedExpression_progresses : Progresses nestedExpression (expressionWith nestedStop) :=
  .recursive enters_expressionWith fun _ => leads_expressionWith

theorem expression_progresses (stop : Rule Unit) :
    Progresses (expression stop) (expressionStep stop nestedExpression) := by
  have hnested : Forward nestedExpression := nestedExpression_progresses.advances.forward
  rw [expression, expressionWith_eq_recursive]
  exact .recursive (expressionStep_enters_again hnested) fun _ => leads_expressionStep hnested

/-- The grammar makes progress. Bodies and expressions end strictly behind their start and are
entered from within themselves strictly behind it, so they are the only rules that are as described.
The same goes for every repetition, and none of its rounds ends where the round before it ended. -/
theorem grammar_progresses (home : List String) :
    Progresses (bodyItem home) (bodyStep home) ∧
    (∀ stop, Progresses (expression stop) (expressionStep stop nestedExpression)) ∧
    Progresses nestedExpression (expressionWith nestedStop) ∧
    (∀ stop again, EntersLater fun nested => expressionStep stop nested again) ∧
    (∀ interior, Advances (openTag interior)) ∧
    Advances (templateItem home (bodyItem home)) ∧
    ∀ (α : Type) (p : Rule α), Round home p →
      Advances p ∧ (∀ s, ¬ Stalls p none s) ∧ ∀ q, q = manyStep p q ↔ q = many p := by
  refine ⟨bodyItem_progresses home, expression_progresses, nestedExpression_progresses,
    fun _ _ => enters_expressionStep, leads_openTag, leads_templateItem (leads_bodyItem home), ?_⟩
  intro α p hp
  exact ⟨hp.advances, hp.advances.not_stalls, hp.advances.many_unique⟩

open Concrete in
/-- A call whose parameter has a body of its own. -/
def nestedSample : Item :=
  .blockCall ⟨false, oneSpace, ⟨true, ⟨['r', 'o', 'w'], by decide⟩, []⟩, noRest⟩ nofun
    (.cons noBlanks oneSpace ⟨['c', 'e', 'l', 'l'], by decide⟩
      (.block [] noBlanks (.item (.plain ⟨['a'], by simp, by simp⟩) .nil) noBlanks) .nil)
    noBlanks noBlanks

/-- The body of the parameter is entered strictly behind the start of its call, so the call is read
without using the rule for items at that start again. -/
theorem shop_body_progresses :
    let s := ofChars "\x7bcall .row\x7d\x7bparam cell\x7da\x7b/param\x7d\x7b/call\x7d".toList
    (∃ call param text,
      (bodyItem ["shop"]).Yields s
        (.call call "shop.row" false [.mk param "cell" (.block [.text text "a"])]) (s.skip 39) ∧
      (bodyItem ["shop"]).Yields (s.skip 23) (.text text "a") (s.skip 24)) ∧
    s.Later (s.skip 23) ∧ (s.skip 23).Later (s.skip 24) ∧ s.Later (s.skip 39) ∧
    bodyStep ["shop"] (beyond s (bodyItem ["shop"])) s = bodyStep ["shop"] (bodyItem ["shop"]) s ∧
    bodyStep ["shop"] (bodyItem ["shop"]) = bodyItem ["shop"] ∧
    Round ["shop"] (blanks >>= fun _ => param (bodyItem ["shop"])) ∧
    ∀ s, ¬ Stalls (blanks >>= fun _ => param (bodyItem ["shop"])) none s := by
  obtain ⟨hitem, -, -, -, -, -, hround⟩ := grammar_progresses ["shop"]
  intro s
  have hcanonical : nestedSample.Canonical :=
    ⟨by simp [Concrete.CallHead.Canonical, Concrete.noRest], ⟨trivial, fun _ => rfl, trivial⟩,
      trivial⟩
  have hcall := hcanonical.yields ["shop"] (s := s) (t := s.skip 39) ⟨by decide, by decide⟩
    (by simp [nestedSample, Concrete.Item.isPlain])
  have hplain : (Concrete.Item.plain ⟨['a'], by simp, by simp⟩).Canonical := trivial
  have hbrace : (s.skip 24).Reads ['\x7b'] (s.skip 25) := ⟨by decide, by decide⟩
  have htext := hplain.yields ["shop"] (s := s.skip 23) (t := s.skip 24) ⟨by decide, by decide⟩
    fun _ => hbrace.forall_cons rfl
  have hlater : s.Later (s.skip 23) :=
    ⟨_, by decide, show s.Reads (s.rest.take 23) (s.skip 23) from ⟨by decide, by decide⟩⟩
  have hforward : Forward (bodyItem ["shop"]) := hitem.advances.forward
  have hguard := hitem.enters (beyond s (bodyItem ["shop"])) (bodyItem ["shop"]) s
    (hforward.beyond s) fun t ht => if_pos ht.lt
  exact ⟨⟨_, _, _, hcall, htext⟩, hlater, hitem.advances _ _ _ htext, hitem.advances _ _ _ hcall,
    hguard, ((hitem.unique _).2 rfl).symm, .param, (hround _ _ .param).2.1⟩

end SoyTree.Grammar
