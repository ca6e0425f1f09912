import SoyTree.Proofs.Grammar.File
import SoyTree.Proofs.Interpolation
import SoyTree.Proofs.Rule.Blame

/-! # What the grammar reports

Outside of blocks every rule reports mild failures only. A block may be blamed where it fails, but
where it succeeds its report is mild: its closing tag was met, and no block starts there.
-/

namespace SoyTree.Grammar

open Rule Cursor

variable {α : Type} {all : Bool} {s t : Cursor} {home : List String} {item : Rule Node}
  {word : String}

section Words

theorem tame_blanks : Tame all blanks :=
  (tame_run _).void

theorem tame_blanks1 : Tame all blanks1 :=
  (tame_run1 _).void

theorem tame_padded {p : Rule α} (hp : Tame all p) : Tame all (padded p) :=
  tame_blanks.bind fun _ => hp.bind fun _ => tame_blanks

theorem tame_spaced {p : Rule α} (hp : Tame all p) : Tame all (spaced p) :=
  tame_blanks.bind fun _ => hp.void

theorem tame_identifier : Tame all identifier :=
  (tame_one _).bind fun _ => (tame_run _).bind fun _ => tame_pure _

theorem tame_keyword (name : String) : Tame all (keyword name) :=
  tame_identifier.check

theorem tame_commandWord (names : List String) : Tame all (commandWord names) :=
  tame_identifier.check

theorem tame_openTag (names : List String) : Tame all (openTag names) :=
  (tame_char _).bind fun _ => (tame_commandWord names).bind fun _ => (tame_char _).rawThrough.void

theorem tame_closeTag (name : String) : Tame all (closeTag name) :=
  (tame_text _).bind fun _ => (tame_keyword name).bind fun _ => tame_blanks.bind fun _ =>
    tame_char _

theorem tame_templateName : Tame all templateName :=
  (tame_char _).maybe.bind fun _ => (tame_identifier.sepBy1 (tame_char _)).bind fun _ => tame_pure _

end Words

section Expressions

variable {stop : Rule Unit} {nested again : Rule Expr}

theorem tame_slashClose : Tame all slashClose :=
  tame_spaced (tame_text _)

theorem tame_nestedStop : Tame all nestedStop :=
  tame_spaced (tame_one _)

theorem tame_question : Tame all question :=
  tame_spaced ((tame_char _).bind fun _ => (tame_one _).ahead)

theorem tame_colon : Tame all colon :=
  tame_spaced (tame_char _)

theorem tame_reference : Tame all reference :=
  ((tame_char _).bind fun _ => tame_identifier).marked

theorem tame_stringChar : Tame all stringChar :=
  (tame_one _).either ((tame_char _).bind fun _ => (tame_one _).bind fun _ => tame_pure _)

theorem tame_stringLiteral : Tame all stringLiteral :=
  ((tame_char _).bind fun _ => tame_stringChar.many.bind fun _ => (tame_char _).bind fun _ =>
    tame_pure _).marked

theorem tame_boolean : Tame all boolean :=
  (((tame_keyword _).bind fun _ => tame_pure _).either
    ((tame_keyword _).bind fun _ => tame_pure _)).marked

theorem tame_number : Tame all number :=
  ((tame_one _).maybe.bind fun _ => (tame_run1 _).bind fun _ => tame_pure _).check.marked

theorem tame_bracketed {p : Rule α} (hp : Tame true p) (opening closing : Char) :
    Tame all (bracketed opening closing p) :=
  (tame_char _).bind fun _ => tame_blanks.bind fun _ =>
    (hp.sepBy (tame_padded (tame_char _))).bind fun _ => tame_blanks.bind fun _ =>
      (tame_char _).bind fun _ => tame_pure _

theorem tame_mapLiteral (hnested : Tame true nested) : Tame all (mapLiteral nested) :=
  (tame_bracketed (tame_stringLiteral.bind fun _ => (tame_padded (tame_char _)).bind fun _ =>
    hnested.bind fun _ => tame_pure _).marked _ _).marked

theorem tame_functionCall (hnested : Tame true nested) : Tame all (functionCall nested) :=
  (tame_identifier.bind fun _ => (tame_bracketed hnested _ _).bind fun _ => tame_pure _).marked

theorem tame_otherExpression (hstop : Tame true stop) : Tame all (otherExpression stop) :=
  hstop.rawUntil.check.marked

theorem tame_operand (hstop : Tame true stop) (hnested : Tame true nested) :
    Tame all (operand stop nested) := by
  refine Tame.either (.bind (.choice ?_) fun _ => hstop.quiet.ahead.bind fun _ => tame_pure _)
    (tame_otherExpression hstop)
  simp only [List.mem_cons, List.not_mem_nil, or_false]
  rintro p (rfl | rfl | rfl | rfl | rfl | rfl)
  · exact tame_reference
  · exact tame_stringLiteral.marked
  · exact tame_boolean
  · exact tame_mapLiteral hnested
  · exact tame_number
  · exact tame_functionCall hnested

theorem tame_branches (hstop : Tame true stop) (hnested : Tame true nested)
    (hagain : Tame true again) : Tame all (branches stop nested again) :=
  tame_question.bind fun _ => tame_blanks.bind fun _ =>
    (tame_operand (tame_colon.either hstop) hnested).bind fun _ => tame_colon.bind fun _ =>
      tame_blanks.bind fun _ => hagain.quiet.bind fun _ => tame_pure _

theorem tame_expressionWith (hstop : Tame true stop) (hnested : Tame true nested) :
    Tame true (expressionWith stop nested) := by
  refine Tame.recursive fun again hagain => Tame.either ?_ hstop.rawUntil.check.check.marked
  refine (Tame.marked ?_).bind fun _ => hstop.ahead.bind fun _ => tame_pure _
  exact (tame_operand (tame_question.either hstop) hnested).bind fun _ =>
    (tame_branches hstop hnested hagain).maybe.bind fun _ => tame_pure _

theorem tame_nestedExpression : Tame true nestedExpression :=
  Tame.recursive fun _ => tame_expressionWith tame_nestedStop

theorem tame_expression (hstop : Tame true stop) : Tame true (expression stop) :=
  tame_expressionWith hstop tame_nestedExpression

end Expressions

section Tags

theorem tame_textRun : Tame all textRun :=
  (tame_run1 _).marked

theorem tame_interpolation : Tame all interpolation :=
  ((tame_char _).bind fun _ => (tame_char _).rawThrough).check.marked

theorem tame_attributePair : Tame all attributePair :=
  ((tame_run1 _).bind fun _ => (tame_char _).bind fun _ => (tame_char _).bind fun _ =>
    (tame_char _).rawThrough.bind fun _ => tame_pure _).marked

theorem tame_attributes : Tame all attributes :=
  (tame_blanks1.bind fun _ => tame_attributePair).many

theorem tame_paramDecl : Tame all paramDecl :=
  ((tame_text _).bind fun _ => (tame_char _).maybe.bind fun _ => tame_blanks1.bind fun _ =>
    tame_identifier.bind fun _ => tame_blanks.bind fun _ => (tame_char _).bind fun _ =>
      (tame_char _).rawThrough.bind fun _ => tame_pure _).marked

end Tags

section Comments

theorem tame_blankChar : Tame all blankChar :=
  (tame_one _).void

theorem tame_lineComment : Tame all lineComment :=
  (tame_text _).bind fun _ => (tame_run _).void

theorem tame_blockComment : Tame all blockComment :=
  (tame_text _).either ((tame_text _).bind fun _ => (tame_one _).bind fun _ =>
    (tame_text _).upTo.void)

theorem tame_anyBlockComment : Tame all anyBlockComment :=
  (tame_text _).bind fun _ => (tame_text _).upTo.void

theorem tame_triviaPart {comment : Rule Unit} (h : Tame all comment) :
    Tame all (triviaPart comment) := by
  refine Tame.choice ?_
  simp only [List.mem_cons, List.not_mem_nil, or_false]
  rintro p (rfl | rfl | rfl)
  · exact tame_blankChar
  · exact tame_lineComment
  · exact h

theorem tame_trivia : Tame all trivia :=
  (tame_triviaPart tame_blockComment).many.void

theorem tame_fileTrivia : Tame all fileTrivia :=
  (tame_triviaPart tame_anyBlockComment).many.void

theorem tame_docLineEnd : Tame all docLineEnd :=
  (tame_char _).either (tame_text _)

theorem tame_docMargin : Tame all docMargin :=
  (tame_run _).bind fun _ =>
    (Tame.maybe ((tame_char _).bind fun _ => (tame_one _).ahead)).void

theorem tame_docParam : Tame all docParam :=
  ((tame_text _).bind fun _ => (tame_char _).maybe.bind fun _ => (tame_run1 _).bind fun _ =>
    tame_identifier.bind fun _ => tame_pure _).marked

theorem tame_docLine : Tame all docLine := by
  refine tame_docMargin.bind fun _ => .choice ?_
  simp only [List.mem_cons, List.not_mem_nil, or_false]
  rintro p (rfl | rfl)
  · exact (tame_run _).bind fun _ => tame_docParam.bind fun _ =>
      tame_docLineEnd.rawUntil.bind fun _ => tame_pure _
  · exact tame_docLineEnd.rawUntil.bind fun _ => tame_pure _

theorem tame_docBlock : Tame all docBlock :=
  ((tame_text _).bind fun _ => (tame_docLine.sepBy (tame_char _)).bind fun _ =>
    (tame_text _).bind fun _ => tame_pure _).marked

theorem tame_maybeDoc : Tame all (maybe (do let doc ← docBlock; blanks; pure doc)) :=
  (tame_docBlock.bind fun _ => tame_blanks.bind fun _ => tame_pure _).maybe

theorem tame_namespaceTag : Tame all namespaceTag :=
  (tame_char _).bind fun _ => (tame_keyword _).bind fun _ => tame_blanks1.bind fun _ =>
    (tame_run1 _).check.bind fun _ =>
      (Tame.maybe (tame_blanks1.bind fun _ => tame_run _)).bind fun _ =>
        (tame_char _).bind fun _ => tame_pure _

end Comments

section Refusals

theorem failsInPlace_identifier : FailsInPlace identifier := by
  refine failsInPlace_one.bind fun c t hf => ?_
  rcases fails_bind.1 hf with hf | ⟨rest, u, -, hf⟩
  · exact hf.elim fun _ h => nomatch h
  · exact not_fails_pure hf

theorem keyword_refuses {name : String} (hs : s.rest ≠ []) (h : leadWord s.rest ≠ name.toList) :
    (keyword name).Refuses s :=
  failsInPlace_identifier.check.refuses (tame_keyword name) hs (fails_keyword h)

theorem command_refuses {name : String} {f : Unit → Rule α} {w : List Char} (h : Opens s w)
    (hs : s.rest ≠ ['\x7b']) (hw : w ≠ name.toList) :
    (char '\x7b' >>= fun _ => keyword name >>= f).Refuses s := by
  obtain ⟨rest, hrest, rfl⟩ := h
  have hopen : s.Reads ['\x7b'] ⟨s.position.next '\x7b', rest⟩ := ⟨hrest, rfl⟩
  refine Refuses.bind_char hopen (keyword_refuses ?_ hw).bind
  rintro rfl
  exact hs hrest

theorem openTag_refuses {names : List String} {w : List Char} (h : Opens s w)
    (hs : s.rest ≠ ['\x7b']) (hw : ∀ n ∈ names, w ≠ n.toList) : (openTag names).Refuses s := by
  obtain ⟨rest, hrest, rfl⟩ := h
  have hopen : s.Reads ['\x7b'] ⟨s.position.next '\x7b', rest⟩ := ⟨hrest, rfl⟩
  refine Refuses.bind_char hopen (Refuses.bind ?_)
  refine failsInPlace_identifier.check.refuses (tame_commandWord names) ?_ ?_
  · rintro rfl
    exact hs hrest
  · refine fails_iff.2 fun d t hy => ?_
    obtain ⟨n, hn, hk⟩ := yields_commandWord.1 hy
    exact hk.not_fails (fails_keyword (hw n hn))

/-- Where another word stands than the one that a rule starts with, no block is blamed. -/
theorem commandRule_refuses {x : String × Rule Node} {w : List Char}
    (hx : x ∈ commandRules home item) (h : Opens s w) (hs : s.rest ≠ ['\x7b'])
    (hw : w ≠ x.1.toList) : x.2.Refuses s := by
  obtain ⟨word, rule⟩ := x
  cases commandRule_of_mem hx with
  | call delegate => exact Refuses.closed (command_refuses h hs hw).marked
  | binding => exact Refuses.closed (command_refuses h hs hw).marked
  | control block parsed =>
    refine Refuses.closed (Refuses.marked (Refuses.bind (openTag_refuses h hs ?_)))
    rintro n (_ | ⟨_, ⟨⟩⟩)
    exact hw
  | literal => exact Refuses.closed (command_refuses h hs hw).marked

end Refusals

section Blocks

def Closes (s : Cursor) : Prop :=
  ∃ rest, s.rest = '\x7b' :: '/' :: rest

theorem Closes.opens (h : Closes s) : Opens s [] := by
  obtain ⟨rest, h⟩ := h
  exact ⟨'/' :: rest, h, rfl⟩

theorem Closes.ne (h : Closes s) : s.rest ≠ ['\x7b'] := by
  obtain ⟨rest, h⟩ := h
  simp [h]

theorem closes_of_closeTag {name : String} {d : Unit} (h : (closeTag name).Yields s d t) :
    Closes s := by
  obtain ⟨_, u, htext, -⟩ := yields_bind.1 h
  exact ⟨u.rest, (yields_text.1 htext).rest⟩

/-- What the rule reports where it succeeds is mild, and it blames no block at a closing tag. -/
structure Calm (item : Rule α) : Prop where
  quiet : Tame false item
  closes : ∀ s, Closes s → item.FailsMildly s

theorem calm_bodyPart {interior : List String} (hitem : Calm item) (hi : Interior interior) :
    Calm (bodyPart interior item) where
  quiet := ((tame_openTag _).bind fun _ => tame_pure _).either
    (hitem.quiet.bind fun _ => tame_pure _)
  closes s hs := by
    refine FailsMildly.either (FailsMildly.bind (Refuses.mildly ?_)) (hitem.closes s hs).bind
    refine openTag_refuses hs.opens hs.ne fun w hw h => ?_
    have hword := (hi.word hw).1
    rw [← h] at hword
    cases hword

theorem interior_nil : Interior [] :=
  fun _ hw => absurd hw List.not_mem_nil

theorem tame_bodyContent (name : String) {interior : List String} (hitem : Calm item)
    (hi : Interior interior) : Tame false (bodyContent name interior item) := by
  refine (calm_bodyPart hitem hi).quiet.many_bind
    (fun _ => (tame_closeTag name).bind fun _ => tame_pure _) fun parts s nodes t hy => ?_
  obtain ⟨d, u, hclose, -⟩ := yields_bind.1 hy
  exact (calm_bodyPart hitem hi).closes s (closes_of_closeTag hclose)

theorem tame_bindingValue (word : String) (hitem : Calm item) :
    Tame false (bindingValue word item) := by
  refine Tame.either ?_ ?_
  · exact tame_blanks.bind fun _ => (tame_char _).bind fun _ => tame_blanks.bind fun _ =>
      (tame_expression tame_slashClose).quiet.bind fun _ => tame_slashClose.bind fun _ => tame_pure _
  · exact tame_attributes.bind fun _ => tame_blanks.bind fun _ => (tame_char _).bind fun _ =>
      (tame_bodyContent word hitem interior_nil).bind fun _ => tame_pure _

theorem calm_param (hitem : Calm item) : Calm (param item) where
  quiet := Tame.closed ((tame_char _).bind fun _ => (tame_keyword _).bind fun _ =>
    tame_blanks1.bind fun _ => tame_identifier.bind fun _ =>
      (tame_bindingValue _ hitem).bind fun _ => tame_pure _).marked
  closes s hs := (Refuses.closed (command_refuses hs.opens hs.ne (by decide)).marked).mildly

theorem tame_letBinding (hitem : Calm item) : Tame false (letBinding item) :=
  Tame.closed ((tame_char _).bind fun _ => (tame_keyword _).bind fun _ =>
    tame_blanks1.bind fun _ => (tame_char _).bind fun _ => tame_identifier.bind fun _ =>
      (tame_bindingValue _ hitem).bind fun _ => tame_pure _).marked

theorem tame_callParams (hitem : Calm item) : Tame false (callParams word item) := by
  refine (tame_char _).bind fun _ => ?_
  refine (tame_blanks.bind fun _ => (calm_param hitem).quiet).many_bind
    (fun _ => tame_blanks.bind fun _ => (tame_closeTag word).bind fun _ => tame_pure _)
    fun params s params' t hy => ?_
  obtain ⟨d, u, hblanks, hy⟩ := yields_bind.1 hy
  obtain ⟨d', v, hclose, -⟩ := yields_bind.1 hy
  exact .bind_later hblanks tame_blanks ((calm_param hitem).closes u (closes_of_closeTag hclose))

theorem tame_call (delegate : Bool) (hitem : Calm item) : Tame false (call home delegate item) := by
  refine Tame.closed (Tame.marked ?_)
  refine (tame_char _).bind fun _ => (tame_keyword _).bind fun _ => tame_blanks1.bind fun _ =>
    tame_templateName.bind fun _ => (Tame.upTo ((tame_text _).either (tame_char _)).ahead).bind
      fun _ => Tame.bind ?_ fun _ => tame_pure _
  exact ((tame_text _).bind fun _ => tame_pure _).either (tame_callParams hitem)

theorem tame_controlBlock (block : Control) (hitem : Calm item) :
    Tame false (controlBlock block item) :=
  Tame.closed ((tame_openTag _).bind fun _ =>
    tame_bodyContent _ hitem fun _ hw => ⟨block, hw⟩).marked

theorem tame_literal : Tame false literal :=
  Tame.closed ((tame_char _).bind fun _ => (tame_keyword _).bind fun _ => tame_blanks.bind fun _ =>
    (tame_char _).bind fun _ => (tame_closeTag _).rawUntil.marked.bind fun _ =>
      (tame_closeTag _).bind fun _ => tame_pure _).marked

theorem tame_commandRule {x : String × Rule Node} (hitem : Calm item)
    (hx : x ∈ commandRules home item) : Tame false x.2 := by
  obtain ⟨word, rule⟩ := x
  cases commandRule_of_mem hx with
  | call delegate => exact tame_call delegate hitem
  | binding => exact tame_letBinding hitem
  | control block parsed => exact tame_controlBlock block hitem
  | literal => exact tame_literal

/-- Whatever the inner items are, no item starts at a closing tag. -/
theorem items_closes (hs : Closes s) :
    (choice (textRun :: ((commandRules home item).map Prod.snd ++ [interpolation]))).FailsMildly s := by
  obtain ⟨rest, hrest⟩ := hs
  have hs : Closes s := ⟨rest, hrest⟩
  refine FailsMildly.choice fun p hp => ?_
  rcases List.mem_cons.1 hp with rfl | hp
  · exact tame_textRun.failsMildly (textRun_fails (by rw [hrest]; rfl))
  rcases List.mem_append.1 hp with hp | hp
  · obtain ⟨x, hx, rfl⟩ := List.mem_map.1 hp
    refine (commandRule_refuses hx hs.opens hs.ne fun hw => ?_).mildly
    have hreserved := commandRules_reserved hx
    rw [String.toList_injective (show x.1.toList = "".toList from hw.symm)] at hreserved
    exact absurd hreserved (by decide)
  · obtain rfl := List.mem_singleton.1 hp
    have hfails : (bodyItem home).Fails s := bodyItem_fails hrest
    exact tame_interpolation.failsMildly (interpolation_fails hfails)

theorem tame_items (hitem : Calm item) :
    Tame false (choice (textRun :: ((commandRules home item).map Prod.snd ++ [interpolation]))) := by
  refine .choice fun p hp => ?_
  rcases List.mem_cons.1 hp with rfl | hp
  · exact tame_textRun
  rcases List.mem_append.1 hp with hp | hp
  · obtain ⟨x, hx, rfl⟩ := List.mem_map.1 hp
    exact tame_commandRule hitem hx
  · obtain rfl := List.mem_singleton.1 hp
    exact tame_interpolation

theorem calm_bodyItem (home : List String) : Calm (bodyItem home) := by
  have main : ∀ s, (bodyItem home s).Tame false s ∧
      (Closes s → ∃ e, bodyItem home s = .fail e ∧ e.Mild s.finish) := by
    refine recursive_reply (R := fun s reply => reply.Tame false s ∧
      (Closes s → ∃ e, reply = .fail e ∧ e.Mild s.finish)) (fun s => ⟨nofun, fun _ => ?_⟩) ?_
    · exact ⟨_, rfl, unexpected_mild s []⟩
    · intro item hitem s
      have hcalm : Calm item := ⟨fun s => (hitem s).1, fun s => (hitem s).2⟩
      exact ⟨tame_items hcalm s, items_closes⟩
  exact ⟨fun s => (main s).1, fun s => (main s).2⟩

theorem calm_beyond (hitem : Calm item) (s : Cursor) : Calm (beyond s item) where
  quiet t := by
    unfold beyond
    split
    · exact hitem.quiet t
    · exact nofun
  closes t ht := by
    unfold FailsMildly beyond
    split
    · exact hitem.closes t ht
    · exact ⟨_, rfl, unexpected_mild t []⟩

end Blocks

section Templates

theorem tame_declaration (word : String) (hitem : Calm item) :
    Tame false (declaration word item) :=
  Tame.closed ((tame_char _).bind fun _ => (tame_keyword _).bind fun _ =>
    tame_blanks1.bind fun _ => tame_templateName.bind fun _ => tame_attributes.bind fun _ =>
      tame_blanks.bind fun _ => (tame_char _).bind fun _ =>
        (tame_blanks.bind fun _ => tame_paramDecl).many.bind fun _ =>
          (tame_bodyContent word hitem interior_nil).bind fun _ => tame_pure _)

theorem tame_documented (word : String) (hitem : Calm item) : Tame false (documented word item) :=
  tame_maybeDoc.bind fun _ => (tame_declaration word hitem).bind fun _ => tame_pure _

theorem tame_templateItem (hitem : Calm item) : Tame false (templateItem home item) := by
  refine Tame.choice fun p hp => ?_
  simp only [List.mem_cons, List.not_mem_nil, or_false] at hp
  rcases hp with rfl | rfl
  · exact (tame_documented _ hitem).marked
  · exact (tame_documented _ hitem).marked

end Templates

end SoyTree.Grammar
