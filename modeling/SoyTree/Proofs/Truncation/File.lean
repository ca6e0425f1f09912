import SoyTree.Proofs.Truncation.Body

/-! # Truncated files

A file that is cut off within the body of a template is refused, and the error names the innermost
block that is open at the cut, at its opening brace.
-/

namespace SoyTree

namespace Grammar

open Rule Cursor Concrete

variable {s t u : Cursor} {home interior : List String} {here o : Opener}

section Templates

theorem noParam_of_cutOff {interior : List String} (hi : Interior interior) (body : Body interior)
    {s : Cursor} (h : body.CutOff here s o) : NoParam s.rest := by
  match body with
  | .nil => exact noParam_of_plain (by simp [h.1])
  | .tag word allowed args rest =>
    rcases h with ⟨hs, -⟩ | ⟨t, hr, -⟩
    · exact noParam_of_plain (by simp [hs])
    · exact noParam_of_tag hi allowed args hr
  | .item first rest =>
    rcases h with ⟨hs | ⟨hp, hs⟩, -⟩ | h | ⟨t, hr, h⟩
    · exact noParam_of_plain (by simp [hs])
    · exact noParam_of_plain (Item.brace_notMem hp hs)
    · obtain ⟨hword, hstart⟩ := Item.startsAt h
      have hopens := startsAt_opens hword hstart
      obtain ⟨-, -, hne, behind, hrest, -⟩ := hstart
      refine noParam_of_brace (by rw [hrest]; rfl) (not_startsParam_of_opens hopens fun hnil => ?_)
      exact hne (String.toList_injective hnil)
    · exact noParam_of_item first hr (noParam_of_cutOff hi rest h)

/-- The header parameters in front of the cut are read, and then the body stops at the cut. -/
theorem header_stops {body : Body []} (hc : body.Canonical) {word : String} {ds : List HeaderParam}
    (h : Template.HeadCutOff here s o body ds) :
    ∃ decls t, (many (blanks >>= fun _ => paramDecl)).Yields s decls t ∧
      (bodyContent word [] (bodyItem home)).StopsAt t here.offset o.offset := by
  have hcalm := calm_bodyItem home
  have hquiet := (calm_bodyPart hcalm interior_nil).quiet
  have hitem : ∀ s, IsItemFrom home (bodyItem home) s := fun _ _ _ => rfl
  induction ds generalizing s with
  | nil =>
    refine ⟨[], s, Yields.many_nil (paramDecl_fails (noParam_of_cutOff interior_nil body h)), ?_⟩
    exact (body.stops home interior_nil hc (hitem s) hcalm h).bind hquiet
  | cons d ds ih =>
    rcases h with ⟨hs, rfl⟩ | ⟨t, hr, h⟩
    · have hplain : '\x7b' ∉ s.rest := fun hc => absurd (hs _ hc) (by decide)
      refine ⟨[], s, Yields.many_nil (paramDecl_fails (noParam_of_plain hplain)), ?_⟩
      exact (bodyPart_text (hitem s) hcalm interior_nil hplain).bind hquiet
    · obtain ⟨decls, u, hmany, hstops⟩ := ih h
      exact ⟨_, u, Yields.many_cons (headerParam_yields d hr) (hr.lt (headerParam_text_ne_nil d))
        hmany, hstops⟩

theorem declaration_blames (T : Concrete.Template) (hc : T.body.Canonical)
    (hhead : s.Reads T.headText u)
    (h : Template.HeadCutOff ⟨s.offset, templateWord T.delegate⟩ u o T.body T.params) :
    (declaration (templateWord T.delegate) (bodyItem home)).BlamesAt s o.offset := by
  obtain ⟨u₁, u₂, u₃, u₄, hcommand, hn, -, hstop, hattrs, hgap, hend⟩ := templateHead_parts T hhead
  obtain ⟨decls, v, hmany, hstops⟩ := header_stops hc h
  refine StopsAt.closed ?_ (ne_nil_of_reads hcommand)
  refine command_stops (isWord_templateWord T.delegate) T.gap₁ hcommand
    (name_not_blank T.name hn) ?_
  refine StopsAt.bind_later (templateName_yields T.name hn (nameEnds_of_endsName hstop))
    tame_templateName ?_
  refine StopsAt.bind_later (attributes_yields T.attrs hattrs
    (attributes_stop T.gap₂ (hgap.trans hend))) tame_attributes ?_
  refine StopsAt.bind_later (blanks_yields T.gap₂ hgap (hend.forall_cons (by decide)))
    tame_blanks ?_
  refine StopsAt.bind_later (char_yields hend) (tame_char _) ?_
  exact StopsAt.bind_later hmany (tame_blanks.bind fun _ => tame_paramDecl).many hstops.bind

theorem templateItem_blames (T : Concrete.Template) (hc : T.Canonical) (h : T.CutOff s o) :
    (templateItem home (bodyItem home)).BlamesAt s o.offset := by
  obtain ⟨hdoc, hbody⟩ := hc
  obtain ⟨t, u, hdocText, hhead, h⟩ := h
  have hempty : T.docText = [] := by rw [Template.docText, hdoc]
  rw [hempty] at hdocText
  obtain rfl := hdocText.eq_of_nil
  obtain ⟨v, hname, -⟩ := Reads.split (a := T.nameText) hhead
  have hnone : (maybe (do let doc ← docBlock; blanks; pure doc)).Yields t none t :=
    maybeDoc_yields (hname.forall_cons rfl)
  have hblames : (documented (templateWord T.delegate) (bodyItem home)).BlamesAt t o.offset :=
    .bind_later hnone tame_maybeDoc (declaration_blames T hbody hhead h).bind
  have hopens := opens_gap (isWord_templateWord T.delegate) T.gap₁ hname
  have hother : ∀ word, (templateWord T.delegate).toList ≠ word.toList →
      (documented word (bodyItem home)).FailsMildly t := fun word hw =>
    .bind_later hnone tame_maybeDoc (Refuses.closed
      (command_refuses hopens (startsAt_ne (T.startsAt hhead)) hw)).mildly.bind
  cases hd : T.delegate with
  | false =>
    rw [hd] at hblames hother
    have hplain : (plainTemplate home (bodyItem home)).BlamesAt t o.offset := hblames.marked
    change (choice ([] ++ plainTemplate home (bodyItem home) :: [_])).BlamesAt t o.offset
    apply BlamesAt.choice (by simp) hplain
    rintro q (_ | ⟨_, ⟨⟩⟩)
    exact (hother "deltemplate" (by decide)).marked
  | true =>
    rw [hd] at hblames hother
    have hdelegate : (delegateTemplate (bodyItem home)).BlamesAt t o.offset := hblames.marked
    change (choice ([_] ++ delegateTemplate (bodyItem home) :: [])).BlamesAt t o.offset
    refine BlamesAt.choice ?_ hdelegate (by simp)
    rintro q (_ | ⟨_, ⟨⟩⟩)
    exact (hother "template" (by decide)).marked

end Templates

section Entries

theorem lead_yields (e : Entry) (hlead : s.Reads e.lead.chars t)
    (ht : ∀ c ∈ t.rest.head?, c = '\x7b') : trivia.Yields s () t :=
  trivia_yields e.lead hlead (triviaPart_fails (blockComment_fails ht) ht) (by simp)

theorem template_cutOff_head {T : Concrete.Template} (hc : T.Canonical) (h : T.CutOff s o) :
    ∃ rest, s.rest = '\x7b' :: rest := by
  obtain ⟨t, u, hdoc, hhead, -⟩ := h
  have hempty : T.docText = [] := by rw [Template.docText, hc.1]
  rw [hempty] at hdoc
  obtain rfl := hdoc.eq_of_nil
  exact ⟨_, hhead.rest⟩

/-- The templates in front of the cut are read, and the one that is cut off is remembered for its
blame. -/
theorem entries_blame (es : List Entry) (hc : ∀ e ∈ es, e.Canonical) (h : EntriesCutOff s o es) :
    ∃ templates t,
      (many (trivia >>= fun _ => templateItem home (bodyItem home))).YieldsBlaming s templates t
        o.offset ∧
      t.finish = s.finish ∧
        ∀ f : Unit → Rule Program, (trivia >>= fun _ => endOfInput >>= f).FailsMildly t := by
  induction es generalizing s with
  | nil => exact h.elim
  | cons e es ih =>
    have he := hc e (by simp)
    obtain ⟨t, hlead, h | ⟨u, hT, h⟩⟩ := h
    · obtain ⟨rest, hrest⟩ := template_cutOff_head he.2 h
      have hbrace : ∀ c ∈ t.rest.head?, c = '\x7b' := by simp [hrest]
      have htrivia := lead_yields e hlead hbrace
      have hend : endOfInput.Fails t := fails_iff.2 fun d u hy => by
        rw [(yields_endOfInput.1 hy).1] at hrest
        cases hrest
      refine ⟨[], s, .many_nil (.bind_later htrivia tame_trivia
        (templateItem_blames e.template he.2 h)), rfl, fun f => ?_⟩
      exact .bind_later htrivia tame_trivia (tame_endOfInput.failsMildly hend).bind
    · obtain ⟨templates, v, hmany, hfinish, hend⟩ := ih (fun e' he' => hc e' (by simp [he'])) h
      have hr := hlead.trans hT
      have hne : e.lead.chars ++ e.template.text ≠ [] := by
        obtain ⟨c, rest, htext⟩ := template_text_ne_nil e.template
        simp [htext]
      refine ⟨_, v, .many_cons (he.yields home hr)
        (tame_trivia.bind fun _ => tame_templateItem (calm_bodyItem home)) (hr.lt hne) hmany, ?_,
        hend⟩
      rw [hfinish, finish_of_reads hr]

/-- All templates of a file. A first one that is cut off is blamed at once. -/
theorem templates_blame (es : List Entry) (hc : ∀ e ∈ es, e.Canonical) (h : EntriesCutOff s o es) :
    (many1 (trivia >>= fun _ => templateItem home (bodyItem home))).BlamesAt s o.offset ∨
      ∃ templates t,
        (many1 (trivia >>= fun _ => templateItem home (bodyItem home))).YieldsBlaming s templates t
          o.offset ∧
        t.finish = s.finish ∧
          ∀ f : Unit → Rule Program, (trivia >>= fun _ => endOfInput >>= f).FailsMildly t := by
  cases es with
  | nil => exact h.elim
  | cons e es =>
    have he := hc e (by simp)
    obtain ⟨t, hlead, h | ⟨u, hT, h⟩⟩ := h
    · obtain ⟨rest, hrest⟩ := template_cutOff_head he.2 h
      have htrivia := lead_yields e hlead (by simp [hrest])
      exact Or.inl (BlamesAt.bind (.bind_later htrivia tame_trivia
        (templateItem_blames e.template he.2 h)))
    · obtain ⟨templates, v, hmany, hfinish, hend⟩ :=
        entries_blame es (fun e' he' => hc e' (by simp [he'])) h
      have hr := hlead.trans hT
      refine Or.inr ⟨_, v, YieldsBlaming.bind_later (he.yields home hr)
        (tame_trivia.bind fun _ => tame_templateItem (calm_bodyItem home)) (hmany.map rfl), ?_, hend⟩
      rw [hfinish, finish_of_reads hr]

theorem file_blames (f : Concrete.File) (hc : f.Canonical) {text : List Char}
    (h : f.CutOff text o) :
    (∃ t, fileHeader.Yields (.ofChars text) f.tag.segments t) ∧
      (file f.tag.segments).BlamesAt (.ofChars text) o.offset := by
  obtain ⟨s, t, hlead, htag, h⟩ := h
  have hbrace : ∀ c ∈ s.rest.head?, c = '\x7b' := htag.forall_cons rfl
  have hstart : fileTrivia.Yields (.ofChars text) () s :=
    isTrivia_yields anyBlockComment_yields anyComment_start f.lead.isTrivia hlead
      (triviaPart_fails (anyBlockComment_fails hbrace) hbrace) (by simp)
  have hname := namespaceTag_yields f.tag htag
  refine ⟨⟨t, hstart.bind hname⟩, .bind_later hstart tame_fileTrivia ?_⟩
  rcases templates_blame f.entries hc.entries h with hblames | ⟨templates, u, hy, hfinish, hend⟩
  · exact BlamesAt.bind (BlamesAt.marked (.bind_later hname tame_namespaceTag hblames.bind))
  · have hfile : (namespaceTag >>= fun path => many1 (trivia >>= fun _ =>
        templateItem f.tag.segments (bodyItem f.tag.segments)) >>= fun templates =>
          pure (path, templates)).YieldsBlaming s (f.tag.segments, templates) u o.offset :=
      .bind_later hname tame_namespaceTag (hy.map rfl)
    exact YieldsBlaming.blames hfile.marked (hfinish.trans (finish_of_reads htag)) (hend _)

end Entries

section Errors

theorem commandAt_startsAt (h : o.StartsAt s) : ParseError.commandAt s.rest = o.word := by
  obtain ⟨-, hchars, hne, behind, hrest, hbehind⟩ := h
  obtain ⟨c, word, hword⟩ := List.exists_cons_of_ne_nil
    (fun hnil => hne (String.toList_injective hnil) : o.word.toList ≠ [])
  have hc : (c == '\x7b') = false := by
    rw [beq_eq_false_iff_ne]
    rintro rfl
    exact absurd (hchars '\x7b' (by simp [hword])) (by decide)
  have htake : (o.word.toList ++ behind).takeWhile isCommandChar = o.word.toList :=
    takeWhile_of_stop hchars hbehind
  have hdrop : ('\x7b' :: (o.word.toList ++ behind)).dropWhile (· == '\x7b') =
      o.word.toList ++ behind := by
    simp [hword, hc]
  rw [ParseError.commandAt, hrest, hdrop, htake, String.ofList_toList]
  simp [hword]

theorem ofFailure_blames {text : List Char} {e : Failure} {finish : Nat}
    (he : e.Blames finish o.offset) (ho : o.Within (.ofChars text)) :
    (ParseError.ofFailure text (.ofChars text) e).cause = .unterminated o.word ∧
      (ParseError.ofFailure text (.ofChars text) e).offset = o.offset := by
  obtain ⟨front, t, hr, hstart⟩ := ho
  have hoffset : o.offset = front.length := by
    rw [hstart.1, Cursor.offset, hr.position, Position.index_after]
    simp [Cursor.ofChars, Position.origin]
  have htext : text = front ++ t.rest := hr.rest
  have hdrop : text.drop o.offset = t.rest := by
    rw [hoffset, htext, List.drop_left]
  rw [ParseError.ofFailure, he.reason]
  constructor
  · simp only [ParseError.locate, hdrop, commandAt_startsAt hstart]
  · have hle : o.offset ≤ text.length := by
      rw [hoffset, htext, List.length_append]
      omega
    simp only [ParseError.locate, Lines.position, Lines.ofChars]
    omega

end Errors

end Grammar

open Concrete in
/-- A canonical file that is accepted, cut off outside of tags within the body of a template, is
refused as unterminated, with the command word of the innermost block that is open at the cut and the
offset of its opening brace. -/
theorem parse_truncated (f : Concrete.File) (hf : f.Canonical) (options : Options)
    (haccepted : ∃ program, parseWith (String.ofList f.text) options = .ok program)
    {text : List Char} (htext : text <+: f.text) {o : Opener} (hcut : f.CutOff text o) :
    ∃ e, parseWith (String.ofList text) options = .error e ∧ e.cause = .unterminated o.word ∧
      e.offset = o.offset := by
  obtain ⟨program, hprogram⟩ := haccepted
  rw [parseWith, String.toList_ofList, Grammar.parseChars_ok_iff, Nesting.check_ok_iff] at hprogram
  have hdeep : Nesting.deepest text ≤ options.maxDepth :=
    ((File.endsOutside hcut).deepest_le htext).trans hprogram.1
  obtain ⟨depth, hcheck⟩ := Nesting.check_ok_iff.2 hdeep
  obtain ⟨⟨t, hint, hheader⟩, e, he, hblames⟩ := Grammar.file_blames f hf hcut
  refine ⟨.ofFailure text (.ofChars text) e, ?_, Grammar.ofFailure_blames hblames (File.within hcut)⟩
  rw [parseWith, String.toList_ofList]
  simp only [parseChars, Rule.parse, hcheck, hheader, he]

open Concrete in
/-- A call with a block parameter, behind a value and within a block. -/
def truncatedSample : Concrete.File where
  lead := ⟨[], .nil⟩
  tag := ⟨oneSpace, ['a'], rfl, noRest, noRest_apart⟩
  entries := [⟨⟨[], .nil⟩, {
    doc := none
    delegate := false
    gap₁ := oneSpace
    name := ⟨true, ⟨['t'], rfl⟩, []⟩
    attrs := []
    gap₂ := noBlanks
    params := []
    body := .item (.control .cond nofun
        ⟨⟨[' ', '1'], fun h => by simp at h⟩, by rintro c (_ | _); rfl⟩
      (.item (.binding oneSpace ⟨['x'], by decide⟩ (.inline noBlanks noBlanks
          (.reference ⟨['y'], by decide⟩) oneSpace.toBlanks))
        (.item (.blockCall ⟨false, oneSpace, ⟨true, ⟨['u'], by decide⟩, []⟩, noRest⟩ (by simp [noRest])
          (.cons noBlanks oneSpace ⟨['p'], by decide⟩
            (.block [] noBlanks (.item (.plain ⟨['v', 'w'], by simp, by simp⟩) .nil) noBlanks) .nil)
          noBlanks noBlanks) .nil)) noBlanks) .nil
    close := noBlanks }⟩]
  nonempty := by simp
  final := ⟨[], .nil⟩

open Concrete in
theorem truncatedSample_blamed : truncatedSample.Canonical ∧
    String.ofList truncatedSample.text = "\x7bnamespace a\x7d\x7btemplate .t\x7d\x7bif 1\x7d" ++
      "\x7blet $x:$y /\x7d\x7bcall .u\x7d\x7bparam p\x7dvw\x7b/param\x7d\x7b/call\x7d" ++
      "\x7b/if\x7d\x7b/template\x7d" ∧
    truncatedSample.CutOff (truncatedSample.text.take 64) ⟨54, "param"⟩ ∧
    ∃ e, parseWith (String.ofList (truncatedSample.text.take 64)) {} = .error e ∧
      e.cause = .unterminated "param" ∧ e.offset = 54 := by
  have hcanonical : truncatedSample.Canonical := by
    refine ⟨by simp [truncatedSample], ?_, by simp [truncatedSample]⟩
    rintro e (_ | ⟨_, ⟨⟩⟩)
    have hinner : Item.Canonical (.blockCall ⟨false, oneSpace, ⟨true, ⟨['u'], by decide⟩, []⟩, noRest⟩
        (by simp [noRest]) (.cons noBlanks oneSpace ⟨['p'], by decide⟩
          (.block [] noBlanks (.item (.plain ⟨['v', 'w'], by simp, by simp⟩) .nil) noBlanks) .nil)
        noBlanks noBlanks) :=
      ⟨by simp [CallHead.Canonical, noRest], ⟨trivial, fun _ => rfl, trivial⟩, trivial⟩
    exact ⟨by simp, rfl, ⟨trivial, (by cases ·), hinner, (by cases ·), trivial⟩, (by cases ·), trivial⟩
  have haccepted : ∃ program, parseWith (String.ofList truncatedSample.text) {} = .ok program :=
    ⟨_, (Grammar.parse_canonical_iff truncatedSample hcanonical {}).2 (by decide +kernel)⟩
  have hreads {s : Cursor} {a : List Char} (h : a <+: s.rest) :
      s.Reads a ⟨s.position.after a, s.rest.drop a.length⟩ := by
    obtain ⟨b, hb⟩ := h
    exact ⟨by simp [← hb], rfl⟩
  have hcut : truncatedSample.CutOff (truncatedSample.text.take 64) ⟨54, "param"⟩ := by
    refine ⟨_, _, .refl _, hreads (by decide), _, .refl _, Or.inl ⟨_, _, .refl _, hreads (by decide), ?_⟩⟩
    refine Or.inr (Or.inl ⟨by simp; decide, _, hreads (by decide), ?_⟩)
    refine Or.inr (Or.inr ⟨_, hreads (by decide), ?_⟩)
    refine Or.inr (Or.inl ⟨_, hreads (by decide), ?_⟩)
    refine Or.inr (Or.inl ⟨_, _, .refl _, hreads (by decide), _, hreads (by decide), ?_⟩)
    exact Or.inl ⟨Or.inr ⟨rfl, by decide⟩, rfl⟩
  exact ⟨hcanonical, by decide, hcut, parse_truncated truncatedSample hcanonical {} haccepted
    (List.take_prefix _ _) hcut⟩

end SoyTree
