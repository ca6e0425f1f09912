import SoyTree.Proofs.Apart.Body
import SoyTree.Proofs.Canonical.File

/-! # Files whose parts are told apart

A written file is parsed as its own program if its parts do not run into each other, its inline values
are read where they stand and it does not nest too deep. Comments and doc blocks may stand wherever a
file has them.
-/

namespace SoyTree

open Rule Cursor

namespace Concrete

/-- Wherever the doc block stands it is read as one, and not as the empty comment with a rest. -/
structure DocBlock.Apart (d : DocBlock) : Prop where
  yields : ∀ s t : Cursor, s.Reads d.text t → Grammar.docBlock.Yields s (d.tree s.position) t
  notEmpty : ¬ "/**/".toList <+: d.text

structure Template.Apart (t : Template) : Prop where
  doc : ∀ d ∈ t.doc, d.1.Apart
  body : t.body.Apart (templateWord t.delegate)

/-- Nothing in the file runs into its neighbour. -/
def File.Apart (f : File) : Prop :=
  ∀ e ∈ f.entries, e.template.Apart

end Concrete

namespace Grammar

open Concrete

variable {s₀ s t u : Cursor} {home : List String} {chars : List Char}

section Templates

theorem maybeDoc_yields_apart (T : Concrete.Template) (h : ∀ d ∈ T.doc, d.1.Apart)
    (hr : s.Reads T.docText t) (hbrace : t.rest.head? = some '\x7b') :
    (maybe (do let doc ← docBlock; blanks; pure doc)).Yields s
      (T.doc.map fun d => d.1.tree s.position) t := by
  unfold Template.docText at hr
  cases hd : T.doc with
  | none =>
    rw [hd] at hr
    obtain rfl := hr.eq_of_nil
    refine maybeDoc_yields fun c hc => ?_
    rw [hbrace] at hc
    exact (Option.some.inj hc).symm
  | some d =>
    rw [hd] at hr
    obtain ⟨u, hdoc, hgap⟩ := hr.split
    have hstop : ∀ c ∈ t.rest.head?, blank.accepts c = false := by
      rw [hbrace]
      rintro c (_ | _)
      decide
    refine yields_maybe.2 (Or.inl ⟨_, rfl, ((h d hd).yields s u hdoc).bind ?_⟩)
    exact (blanks_yields d.2 hgap hstop).bind (yields_pure.2 ⟨rfl, rfl⟩)

theorem declaration_yields (T : Concrete.Template) (h : T.body.Apart (templateWord T.delegate))
    (hs : s₀.Reaches s)
    (hr : s.Reads (T.headText ++ (headerParamsText T.params ++
      (T.body.text ++ closeText (templateWord T.delegate) T.close))) t)
    (hv : HasValues s₀ (Node.bodyValues (T.body.trees home ((s.position.after T.headText).after
      (headerParamsText T.params))))) :
    (declaration (templateWord T.delegate) (bodyItem home)).Yields s
      { name := T.name.value
        attributes := attrsTree T.attrs (s.position.after T.nameText)
        params := headerParamsTree (s.position.after T.headText) T.params
        body := T.body.trees home ((s.position.after T.headText).after
          (headerParamsText T.params)) } t := by
  have hw := isWord_templateWord T.delegate
  have hi : Interior [] := fun w hw => absurd hw List.not_mem_nil
  obtain ⟨u, hhead, hr⟩ := hr.split
  obtain ⟨u₆, hparams, hr⟩ := hr.split
  obtain ⟨u₇, hbody, hclose⟩ := hr.split
  obtain ⟨u₁, u₂, u₃, u₄, hcommand, hn, hname, hstop, hattrs, hgap, hend⟩ :=
    templateHead_parts T hhead
  rw [← hname.position, ← hhead.position, ← hparams.position]
  rw [← hhead.position, ← hparams.position] at hv
  refine yields_closed.2 (command_yields hw T.gap₁ hcommand (name_not_blank T.name hn) ?_)
  refine (templateName_yields T.name hn (nameEnds_of_endsName hstop)).bind ?_
  refine (attributes_yields T.attrs hattrs (attributes_stop T.gap₂ (hgap.trans hend))).bind ?_
  refine (blanks_yields T.gap₂ hgap (hend.forall_cons (by decide))).bind ((char_yields hend).bind ?_)
  refine (headerParams_yields T.params hparams
    (paramDecl_fails (noParam_of_body hi T.body hbody hclose))).bind ?_
  refine Yields.bind ?_ (yields_pure.2 ⟨rfl, rfl⟩)
  have hs' := hs.trans (hhead.trans hparams).reaches
  exact bodyContent_yields hw T.close hclose
    (Body.Apart.yields home hi hw T.body h hs' hbody hclose hv fun _ _ => rfl).1

theorem templateItem_yields (T : Concrete.Template) (h : T.Apart) (hs : s₀.Reaches s)
    (hr : s.Reads T.text t) (hv : HasValues s₀ (Node.bodyValues (T.tree home s.position).body)) :
    (templateItem home (bodyItem home)).Yields s (T.tree home s.position) t := by
  have hmark := markAt_of_reads hr
  obtain ⟨u, hdoc, hr⟩ := Reads.split (a := T.docText) hr
  obtain ⟨v, hhead, -⟩ := hr.split
  obtain ⟨w, hname, -⟩ := Reads.split (a := T.nameText) hhead
  have hdoc' := maybeDoc_yields_apart T h.doc hdoc hname.head_cons
  rw [Template.tree, ← hdoc.position] at hv ⊢
  have hx : (documented (templateWord T.delegate) (bodyItem home)).Yields s
      (T.doc.map fun d => d.1.tree s.position, _) t :=
    hdoc'.bind ((declaration_yields T h.body (hs.trans hdoc.reaches) hr hv).bind
      (yields_pure.2 ⟨rfl, rfl⟩))
  rw [hmark]
  cases hd : T.delegate with
  | false =>
    rw [hd] at hx
    exact yields_choice_cons.2 (Or.inl (yields_marked.2 ⟨_, hx, rfl⟩))
  | true =>
    have hopens := opens_gap (isWord_templateWord T.delegate) T.gap₁ hname
    have hplain : (declaration "template" (bodyItem home)).Fails u := by
      refine fails_closed.2 (command_fails hopens ?_)
      rw [hd]
      decide
    rw [hd] at hx
    refine yields_choice_cons.2 (Or.inr ⟨?_, ?_⟩)
    · exact fails_marked.2 (Fails.bind_later hdoc' (Fails.bind hplain))
    · rw [choice_singleton]
      exact yields_marked.2 ⟨_, hx, rfl⟩

end Templates

section Trivia

variable {comment : Rule Unit} {Comment : List Char → Prop}

theorem misses_of_unended {a : List Char} (h : Unended (a ++ ['*'])) (ht : t.rest.head? ≠ some '/') :
    commentEnd.Misses s a t := by
  rintro x y rfl hy
  refine fails_text.2 fun ⟨z, hz⟩ => ?_
  rw [List.append_assoc] at h
  have hchain := (List.isChain_append.1 h).2.1
  match y, hy with
  | [c], _ =>
    obtain ⟨-, hrest⟩ : '*' = c ∧ '/' :: z = t.rest := by simpa using hz
    rw [← hrest] at ht
    exact ht rfl
  | c :: d :: y, _ =>
    obtain ⟨rfl, rfl, -⟩ : '*' = c ∧ '/' = d ∧ z = y ++ t.rest := by simpa using hz
    exact (List.isChain_cons_cons.1 hchain).1 ⟨rfl, rfl⟩

theorem commentEnd_head (hr : s.Reads "*/".toList t) : s.rest.head? ≠ some '/' := by
  have hhead : s.rest.head? = some '*' := hr.head_cons
  rw [hhead]
  decide

theorem lineComment_fails {c : Char} {rest : List Char} (hr : s.Reads ('/' :: c :: rest) t)
    (hc : c ≠ '/') : lineComment.Fails s := by
  refine Fails.bind (fails_text.2 ?_)
  rintro ⟨rest', hs⟩
  rw [hr.rest] at hs
  exact hc (List.cons.inj (List.cons.inj hs).2).1.symm

theorem blockComment_yields {text : List Char} (h : BlockComment text) (hr : s.Reads text t) :
    blockComment.Yields s () t := by
  rcases h with rfl | ⟨c, body, hc, hbody, rfl⟩
  · exact yields_either.2 (Or.inl (yields_text.2 hr))
  · refine yields_either.2 (Or.inr ⟨fails_text.2 ?_, ?_⟩)
    · rintro ⟨rest, hs⟩
      rw [hr.rest] at hs
      exact hc (List.cons.inj (List.cons.inj (List.cons.inj hs).2).2).1.symm
    · obtain ⟨u, hopen, hr⟩ := hr.split
      obtain ⟨v, hfirst, hr⟩ := hr.split_cons
      obtain ⟨w, hbody', hend⟩ := hr.split
      have haccepts : (CharClass.noneOf ['*']).accepts c = true := by simp [CharClass.noneOf, hc]
      refine Yields.bind (v := ()) (yields_text.2 hopen) ((yields_one.2 ⟨haccepts, hfirst⟩).bind ?_)
      exact yields_void.2 ⟨(body, ()), yields_upTo.2 ⟨w, hbody', yields_text.2 hend,
        misses_of_unended hbody (commentEnd_head hend)⟩⟩

theorem anyBlockComment_yields {text : List Char} (h : AnyComment text) (hr : s.Reads text t) :
    anyBlockComment.Yields s () t := by
  obtain ⟨body, hbody, rfl⟩ := h
  obtain ⟨u, hopen, hr⟩ := hr.split
  obtain ⟨w, hbody', hend⟩ := hr.split
  refine Yields.bind (v := ()) (yields_text.2 hopen) ?_
  exact yields_void.2 ⟨(body, ()), yields_upTo.2 ⟨w, hbody', yields_text.2 hend,
    misses_of_unended hbody (commentEnd_head hend)⟩⟩

/-- Trivia are read up to a place where no further blank or comment starts. A line comment without a
line break needs the end of the input behind it. -/
theorem isTrivia_yields {final : Bool}
    (hc : ∀ {s t text}, Comment text → s.Reads text t → comment.Yields s () t)
    (hstart : ∀ text, Comment text → ∃ rest, text = '/' :: '*' :: rest)
    (h : IsTrivia Comment final chars) (hr : s.Reads chars t) (hend : (triviaPart comment).Fails t)
    (hfinal : final = true → t.rest = []) : (void (many (triviaPart comment))).Yields s () t := by
  have hslash : ∀ {s : Cursor} {rest}, s.rest = '/' :: rest → blankChar.Fails s := by
    intro s rest hs
    refine fails_void.2 (fails_one.2 ?_)
    rw [hs]
    rintro c (_ | _)
    decide
  have hmany : ∃ ds, (many (triviaPart comment)).Yields s ds t := by
    induction h generalizing s with
    | nil =>
      obtain rfl := hr.eq_of_nil
      exact ⟨[], Yields.many_nil hend⟩
    | @blank c rest hblank _ ih =>
      obtain ⟨u, hc', hrest⟩ := hr.split_cons
      obtain ⟨ds, hds⟩ := ih hrest
      have hpart : blankChar.Yields s () u := yields_blankChar.2 ⟨c, hblank, hc'⟩
      exact ⟨() :: ds, Yields.many_cons (yields_choice_cons.2 (Or.inl hpart)) (hc'.lt (by simp)) hds⟩
    | @line body rest hb _ ih =>
      obtain ⟨u, hcomment, hrest⟩ := Reads.split (a := "//".toList ++ body) (b := '\n' :: rest)
        (by simpa using hr)
      obtain ⟨ds, hds⟩ := ih hrest
      have hpart : lineComment.Yields s () u :=
        yields_lineComment.2 ⟨body, hcomment, hb, hrest.forall_cons rfl⟩
      exact ⟨() :: ds, Yields.many_cons (yields_choice_cons.2 (Or.inr ⟨hslash hcomment.rest,
        yields_choice_cons.2 (Or.inl hpart)⟩)) (hcomment.lt (by simp)) hds⟩
    | @lastLine body hf hb =>
      have hpart : lineComment.Yields s () t :=
        yields_lineComment.2 ⟨body, hr, hb, by simp [hfinal hf]⟩
      exact ⟨[()], Yields.many_cons (yields_choice_cons.2 (Or.inr ⟨hslash hr.rest,
        yields_choice_cons.2 (Or.inl hpart)⟩)) (hr.lt (by simp)) (Yields.many_nil hend)⟩
    | @block text rest ht _ ih =>
      obtain ⟨u, hcomment, hrest⟩ := hr.split
      obtain ⟨ds, hds⟩ := ih hrest
      obtain ⟨more, hmore⟩ := hstart text ht
      have hpart := hc ht hcomment
      rw [hmore] at hcomment
      exact ⟨() :: ds, Yields.many_cons (yields_choice_cons.2 (Or.inr ⟨hslash hcomment.rest,
        yields_choice_cons.2 (Or.inr ⟨lineComment_fails hcomment (by decide), hpart⟩)⟩))
        (hcomment.lt (by simp)) hds⟩
  exact yields_void.2 hmany

theorem blockComment_start (text : List Char) (h : BlockComment text) :
    ∃ rest, text = '/' :: '*' :: rest := by
  rcases h with rfl | ⟨c, body, -, -, rfl⟩ <;> exact ⟨_, rfl⟩

theorem anyComment_start (text : List Char) (h : AnyComment text) :
    ∃ rest, text = '/' :: '*' :: rest := by
  obtain ⟨body, -, rfl⟩ := h
  exact ⟨_, rfl⟩

theorem trivia_yields {final : Bool} (lead : Trivia BlockComment final)
    (hr : s.Reads lead.chars t) (hend : (triviaPart blockComment).Fails t)
    (hfinal : final = true → t.rest = []) : trivia.Yields s () t :=
  isTrivia_yields blockComment_yields blockComment_start lead.isTrivia hr hend hfinal

/-- No trivia start at a doc block. -/
theorem triviaPart_fails_at_doc (d : DocBlock) (h : d.Apart) (hr : s.Reads d.text t) :
    (triviaPart blockComment).Fails s := by
  have hr' : s.Reads ('/' :: '*' :: '*' :: (linesText d.lines ++ "*/".toList)) t := hr
  refine fails_choice_cons.2 ⟨fails_void.2 (fails_one.2 (hr'.forall_cons (by decide))),
    fails_choice_cons.2 ⟨lineComment_fails hr' (by decide), ?_⟩⟩
  refine fails_either.2 ⟨fails_text.2 fun hempty => h.notEmpty ?_, ?_⟩
  · rw [hr.rest] at hempty
    refine List.prefix_of_prefix_length_le hempty (List.prefix_append _ _) ?_
    simp [DocBlock.text]
  · obtain ⟨u, hopen, hrest⟩ := Reads.split (a := "/*".toList) hr'
    refine Fails.bind_later (v := ()) (yields_text.2 hopen) (Fails.bind (fails_one.2 ?_))
    exact Reads.forall_cons (c := '*') hrest (by decide)

theorem triviaPart_fails_at_template (T : Concrete.Template) (h : T.Apart)
    (hr : s.Reads T.text t) : (triviaPart blockComment).Fails s := by
  obtain ⟨u, hdoc, hhead⟩ := Reads.split (a := T.docText) hr
  cases hd : T.doc with
  | none =>
    rw [Template.docText, hd] at hdoc
    obtain rfl := hdoc.eq_of_nil
    have hbrace : ∀ c ∈ u.rest.head?, c = '\x7b' := hhead.forall_cons rfl
    exact triviaPart_fails (blockComment_fails hbrace) hbrace
  | some d =>
    rw [Template.docText, hd] at hdoc
    obtain ⟨v, hblock, -⟩ := hdoc.split
    exact triviaPart_fails_at_doc d.1 (h.doc d hd) hblock

end Trivia

section Files

theorem entry_yields (e : Entry) (h : e.template.Apart) (hs : s₀.Reaches s)
    (hr : s.Reads (e.lead.chars ++ e.template.text) t)
    (hv : HasValues s₀ (Node.bodyValues
      (e.template.tree home (s.position.after e.lead.chars)).body)) :
    (trivia >>= fun _ => templateItem home (bodyItem home)).Yields s
      (e.template.tree home (s.position.after e.lead.chars)) t := by
  obtain ⟨u, hlead, htemplate⟩ := hr.split
  rw [← hlead.position] at hv ⊢
  have htrivia := trivia_yields e.lead hlead
    (triviaPart_fails_at_template e.template h htemplate) (by simp)
  exact htrivia.bind (templateItem_yields e.template h (hs.trans hlead.reaches) htemplate hv)

theorem entries_yields (es : List Entry) (h : ∀ e ∈ es, e.template.Apart) (hs : s₀.Reaches s)
    (hr : s.Reads (entriesText es) t)
    (hv : HasValues s₀ ((entriesTree home s.position es).flatMap fun T => Node.bodyValues T.body))
    (hend : (trivia >>= fun _ => templateItem home (bodyItem home)).Fails t) :
    (many (trivia >>= fun _ => templateItem home (bodyItem home))).Yields s
      (entriesTree home s.position es) t := by
  induction es generalizing s with
  | nil =>
    obtain rfl := hr.eq_of_nil
    exact Yields.many_nil hend
  | cons e es ih =>
    obtain ⟨u, he, hrest⟩ := Reads.split (a := e.lead.chars ++ e.template.text)
      (by simpa [entriesText] using hr)
    obtain ⟨c, rest, htext⟩ := template_text_ne_nil e.template
    rw [entriesTree, List.flatMap_cons, ← Position.after_append, ← he.position] at hv
    rw [entriesTree, ← Position.after_append, ← he.position]
    exact Yields.many_cons (entry_yields e (h e (by simp)) hs he hv.left)
      (he.lt (by simp [htext]))
      (ih (fun e' he' => h e' (by simp [he'])) (hs.trans he.reaches) hrest hv.right)

theorem file_parts (f : Concrete.File) : ∃ u₁ u₂ u₃, (ofChars f.text).Reads f.lead.chars u₁ ∧
    u₁.Reads f.tag.text u₂ ∧ u₂.Reads (entriesText f.entries) u₃ ∧
      u₃.Reads f.final.chars ⟨Position.origin.after f.text, []⟩ := by
  have hr : (Cursor.ofChars f.text).Reads f.text ⟨Position.origin.after f.text, []⟩ :=
    ⟨by simp [Cursor.ofChars], rfl⟩
  obtain ⟨u₁, hlead, hr⟩ := Reads.split (a := f.lead.chars) hr
  obtain ⟨u₂, htag, hr⟩ := hr.split
  obtain ⟨u₃, hentries, hfinal⟩ := hr.split
  exact ⟨u₁, u₂, u₃, hlead, htag, hentries, hfinal⟩

/-- Both readings of a file, the one for its namespace and the one for its program. -/
theorem file_yields (f : Concrete.File) (h : f.Apart)
    (hv : HasValues (.ofChars f.text) f.program.values) :
    ∃ s t, fileHeader.Yields (.ofChars f.text) f.tag.segments s ∧
      (file f.tag.segments).Yields (.ofChars f.text) f.program t := by
  obtain ⟨u₁, u₂, u₃, hlead, htag, hentries, hfinal⟩ := file_parts f
  have hbrace : ∀ c ∈ u₁.rest.head?, c = '\x7b' := htag.forall_cons rfl
  have hstart : fileTrivia.Yields (.ofChars f.text) () u₁ :=
    isTrivia_yields anyBlockComment_yields anyComment_start f.lead.isTrivia hlead
      (triviaPart_fails (anyBlockComment_fails hbrace) hbrace) (by simp)
  have hname := namespaceTag_yields f.tag htag
  have hlast : trivia.Yields u₃ () ⟨Position.origin.after f.text, []⟩ :=
    trivia_yields f.final hfinal (triviaPart_fails (blockComment_fails (by simp)) (by simp))
      fun _ => rfl
  have hend : (trivia >>= fun _ => templateItem f.tag.segments
      (bodyItem f.tag.segments)).Fails u₃ :=
    Fails.bind_later hlast (templateItem_fails_at_end rfl)
  have hprogram : f.program = ⟨⟨u₁.position, u₃.position⟩, f.tag.segments,
      entriesTree f.tag.segments u₂.position f.entries⟩ := by
    rw [← markAt_of_reads (htag.trans hentries), htag.position, hlead.position]
    rfl
  have hs := hlead.reaches.trans htag.reaches
  have htemplates : (many1 (trivia >>= fun _ => templateItem f.tag.segments
      (bodyItem f.tag.segments))).Yields u₂ (entriesTree f.tag.segments u₂.position f.entries) u₃ := by
    have hapart : ∀ e ∈ f.entries, e.template.Apart := h
    rw [hprogram, Program.values] at hv
    cases hes : f.entries with
    | nil => exact absurd hes f.nonempty
    | cons e es =>
      rw [hes] at hentries hapart
      rw [hes, entriesTree, List.flatMap_cons] at hv
      obtain ⟨u, he, hrest⟩ := Reads.split (a := e.lead.chars ++ e.template.text)
        (by simpa [entriesText] using hentries)
      rw [entriesTree, ← Position.after_append, ← he.position]
      rw [← Position.after_append, ← he.position] at hv
      exact yields_many1.2 ⟨_, u, _, entry_yields e (hapart e (by simp)) hs he hv.left,
        entries_yields es (fun e' he' => hapart e' (by simp [he'])) (hs.trans he.reaches) hrest
          hv.right hend, rfl⟩
  refine ⟨u₂, _, hstart.bind hname, hstart.bind (Yields.bind (t := u₃) ?_ (hlast.bind
    (Yields.bind (v := ()) (yields_endOfInput.2 ⟨rfl, rfl⟩) (yields_pure.2 ⟨rfl, rfl⟩))))⟩
  exact yields_marked.2 ⟨(f.tag.segments, _), hname.bind (htemplates.bind
    (yields_pure.2 ⟨rfl, rfl⟩)), hprogram⟩

/-- A file is parsed as its own program exactly if its inline values are read where they stand and it
does not nest too deep. -/
theorem parse_apart_iff (f : Concrete.File) (h : f.Apart) (options : Options) :
    parseWith (String.ofList f.text) options = .ok f.program ↔
      Nesting.deepest f.text ≤ options.maxDepth ∧ HasValues (.ofChars f.text) f.program.values := by
  constructor
  · intro hparse
    have hv := parse_values hparse
    rw [String.toList_ofList] at hv
    rw [parseWith, String.toList_ofList, parseChars_ok_iff, Nesting.check_ok_iff] at hparse
    exact ⟨hparse.1, hv⟩
  · rintro ⟨hdeep, hv⟩
    obtain ⟨s, t, hheader, hfile⟩ := file_yields f h hv
    rw [parseWith, String.toList_ofList, parseChars_ok_iff, Nesting.check_ok_iff]
    exact ⟨hdeep, _, s, t, hheader, hfile⟩

end Files

end Grammar

end SoyTree
