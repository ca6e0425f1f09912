import SoyTree.Proofs.Concrete.File
import SoyTree.Proofs.Grammar.Body

/-! # What the rules for templates read

Doc blocks, header parameters and whole templates are read as they are written.
-/

namespace SoyTree.Grammar

open Rule Cursor Concrete

variable {s t u : Cursor} {home : List String} {item : Rule Node}

section Comments

variable {a b : List Char}

def commentEnd : Rule Unit :=
  text "*/"

theorem unended_of_misses (h : commentEnd.Misses s a t) : Unended (a ++ ['*']) := by
  induction a generalizing s with
  | nil => exact .singleton _
  | cons c a ih =>
    obtain ⟨position, rest⟩ := s
    obtain ⟨hf, h⟩ := misses_cons.1 h
    refine List.isChain_cons.2 ⟨?_, ih h⟩
    rintro d hd ⟨rfl, rfl⟩
    refine fails_text.1 hf ?_
    cases a with
    | nil => simp at hd
    | cons d a =>
      obtain rfl : d = '/' := by simpa using hd
      exact ⟨a ++ t.rest, rfl⟩

theorem misses_commentEnd (h : '*' ∉ a) : commentEnd.Misses s a t := by
  rintro x y rfl hy
  refine fails_text.2 fun ⟨z, hz⟩ => h ?_
  cases y with
  | nil => exact absurd rfl hy
  | cons d y =>
    obtain ⟨rfl, -⟩ : '*' = d ∧ '/' :: z = y ++ t.rest := by simpa using hz
    simp

theorem inlineBlank_ne_star (h : ∀ c ∈ a, inlineBlank.accepts c = true) : '*' ∉ a :=
  fun hc => absurd (h _ hc) (by decide)

end Comments

section Doc

/-- A text between cursors in which no comment ends. -/
def ReadsOpen (s : Cursor) (text : List Char) (t : Cursor) : Prop :=
  s.Reads text t ∧ commentEnd.Misses s text t

theorem ReadsOpen.trans {a b : List Char} (h : ReadsOpen s a u) (h' : ReadsOpen u b t) :
    ReadsOpen s (a ++ b) t :=
  ⟨h.1.trans h'.1, h.2.append h'.2 h.1 h'.1⟩

theorem docMargin_open {d : Unit} (h : docMargin.Yields s d t) : ∃ margin, ReadsOpen s margin t := by
  simp only [docMargin, yields_bind, yields_run, yields_void, yields_maybe, yields_char,
    yields_ahead, yields_one] at h
  obtain ⟨cs, u, ⟨hr, hcs, -⟩, _, hstar⟩ := h
  have hblank : ReadsOpen s cs u := ⟨hr, misses_commentEnd (inlineBlank_ne_star hcs)⟩
  rcases hstar with ⟨c, -, -, u', hs, rfl, v, hc, hv⟩ | ⟨-, rfl, -⟩
  · refine ⟨cs ++ ['*'], hblank.trans ⟨hs, ?_⟩⟩
    obtain ⟨position, rest⟩ := u
    refine misses_cons.2 ⟨fails_text.2 fun ⟨z, hz⟩ => ?_, misses_nil⟩
    obtain rfl : c = '/' := by
      have := hv.rest
      simp [this] at hz
      exact hz.1.symm
    simp [CharClass.noneOf] at hc
  · exact ⟨cs, hblank⟩

theorem docTail_open {tail : List Char} (h : (rawUntil docLineEnd).Yields s tail t) :
    ReadsOpen s tail t := by
  obtain ⟨hr, -, hmiss⟩ := yields_rawUntil.1 h
  exact ⟨hr, fun a b hab hb => (fails_either.1 (hmiss a b hab hb)).2⟩

theorem maybe_char_reads {c : Char} {o : Option Unit} (h : (maybe (char c)).Yields s o t) :
    s.Reads (if o.isSome then [c] else []) t := by
  rcases yields_maybe.1 h with ⟨_, rfl, hc⟩ | ⟨rfl, rfl, -⟩
  · exact yields_char.1 hc
  · exact .refl t

theorem docParam_reads {decl : ParamDecl} (h : docParam.Yields s decl t) :
    ∃ optional gap name, s.Reads (DocLine.mention optional gap name) t ∧ gap ≠ [] ∧
      (∀ c ∈ gap, inlineBlank.accepts c = true) ∧ (∀ c ∈ t.rest.head?, isWordPart c = false) ∧
      decl = ⟨⟨s.position, t.position⟩, !optional, String.ofList name.chars, docParamType⟩ := by
  simp only [docParam, yields_marked, yields_bind, yields_text, yields_run1, yields_identifier,
    yields_pure] at h
  obtain ⟨_, ⟨-, u₁, hp, mayMiss, u₂, hm, gap, u₃, ⟨hne, hg, hgap, -⟩, _, u₄,
    ⟨w, hw, rfl, hstop⟩, rfl, rfl⟩, rfl⟩ := h
  exact ⟨mayMiss.isSome, gap, w, hp.trans ((maybe_char_reads hm).trans (hg.trans hw)), hne, hgap,
    hstop, rfl⟩

theorem docParam_open {decl : ParamDecl} (h : docParam.Yields s decl t) :
    ∃ optional gap name, ReadsOpen s (DocLine.mention optional gap name) t ∧
      decl = ⟨⟨s.position, t.position⟩, !optional, String.ofList name.chars, docParamType⟩ := by
  obtain ⟨optional, gap, w, hr, -, hgap, -, rfl⟩ := docParam_reads h
  refine ⟨optional, gap, w, ⟨hr, misses_commentEnd ?_⟩, rfl⟩
  rw [DocLine.mention_eq]
  refine List.not_mem_append (by decide) (List.not_mem_append ?_ (List.not_mem_append
    (inlineBlank_ne_star hgap) fun hc => ?_))
  · cases optional <;> simp
  · exact absurd (w.isWordPart _ hc) (by decide)

theorem docLine_spelled {line : Grammar.DocLine} (h : docLine.Yields s line t) :
    ∃ l : Concrete.DocLine, ReadsOpen s l.text t ∧ line = l.tree s.position := by
  simp only [docLine, yields_bind] at h
  obtain ⟨_, u, hmargin, h⟩ := h
  obtain ⟨margin, hmargin⟩ := docMargin_open hmargin
  rcases yields_choice_cons.1 h with h | ⟨-, h⟩
  · simp only [yields_bind, yields_run, yields_pure] at h
    obtain ⟨cs, u₁, ⟨hr, hcs, -⟩, decl, u₂, hparam, tail, u₃, htail, rfl, rfl⟩ := h
    obtain ⟨optional, gap, name, hdecl, rfl⟩ := docParam_open hparam
    have hlead := hmargin.trans ⟨hr, misses_commentEnd (inlineBlank_ne_star hcs)⟩
    refine ⟨.param (margin ++ cs) optional gap name tail,
      hlead.trans (hdecl.trans (docTail_open htail)), ?_⟩
    rw [hdecl.1.position, hlead.1.position]
    rfl
  · simp only [choice_singleton, yields_bind, yields_pure] at h
    obtain ⟨content, _, hcontent, rfl, rfl⟩ := h
    exact ⟨.prose margin content, hmargin.trans (docTail_open hcontent), rfl⟩

theorem docLines_spelled {lines : List Grammar.DocLine}
    (h : (sepBy docLine (char '\n')).Yields s lines t) :
    ∃ ls, ReadsOpen s (linesText ls) t ∧ lines = linesTree s.position ls := by
  have hnone : ∀ u : Cursor, ReadsOpen u [] u := fun u => ⟨.refl u, misses_nil⟩
  rcases yields_sepBy.1 h with h | ⟨-, rfl, rfl⟩
  · obtain ⟨line, u, more, hline, hmore, rfl⟩ := yields_sepBy1.1 h
    obtain ⟨l, hl, rfl⟩ := docLine_spelled hline
    have hls : ∃ ls, ReadsOpen u (moreLinesText ls) t ∧ more = moreLinesTree u.position ls := by
      refine hmore.many_induction (P := fun u more t => ∃ ls, ReadsOpen u (moreLinesText ls) t ∧
        more = moreLinesTree u.position ls) (fun u => ⟨[], hnone u, rfl⟩) ?_
      rintro s line u lines t hline ⟨ls, hls, rfl⟩
      obtain ⟨_, u₁, hn, hline⟩ := yields_bind.1 hline
      obtain ⟨l, hl, rfl⟩ := docLine_spelled hline
      have hbreak : ReadsOpen s ['\n'] u₁ := ⟨yields_char.1 hn, misses_commentEnd (by decide)⟩
      refine ⟨l :: ls, hbreak.trans (hl.trans hls), ?_⟩
      rw [hl.1.position, hbreak.1.position]
      rfl
    obtain ⟨ls, hls, rfl⟩ := hls
    refine ⟨l :: ls, hl.trans hls, ?_⟩
    rw [hl.1.position]
    rfl
  · exact ⟨[], hnone t, rfl⟩

theorem docBlock_spelled {doc : Doc} (h : docBlock.Yields s doc t) :
    Spells DocBlock.text DocBlock.tree s doc t := by
  simp only [docBlock, yields_marked, yields_bind, yields_text, yields_pure] at h
  obtain ⟨_, ⟨-, u₁, ho, _, u₂, hlines, -, u₃, hc, rfl, rfl⟩, rfl⟩ := h
  obtain ⟨ls, hls, rfl⟩ := docLines_spelled hlines
  have hr := ho.trans (hls.1.trans hc)
  refine ⟨⟨ls, unended_of_misses hls.2⟩, hr, ?_⟩
  rw [hr.position, ho.position]
  rfl

end Doc

section Declarations

theorem paramDecls_spelled {decls : List ParamDecl}
    (h : (many (blanks >>= fun _ => paramDecl)).Yields s decls t) :
    Spells headerParamsText (fun ds p => headerParamsTree p ds) s decls t := by
  refine h.many_induction (fun s => ⟨[], .refl s, rfl⟩) ?_
  rintro s decl u decls t hd ⟨ds, hds, rfl⟩
  simp only [paramDecl, yields_marked, yields_bind, yields_blanks, yields_text, yields_blanks1,
    yields_identifier, yields_rawThrough_char, yields_pure] at hd
  obtain ⟨-, u₀, ⟨lead, hl, -⟩, _, ⟨-, u₁, hp, mayMiss, u₂, hm, -, u₃, ⟨gap₁, hg₁, -⟩, _, u₄,
    ⟨w, hw, rfl, -⟩, -, u₅, ⟨gap₂, hg₂, -⟩, _, u₆, hc, type, u₇, ⟨hne, hty⟩, rfl, rfl⟩, rfl⟩ := hd
  let decl : HeaderParam := ⟨lead, mayMiss.isSome, gap₁, w, gap₂, ⟨type, hne⟩⟩
  have hr : u₀.Reads decl.tag u :=
    hp.trans ((maybe_char_reads hm).trans (hg₁.trans (hw.trans (hg₂.trans
      ((yields_char.1 hc).trans hty)))))
  refine ⟨decl :: ds, (hl.trans hr).trans hds, ?_⟩
  simp only [headerParamsTree, HeaderParam.tree, HeaderParam.text, markAt, Position.after_append,
    hr.position, hl.position]
  cases mayMiss <;> rfl

/-- How the doc block in front of a declaration is read, if there is one. -/
inductive DocRead (s : Cursor) : Option Doc → Cursor → Prop where
  | absent : DocRead s none s
  | present {doc : Doc} {u t : Cursor} (gap : Blanks) (block : docBlock.Yields s doc u)
      (behind : u.Reads gap.chars t) : DocRead s (some doc) t

/-- The sections of a declaration: the doc block, the tag up to its name and up to its end, the
parameters in the header and the body. -/
theorem documented_sections {x : Option Doc × Declaration} {word : String}
    (h : (documented word item).Yields s x t) :
    ∃ (gap₁ : Gap) (name : Name) (attrs : List Attr) (gap₂ : Blanks) (ds : List HeaderParam)
      (u₀ u₁ u₂ u₃ : Cursor), DocRead s x.1 u₀ ∧
      u₀.Reads ('\x7b' :: (word.toList ++ (gap₁.chars ++ name.text))) u₁ ∧
      u₁.Reads (attrsText attrs ++ (gap₂.chars ++ ['\x7d'])) u₂ ∧
      u₂.Reads (headerParamsText ds) u₃ ∧ (bodyContent word [] item).Yields u₃ x.2.body t ∧
      x.2.name = name.value ∧ x.2.attributes = attrsTree attrs u₁.position ∧
      x.2.params = headerParamsTree u₂.position ds := by
  simp only [documented, declaration, yields_closed, yields_bind, yields_maybe, yields_blanks,
    yields_char, yields_keyword, yields_blanks1, yields_pure] at h
  obtain ⟨doc, u₀, hdoc, _, _, ⟨-, _, hb, -, _, ⟨-, hk, -⟩, -, _, ⟨gap₁, hg₁, -⟩, _, u₁, hname,
    _, _, hattrs, -, _, ⟨gap₂, hg₂, -⟩, -, u₂, hc, _, u₃, hparams, _, _, hbody, rfl, rfl⟩, rfl,
    rfl⟩ := h
  obtain ⟨name, hn, hvalue⟩ := templateName_spelled hname
  obtain ⟨attrs, ha, htree⟩ := attributes_spelled hattrs
  obtain ⟨ds, hp, hdecls⟩ := paramDecls_spelled hparams
  have hdoc : DocRead s doc u₀ := by
    rcases hdoc with ⟨doc, rfl, _, u, hblock, -, _, ⟨gap, hgap, -⟩, rfl, rfl⟩ | ⟨rfl, rfl, -⟩
    · exact .present gap hblock hgap
    · exact .absent
  exact ⟨gap₁, name, attrs, gap₂, ds, u₀, u₁, u₂, u₃, hdoc, hb.trans (hk.trans (hg₁.trans hn)),
    ha.trans (hg₂.trans hc), hp, hbody, hvalue, htree, hdecls⟩

theorem documented_body {x : Option Doc × Declaration} {word : String}
    (h : (documented word item).Yields s x t) :
    ∃ text u v ds, s.Reads text u ∧ (bodyContent word [] item).Yields u x.2.body v ∧
      ∃ p, x.2.params = headerParamsTree p ds := by
  obtain ⟨gap₁, name, attrs, gap₂, ds, u₀, u₁, u₂, u₃, hdoc, hname, htag, hp, hbody, -, -, hdecls⟩ :=
    documented_sections h
  have hhead := hname.trans (htag.trans hp)
  generalize x.1 = doc at hdoc
  cases hdoc with
  | absent => exact ⟨_, u₃, t, ds, hhead, hbody, _, hdecls⟩
  | present gap block behind =>
    obtain ⟨d, hd, -⟩ := docBlock_spelled block
    exact ⟨_, u₃, t, ds, hd.trans (behind.trans hhead), hbody, _, hdecls⟩

/-- A template, as an optional doc block and a declaration; what is known of each body and of each doc
block is known of the template's. -/
theorem documented_reads {delegate : Bool} {x : Option Doc × Declaration} {P : Body [] → Prop}
    {Q : DocBlock → Prop}
    (hbody : ∀ {s nodes t}, (bodyContent (templateWord delegate) [] item).Yields s nodes t →
      ∃ (body : Body []) (close : Blanks),
        s.Reads (body.text ++ closeText (templateWord delegate) close) t ∧
          nodes = body.trees home s.position ∧ P body)
    (hdoc : ∀ {doc t}, docBlock.Yields s doc t →
      ∃ d : DocBlock, s.Reads d.text t ∧ doc = d.tree s.position ∧ Q d)
    (h : (documented (templateWord delegate) item).Yields s x t) :
    ∃ T : Concrete.Template, T.delegate = delegate ∧ s.Reads T.text t ∧
      x = (T.doc.map fun d => d.1.tree s.position,
        { name := T.name.value
          attributes := attrsTree T.attrs ((s.position.after T.docText).after T.nameText)
          params := headerParamsTree ((s.position.after T.docText).after T.headText) T.params
          body := T.body.trees home (((s.position.after T.docText).after T.headText).after
            (headerParamsText T.params)) }) ∧
      (∀ d ∈ T.doc, Q d.1) ∧ P T.body := by
  obtain ⟨gap₁, name, attrs, gap₂, ds, u₀, u₁, u₂, u₃, hdoc', hname, htag, hp, hcontent, hvalue,
    htree, hdecls⟩ := documented_sections h
  obtain ⟨body, close, hb, hnodes, hP⟩ := hbody hcontent
  have hd : ∃ d : Option (DocBlock × Blanks),
      s.Reads (Concrete.Template.docText ⟨d, delegate, gap₁, name, attrs, gap₂, ds, body, close⟩)
        u₀ ∧ x.1 = d.map (fun d => d.1.tree s.position) ∧ ∀ d' ∈ d, Q d'.1 := by
    generalize x.1 = doc at hdoc'
    cases hdoc' with
    | absent => exact ⟨none, .refl s, rfl, by simp⟩
    | present gap block behind =>
      obtain ⟨d, hd, rfl, hQ⟩ := hdoc block
      refine ⟨some (d, gap), hd.trans behind, rfl, fun d' hd' => ?_⟩
      obtain rfl := Option.some.inj hd'
      exact hQ
  obtain ⟨d, hd, hdoc, hQ⟩ := hd
  have hhead := hname.trans htag
  refine ⟨⟨d, delegate, gap₁, name, attrs, gap₂, ds, body, close⟩, rfl,
    hd.trans (hhead.trans (hp.trans hb)), ?_, hQ, hP⟩
  obtain ⟨doc, name', attributes, params, nodes⟩ := x
  simp only at hdoc hvalue htree hdecls hnodes
  rw [hdoc, hvalue, htree, hdecls, hnodes, hp.position, hhead.position, hname.position, hd.position]
  rfl

/-- A template is plain or a delegate. Its name and attributes follow from what its header says. -/
theorem templateItem_parts {T : Template} (h : (templateItem home item).Yields s T t) :
    ∃ delegate x, (documented (templateWord delegate) item).Yields s x t ∧
      T = if delegate then
          ⟨⟨s.position, t.position⟩, .delegate ((x.2.attributes.find? isVariant).map (·.value)), x.1,
            x.2.name, x.2.attributes.filter (!isVariant ·), x.2.params, x.2.body⟩
        else
          ⟨⟨s.position, t.position⟩, .plain, x.1, Path.resolve x.2.name home, x.2.attributes,
            x.2.params, x.2.body⟩ := by
  rcases yields_choice_cons.1 h with h | ⟨-, h⟩
  · obtain ⟨x, hx, rfl⟩ := yields_marked.1 h
    exact ⟨false, x, hx, rfl⟩
  · rw [choice_singleton] at h
    obtain ⟨x, hx, rfl⟩ := yields_marked.1 h
    exact ⟨true, x, hx, rfl⟩

theorem templateItem_reads {T : Template} {P : Bool → Body [] → Prop} {Q : DocBlock → Prop}
    (hbody : ∀ {delegate s nodes t},
      (bodyContent (templateWord delegate) [] item).Yields s nodes t →
        ∃ (body : Body []) (close : Blanks),
          s.Reads (body.text ++ closeText (templateWord delegate) close) t ∧
            nodes = body.trees home s.position ∧ P delegate body)
    (hdoc : ∀ {doc t}, docBlock.Yields s doc t →
      ∃ d : DocBlock, s.Reads d.text t ∧ doc = d.tree s.position ∧ Q d)
    (h : (templateItem home item).Yields s T t) :
    ∃ C : Concrete.Template, s.Reads C.text t ∧ T = C.tree home s.position ∧
      (∀ d ∈ C.doc, Q d.1) ∧ P C.delegate C.body := by
  obtain ⟨delegate, x, hx, rfl⟩ := templateItem_parts h
  obtain ⟨C, rfl, hr, rfl, hQ, hP⟩ := documented_reads hbody hdoc hx
  refine ⟨C, hr, ?_, hQ, hP⟩
  rw [Concrete.Template.tree, markAt, ← hr.position]
  cases C.delegate <;> rfl

theorem isWord_templateWord (delegate : Bool) : isWord (templateWord delegate).toList = true := by
  cases delegate <;> decide

theorem templateItem_spelled {T : Template} (hi : ReadsItem home item)
    (h : (templateItem home item).Yields s T t) :
    Spells Concrete.Template.text (fun T p => T.tree home p) s T t := by
  obtain ⟨C, hr, htree, -⟩ := templateItem_reads (P := fun _ _ => True) (Q := fun _ => True)
    (fun {delegate _ _ _} hy => by
      obtain ⟨body, close, hb, hnodes⟩ := bodyContent_spelled (isWord_templateWord delegate) hi hy
      exact ⟨body, close, hb, hnodes, trivial⟩)
    (fun hy => by
      obtain ⟨d, hd, hdoc⟩ := docBlock_spelled hy
      exact ⟨d, hd, hdoc, trivial⟩) h
  exact ⟨C, hr, htree⟩

end Declarations

end SoyTree.Grammar
