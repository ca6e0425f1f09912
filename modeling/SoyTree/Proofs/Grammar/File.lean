import SoyTree.Parse
import SoyTree.Proofs.Grammar.Template

/-! # What a parse reads

A source that is parsed is the text of a written file, and the program is that file's program.
-/

namespace SoyTree.Grammar

open Rule Cursor Concrete

variable {s t : Cursor} {d : Unit} {home : List String}

section Trivia

variable {comment : Rule Unit} {Comment : List Char → Prop}

theorem blockComment_spelled (h : blockComment.Yields s d t) :
    ∃ text, s.Reads text t ∧ BlockComment text := by
  simp only [blockComment, yields_either, yields_bind, yields_void, yields_text, yields_one,
    yields_upTo] at h
  rcases h with hr | ⟨-, -, u₁, ho, c, u₂, ⟨hc, hone⟩, ⟨body, _⟩, u₃, hbody, hend, hmiss⟩
  · exact ⟨_, hr, Or.inl rfl⟩
  · have hstar : c ≠ '*' := by simpa [CharClass.noneOf] using hc
    refine ⟨_, ho.trans (hone.trans (hbody.trans hend)), Or.inr ⟨c, body, hstar, ?_, rfl⟩⟩
    exact unended_of_misses hmiss

theorem anyBlockComment_spelled (h : anyBlockComment.Yields s d t) :
    ∃ text, s.Reads text t ∧ AnyComment text := by
  simp only [anyBlockComment, yields_bind, yields_void, yields_text, yields_upTo] at h
  obtain ⟨-, u₁, ho, ⟨body, _⟩, u₂, hbody, hend, hmiss⟩ := h
  exact ⟨_, ho.trans (hbody.trans hend), body, unended_of_misses hmiss, rfl⟩

theorem ne_nil_of_blockComment {text : List Char} (h : BlockComment text) : text ≠ [] := by
  rcases h with rfl | ⟨c, body, -, -, rfl⟩ <;> simp

theorem ne_nil_of_anyComment {text : List Char} (h : AnyComment text) : text ≠ [] := by
  obtain ⟨body, -, rfl⟩ := h
  simp

theorem yields_blankChar : blankChar.Yields s d t ↔
    ∃ c, blank.accepts c = true ∧ s.Reads [c] t := by
  rw [blankChar, yields_void]
  simp only [yields_one]

theorem yields_lineComment : lineComment.Yields s d t ↔
    ∃ body, s.Reads ("//".toList ++ body) t ∧ '\n' ∉ body ∧ ∀ c ∈ t.rest.head?, c = '\n' := by
  simp only [lineComment, yields_bind, yields_text, yields_void, yields_run]
  constructor
  · rintro ⟨-, u, ho, body, hr, hbody, hstop⟩
    refine ⟨body, ho.trans hr, fun hn => absurd (hbody _ hn) (by decide), fun c hc => ?_⟩
    simpa [CharClass.noneOf] using hstop c hc
  · rintro ⟨body, hr, hbody, hstop⟩
    obtain ⟨u, ho, hr⟩ := hr.split
    refine ⟨(), u, ho, body, hr, fun c hc => ?_, fun c hc => ?_⟩
    · have : c ≠ '\n' := fun h => hbody (h ▸ hc)
      simpa [CharClass.noneOf] using this
    · simpa [CharClass.noneOf] using hstop c hc

def triviaPart (comment : Rule Unit) : Rule Unit :=
  choice [blankChar, lineComment, comment]

theorem triviaPart_spelled
    (hc : ∀ s d t, comment.Yields s d t → ∃ text, s.Reads text t ∧ Comment text)
    (h : (triviaPart comment).Yields s d t) :
    (∃ c, blank.accepts c = true ∧ s.Reads [c] t) ∨
      (∃ body, s.Reads ("//".toList ++ body) t ∧ '\n' ∉ body ∧ ∀ c ∈ t.rest.head?, c = '\n') ∨
      ∃ text, s.Reads text t ∧ Comment text := by
  rcases yields_choice_cons.1 h with h | ⟨-, h⟩
  · exact Or.inl (yields_blankChar.1 h)
  · rcases yields_choice_cons.1 h with h | ⟨-, h⟩
    · exact Or.inr (Or.inl (yields_lineComment.1 h))
    · exact Or.inr (Or.inr (hc _ _ _ h))

/-- Trivia end only where no further blank or comment starts. -/
theorem trivia_stops (hc : ∀ s d t, comment.Yields s d t → ∃ text, s.Reads text t ∧ Comment text)
    (hne : ∀ text, Comment text → text ≠ [])
    (h : (void (many (triviaPart comment))).Yields s d t) : (triviaPart comment).Fails t := by
  obtain ⟨parts, hm⟩ := yields_void.1 h
  refine hm.many_stop fun s d t hp => ?_
  rcases triviaPart_spelled hc hp with ⟨c, -, hr⟩ | ⟨body, hr, -⟩ | ⟨text, hr, htext⟩
  · simp [hr.length]
  · have := hr.length
    simp at this
    omega
  · have := List.length_pos_of_ne_nil (hne text htext)
    rw [hr.length]
    omega

/-- Behind a line comment there is a line break or the end of the input. -/
theorem trivia_spelled (hc : ∀ s d t, comment.Yields s d t → ∃ text, s.Reads text t ∧ Comment text)
    (hne : ∀ text, Comment text → text ≠ [])
    (h : (void (many (triviaPart comment))).Yields s d t) :
    ∃ text, s.Reads text t ∧ IsTrivia Comment t.rest.isEmpty text := by
  have hstop := trivia_stops hc hne h
  obtain ⟨parts, hm⟩ := yields_void.1 h
  revert hstop
  refine hm.many_induction (P := fun s _ t => (triviaPart comment).Fails t →
    ∃ text, s.Reads text t ∧ IsTrivia Comment t.rest.isEmpty text)
    (fun s _ => ⟨[], .refl s, .nil⟩) ?_
  intro s d u ds t hp ih hstop
  obtain ⟨rest, hrest, htrivia⟩ := ih hstop
  rcases triviaPart_spelled hc hp with ⟨c, hblank, hr⟩ | ⟨body, hr, hbody, hbehind⟩ |
    ⟨text, hr, htext⟩
  · exact ⟨_, hr.trans hrest, .blank hblank htrivia⟩
  · cases rest with
    | nil =>
      -- a line break behind the comment would be one more blank
      rw [hrest.eq_of_nil] at hstop ⊢
      have hempty : u.rest = [] := by
        cases hu : u.rest with
        | nil => rfl
        | cons c rest =>
          obtain rfl : c = '\n' := hbehind c (by simp [hu])
          have hy : blankChar.Yields u () ⟨u.position.next '\n', rest⟩ :=
            yields_blankChar.2 ⟨'\n', by decide, hu, rfl⟩
          exact absurd hstop (yields_choice_cons.2 (Or.inl hy)).not_fails
      exact ⟨_, hr, .lastLine (by simp [hempty]) hbody⟩
    | cons c rest =>
      obtain rfl : c = '\n' := hbehind c (by rw [hrest.rest]; rfl)
      refine ⟨_, hr.trans hrest, ?_⟩
      rw [List.append_assoc]
      exact .line hbody htrivia
  · exact ⟨_, hr.trans hrest, .block htext htrivia⟩

end Trivia

section Namespace

theorem namespaceTag_spelled {path : List String} (h : namespaceTag.Yields s path t) :
    Spells NamespaceTag.text (fun n _ => n.segments) s path t := by
  simp only [namespaceTag, namespacePath, yields_bind, yields_char, yields_keyword, yields_blanks1,
    yields_check, yields_run1, yields_maybe, yields_run, yields_pure] at h
  obtain ⟨-, u₁, hb, -, u₂, ⟨-, hk, -⟩, -, u₃, ⟨gap, hg, -⟩, _, u₄, ⟨cs, ⟨-, hcs, -, -⟩, hok⟩, _, u₅,
    hextra, -, u₆, hc, rfl, rfl⟩ := h
  split at hok
  · cases hok
    have hrest : ∃ extra : TagRest, (∀ c ∈ extra.chars.head?, blank.accepts c = true) ∧
        u₄.Reads extra.chars u₅ := by
      rcases hextra with ⟨tail, -, -, v, ⟨g, hgap, -⟩, hr, hplain, -⟩ | ⟨-, rfl, -⟩
      · have hopen : '\x7d' ∉ g.chars ++ tail := by
          rw [List.mem_append]
          rintro (hx | hx)
          · exact absurd (g.blank _ hx) (by decide)
          · exact absurd (hplain _ hx) (by decide)
        refine ⟨⟨g.chars ++ tail, hopen⟩, fun c hc => g.blank c ?_, hgap.trans hr⟩
        rw [List.head?_append_of_ne_nil _ g.nonempty] at hc
        exact List.mem_of_mem_head? hc
      · exact ⟨⟨[], by simp⟩, by simp, .refl u₅⟩
    obtain ⟨extra, hapart, hr⟩ := hrest
    exact ⟨⟨gap, cs, ‹_›, extra, hapart⟩,
      hb.trans (hk.trans (hg.trans (hcs.trans (hr.trans hc)))), rfl⟩
  · cases hok

end Namespace

section Files

theorem isEmpty_of_reads {c : Char} {text : List Char} (h : s.Reads (c :: text) t) :
    s.rest.isEmpty = false := by
  rw [h.rest]
  rfl

theorem template_text_ne_nil (T : Concrete.Template) : ∃ c rest, T.text = c :: rest := by
  obtain ⟨doc, delegate, gap₁, name, attrs, gap₂, params, body, close⟩ := T
  rcases doc with _ | ⟨doc, gap⟩
  · exact ⟨_, _, rfl⟩
  · exact ⟨_, _, rfl⟩

section Reads

variable {P : Concrete.Template → Prop}

/-- A template with the property is read wherever one is read behind trivia. -/
def ReadsTemplate (home : List String) (P : Concrete.Template → Prop) : Prop :=
  ∀ s T t, (triviaPart blockComment).Fails s → (templateItem home (bodyItem home)).Yields s T t →
    ∃ C : Concrete.Template, s.Reads C.text t ∧ T = C.tree home s.position ∧ P C

theorem entry_reads {T : Template} (hP : ReadsTemplate home P)
    (h : (trivia >>= fun _ => templateItem home (bodyItem home)).Yields s T t) :
    ∃ e : Entry, s.Reads (e.lead.chars ++ e.template.text) t ∧
      T = e.template.tree home (s.position.after e.lead.chars) ∧ P e.template := by
  obtain ⟨_, u, htrivia, hT⟩ := yields_bind.1 h
  obtain ⟨lead, hlead, hl⟩ := trivia_spelled (fun _ _ _ => blockComment_spelled)
    (fun _ => ne_nil_of_blockComment) htrivia
  have hstop := trivia_stops (fun _ _ _ => blockComment_spelled)
    (fun _ => ne_nil_of_blockComment) htrivia
  obtain ⟨C, hr, rfl, hC⟩ := hP _ _ _ hstop hT
  obtain ⟨c, rest, hc⟩ := template_text_ne_nil C
  rw [isEmpty_of_reads (hc ▸ hr)] at hl
  refine ⟨⟨⟨lead, hl⟩, C⟩, hlead.trans hr, ?_, hC⟩
  rw [hlead.position]

theorem entries_reads {templates : List Template} (hP : ReadsTemplate home P)
    (h : (many (trivia >>= fun _ => templateItem home (bodyItem home))).Yields s templates t) :
    ∃ es, s.Reads (entriesText es) t ∧ templates = entriesTree home s.position es ∧
      ∀ e ∈ es, P e.template := by
  refine h.many_induction (P := fun s templates t => ∃ es, s.Reads (entriesText es) t ∧
    templates = entriesTree home s.position es ∧ ∀ e ∈ es, P e.template)
    (fun s => ⟨[], .refl s, rfl, by simp⟩) ?_
  rintro s T u Ts t hT ⟨es, hes, rfl, hrest⟩
  obtain ⟨e, he, rfl, hfirst⟩ := entry_reads hP hT
  have hr := he.trans hes
  rw [List.append_assoc] at hr
  refine ⟨e :: es, hr, ?_, List.forall_mem_cons.2 ⟨hfirst, hrest⟩⟩
  rw [he.position, Position.after_append]
  rfl

/-- The sections of a file, in the order in which they are read. -/
theorem file_sections {program : Program} (h : (file home).Yields s program t) :
    ∃ (path : List String) (T : Template) (Ts : List Template) (u₁ u₂ u₃ u₄ : Cursor),
      fileTrivia.Yields s () u₁ ∧ namespaceTag.Yields u₁ path u₂ ∧
      (trivia >>= fun _ => templateItem home (bodyItem home)).Yields u₂ T u₃ ∧
      (many (trivia >>= fun _ => templateItem home (bodyItem home))).Yields u₃ Ts u₄ ∧
      trivia.Yields u₄ () t ∧ t.rest = [] ∧
      program = ⟨⟨u₁.position, u₄.position⟩, path, T :: Ts⟩ := by
  simp only [file, yields_bind, yields_marked, yields_many1, yields_endOfInput, yields_pure] at h
  obtain ⟨_, u₁, htrivia, _, u₄, ⟨_, ⟨path, u₂, htag, _, _, ⟨T, u₃, Ts, hT, hTs, rfl⟩, rfl, rfl⟩,
    rfl⟩, _, _, hfinal, -, _, ⟨hend, rfl⟩, rfl, rfl⟩ := h
  exact ⟨path, T, Ts, u₁, u₂, u₃, u₄, htrivia, htag, yields_bind.2 hT, hTs, hfinal, hend, rfl⟩

theorem file_reads {text : List Char} {program : Program} (hP : ReadsTemplate home P)
    (hhome : fileHeader.Yields (.ofChars text) home s)
    (h : (file home).Yields (.ofChars text) program t) :
    ∃ f : Concrete.File, f.text = text ∧ f.program = program ∧ ∀ e ∈ f.entries, P e.template := by
  simp only [fileHeader, yields_bind] at hhome
  obtain ⟨_, u₀, htrivia, hname⟩ := hhome
  obtain ⟨path, T, Ts, u₁, u₂, u₃, u₄, htrivia', hname', hT, hTs, hfinal, hend, rfl⟩ :=
    file_sections h
  obtain ⟨-, rfl⟩ := htrivia.unique htrivia'
  obtain ⟨rfl, rfl⟩ := hname.unique hname'
  obtain ⟨lead, hlead, hl⟩ := trivia_spelled (fun _ _ _ => anyBlockComment_spelled)
    (fun _ => ne_nil_of_anyComment) htrivia
  obtain ⟨tag, htag, rfl⟩ := namespaceTag_spelled hname
  obtain ⟨e, he, rfl, hfirst⟩ := entry_reads hP hT
  obtain ⟨es, hes, rfl, hrest⟩ := entries_reads hP hTs
  obtain ⟨final, hlast, hf⟩ := trivia_spelled (fun _ _ _ => blockComment_spelled)
    (fun _ => ne_nil_of_blockComment) hfinal
  rw [isEmpty_of_reads htag] at hl
  rw [hend] at hf
  have hentries : s.Reads (entriesText (e :: es)) u₄ := by
    have := he.trans hes
    rwa [List.append_assoc] at this
  have hbody := htag.trans hentries
  have hr := hlead.trans (hbody.trans hlast)
  refine ⟨⟨⟨lead, hl⟩, tag, e :: es, by simp, ⟨final, hf⟩⟩, ?_, ?_,
    List.forall_mem_cons.2 ⟨hfirst, hrest⟩⟩
  · have htext := hr.rest
    rw [hend, List.append_nil, List.append_assoc] at htext
    exact htext.symm
  · simp only [File.program, entriesTree, markAt, Position.after_append, hbody.position,
      he.position, htag.position, hlead.position]
    rfl

end Reads

theorem readsTemplate : ReadsTemplate home fun _ => True := by
  intro s T t _ h
  obtain ⟨C, hr, htree⟩ := templateItem_spelled (bodyItem_spelled home) h
  exact ⟨C, hr, htree, trivial⟩

end Files

section Parse

variable {text : List Char} {options : Options} {program : Program}

theorem parseChars_ok_iff : parseChars text options = .ok program ↔
    (∃ depth, Nesting.check text options.maxDepth = .ok depth) ∧
      ∃ home s t, fileHeader.Yields (.ofChars text) home s ∧
        (file home).Yields (.ofChars text) program t := by
  simp only [parseChars, Rule.parse]
  constructor
  · intro h
    cases hn : Nesting.check text options.maxDepth with
    | error offset => simp [hn] at h
    | ok depth =>
      cases hh : fileHeader (.ofChars text) with
      | fail e => simp [hn, hh] at h
      | ok home s hint =>
        cases hf : file home (.ofChars text) with
        | fail e => simp [hn, hh, hf] at h
        | ok program' t hint' =>
          simp only [hn, hh, hf, Except.ok.injEq] at h
          subst h
          exact ⟨⟨depth, rfl⟩, home, s, t, ⟨hint, hh⟩, hint', hf⟩
  · rintro ⟨⟨depth, hn⟩, home, s, t, ⟨hint, hh⟩, hint', hf⟩
    simp only [hn, hh, hf]

theorem parse_written {P : Concrete.Template → Prop} (hP : ∀ home, ReadsTemplate home P)
    (h : parseChars text options = .ok program) :
    ∃ f : Concrete.File, f.text = text ∧ f.program = program ∧ ∀ e ∈ f.entries, P e.template := by
  obtain ⟨-, home, s, t, hh, hf⟩ := parseChars_ok_iff.1 h
  exact file_reads (hP home) hh hf

/-- Whatever is parsed is written, down to the last character. -/
theorem parse_spelled (h : parseChars text options = .ok program) :
    ∃ f : Concrete.File, f.text = text ∧ f.program = program := by
  obtain ⟨f, htext, hprogram, -⟩ := parse_written (fun _ => readsTemplate) h
  exact ⟨f, htext, hprogram⟩

theorem exists_program (source : String) (options : Options)
    (h : (parseWith source options).isOk = true) : ∃ program, parseWith source options = .ok program := by
  cases hp : parseWith source options with
  | error e => simp [hp, Except.isOk, Except.toBool] at h
  | ok program => exact ⟨program, rfl⟩

/-- Whether a source is parsed and its program has this property. -/
def parsesTo (source : String) (p : Program → Bool) : Bool :=
  match parseWith source {} with
  | .ok program => p program
  | .error _ => false

theorem exists_program_of {source : String} {p : Program → Bool} (h : parsesTo source p = true) :
    ∃ program, parseWith source {} = .ok program ∧ p program = true := by
  unfold parsesTo at h
  split at h
  · exact ⟨_, by assumption, h⟩
  · cases h

end Parse

end SoyTree.Grammar
