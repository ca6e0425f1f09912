import SoyTree.Proofs.Apart.File

/-! # Doc blocks

Whether the lines of a doc block are read as they are written does not depend on what stands behind the
block, so that a doc block that was read once is read wherever it stands.
-/

namespace SoyTree.Grammar

open Rule Cursor Concrete

variable {s s' t t' u : Cursor} {d : Unit} {content m tail : List Char}

/-- A line of a doc block ends at the cursor. -/
def EndsLine (t : Cursor) : Prop :=
  t.rest.head? = some '\n' ∨ "*/".toList <+: t.rest

theorem endsLine_iff : EndsLine t ↔ ∃ d u, docLineEnd.Yields t d u := by
  rw [← not_fails_iff, docLineEnd, fails_either, fails_char, fails_text, EndsLine]
  tauto

theorem EndsLine.head (h : EndsLine t) : t.rest.head? = some '\n' ∨ t.rest.head? = some '*' := by
  rcases h with h | ⟨rest, h⟩
  · exact Or.inl h
  · exact Or.inr (by rw [← h]; rfl)

section Tail

theorem yields_docTail : (rawUntil docLineEnd).Yields s tail t ↔
    s.Reads tail t ∧ EndsLine t ∧ '\n' ∉ tail ∧ Unended (tail ++ ['*']) := by
  rw [yields_rawUntil, endsLine_iff]
  constructor
  · rintro ⟨hr, hend, hmiss⟩
    refine ⟨hr, hend, ?_, unended_of_misses fun a b hab hb => (fails_either.1 (hmiss a b hab hb)).2⟩
    exact misses_char.1 fun a b hab hb => (fails_either.1 (hmiss a b hab hb)).1
  · rintro ⟨hr, hend, hbreak, hopen⟩
    have hslash : t.rest.head? ≠ some '/' := by
      rcases (endsLine_iff.2 hend).head with h | h <;> simp [h]
    refine ⟨hr, hend, fun a b hab hb => fails_either.2 ⟨?_, ?_⟩⟩
    · exact misses_char.2 hbreak a b hab hb
    · exact misses_of_unended hopen hslash a b hab hb

end Tail

section Margin

/-- Blanks and a star, unless the star starts the end of the block. -/
def Margin (m behind : List Char) : Prop :=
  ∃ cs : List Char, (∀ c ∈ cs, inlineBlank.accepts c = true) ∧
    (m = cs ++ ['*'] ∧ (∃ c ∈ behind.head?, c ≠ '/') ∨
      m = cs ∧ (∀ c ∈ behind.head?, inlineBlank.accepts c = false) ∧
        ∀ c rest, behind = '*' :: c :: rest → c = '/')

theorem yields_docMargin : docMargin.Yields s d u ↔ ∃ m, s.Reads m u ∧ Margin m u.rest := by
  simp only [docMargin, yields_bind, yields_run, yields_void, yields_maybe, yields_char,
    yields_ahead, yields_one, fails_bind, fails_char, fails_ahead, fails_one]
  constructor
  · rintro ⟨cs, v, ⟨hr, hcs, hstop⟩, _, ⟨c, -, -, w, hs, rfl, x, hc, hx⟩ | ⟨-, rfl, hfails⟩⟩
    · refine ⟨cs ++ ['*'], hr.trans hs, cs, hcs, Or.inl ⟨rfl, c, ?_, ?_⟩⟩
      · rw [hx.rest]
        rfl
      · simpa [CharClass.noneOf] using hc
    · refine ⟨cs, hr, cs, hcs, Or.inr ⟨rfl, hstop, fun c rest hrest => ?_⟩⟩
      rcases hfails with hfails | ⟨-, w, hs, hfails⟩
      · exact absurd (by rw [hrest]; rfl) hfails
      · have hc : w.rest = c :: rest := by
          have := hs.rest
          rw [hrest] at this
          exact (List.cons.inj this).2.symm
        have hslash := hfails c (by rw [hc]; rfl)
        simpa [CharClass.noneOf] using hslash
  · rintro ⟨m, hr, cs, hcs, ⟨rfl, c, hc, hslash⟩ | ⟨rfl, hstop, hslash⟩⟩
    · obtain ⟨v, hr, hs⟩ := hr.split
      refine ⟨cs, v, ⟨hr, hcs, hs.forall_cons (by decide)⟩, some c, Or.inl ⟨c, rfl, (), u, hs, rfl, ?_⟩⟩
      obtain ⟨rest, hrest⟩ : ∃ rest, u.rest = c :: rest := by
        cases hu : u.rest with
        | nil => simp [hu] at hc
        | cons e rest => exact ⟨rest, by simpa [hu] using hc⟩
      exact ⟨⟨u.position.next c, rest⟩, by simpa [CharClass.noneOf] using hslash, hrest, rfl⟩
    · refine ⟨m, u, ⟨hr, hcs, hstop⟩, none, Or.inr ⟨rfl, rfl, ?_⟩⟩
      by_cases hstar : u.rest.head? = some '*'
      · obtain ⟨rest, hrest⟩ : ∃ rest, u.rest = '*' :: rest := by
          cases hu : u.rest with
          | nil => simp [hu] at hstar
          | cons e rest => exact ⟨rest, by simpa [hu] using hstar⟩
        refine Or.inr ⟨(), ⟨u.position.next '*', rest⟩, ⟨hrest, rfl⟩, fun c hc => ?_⟩
        obtain ⟨more, hmore⟩ : ∃ more, rest = c :: more := by
          cases rest with
          | nil => cases hc
          | cons e more => exact ⟨more, by simpa using hc⟩
        obtain rfl := hslash c more (by rw [hrest, hmore])
        decide
      · exact Or.inl hstar

theorem Margin.behind (h : Margin m (content ++ t.rest)) (hopen : Unended (content ++ ['*']))
    (ht : EndsLine t) (ht' : EndsLine t') : Margin m (content ++ t'.rest) := by
  obtain ⟨cs, hcs, h⟩ := h
  refine ⟨cs, hcs, ?_⟩
  match content with
  | [] =>
    rcases h with ⟨rfl, -⟩ | ⟨rfl, -, -⟩
    · left
      rcases ht'.head with hhead | hhead
      · exact ⟨rfl, '\n', hhead, by decide⟩
      · exact ⟨rfl, '*', hhead, by decide⟩
    · right
      refine ⟨rfl, fun c hc => ?_, fun c rest hrest => ?_⟩
      · rcases ht'.head with hhead | hhead
        · obtain rfl := Option.mem_unique hc hhead
          decide
        · obtain rfl := Option.mem_unique hc hhead
          decide
      · rw [List.nil_append] at hrest
        rcases ht' with hhead | ⟨more, hmore⟩
        · rw [hrest] at hhead
          cases hhead
        · rw [hrest] at hmore
          exact (List.cons.inj (List.cons.inj hmore).2).1.symm
  | [x] =>
    rcases h with ⟨rfl, c, hc, hslash⟩ | ⟨rfl, hstop, hslash⟩
    · exact Or.inl ⟨rfl, c, hc, hslash⟩
    · refine Or.inr ⟨rfl, hstop, fun c rest hrest => ?_⟩
      obtain rfl : x = '*' := (List.cons.inj hrest).1
      -- the star would have been part of the margin
      cases hrest' : t.rest with
      | nil => rcases ht.head with h | h <;> simp [hrest'] at h
      | cons e more =>
        obtain rfl := hslash e more (by simp [hrest'])
        rcases ht.head with h | h <;> simp [hrest'] at h
  | x :: y :: content =>
    rcases h with ⟨rfl, c, hc, hslash⟩ | ⟨rfl, hstop, hslash⟩
    · exact Or.inl ⟨rfl, c, hc, hslash⟩
    · refine Or.inr ⟨rfl, hstop, fun c rest hrest => ?_⟩
      obtain ⟨rfl, hmore⟩ := List.cons.inj hrest
      obtain ⟨rfl, -⟩ := List.cons.inj hmore
      exact hslash y (content ++ t.rest) rfl

end Margin

section Mentions

theorem unended_append_of_plain {a b : List Char} (ha : '*' ∉ a) (hb : Unended b) :
    Unended (a ++ b) := by
  induction a with
  | nil => exact hb
  | cons c a ih =>
    simp only [List.mem_cons, not_or] at ha
    exact List.isChain_cons.2 ⟨fun d _ hstar => ha.1 hstar.1.symm, ih ha.2⟩

/-- The parts of a line that names a parameter: blanks, the name, and the rest of the line. -/
structure Mention where
  cs : List Char
  optional : Bool
  gap : List Char
  name : Word
  tail : List Char
  blank : ∀ c ∈ cs ++ gap, inlineBlank.accepts c = true
  nonempty : gap ≠ []
  apart : ∀ c ∈ tail.head?, isWordPart c = false
  line : '\n' ∉ tail
  unended : Unended (tail ++ ['*'])

namespace Mention

def chars (x : Mention) : List Char :=
  DocLine.mention x.optional x.gap x.name

def text (x : Mention) : List Char :=
  x.cs ++ (x.chars ++ x.tail)

theorem plain (x : Mention) {c : Char} (hc : c = '\n' ∨ c = '*') : c ∉ x.cs ++ x.chars := by
  have hblank : c ∉ x.cs ++ x.gap := fun hmem => by
    rcases hc with rfl | rfl <;> exact absurd (x.blank _ hmem) (by decide)
  have hword : c ∉ x.name.chars := fun hmem => by
    rcases hc with rfl | rfl <;> exact absurd (x.name.isWordPart _ hmem) (by decide)
  have hcommand : c ∉ "@param".toList ∧ c ≠ '?' := by
    rcases hc with rfl | rfl <;> decide
  simp only [List.mem_append, not_or] at hblank
  simp only [chars, DocLine.mention_eq, List.mem_append, not_or]
  refine ⟨hblank.1, hcommand.1, ?_, hblank.2, hword⟩
  split
  · simpa using hcommand.2
  · simp

theorem text_line (x : Mention) : '\n' ∉ x.text := by
  rw [text, ← List.append_assoc]
  exact List.not_mem_append (x.plain (Or.inl rfl)) x.line

theorem text_unended (x : Mention) : Unended (x.text ++ ['*']) := by
  rw [text, ← List.append_assoc, List.append_assoc]
  exact unended_append_of_plain (x.plain (Or.inr rfl)) x.unended

def decl (x : Mention) (p : Position) : ParamDecl :=
  ⟨markAt (p.after x.cs) x.chars, !x.optional, String.ofList x.name.chars, docParamType⟩

end Mention

theorem yields_docParam {decl : ParamDecl} : docParam.Yields s decl t ↔
    ∃ optional gap name, s.Reads (DocLine.mention optional gap name) t ∧ gap ≠ [] ∧
      (∀ c ∈ gap, inlineBlank.accepts c = true) ∧ (∀ c ∈ t.rest.head?, isWordPart c = false) ∧
      decl = ⟨⟨s.position, t.position⟩, !optional, String.ofList name.chars, docParamType⟩ := by
  constructor
  · exact docParam_reads
  · rintro ⟨optional, gap, name, hr, hne, hgap, hstop, rfl⟩
    simp only [docParam, yields_marked, yields_bind, yields_text, yields_maybe, yields_char,
      yields_run1, yields_identifier, yields_pure]
    obtain ⟨u₁, hp, hr⟩ := hr.split
    obtain ⟨u₂, hm, hr⟩ := hr.split
    obtain ⟨u₃, hg, hw⟩ := hr.split
    have hmark : ∃ o, (maybe (char '?')).Yields u₁ o u₂ ∧ o.isSome = optional := by
      cases optional with
      | true => exact ⟨some (), yields_maybe.2 (Or.inl ⟨(), rfl, yields_char.2 hm⟩), rfl⟩
      | false =>
        obtain rfl := hm.eq_of_nil
        refine ⟨none, yields_maybe.2 (Or.inr ⟨rfl, rfl, fails_char.2 fun h => ?_⟩), rfl⟩
        refine hg.forall_of_ne_nil (P := (· ≠ '?')) hne (fun c hc h => ?_) '?' h rfl
        exact absurd (hgap c (List.mem_of_mem_head? hc)) (by rw [h]; decide)
    obtain ⟨o, ho, rfl⟩ := hmark
    simp only [yields_maybe, yields_char] at ho
    refine ⟨(o.isSome, String.ofList name.chars), ⟨(), u₁, hp, o, u₂, ho, gap, u₃,
      ⟨hne, hg, hgap, ?_⟩, _, t, ⟨name, hw, rfl, hstop⟩, rfl, rfl⟩, rfl⟩
    refine word_head name hw fun c hc => ?_
    rw [← Bool.not_eq_true]
    intro hblank
    have hblank' : c = ' ' ∨ c = '\t' := by simpa [inlineBlank, CharClass.oneOf] using hblank
    rcases hblank' with rfl | rfl <;> exact absurd hc (by decide)

def docMention : Rule Grammar.DocLine := do
  let _ ← run inlineBlank
  let decl ← docParam
  let _ ← rawUntil docLineEnd
  pure (.param decl)

theorem yields_docMention {line : Grammar.DocLine} : docMention.Yields s line t ↔
    ∃ x : Mention, s.Reads x.text t ∧ EndsLine t ∧ line = .param (x.decl s.position) := by
  simp only [docMention, yields_bind, yields_run, yields_docParam, yields_docTail, yields_pure]
  constructor
  · rintro ⟨cs, u₁, ⟨hcs, hblank, -⟩, _, u₂, ⟨optional, gap, name, hm, hne, hgap, hstop, rfl⟩, tail,
      u₃, ⟨htail, hend, hline, hopen⟩, rfl, rfl⟩
    refine ⟨⟨cs, optional, gap, name, tail, ?_, hne, fun c hc => hstop c ?_, hline, hopen⟩,
      hcs.trans (hm.trans htail), hend, ?_⟩
    · intro c hc
      rcases List.mem_append.1 hc with hc | hc
      · exact hblank c hc
      · exact hgap c hc
    · rw [htail.rest, List.head?_append, Option.mem_def.1 hc]
      rfl
    · rw [Mention.decl, Mention.chars, ← hcs.position, markAt, ← hm.position]
  · rintro ⟨x, hr, hend, rfl⟩
    obtain ⟨u₁, hcs, hr⟩ := hr.split
    obtain ⟨u₂, hm, htail⟩ := hr.split
    have hnext : ∀ c ∈ u₂.rest.head?, isWordPart c = false := by
      refine htail.forall_head x.apart fun c hc => ?_
      rcases hend.head with h | h <;> obtain rfl := Option.mem_unique hc h <;> decide
    refine ⟨x.cs, u₁, ⟨hcs, fun c hc => x.blank c (by simp [hc]), ?_⟩, _, u₂, ⟨x.optional, x.gap,
      x.name, hm, x.nonempty, fun c hc => x.blank c (by simp [hc]), hnext, rfl⟩, x.tail, t,
      ⟨htail, hend, x.line, x.unended⟩, ?_, rfl⟩
    · exact Reads.forall_cons (c := '@') hm (by decide)
    · rw [Mention.decl, ← hcs.position, markAt, ← hm.position]

end Mentions

section Lines

variable {line : Grammar.DocLine}

/-- Whether a line names a parameter does not depend on what stands behind it. -/
theorem docMention_fails (hf : docMention.Fails s) (hr : s.Reads content t) (ht : EndsLine t)
    (hr' : s'.Reads content t') (ht' : EndsLine t') (hline : '\n' ∉ content)
    (hopen : Unended (content ++ ['*'])) : docMention.Fails s' := by
  refine fails_iff.2 fun line u hy => ?_
  obtain ⟨x, hx, hu, -⟩ := yields_docMention.1 hy
  have htail : (rawUntil docLineEnd).Yields s' x.text u :=
    yields_docTail.2 ⟨hx, hu, x.text_line, x.text_unended⟩
  obtain ⟨rfl, -⟩ := htail.unique (yields_docTail.2 ⟨hr', ht', hline, hopen⟩)
  exact (yields_docMention.2 ⟨x, hr, ht, rfl⟩).not_fails hf

theorem readsOpen_of_unended (hr : s.Reads content t) (ht : EndsLine t)
    (hopen : Unended (content ++ ['*'])) : ReadsOpen s content t := by
  refine ⟨hr, misses_of_unended hopen ?_⟩
  rcases ht.head with h | h <;> simp [h]

theorem docMargin_readsOpen (h : docMargin.Yields s d u) :
    ∃ m, ReadsOpen s m u ∧ Margin m u.rest := by
  obtain ⟨m, hm, hmargin⟩ := yields_docMargin.1 h
  obtain ⟨m', hopen⟩ := docMargin_open h
  obtain rfl : m' = m := List.append_cancel_right (hopen.1.rest.symm.trans hm.rest)
  exact ⟨m', hopen, hmargin⟩

theorem docMargin_travels (hmargin : Margin m u.rest) (hr : u.Reads content t) (ht : EndsLine t)
    (hopen : Unended (content ++ ['*'])) {u' : Cursor} (hm : s'.Reads m u')
    (hr' : u'.Reads content t') (ht' : EndsLine t') : docMargin.Yields s' () u' := by
  rw [hr.rest] at hmargin
  refine yields_docMargin.2 ⟨m, hm, ?_⟩
  rw [hr'.rest]
  exact hmargin.behind hopen ht ht'

/-- A line that was read once is read wherever a line of the same text ends. -/
theorem docLine_travels (h : docLine.Yields s line t) :
    ∃ l : Concrete.DocLine, ReadsOpen s l.text t ∧ EndsLine t ∧ line = l.tree s.position ∧
      ∀ s' t', s'.Reads l.text t' → EndsLine t' → docLine.Yields s' (l.tree s'.position) t' := by
  change (docMargin >>= fun _ => choice [docMention, rawUntil docLineEnd >>= fun text =>
    pure (.text (Text.trim text))]).Yields s line t at h
  obtain ⟨_, u, hlead, h⟩ := yields_bind.1 h
  obtain ⟨m, hm, hmargin⟩ := docMargin_readsOpen hlead
  rcases yields_choice_cons.1 h with h | ⟨hf, h⟩
  · obtain ⟨x, hx, hend, rfl⟩ := yields_docMention.1 h
    refine ⟨.param (m ++ x.cs) x.optional x.gap x.name x.tail, ?_, hend, ?_, fun s' t' hr' hend' => ?_⟩
    · have hline := hm.trans (readsOpen_of_unended hx hend x.text_unended)
      rwa [Mention.text, ← List.append_assoc] at hline
    · rw [Mention.decl, hm.1.position, ← Position.after_append]
      rfl
    · have hline : s'.Reads (m ++ x.text) t' := by
        rwa [Concrete.DocLine.text, List.append_assoc] at hr'
      obtain ⟨u', hm', hx'⟩ := hline.split
      refine (docMargin_travels hmargin hx hend x.text_unended hm' hx' hend').bind
        (yields_choice_cons.2 (Or.inl (yields_docMention.2 ⟨x, hx', hend', ?_⟩)))
      rw [Mention.decl, hm'.position, ← Position.after_append]
      rfl
  · rw [choice_singleton] at h
    obtain ⟨content, v, htail, hpure⟩ := yields_bind.1 h
    obtain ⟨rfl, rfl⟩ := yields_pure.1 hpure
    obtain ⟨hr, hend, hline, hopen⟩ := yields_docTail.1 htail
    refine ⟨.prose m content, hm.trans (readsOpen_of_unended hr hend hopen), hend, rfl,
      fun s' t' hr' hend' => ?_⟩
    obtain ⟨u', hm', hx'⟩ := Reads.split (a := m) hr'
    refine (docMargin_travels hmargin hr hend hopen hm' hx' hend').bind
      (yields_choice_cons.2 (Or.inr ⟨docMention_fails hf hr hend hx' hend' hline hopen, ?_⟩))
    exact (yields_docTail.2 ⟨hx', hend', hline, hopen⟩).bind (yields_pure.2 ⟨rfl, rfl⟩)

/-- In front of the end of the block. -/
def EndsDoc (t : Cursor) : Prop :=
  "*/".toList <+: t.rest

theorem moreLines_head (ls : List Concrete.DocLine) (hr : s.Reads (moreLinesText ls) t)
    (ht : EndsDoc t) : EndsLine s := by
  cases ls with
  | nil =>
    obtain rfl := hr.eq_of_nil
    exact Or.inr ht
  | cons l ls => exact Or.inl hr.head_cons

theorem moreLines_travel {lines : List Grammar.DocLine}
    (h : (many (char '\n' >>= fun _ => docLine)).Yields s lines t) :
    ∃ ls, ReadsOpen s (moreLinesText ls) t ∧ lines = moreLinesTree s.position ls ∧
      ∀ s' t', s'.Reads (moreLinesText ls) t' → EndsDoc t' →
        (many (char '\n' >>= fun _ => docLine)).Yields s' (moreLinesTree s'.position ls) t' := by
  refine h.many_induction (P := fun s lines t => ∃ ls, ReadsOpen s (moreLinesText ls) t ∧
    lines = moreLinesTree s.position ls ∧ ∀ s' t', s'.Reads (moreLinesText ls) t' → EndsDoc t' →
      (many (char '\n' >>= fun _ => docLine)).Yields s' (moreLinesTree s'.position ls) t') ?_ ?_
  · intro s
    refine ⟨[], ⟨.refl s, misses_nil⟩, rfl, fun s' t' hr' hend' => ?_⟩
    obtain rfl := hr'.eq_of_nil
    refine Yields.many_nil (Fails.bind (fails_char.2 ?_))
    obtain ⟨rest, hrest⟩ := hend'
    rw [← hrest]
    exact fun h => absurd (Option.some.inj h) (by decide)
  · rintro s line u lines t hline ⟨ls, hls, rfl, htravel⟩
    obtain ⟨_, u₁, hn, hline⟩ := yields_bind.1 hline
    obtain ⟨l, hl, -, rfl, hltravel⟩ := docLine_travels hline
    have hbreak : ReadsOpen s ['\n'] u₁ := ⟨yields_char.1 hn, misses_commentEnd (by decide)⟩
    refine ⟨l :: ls, hbreak.trans (hl.trans hls), ?_, fun s' t' hr' hend' => ?_⟩
    · rw [hl.1.position, hbreak.1.position]
      rfl
    · obtain ⟨v₁, hn', hr'⟩ := Reads.split_cons hr'
      obtain ⟨v, hl', hls'⟩ := hr'.split
      have hy := (char_yields hn').bind (f := fun _ => docLine)
        (hltravel v₁ v hl' (moreLines_head ls hls' hend'))
      rw [hn'.position] at hy
      have hrest := htravel v t' hls' hend'
      rw [hl'.position, hn'.position] at hrest
      exact Yields.many_cons hy ((hn'.trans hl').lt (by simp)) hrest

/-- In front of the end of the block at least an empty line is read. -/
theorem not_fails_docLine (h : EndsDoc s) : ¬ docLine.Fails s := by
  obtain ⟨rest, hs⟩ := h
  have hmargin : Margin [] s.rest := by
    refine ⟨[], by simp, Or.inr ⟨rfl, ?_, fun c more hmore => ?_⟩⟩
    · rw [← hs]
      rintro c (_ | _)
      decide
    · rw [← hs] at hmore
      exact (List.cons.inj (List.cons.inj hmore).2).1.symm
  have htail : (rawUntil docLineEnd).Yields s [] s :=
    yields_docTail.2 ⟨.refl s, Or.inr ⟨rest, hs⟩, by simp, .singleton _⟩
  have hlead : docMargin.Yields s () s := yields_docMargin.2 ⟨[], .refl s, hmargin⟩
  change ¬ (docMargin >>= fun _ => choice [docMention, rawUntil docLineEnd >>= fun text =>
    pure (.text (Text.trim text))]).Fails s
  rw [not_fails_iff]
  rcases yields_or_fails docMention s with ⟨line, t, hy⟩ | hf
  · exact ⟨line, t, hlead.bind (yields_choice_cons.2 (Or.inl hy))⟩
  · exact ⟨_, s, hlead.bind (yields_choice_cons.2 (Or.inr ⟨hf,
      htail.bind (yields_pure.2 ⟨rfl, rfl⟩)⟩))⟩

/-- A doc block that was read once is read wherever its text stands. -/
theorem docBlock_travels {doc : Doc} (h : docBlock.Yields s doc t) :
    ∃ d : DocBlock, s.Reads d.text t ∧ doc = d.tree s.position ∧
      ∀ s' t', s'.Reads d.text t' → docBlock.Yields s' (d.tree s'.position) t' := by
  simp only [docBlock, yields_marked, yields_bind, yields_text, yields_pure] at h
  obtain ⟨lines, ⟨-, u₁, ho, _, u₂, hlines, -, _, hc, rfl, rfl⟩, rfl⟩ := h
  have hend : EndsDoc u₂ := ⟨t.rest, hc.rest.symm⟩
  have hlines' : (sepBy1 docLine (char '\n')).Yields u₁ lines u₂ := by
    rcases yields_sepBy.1 hlines with h | ⟨hf, -, rfl⟩
    · exact h
    · rcases fails_bind.1 hf with hf | ⟨_, _, -, hf⟩
      · exact absurd hf (not_fails_docLine hend)
      · rcases fails_bind.1 hf with hf | ⟨_, _, -, hf⟩
        · exact absurd hf not_fails_many
        · exact absurd hf not_fails_pure
  obtain ⟨line, v, more, hline, hmore, rfl⟩ := yields_sepBy1.1 hlines'
  obtain ⟨l, hl, -, rfl, hltravel⟩ := docLine_travels hline
  obtain ⟨ls, hls, rfl, htravel⟩ := moreLines_travel hmore
  have hopen := hl.trans hls
  have hr := ho.trans (hopen.1.trans hc)
  refine ⟨⟨l :: ls, unended_of_misses hopen.2⟩, hr, ?_, fun s' t' hr' => ?_⟩
  · rw [hr.position, hl.1.position, ho.position]
    rfl
  · obtain ⟨v₁, ho', hrest⟩ := Reads.split (a := "/**".toList) hr'
    obtain ⟨v₂, hlines', hc'⟩ := hrest.split
    obtain ⟨v, hl', hls'⟩ := hlines'.split
    have hend' : EndsDoc v₂ := ⟨t'.rest, hc'.rest.symm⟩
    have hfirst := hltravel v₁ v hl' (moreLines_head ls hls' hend')
    have hmore := htravel v v₂ hls' hend'
    rw [ho'.position] at hfirst
    rw [hl'.position, ho'.position] at hmore
    refine Yields.markedAt (fun mark lines =>
      (⟨mark, docText lines, lines.filterMap Grammar.DocLine.param?⟩ : Doc)) ?_ hr'
    refine Yields.bind (v := ()) (yields_text.2 ho') (Yields.bind ?_ (Yields.bind (v := ())
      (yields_text.2 hc') (yields_pure.2 ⟨rfl, rfl⟩)))
    exact yields_sepBy.2 (Or.inl (yields_sepBy1.2 ⟨_, v, _, hfirst, hmore, rfl⟩))

end Lines

end SoyTree.Grammar
