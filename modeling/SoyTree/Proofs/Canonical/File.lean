import SoyTree.Proofs.Canonical.Body
import SoyTree.Proofs.Grammar.File
import SoyTree.Proofs.Nesting.Scan

/-! # Reading the parts of files back

Declarations, header tags and the namespace tag are read as they are written, and nothing in a body is
taken for a declaration. A file in canonical form has no comments and no doc blocks.
-/

namespace SoyTree

namespace Concrete

def Template.Canonical (t : Template) : Prop :=
  t.doc = none ∧ t.body.Canonical

def Entry.Canonical (e : Entry) : Prop :=
  (∀ c ∈ e.lead.chars, Grammar.blank.accepts c = true) ∧ e.template.Canonical

/-- Blanks only between declarations, and every body in canonical form. -/
structure File.Canonical (f : File) : Prop where
  lead : ∀ c ∈ f.lead.chars, Grammar.blank.accepts c = true
  entries : ∀ e ∈ f.entries, e.Canonical
  final : ∀ c ∈ f.final.chars, Grammar.blank.accepts c = true

end Concrete

namespace Grammar

open Rule Cursor Concrete

variable {s t u : Cursor} {home interior : List String} {item : Rule Node}

section HeaderParams

theorem paramDecl_yields (d : HeaderParam) (hr : s.Reads d.tag t) :
    paramDecl.Yields s ⟨⟨s.position, t.position⟩, !d.optional, String.ofList d.name.chars,
      String.ofList (Text.trim d.type.chars)⟩ t := by
  unfold HeaderParam.tag at hr
  obtain ⟨u₁, hword, hr⟩ := hr.split
  obtain ⟨u₂, hmark, hr⟩ := hr.split
  obtain ⟨u₃, hgap₁, hr⟩ := hr.split
  obtain ⟨u₄, hname, hr⟩ := hr.split
  obtain ⟨u₅, hgap₂, hr⟩ := hr.split
  obtain ⟨u₆, hcolon, htype⟩ := hr.split_cons
  have hmark' : ∃ o, (maybe (char '?')).Yields u₁ o u₂ ∧ o.isNone = !d.optional := by
    cases hd : d.optional with
    | false =>
      rw [hd] at hmark
      obtain rfl := hmark.eq_of_nil
      refine ⟨none, yields_maybe.2 (Or.inr ⟨rfl, rfl, fails_char.2 fun h => ?_⟩), rfl⟩
      rw [hgap₁.rest] at h
      exact d.gap₁.forall_head (P := (· ≠ '?')) _ (fun c hc h => by
        rw [h] at hc; exact absurd hc (by decide)) '?' h rfl
    | true =>
      rw [hd] at hmark
      exact ⟨some (), yields_maybe.2 (Or.inl ⟨(), rfl, yields_char.2 hmark⟩), rfl⟩
  obtain ⟨o, ho, hsome⟩ := hmark'
  have hstop : ∀ c ∈ u₄.rest.head?, isWordPart c = false :=
    hgap₂.forall_head d.gap₂.apart (hcolon.forall_cons (by decide))
  refine yields_marked.2 ⟨(!d.optional, String.ofList d.name.chars, d.type.chars), ?_, rfl⟩
  refine Yields.bind (v := ()) (yields_text.2 hword) (ho.bind ?_)
  refine (blanks1_yields d.gap₁ hgap₁ (word_not_blank d.name hname)).bind ?_
  refine (identifier_yields d.name hname hstop).bind ?_
  refine (blanks_yields d.gap₂ hgap₂ (hcolon.forall_cons (by decide))).bind ?_
  refine (char_yields hcolon).bind ?_
  exact (yields_rawThrough_char.2 ⟨d.type.open_, htype⟩).bind (yields_pure.2 ⟨by rw [hsome], rfl⟩)

theorem headerParam_tag_head (d : HeaderParam) : ∃ rest, d.tag = '\x7b' :: rest := by
  unfold HeaderParam.tag
  exact ⟨_, rfl⟩

theorem headerParam_text_ne_nil (d : HeaderParam) : d.text ≠ [] := by
  obtain ⟨rest, hbrace⟩ := headerParam_tag_head d
  rw [HeaderParam.text, hbrace]
  exact List.append_ne_nil_of_right_ne_nil _ (List.cons_ne_nil _ _)

theorem headerParam_yields (d : HeaderParam) (hr : s.Reads d.text t) :
    (blanks >>= fun _ => paramDecl).Yields s (d.tree s.position) t := by
  obtain ⟨u, hlead, htag⟩ := Reads.split (a := d.lead.chars) hr
  obtain ⟨rest, hbrace⟩ := headerParam_tag_head d
  have hnext : ∀ c ∈ u.rest.head?, blank.accepts c = false := by
    rw [htag.rest, hbrace]
    rintro c (_ | _)
    decide
  rw [HeaderParam.tree, ← hlead.position, markAt_of_reads htag]
  exact (blanks_yields d.lead hlead hnext).bind (paramDecl_yields d htag)

theorem headerParams_yields (ds : List HeaderParam) (hr : s.Reads (headerParamsText ds) t)
    (hend : (blanks >>= fun _ => paramDecl).Fails t) :
    (many (blanks >>= fun _ => paramDecl)).Yields s (headerParamsTree s.position ds) t := by
  induction ds generalizing s with
  | nil =>
    obtain rfl := hr.eq_of_nil
    exact Yields.many_nil hend
  | cons d ds ih =>
    obtain ⟨u, hd, hrest⟩ := Reads.split (a := d.text) hr
    rw [headerParamsTree, ← hd.position]
    exact Yields.many_cons (headerParam_yields d hd) (hd.lt (headerParam_text_ne_nil d)) (ih hrest)

/-- The start of a declaration, up to what ends its command. -/
def StartsParam (text : List Char) : Prop :=
  ∃ c rest, text = '\x7b' :: ("@param".toList ++ c :: rest) ∧ (c = '?' ∨ blank.accepts c = true)

theorem startsParam_of_paramDecl {d : ParamDecl} (h : paramDecl.Yields s d t) :
    StartsParam s.rest := by
  simp only [paramDecl, yields_marked, yields_bind, yields_text, yields_maybe, yields_char,
    yields_blanks1] at h
  obtain ⟨_, ⟨-, u₁, hword, o, u₂, hmark, -, u₃, ⟨gap, hgap, -⟩, -⟩, -⟩ := h
  have hs : s.rest = '\x7b' :: ("@param".toList ++ u₁.rest) := hword.rest
  rcases hmark with ⟨-, -, hmark⟩ | ⟨-, rfl, -⟩
  · exact ⟨'?', u₂.rest, by rw [hs, hmark.rest]; rfl, Or.inl rfl⟩
  · obtain ⟨c, rest, hc⟩ := List.exists_cons_of_ne_nil gap.nonempty
    refine ⟨c, rest ++ u₃.rest, by rw [hs, hgap.rest, hc]; rfl, Or.inr (gap.blank c ?_)⟩
    simp [hc]

theorem not_startsParam_of_opens {w : List Char} (h : Opens s w) (hw : w ≠ []) :
    ¬ StartsParam s.rest := by
  rintro ⟨c, rest, hs, -⟩
  obtain ⟨rest', hs', hlead⟩ := h
  rw [hs] at hs'
  rw [← (List.cons.inj hs').2] at hlead
  exact hw hlead.symm

/-- An interpolation with this start would be a command. -/
theorem not_startsParam_interpolation (raw : Inserted) (rest : List Char) :
    ¬ StartsParam ('\x7b' :: (raw.chars ++ '\x7d' :: rest)) := by
  rintro ⟨c, rest', hs, hc⟩
  have hcommand : isCommandChar c = false := by
    rcases hc with rfl | hc
    · decide
    · exact isCommandChar_of_blank hc
  have hclosed : isCommandChar '\x7d' = false := by decide
  have hraw : raw.chars ++ '\x7d' :: rest = "@param".toList ++ c :: rest' := (List.cons.inj hs).2
  have hword : raw.chars.takeWhile isCommandChar = "@param".toList := by
    rw [← takeWhile_append_stop hclosed, hraw, takeWhile_append_stop hcommand]
    decide
  have hhead : ∀ d ∈ raw.chars.head?, Text.isBlank d = false := by
    intro d hd
    have hd' : d ∈ (raw.chars ++ '\x7d' :: rest).head? := by
      rw [List.head?_append, hd]
      rfl
    rw [hraw] at hd'
    obtain rfl : '@' = d := by simpa using hd'
    decide
  refine (raw.word_free hhead).2 ?_
  rw [hword]
  decide

theorem item_not_startsParam {i : Item} (hp : i.isPlain = false) (hr : s.Reads i.text t) :
    ¬ StartsParam s.rest := by
  have hopens := item_opens hp hr
  cases i with
  | plain content => cases hp
  | interpolation raw =>
    have hs : s.rest = '\x7b' :: (raw.chars ++ '\x7d' :: t.rest) := by
      rw [hr.rest]
      simp [Item.text]
    rw [hs]
    exact not_startsParam_interpolation raw t.rest
  | closedCall head =>
    exact not_startsParam_of_opens hopens (Word.ne_nil ⟨_, isWord_callWord head.delegate⟩)
  | blockCall head open_ params gap close =>
    exact not_startsParam_of_opens hopens (Word.ne_nil ⟨_, isWord_callWord head.delegate⟩)
  | binding gap name value =>
    exact not_startsParam_of_opens hopens (Word.ne_nil ⟨"let".toList, by decide⟩)
  | control block parsed args body close =>
    exact not_startsParam_of_opens hopens (Word.ne_nil ⟨_, isWord_control block⟩)
  | literal gap content close =>
    exact not_startsParam_of_opens hopens (Word.ne_nil ⟨"literal".toList, by decide⟩)

/-- Behind blanks the text does not start with a declaration. -/
def NoParam (text : List Char) : Prop :=
  ∀ b x, (∀ c ∈ b, blank.accepts c = true) → text = b ++ x → ¬ StartsParam x

theorem noParam_of_plain {text : List Char} (h : '\x7b' ∉ text) : NoParam text := by
  rintro b x - rfl ⟨c, rest, rfl, -⟩
  exact h (by simp)

theorem noParam_of_brace {text : List Char} (h : text.head? = some '\x7b')
    (hstart : ¬ StartsParam text) : NoParam text := by
  rintro b x hb rfl
  cases b with
  | nil => exact hstart
  | cons c b =>
    obtain rfl : c = '\x7b' := by simpa using h
    exact absurd (hb '\x7b' (by simp)) (by decide)

theorem noParam_of_close {name : String} {close : Blanks} (hr : s.Reads (closeText name close) t) :
    NoParam s.rest := by
  refine noParam_of_brace hr.head_cons ?_
  rw [hr.rest]
  rintro ⟨c, rest, hx, -⟩
  exact absurd (List.cons.inj (List.cons.inj hx).2).1 (by decide)

theorem noParam_of_tag {word : String} (hi : Interior interior) (hw : word ∈ interior)
    (args : TagArgs) (hr : s.Reads (tagText word args.chars) t) : NoParam s.rest := by
  have hword := (hi.word hw).1
  exact noParam_of_brace hr.head_cons
    (not_startsParam_of_opens (opens_tag hword args hr) (Word.ne_nil ⟨_, hword⟩))

/-- In a text the blanks end within it, or go on behind it. -/
theorem noParam_of_item (i : Item) (hr : s.Reads i.text t) (h : NoParam t.rest) :
    NoParam s.rest := by
  cases hp : i.isPlain with
  | false =>
    obtain ⟨text, htext⟩ := item_text_head hp
    exact noParam_of_brace (Reads.head_cons (htext ▸ hr)) (item_not_startsParam hp hr)
  | true =>
    cases i with
    | plain content =>
      intro b x hb hs
      rcases List.append_eq_append_iff.1 (hr.rest.symm.trans hs) with ⟨z, hz, hx⟩ | ⟨z, hz, hx⟩
      · exact h z x (fun c hc => hb c (by simp [hz, hc])) hx
      · cases z with
        | nil => exact h [] x (by simp) hx.symm
        | cons c z =>
          rintro ⟨d, rest', hstart, -⟩
          rw [hx] at hstart
          obtain rfl : c = '\x7b' := (List.cons.inj hstart).1
          exact content.plain (by simp [show content.chars = _ from hz])
    | _ => cases hp

/-- Behind blanks nothing in a body is the start of a declaration. -/
theorem noParam_of_body (hi : Interior interior) {name : String} {close : Blanks}
    (body : Body interior) {s t u : Cursor} (hr : s.Reads body.text t)
    (hclose : t.Reads (closeText name close) u) : NoParam s.rest := by
  match body with
  | .nil =>
    obtain rfl := hr.eq_of_nil
    exact noParam_of_close hclose
  | .tag word allowed args rest =>
    obtain ⟨v, htag, -⟩ := Reads.split (a := tagText word args.chars) hr
    exact noParam_of_tag hi allowed args htag
  | .item first rest =>
    obtain ⟨v, hfirst, hrest⟩ := Reads.split (a := first.text) hr
    exact noParam_of_item first hfirst (noParam_of_body hi rest hrest hclose)

theorem paramDecl_fails (h : NoParam s.rest) : (blanks >>= fun _ => paramDecl).Fails s := by
  refine fails_iff.2 fun d v hy => ?_
  obtain ⟨_, w, hblanks, hdecl⟩ := yields_bind.1 hy
  obtain ⟨b, hb, -⟩ := yields_blanks.1 hblanks
  exact h b.chars w.rest b.blank hb.rest (startsParam_of_paramDecl hdecl)

end HeaderParams

section Templates

theorem slash_fails {word : String} {rest : List Char} (hw : word.toList = '/' :: rest)
    (h : ∀ c ∈ s.rest.head?, c = '\x7b') : (text word).Fails s := by
  refine fails_text.2 ?_
  rintro ⟨rest', hs⟩
  rw [hw] at hs
  exact absurd (h '/' (by rw [← hs]; rfl)) (by decide)

theorem maybeDoc_yields (h : ∀ c ∈ s.rest.head?, c = '\x7b') :
    (maybe (do let doc ← docBlock; blanks; pure doc)).Yields s none s :=
  yields_maybe.2 (Or.inr ⟨rfl, rfl, Fails.bind (fails_marked.2 (Fails.bind (slash_fails rfl h)))⟩)

theorem templateHead_parts (T : Concrete.Template) (hr : s.Reads T.headText u) :
    ∃ u₁ u₂ u₃ u₄, s.Reads ('\x7b' :: ((templateWord T.delegate).toList ++ T.gap₁.chars)) u₁ ∧
      u₁.Reads T.name.text u₂ ∧ s.Reads T.nameText u₂ ∧ (∀ c ∈ u₂.rest.head?, endsName c) ∧
      u₂.Reads (attrsText T.attrs) u₃ ∧ u₃.Reads T.gap₂.chars u₄ ∧ u₄.Reads ['\x7d'] u := by
  obtain ⟨u₂, hname, hr⟩ := Reads.split (a := T.nameText) hr
  obtain ⟨u₃, hattrs, hr⟩ := hr.split
  obtain ⟨u₄, hgap, hend⟩ := hr.split
  obtain ⟨u₁, hcommand, hn⟩ := Reads.split
    (a := '\x7b' :: ((templateWord T.delegate).toList ++ T.gap₁.chars)) (b := T.name.text)
    (by simpa [Template.nameText] using hname)
  refine ⟨u₁, u₂, u₃, u₄, hcommand, hn, hname, ?_, hattrs, hgap, hend⟩
  rw [hattrs.rest]
  cases T.attrs with
  | nil =>
    refine hgap.forall_head (fun c hc => ?_) (hend.forall_cons ⟨by decide, by decide⟩)
    exact endsName_of_blank (T.gap₂.blank c (List.mem_of_mem_head? hc))
  | cons a attrs =>
    simp only [attrsText, List.flatMap_cons, Attr.text, List.append_assoc]
    exact a.gap.forall_head _ fun c => endsName_of_blank

end Templates

section Trivia

variable {comment : Rule Unit}

theorem triviaPart_fails (hc : comment.Fails s) (h : ∀ c ∈ s.rest.head?, c = '\x7b') :
    (triviaPart comment).Fails s := by
  refine fails_choice_cons.2 ⟨fails_void.2 (fails_one.2 fun c hc => ?_),
    fails_choice_cons.2 ⟨Fails.bind (slash_fails rfl h), hc⟩⟩
  rw [h c hc]
  decide

theorem blockComment_fails (h : ∀ c ∈ s.rest.head?, c = '\x7b') : blockComment.Fails s :=
  fails_either.2 ⟨slash_fails rfl h, Fails.bind (slash_fails rfl h)⟩

theorem anyBlockComment_fails (h : ∀ c ∈ s.rest.head?, c = '\x7b') : anyBlockComment.Fails s :=
  Fails.bind (slash_fails rfl h)

end Trivia

section Namespace

theorem isAlphanumeric_of_isAlphanum {c : Char} (h : c.isAlphanum = true) :
    Text.isAlphanumeric c = true := by
  have hlt : c.toNat < 128 := by
    rw [Char.isAlphanum, Bool.or_eq_true] at h
    rcases h with h | h
    · exact Nat.lt_of_le_of_lt (toNat_of_isAlpha h).2 (by decide)
    · exact Nat.lt_of_le_of_lt (toNat_of_isDigit h).2 (by decide)
  rw [Text.isAlphanumeric, if_pos hlt]
  exact h

theorem path_isPathChar (n : NamespaceTag) : ∀ c ∈ n.path, isPathChar c = true := by
  intro c hc
  rcases n.path_chars c hc with h | rfl
  · simp only [isWordPart, Bool.or_eq_true] at h
    rcases h with h | h
    · simp [isPathChar, isAlphanumeric_of_isAlphanum h]
    · simp [isPathChar, h]
  · decide

theorem not_isPathChar_of_blank {c : Char} (h : blank.accepts c = true) : isPathChar c = false := by
  rcases eq_of_blank h with rfl | rfl | rfl | rfl <;> decide

theorem namespaceExtra_yields (n : NamespaceTag) (hr : s.Reads n.extra.chars t)
    (hend : t.Reads ['\x7d'] u) :
    ∃ o, (maybe (do blanks1; run (.noneOf ['\x7d']))).Yields s o t := by
  cases hextra : n.extra.chars with
  | nil =>
    rw [hextra] at hr
    obtain rfl := hr.eq_of_nil
    have hfails : blanks1.Fails t := fails_blanks1.2 (hend.forall_cons (by decide))
    exact ⟨none, yields_maybe.2 (Or.inr ⟨rfl, rfl, Fails.bind hfails⟩)⟩
  | cons c rest =>
    have hc : blank.accepts c = true := n.apart c (by simp [hextra])
    have hne : n.extra.chars.takeWhile blank.accepts ≠ [] := by simp [hextra, hc]
    let gap : Gap := ⟨⟨n.extra.chars.takeWhile blank.accepts,
      List.all_eq_true.1 List.all_takeWhile⟩, hne⟩
    rw [← List.takeWhile_append_dropWhile (p := blank.accepts) (l := n.extra.chars)] at hr
    obtain ⟨v, hgap, hrest⟩ := hr.split
    have hblank : ∀ d ∈ v.rest.head?, blank.accepts d = false :=
      hrest.forall_head (stop_of_dropWhile _) (hend.forall_cons (by decide))
    have hopen : ∀ d ∈ n.extra.chars.dropWhile blank.accepts,
        (CharClass.noneOf ['\x7d']).accepts d = true := by
      intro d hd
      have hd' : d ≠ '\x7d' := fun h =>
        n.extra.open_ (h ▸ (List.dropWhile_sublist blank.accepts).subset hd)
      simpa [CharClass.noneOf] using hd'
    have hrun := yields_run.2 ⟨hrest, hopen, hend.forall_cons (by decide)⟩
    exact ⟨some _, yields_maybe.2 (Or.inl ⟨_, rfl, (blanks1_yields gap hgap hblank).bind hrun⟩)⟩

theorem namespaceTag_yields (n : NamespaceTag) (hr : s.Reads n.text t) :
    namespaceTag.Yields s n.segments t := by
  obtain ⟨u₁, hcommand, hr⟩ := Reads.split (a := '\x7b' :: ("namespace".toList ++ n.gap.chars))
    (b := n.path ++ (n.extra.chars ++ ['\x7d'])) (by simpa [NamespaceTag.text] using hr)
  obtain ⟨u₂, hpath, hr⟩ := hr.split
  obtain ⟨u₃, hextra, hend⟩ := hr.split
  have hnext : ∀ c ∈ u₁.rest.head?, blank.accepts c = false := by
    refine hpath.forall_of_ne_nil n.path_ne_nil fun c hc => ?_
    rw [← Bool.not_eq_true]
    intro hb
    have hpath := path_isPathChar n c (List.mem_of_mem_head? hc)
    rw [not_isPathChar_of_blank hb] at hpath
    cases hpath
  have hstop : ∀ c ∈ u₂.rest.head?, isPathChar c = false :=
    hextra.forall_head (fun c hc => not_isPathChar_of_blank (n.apart c hc))
      (hend.forall_cons (by decide))
  have hsegments : namespacePath.Yields u₁ n.segments u₂ := by
    refine yields_check.2 ⟨n.path, yields_run1.2 ⟨n.path_ne_nil, hpath, path_isPathChar n, hstop⟩, ?_⟩
    rw [if_pos n.dotted]
    rfl
  obtain ⟨o, ho⟩ := namespaceExtra_yields n hextra hend
  refine command_yields (by decide) n.gap hcommand hnext (hsegments.bind (ho.bind ?_))
  exact (char_yields hend).bind (yields_pure.2 ⟨rfl, rfl⟩)

end Namespace

section Files

theorem templateItem_fails_at_end (hs : s.rest = []) :
    (templateItem home (bodyItem home)).Fails s := by
  have hbrace : ∀ c ∈ s.rest.head?, c = '\x7b' := by simp [hs]
  have hdecl : ∀ word, (documented word (bodyItem home)).Fails s := by
    intro word
    refine Fails.bind_later (maybeDoc_yields hbrace) (Fails.bind (fails_closed.2 (Fails.bind ?_)))
    exact fails_char.2 (by simp [hs])
  refine fails_choice_cons.2 ⟨fails_marked.2 (hdecl _), ?_⟩
  rw [choice_singleton]
  exact fails_marked.2 (hdecl _)

end Files

end Grammar

end SoyTree
