import SoyTree.Proofs.Apart.Doc

/-! # Whatever is parsed is told apart

Every rule stops where its piece of text has to stop, so nothing in a parsed source runs into its
neighbour: the file that a source is the text of is one whose parts are told apart.
-/

namespace SoyTree.Grammar

open Rule Cursor Concrete

variable {s t u v : Cursor} {home interior : List String} {item : Rule Node} {node : Node}
  {nodes : List Node} {name word : String}

/-- The node is the tree of an item that stands between the cursors and runs into nothing. -/
def SpellsApart (home : List String) (s : Cursor) (node : Node) (t : Cursor) : Prop :=
  ∃ i : Item, s.Reads i.text t ∧ node = i.tree home s.position ∧ i.Apart ∧
    (i.isPlain = true → ∀ c ∈ t.rest.head?, c = '\x7b')

section Leaves

theorem textRun_apart (h : textRun.Yields s node t) : SpellsApart home s node t := by
  obtain ⟨content, hr, hnext, rfl⟩ := textRun_reads h
  refine ⟨.plain content, hr, ?_, trivial, fun _ => hnext⟩
  rw [Item.tree, markAt_of_reads hr]

theorem interpolation_apart (h : interpolation.Yields s node t) : SpellsApart home s node t := by
  obtain ⟨raw, hr, rfl⟩ := interpolation_reads h
  refine ⟨.interpolation raw, hr, ?_, trivial, fun h => nomatch h⟩
  rw [Item.tree, markAt_of_reads hr]

theorem literal_apart (h : literal.Yields s node t) : SpellsApart home s node t := by
  obtain ⟨gap, content, close, hr, htree⟩ := literal_reads home h
  exact ⟨.literal gap content close, hr, htree, trivial, fun h => nomatch h⟩

end Leaves

section Tags

theorem exists_behind_leadWord {text w : List Char} (h : leadWord text = w) (hw : w ≠ []) :
    ∃ behind, text = w ++ behind ∧ ∀ c ∈ behind.head?, isWordPart c = false := by
  cases text with
  | nil => exact absurd h.symm hw
  | cons c rest =>
    rw [leadWord] at h
    split at h
    · subst h
      exact ⟨rest.dropWhile isWordPart, by simp, stop_of_dropWhile rest⟩
    · exact absurd h.symm hw

theorem openTag_of_leadWord {names : List String} (hname : word ∈ names)
    (hw : isWord word.toList = true) (raw : Inserted) (hlead : leadWord raw.chars = word.toList)
    (hr : s.Reads ('\x7b' :: (raw.chars ++ ['\x7d'])) t) : (openTag names).Yields s () t := by
  obtain ⟨behind, hraw, happart⟩ := exists_behind_leadWord hlead (Word.ne_nil ⟨word.toList, hw⟩)
  have hopen : '\x7d' ∉ behind := fun hc => raw.open_ (by simp [hraw, hc])
  refine yields_openTag.2 ⟨word, hname, hw, ⟨⟨behind, hopen⟩, happart⟩, ?_⟩
  rw [hraw, List.append_assoc] at hr
  exact hr

end Tags

section Bodies

theorem bodyPart_congr {item' : Rule Node} {part : Option Node} (h : IsItemFrom home item s)
    (h' : IsItemFrom home item' s) (hy : (bodyPart interior item).Yields s part t) :
    (bodyPart interior item').Yields s part t := by
  rcases bodyPart_cases hy with ⟨rfl, htag⟩ | ⟨node, rfl, htag, hitem⟩
  · exact yields_either.2 (Or.inl (htag.bind (yields_pure.2 ⟨rfl, rfl⟩)))
  · exact bodyPart_item htag (h'.yields (h.yields_bodyItem hitem))

theorem startsPlain_of_brace {body : Body interior} (hr : s.Reads body.text t)
    (h : ∀ c ∈ s.rest.head?, c = '\x7b') : body.startsPlain = false := by
  match body with
  | .nil => rfl
  | .tag _ _ _ _ => rfl
  | .item (.plain content) rest =>
    obtain ⟨c, more, hchars⟩ := List.exists_cons_of_ne_nil content.nonempty
    have hr' : s.Reads (c :: (more ++ rest.text)) t := by
      rw [Body.text, Item.text, hchars] at hr
      exact hr
    obtain rfl := h c hr'.head_cons
    exact absurd (by simp [hchars]) content.plain
  | .item (.interpolation _) _ => rfl
  | .item (.closedCall _) _ => rfl
  | .item (.blockCall _ _ _ _ _) _ => rfl
  | .item (.binding _ _ _) _ => rfl
  | .item (.control _ _ _ _ _) _ => rfl
  | .item (.literal _ _ _) _ => rfl

/-- A tag within a body that a block of the same command could start with would start one. -/
theorem fits_of_content {i : Item} {parts : List (Option Node)} {close : Blanks}
    (hname : ∀ block : Control, block.word = name → block ≠ .literal ∧ interior = block.interior)
    (hr : s.Reads i.text t) (hy : (bodyItem home).Yields s (i.tree home s.position) t)
    (htag : (openTag interior).Fails s)
    (hparts : ∀ item, IsItemFrom home item t → (many (bodyPart interior item)).Yields t parts u)
    (hclose : u.Reads (closeText name close) v) (hi : Interior interior) : i.Fits name interior := by
  cases i with
  | interpolation raw =>
    refine ⟨fun w hw hlead => ?_, fun block hblock hlead => ?_⟩
    · exact (openTag_of_leadWord hw (hi.word hw).1 raw hlead hr).not_fails htag
    · obtain ⟨hparsed, rfl⟩ := hname block hblock
      have hw : isWord name.toList = true := hblock ▸ isWord_control block
      have hcontent := bodyContent_yields hw close hclose
        ⟨parts, hparts _ (isItemFrom_beyond (hr.lt (by simp [Item.text]))), rfl⟩
      have hopen : (openTag [name]).Yields s () t :=
        openTag_of_leadWord (by simp) hw raw hlead hr
      have hopens : Opens s name.toList := hlead ▸ item_opens (i := .interpolation raw) rfl hr
      subst hblock
      have hcontrol := bodyItem_command (control_mem hparsed) hopens
        (yields_closed.2 (yields_marked.2 ⟨_, hopen.bind hcontent, rfl⟩))
      cases (hcontrol.unique hy).1
  | _ => trivial

/-- The parts of a body and its closing tag, where no part runs into the next. -/
theorem bodyContent_apart (hw : isWord name.toList = true) (hi : Interior interior)
    (hname : ∀ block : Control, block.word = name → block ≠ .literal ∧ interior = block.interior)
    (hitem : IsItemFrom home item s) (hin : item.Ensures (SpellsApart home))
    (h : (bodyContent name interior item).Yields s nodes t) :
    ∃ (body : Body interior) (close : Blanks), s.Reads (body.text ++ closeText name close) t ∧
      nodes = body.trees home s.position ∧ body.Apart name := by
  obtain ⟨parts, u, hm, hclose, rfl⟩ := bodyContent_reads h
  obtain ⟨close, hclose⟩ := (yields_closeTag hw).1 hclose
  have hbody : IsItemFrom home item s → u.Reads (closeText name close) t →
      (∀ item, IsItemFrom home item s → (many (bodyPart interior item)).Yields s parts u) ∧
        ∃ body : Body interior, s.Reads body.text u ∧
          parts.filterMap id = body.trees home s.position ∧ body.Apart name := by
    refine hm.many_induction (P := fun s parts u => IsItemFrom home item s →
      u.Reads (closeText name close) t →
        (∀ item, IsItemFrom home item s → (many (bodyPart interior item)).Yields s parts u) ∧
          ∃ body : Body interior, s.Reads body.text u ∧
            parts.filterMap id = body.trees home s.position ∧ body.Apart name) ?_ ?_
    · intro s _ hclose
      exact ⟨fun item hitem => Yields.many_nil (bodyPart_fails hi hclose hitem),
        .nil, .refl s, rfl, trivial⟩
    · intro s part u parts t' hpart ih hitem hclose
      rcases bodyPart_cases hpart with ⟨rfl, htag⟩ | ⟨node, rfl, htag, hy⟩
      · obtain ⟨w, hw, -, args, hr⟩ := yields_openTag.1 htag
        obtain ⟨hmany, rest, hrest, hparts, happart⟩ := ih (hitem.later hr) hclose
        refine ⟨fun item' hitem' => Yields.many_cons (bodyPart_congr hitem hitem' hpart)
          (hr.lt (by simp [tagText])) (hmany item' (hitem'.later hr)), .tag w hw args rest,
          hr.trans hrest, ?_, happart⟩
        rw [hr.position] at hparts
        exact hparts
      · obtain ⟨i, hr, rfl, hiapart, hplain⟩ := hin _ _ _ hy
        obtain ⟨hmany, rest, hrest, hparts, happart⟩ := ih (hitem.later hr) hclose
        have hfits := fits_of_content hname hr (hitem.yields_bodyItem hy) htag hmany hclose hi
        refine ⟨fun item' hitem' => Yields.many_cons (bodyPart_congr hitem hitem' hpart)
          (hr.lt (item_text_ne_nil i)) (hmany item' (hitem'.later hr)), .item i rest,
          hr.trans hrest, ?_, hiapart, hfits, fun hp => startsPlain_of_brace hrest (hplain hp),
          happart⟩
        rw [hr.position] at hparts
        exact congrArg _ hparts
  obtain ⟨-, body, hr, hnodes, happart⟩ := hbody hitem hclose
  exact ⟨body, close, hr.trans hclose, hnodes, happart⟩

theorem bindingValue_apart {value : Value} (hw : isWord word.toList = true)
    (hnone : ∀ block : Control, block.word ≠ word) (hitem : IsItemFrom home item s)
    (hin : item.Ensures (SpellsApart home)) (h : (bindingValue word item).Yields s value t) :
    ∃ b : Binding, s.Reads (b.text word) t ∧ value = b.tree home s.position ∧ b.Apart word := by
  cases bindingValue_reads h with
  | inline gap₁ gap₂ gap₃ head visible value close =>
    obtain ⟨e, he, rfl⟩ := expression_spelled _ _ _ value
    refine ⟨.inline gap₁ gap₂ e gap₃, ?_, ?_, trivial⟩
    · exact Binding.text_inline gap₁ gap₂ gap₃ e ▸ head.trans (he.trans close)
    · rw [Binding.tree, ← head.position]
  | block attrs gap head content =>
    obtain ⟨body, close, hb, rfl, happart⟩ := bodyContent_apart hw
      (fun w hw => absurd hw List.not_mem_nil) (fun block hblock => absurd hblock (hnone block))
      (hitem.later head) hin content
    refine ⟨.block attrs gap body close, ?_, ?_, happart⟩
    · exact Binding.text_block attrs gap body close ▸ head.trans hb
    · rw [Binding.tree, ← head.position]

theorem letBinding_apart (hin : item.Ensures (SpellsApart home))
    (hitem : ∀ {text u}, s.Reads text u → text ≠ [] → IsItemFrom home item u)
    (h : (letBinding item).Yields s node t) : SpellsApart home s node t := by
  obtain ⟨gap, name, value, u, hhead, hvalue, rfl⟩ := letBinding_reads h
  obtain ⟨value, hv, rfl, happart⟩ := bindingValue_apart (by decide)
    (fun block => by cases block <;> decide)
    (hitem hhead (by simp [letHead])) hin hvalue
  have hr := hhead.trans hv
  refine ⟨.binding gap name value, hr, ?_, happart, fun h => nomatch h⟩
  rw [hr.position, hhead.position]
  rfl

theorem controlBlock_apart {block : Control} (hparsed : block ≠ .literal)
    (hin : item.Ensures (SpellsApart home))
    (hitem : ∀ {text u}, s.Reads text u → text ≠ [] → IsItemFrom home item u)
    (h : (controlBlock block item).Yields s node t) : SpellsApart home s node t := by
  obtain ⟨args, nodes, u, ha, hcontent, rfl⟩ := controlBlock_reads h
  have hword : ∀ block' : Control, block'.word = block.word →
      block' ≠ .literal ∧ block.interior = block'.interior := by
    intro block' heq
    have hblock : ∀ a b : Control, a.word = b.word → a = b := by
      intro a b
      cases a <;> cases b <;> decide
    obtain rfl := hblock _ _ heq
    exact ⟨hparsed, rfl⟩
  obtain ⟨body, close, hbody, rfl, happart⟩ := bodyContent_apart (isWord_control block)
    (fun w hw => ⟨block, hw⟩) hword (hitem ha (by simp [tagText])) hin hcontent
  have hr := ha.trans hbody
  refine ⟨.control block hparsed args body close, hr, ?_, happart, by rintro ⟨⟩⟩
  rw [hr.position, ha.position]
  rfl

end Bodies

section Calls

theorem params_apart {params : List Param} (hin : item.Ensures (SpellsApart home))
    (hitem : IsItemFrom home item s)
    (h : (many (blanks >>= fun _ => param item)).Yields s params t) :
    ∃ ps : Params, s.Reads ps.text t ∧ params = ps.trees home s.position ∧ ps.Apart := by
  revert hitem
  refine h.many_induction (P := fun s params t => IsItemFrom home item s →
    ∃ ps : Params, s.Reads ps.text t ∧ params = ps.trees home s.position ∧ ps.Apart)
    (fun s _ => ⟨.nil, .refl s, rfl, trivial⟩) ?_
  rintro s p u ps t hp ih hitem
  obtain ⟨_, u₀, hblanks, hparam⟩ := yields_bind.1 hp
  obtain ⟨lead, hl, -⟩ := yields_blanks.1 hblanks
  obtain ⟨gap, name, value, u₁, hhead, hvalue, rfl⟩ := param_reads hparam
  obtain ⟨value, hv, rfl, happart⟩ := bindingValue_apart (by decide)
    (fun block => by cases block <;> decide)
    (hitem.later (hl.trans hhead)) hin hvalue
  have hr := hhead.trans hv
  obtain ⟨rest, hrest, rfl, hrestApart⟩ := ih (hitem.later (hl.trans hr))
  refine ⟨.cons lead gap name value rest, hl.trans (hr.trans hrest), ?_, happart, hrestApart⟩
  rw [hr.position, hhead.position, hl.position]
  rfl

theorem call_apart (delegate : Bool) (hin : item.Ensures (SpellsApart home))
    (hitem : ∀ {text u}, s.Reads text u → text ≠ [] → IsItemFrom home item u)
    (h : (call home delegate item).Yields s node t) : SpellsApart home s node t := by
  cases callTag_reads h with
  | closed head apart tag =>
    refine ⟨.closedCall head, tag, ?_, apart, fun h => nomatch h⟩
    rw [tag.position]
    rfl
  | block head gap close apart open_ tag content last =>
    obtain ⟨params, hps, rfl, hpsApart⟩ := params_apart hin (hitem tag (by simp)) content
    have hr := tag.trans (hps.trans last)
    rw [List.append_assoc] at hr
    refine ⟨.blockCall head open_ params gap close, hr, ?_, ⟨apart, hpsApart⟩, fun h => nomatch h⟩
    rw [hr.position, tag.position]
    rfl

end Calls

theorem bodyItem_apart (home : List String) : (bodyItem home).Ensures (SpellsApart home) := by
  intro s
  -- as in every recursive rule, items within an item start later
  induction s using rest_induction with
  | h s ih =>
    intro node t hy
    have hin : (beyond s (bodyItem home)).Ensures (SpellsApart home) := fun u node v hy => by
      obtain ⟨hlt, hy⟩ := yields_beyond.1 hy
      exact ih u hlt node v hy
    have hitem : ∀ {text u}, s.Reads text u → text ≠ [] →
        IsItemFrom home (beyond s (bodyItem home)) u :=
      fun hr hne => isItemFrom_beyond (hr.lt hne)
    have hrule : ByRule home (beyond s (bodyItem home)) s node t :=
      byRule_of_choice (yields_bodyItem.1 hy)
    cases hrule with
    | text h => exact textRun_apart h
    | call delegate h => exact call_apart delegate hin hitem h
    | binding h => exact letBinding_apart hin hitem h
    | control block parsed h => exact controlBlock_apart parsed hin hitem h
    | literal h => exact literal_apart h
    | interpolation h => exact interpolation_apart h

section Files

/-- The trivia in front of a doc block would have taken an empty comment. -/
theorem not_emptyComment {text behind : List Char} (hstop : (triviaPart blockComment).Fails s)
    (hr : s.Reads (text ++ behind) t) : ¬ "/**/".toList <+: text := by
  intro hprefix
  obtain ⟨rest, hrest⟩ := hprefix
  rw [← hrest, List.append_assoc] at hr
  obtain ⟨u, hempty, -⟩ := hr.split
  have hcomment : (triviaPart blockComment).Yields s () u := by
    refine yields_choice_cons.2 (Or.inr ⟨fails_void.2 (fails_one.2 ?_), yields_choice_cons.2
      (Or.inr ⟨lineComment_fails hempty (by decide), blockComment_yields (Or.inl rfl) hempty⟩)⟩)
    exact hempty.forall_cons (by decide)
  exact hcomment.not_fails hstop

theorem readsTemplate_apart : ReadsTemplate home Template.Apart := by
  intro s T t hstop h
  obtain ⟨C, hr, htree, hdoc, hbody⟩ := templateItem_reads
    (P := fun delegate body => body.Apart (templateWord delegate))
    (Q := fun d => ∀ s' t' : Cursor, s'.Reads d.text t' → docBlock.Yields s' (d.tree s'.position) t')
    (fun {delegate s _ _} hy => bodyContent_apart (isWord_templateWord delegate)
      (fun w hw => absurd hw List.not_mem_nil)
      (fun block hblock => absurd hblock (by cases delegate <;> cases block <;> decide))
      (fun u _ => rfl) (bodyItem_apart home) hy)
    docBlock_travels h
  refine ⟨C, hr, htree, fun d hd => ⟨hdoc d hd, ?_⟩, hbody⟩
  have htext : C.docText = d.1.text ++ d.2.chars := by
    rw [Template.docText, Option.mem_def.1 hd]
  rw [Template.text, htext, List.append_assoc] at hr
  exact not_emptyComment hstop hr

/-- A parsed source is the text of a file whose parts are told apart. -/
theorem parse_apart {source : String} {options : Options} {program : Program}
    (h : parseWith source options = .ok program) :
    ∃ f : Concrete.File, f.text = source.toList ∧ f.program = program ∧ f.Apart :=
  parse_written (fun _ => readsTemplate_apart) h

end Files

end SoyTree.Grammar
