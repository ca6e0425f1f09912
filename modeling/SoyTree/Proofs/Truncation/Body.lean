import SoyTree.Proofs.Grammar.Reports
import SoyTree.Proofs.Truncation.Cut

/-! # Blame within a body

The rules that read a cut-off body blame the innermost block that is open. Blocks in front of the cut
are read as they are written. The alternatives of the block that is cut off refuse its command word,
so that none of them gets as far as the end of the input with another complaint.
-/

namespace SoyTree.Grammar

open Rule Cursor Concrete

variable {s t u v : Cursor} {home interior : List String} {item : Rule Node} {word : String}
  {here opener : Nat}

section Ends

theorem closeTag_ends (name : String) (hs : s.rest = []) : (closeTag name).EndsAt s :=
  (text_ends hs (by decide)).bind

theorem commandRule_ends {x : String × Rule Node} (hx : x ∈ commandRules home item)
    (hs : s.rest = []) : x.2.EndsAt s := by
  have hcommand : ∀ {α : Type} {build : Mark → α → Node} {f : Unit → Rule α},
      (closed (marked build (char '\x7b' >>= f))).EndsAt s :=
    EndsAt.closed (EndsAt.marked (char_ends hs _).bind) hs
  obtain ⟨word, rule⟩ := x
  cases commandRule_of_mem hx with
  | call delegate => exact hcommand
  | binding => exact hcommand
  | control block parsed =>
    have hopen : (openTag [block.word]).EndsAt s := (char_ends hs _).bind
    exact EndsAt.closed (EndsAt.marked hopen.bind) hs
  | literal => exact hcommand

theorem bodyItem_mild_at_end (hs : s.rest = []) : (bodyItem home).FailsMildly s := by
  unfold FailsMildly
  rw [bodyItem_eq]
  refine FailsMildly.choice fun p hp => ?_
  rcases List.mem_cons.1 hp with rfl | hp
  · exact tame_textRun.failsMildly (fails_marked.2 (fails_run1.2 (by simp [hs])))
  rcases List.mem_append.1 hp with hp | hp
  · obtain ⟨x, hx, rfl⟩ := List.mem_map.1 hp
    exact (commandRule_ends hx hs).mildly
  · obtain rfl := List.mem_singleton.1 hp
    refine tame_interpolation.failsMildly (fails_marked.2 (fails_iff.2 fun raw t hy => ?_))
    obtain ⟨raw', hy, -⟩ := yields_check.1 hy
    exact hy.not_fails (Fails.bind (fails_char.2 (by simp [hs])))

theorem IsItemFrom.failsMildly (h : IsItemFrom home item s) (hf : (bodyItem home).FailsMildly s) :
    item.FailsMildly s := by
  unfold FailsMildly
  rwa [h s (Nat.le_refl _)]

theorem IsItemFrom.blames (h : IsItemFrom home item s) (hb : (bodyItem home).BlamesAt s opener) :
    item.BlamesAt s opener := by
  unfold BlamesAt
  rwa [h s (Nat.le_refl _)]

theorem bodyPart_mild_at_end (hitem : IsItemFrom home item s) (hs : s.rest = []) :
    (bodyPart interior item).FailsMildly s := by
  refine FailsMildly.either (FailsMildly.bind ?_)
    (FailsMildly.bind (hitem.failsMildly (bodyItem_mild_at_end hs)))
  exact (tame_openTag interior).failsMildly (openTag_fails_of_text (by simp [hs]))

end Ends

section Words

theorem isWordPart_of_not_command {c : Char} (h : isCommandChar c = false) : isWordPart c = false := by
  rw [← Bool.not_eq_true] at h ⊢
  intro hpart
  simp only [isWordPart, Bool.or_eq_true] at hpart
  refine h ?_
  rcases hpart with hpart | hpart
  · simp [isCommandChar, isAlphanumeric_of_isAlphanum hpart]
  · simp [isCommandChar, hpart]

theorem startsAt_identifier (hw : word ∈ itemWords) (h : Opener.StartsAt ⟨s.offset, word⟩ s) :
    ∃ u v, s.Reads ['\x7b'] u ∧ identifier.Yields u word v ∧
      ∀ c ∈ v.rest.head?, isCommandChar c = false := by
  obtain ⟨-, -, -, behind, hrest, hbehind⟩ := h
  have hword : ∀ w ∈ itemWords, isWord w.toList = true := by decide
  have hopen : s.Reads ['\x7b'] ⟨s.position.next '\x7b', word.toList ++ behind⟩ := ⟨hrest, rfl⟩
  have hread := reads_append (s.position.next '\x7b') word.toList behind
  have hid := identifier_yields ⟨word.toList, hword word hw⟩ hread
    fun c hc => isWordPart_of_not_command (hbehind c hc)
  rw [String.ofList_toList] at hid
  exact ⟨_, _, hopen, hid, hbehind⟩

theorem startsAt_opens (hw : word ∈ itemWords) (h : Opener.StartsAt ⟨s.offset, word⟩ s) :
    Opens s word.toList := by
  obtain ⟨u, v, hopen, hid, -⟩ := startsAt_identifier hw h
  exact (opens_of_identifier hopen hid).1

theorem startsAt_ne (h : Opener.StartsAt ⟨s.offset, word⟩ s) : s.rest ≠ ['\x7b'] := by
  obtain ⟨-, -, hne, behind, hrest, -⟩ := h
  intro hs
  rw [hs] at hrest
  have hnil := (List.cons.inj hrest).2
  exact hne (String.toList_injective (List.append_eq_nil_iff.1 hnil.symm).1)

theorem startsAt_closeTag (name : String) (h : Opener.StartsAt ⟨s.offset, word⟩ s) :
    (closeTag name).FailsMildly s := by
  obtain ⟨-, hchars, hne, behind, hrest, -⟩ := h
  refine (tame_closeTag name).failsMildly (Fails.bind (fails_text.2 ?_))
  rintro ⟨rest, hs⟩
  obtain ⟨c, word', hword⟩ := List.exists_cons_of_ne_nil
    (fun hnil => hne (String.toList_injective hnil) : word.toList ≠ [])
  rw [hrest, hword] at hs
  obtain rfl : '/' = c := (List.cons.inj (List.cons.inj hs).2).1
  exact absurd (hchars '/' (by simp [hword])) (by decide)

theorem startsAt_interpolation (hw : word ∈ itemWords) (h : Opener.StartsAt ⟨s.offset, word⟩ s) :
    interpolation.FailsMildly s := by
  obtain ⟨u, v, hopen, hid, hbehind⟩ := startsAt_identifier hw h
  refine tame_interpolation.failsMildly (fails_iff.2 fun node t hy => ?_)
  obtain ⟨-, c, hc, hcommand⟩ := (interpolation_at_word hw hopen hid).1 ⟨node, t, hy⟩
  rw [hbehind c hc] at hcommand
  cases hcommand

/-- Where the rule for the word at hand blames a block, that blame is heard: the other rules refuse the
word. -/
theorem bodyItem_blames {rule : Rule Node}
    (hx : (word, rule) ∈ commandRules home (beyond s (bodyItem home)))
    (h : Opener.StartsAt ⟨s.offset, word⟩ s) (hb : rule.BlamesAt s opener) :
    (bodyItem home).BlamesAt s opener := by
  have hw : word ∈ itemWords := commandRules_words ▸ List.mem_map_of_mem hx
  have hnodup : ((commandRules home (beyond s (bodyItem home))).map Prod.fst).Nodup := by
    rw [commandRules_words]
    decide
  have hopens := startsAt_opens hw h
  have hother : ∀ x ∈ commandRules home (beyond s (bodyItem home)), x.1 ≠ word →
      x.2.FailsMildly s := fun x hx hne =>
    (commandRule_refuses hx hopens (startsAt_ne h) fun heq =>
      hne (String.toList_injective heq.symm)).mildly
  obtain ⟨before, after, hsplit⟩ := List.append_of_mem hx
  rw [hsplit, List.map_append, List.map_cons, List.nodup_append, List.nodup_cons] at hnodup
  unfold BlamesAt
  rw [bodyItem_eq]
  rw [hsplit] at hother ⊢
  rw [List.map_append, List.map_cons, List.append_assoc, List.cons_append, ← List.cons_append]
  refine BlamesAt.choice (fun q hq => ?_) hb fun q hq => ?_
  · rcases List.mem_cons.1 hq with rfl | hq
    · refine tame_textRun.failsMildly (textRun_fails ?_)
      obtain ⟨rest, hs, -⟩ := hopens
      rw [hs]
      rfl
    · obtain ⟨x, hx, rfl⟩ := List.mem_map.1 hq
      refine hother x (List.mem_append_left _ hx) fun heq => ?_
      exact hnodup.2.2 x.1 (List.mem_map_of_mem hx) word (by simp) heq
  · rcases List.mem_append.1 hq with hq | hq
    · obtain ⟨x, hx, rfl⟩ := List.mem_map.1 hq
      exact hother x (by simp [hx]) fun heq => hnodup.2.1.1 (List.mem_map.2 ⟨x, hx, heq⟩)
    · obtain rfl := List.mem_singleton.1 hq
      exact startsAt_interpolation hw h

end Words

section Blocks

theorem command_stops {α : Type} {rule : Rule α} (hw : isWord word.toList = true) (gap : Gap)
    (hr : s.Reads ('\x7b' :: (word.toList ++ gap.chars)) u)
    (hstop : ∀ c ∈ u.rest.head?, blank.accepts c = false) (h : rule.StopsAt u here opener) :
    (char '\x7b' >>= fun _ => keyword word >>= fun _ => blanks1 >>= fun _ => rule).StopsAt s here
      opener := by
  obtain ⟨u₁, hopen, hr⟩ := hr.split_cons
  obtain ⟨u₂, hword, hgap⟩ := hr.split
  have hapart : ∀ c ∈ u₂.rest.head?, isWordPart c = false := by
    rw [hgap.rest]
    exact gap.forall_head _ fun c => isWordPart_of_blank
  refine StopsAt.bind_later (char_yields hopen) (tame_char _) ?_
  refine StopsAt.bind_later (keyword_yields hw hword hapart) (tame_keyword _) ?_
  exact StopsAt.bind_later (blanks1_yields gap hgap hstop) tame_blanks1 h

theorem ne_nil_of_reads {c : Char} {text : List Char} (hr : s.Reads (c :: text) t) :
    s.rest ≠ [] := by
  rw [hr.rest]
  exact List.cons_ne_nil _ _

theorem call_blames (head : CallHead) (hc : head.Canonical)
    (hopen : head.extra.chars.getLast? ≠ some '/') (hhead : s.Reads head.text u)
    (hend : u.Reads ['\x7d'] t) (hitem : Calm item)
    (h : ManyStops (blanks >>= fun _ => param item) (fun params => blanks >>= fun _ =>
      closeTag (callWord head.delegate) >>= fun _ => pure params) t s.offset opener) :
    (call home head.delegate item).BlamesAt s opener := by
  obtain ⟨u₁, u₂, hcommand, hname, hextra⟩ := callHead_parts hhead
  have hslash : u.rest.head? ≠ some '/' := by
    rw [hend.head_cons]
    decide
  have hclose : callEnd.Yields u () t := by
    refine yields_either.2 (Or.inr ⟨fails_text.2 fun hstart => ?_, char_yields hend⟩)
    rw [hend.rest] at hstart
    exact absurd (List.cons_prefix_cons.1 hstart).1 (by decide)
  refine StopsAt.closed (StopsAt.marked ?_) (ne_nil_of_reads hcommand)
  refine command_stops (isWord_callWord head.delegate) head.gap hcommand
    (name_not_blank head.name hname) ?_
  refine StopsAt.bind_later (templateName_yields head.name hname
    (nameEnds_of_endsName (hextra.forall_head hc (callEnd_head hclose)))) tame_templateName ?_
  refine StopsAt.bind_later (v := (head.extra.chars, ())) (yields_upTo.2 ⟨u, hextra,
    yields_ahead.2 ⟨rfl, t, hclose⟩, misses_callEnd head.extra.open_ fun _ => hopen⟩)
    (Tame.upTo ((tame_text _).either (tame_char _)).ahead) ?_
  refine StopsAt.bind (StopsAt.either_right ?_ ?_)
  · exact FailsShort.bind (FailsShort.bind (char_short (ne_nil_of_reads hend) hslash))
  · exact StopsAt.bind_later (char_yields hend) (tame_char _)
      (h.bind (tame_blanks.bind fun _ => (calm_param hitem).quiet))

theorem blanks_ok (h : blanks.Yields s () u) :
    blanks s = .ok () u (some (unexpected u blank.expected)) := by
  obtain ⟨hint, h⟩ := h
  change Rule.bind (run blank) (fun _ => succeed ()) s = _ at h
  simp only [Rule.bind, run, succeed, Reply.ok.injEq] at h
  obtain ⟨-, rfl, -⟩ := h
  rfl

/-- A block value is told from an inline one in front of the end of the input. -/
theorem inline_short {α : Type} {f : Unit → Rule α} (attrs : List Attr) (gap : Blanks)
    {rest : List Char} (hr : s.Reads (attrsText attrs ++ (gap.chars ++ '\x7d' :: rest)) t) :
    (blanks >>= fun _ => char ':' >>= f).FailsShort s := by
  obtain ⟨u, hblanks, hne, hcolon⟩ := blockValue_blanks attrs gap hr
  have htame : Tame false blanks := tame_blanks
  have hfinish := htame.finish hblanks
  refine FailsShort.bind_later (blanks_ok hblanks) ?_ hfinish (char_short hne hcolon).bind
  rintro h (_ | _)
  rw [← hfinish]
  exact Nat.lt_add_of_pos_right (List.length_pos_iff.2 hne)

theorem blockValue_stops {word : String} (attrs : List Attr) (gap : Blanks)
    (hr : s.Reads (attrsText attrs ++ (gap.chars ++ ['\x7d'])) t)
    (h : (bodyContent word [] item).StopsAt t here opener) :
    (bindingValue word item).StopsAt s here opener := by
  refine StopsAt.either_right (inline_short attrs gap hr) ?_
  obtain ⟨u, hattrs, hr⟩ := hr.split
  obtain ⟨v, hgap, hend⟩ := hr.split
  refine StopsAt.bind_later (attributes_yields attrs hattrs
    (attributes_stop gap (hgap.trans hend))) tame_attributes ?_
  refine StopsAt.bind_later (blanks_yields gap hgap (hend.forall_cons (by decide))) tame_blanks ?_
  exact StopsAt.bind_later (char_yields hend) (tame_char _) h.bind

theorem letBinding_blames (gap : Gap) (name : Word) (hhead : s.Reads (letHead gap name) u)
    (hapart : ∀ c ∈ u.rest.head?, isWordPart c = false)
    (h : (bindingValue "let" item).StopsAt u s.offset opener) :
    (letBinding item).BlamesAt s opener := by
  obtain ⟨v, hcommand, hname⟩ := Reads.split (a := '\x7b' :: ("let".toList ++ gap.chars))
    (b := '$' :: name.chars) (by simpa [letHead] using hhead)
  obtain ⟨w, hdollar, hname⟩ := hname.split_cons
  refine StopsAt.closed (StopsAt.marked ?_) (ne_nil_of_reads hcommand)
  refine command_stops (by decide) gap hcommand (hdollar.forall_cons (by decide)) ?_
  refine StopsAt.bind_later (char_yields hdollar) (tame_char _) ?_
  exact StopsAt.bind_later (identifier_yields name hname hapart) tame_identifier h.bind

theorem param_blames (gap : Gap) (name : Word) (hhead : s.Reads (paramHead gap name) u)
    (hapart : ∀ c ∈ u.rest.head?, isWordPart c = false)
    (h : (bindingValue "param" item).StopsAt u s.offset opener) :
    (param item).BlamesAt s opener := by
  obtain ⟨v, hcommand, hname⟩ := Reads.split (a := '\x7b' :: ("param".toList ++ gap.chars))
    (b := name.chars) (by simpa [paramHead] using hhead)
  refine StopsAt.closed (StopsAt.marked ?_) (ne_nil_of_reads hcommand)
  refine command_stops (by decide) gap hcommand (word_not_blank name hname) ?_
  exact StopsAt.bind_later (identifier_yields name hname hapart) tame_identifier h.bind

theorem controlBlock_blames {block : Control} (args : TagArgs)
    (hr : s.Reads (tagText block.word args.chars) t)
    (h : (bodyContent block.word block.interior item).StopsAt t s.offset opener) :
    (controlBlock block item).BlamesAt s opener := by
  refine StopsAt.closed (StopsAt.marked ?_) (ne_nil_of_reads hr)
  exact StopsAt.bind_later (v := ()) (yields_openTag.2 ⟨_, by simp, isWord_control block, args, hr⟩)
    (tame_openTag _) h

theorem misses_literal (content : LiteralText) (hx : t.rest <+: content.chars)
    (hu : t.Reads t.rest u) : (closeTag "literal").Misses t t.rest u := by
  intro a b hab hb
  refine fails_iff.2 fun d v hy => ?_
  obtain ⟨gap, hclose⟩ := (yields_closeTag (by decide)).1 hy
  have hnil : u.rest = [] := by simpa using hu.rest
  have hb' : b = closeText "literal" gap ++ v.rest := by simpa [hnil] using hclose.rest
  obtain ⟨rest, hrest⟩ := hx
  refine content.open_ a gap (v.rest ++ rest) ?_
  rw [← hrest, hab, hb']
  simp

theorem literal_blames (gap : Blanks) (content : LiteralText) (hr : s.Reads (literalHead gap) t)
    (hx : t.rest <+: content.chars) : literal.BlamesAt s s.offset := by
  have hw : isWord "literal".toList = true := by decide
  obtain ⟨u₁, hopen, hr⟩ := hr.split_cons
  obtain ⟨u₂, hword, hr⟩ := hr.split
  obtain ⟨u₃, hgap, hend⟩ := hr.split
  have hapart : ∀ c ∈ u₂.rest.head?, isWordPart c = false :=
    hgap.forall_head gap.apart (hend.forall_cons (by decide))
  let v : Cursor := ⟨t.position.after t.rest, []⟩
  have hv : t.Reads t.rest v := ⟨by simp [v], rfl⟩
  have hstop : (closeTag "literal").EndsAt v := closeTag_ends _ rfl
  refine StopsAt.closed (StopsAt.marked (Or.inr ⟨rfl, ?_⟩)) (ne_nil_of_reads hopen)
  refine EndsAt.bind_later (char_yields hopen) (tame_char _) ?_
  refine EndsAt.bind_later (keyword_yields hw hword hapart) (tame_keyword _) ?_
  refine EndsAt.bind_later (blanks_yields gap hgap (hend.forall_cons (by decide))) tame_blanks ?_
  refine EndsAt.bind_later (char_yields hend) (tame_char _) ?_
  exact EndsAt.bind (EndsAt.marked (EndsAt.rawUntil hv (misses_literal content hx hv) hstop))

end Blocks

section Parts

variable {β : Type} {name : String} {parts : List (Option Node) → Unit → Rule β}

theorem bodyPart_ends (hitem : IsItemFrom home item s) (hs : s.rest = []) :
    ManyStops (bodyPart interior item) (fun nodes => closeTag name >>= parts nodes) s here here :=
  .nil (bodyPart_mild_at_end hitem hs) fun _ => (closeTag_ends name hs).bind

theorem bodyPart_text (hitem : IsItemFrom home item s) (hcalm : Calm item) (hi : Interior interior)
    (hs : '\x7b' ∉ s.rest) :
    ManyStops (bodyPart interior item) (fun nodes => closeTag name >>= parts nodes) s here here := by
  by_cases hne : s.rest = []
  · exact bodyPart_ends hitem hne
  · let t : Cursor := ⟨s.position.after s.rest, []⟩
    have hr : s.Reads s.rest t := ⟨by simp [t], rfl⟩
    have htext := textRun_yields ⟨s.rest, hne, hs⟩ hr (by simp [t])
    have htag : (openTag interior).Fails s :=
      openTag_fails_of_text fun hhead => hs (List.mem_of_mem_head? hhead)
    exact .cons (bodyPart_item htag (hitem.yields (bodyItem_textRun htext)))
      (calm_bodyPart hcalm hi).quiet (hr.lt hne) (bodyPart_ends (hitem.later hr) rfl)

theorem params_ends (hs : OnlyBlanks s.rest) :
    ManyStops (blanks >>= fun _ => param item) (fun params => blanks >>= fun _ =>
      closeTag word >>= fun _ => pure params) s here here := by
  let t : Cursor := ⟨s.position.after s.rest, []⟩
  have hr : s.Reads s.rest t := ⟨by simp [t], rfl⟩
  have hblanks : blanks.Yields s () t := blanks_yields ⟨s.rest, hs⟩ hr (by simp [t])
  have hparam : (param item).EndsAt t := EndsAt.closed (EndsAt.marked (char_ends rfl _).bind) rfl
  exact .nil (.bind_later hblanks tame_blanks hparam.mildly) fun _ =>
    .bind_later hblanks tame_blanks (closeTag_ends word rfl).bind

end Parts

end SoyTree.Grammar

namespace SoyTree.Concrete

open Rule Cursor Grammar

theorem Body.cutOff_head {interior : List String} {body : Body interior} {here o : Opener}
    {s : Cursor} (h : body.CutOff here s o) (hp : body.startsPlain = false) :
    ∀ c ∈ s.rest.head?, c = '\x7b' := by
  cases body with
  | nil => simp [h.1]
  | item first rest =>
    have hfirst : first.isPlain = false := hp
    rcases h with ⟨hs | ⟨hplain, -⟩, -⟩ | h | ⟨t, hr, -⟩
    · simp [hs]
    · rw [hfirst] at hplain
      cases hplain
    · obtain ⟨-, -, -, -, behind, hrest, -⟩ := Item.startsAt h
      rw [hrest]
      rintro c (_ | _)
      rfl
    · obtain ⟨text, htext⟩ := item_text_head hfirst
      rw [htext] at hr
      exact hr.forall_cons rfl
  | tag word allowed args rest =>
    rcases h with ⟨hs, -⟩ | ⟨t, hr, -⟩
    · simp [hs]
    · exact Reads.forall_cons hr rfl

mutual

/-- Reading a cut-off item blames the innermost block that is open. -/
theorem Item.blames (home : List String) (i : Item) (hc : i.Canonical) {s : Cursor} {o : Opener}
    (h : i.CutOff s o) : (bodyItem home).BlamesAt s o.offset := by
  have hcalm := calm_beyond (calm_bodyItem home) s
  match i with
  | .plain _ => exact h.elim
  | .interpolation _ => exact h.elim
  | .closedCall _ => exact h.elim
  | .blockCall head open_ params gap close =>
    obtain ⟨t, hr, h⟩ := h
    obtain ⟨u, hhead, hend⟩ := hr.split
    have hitem : IsItemFrom home (beyond s (bodyItem home)) t :=
      isItemFrom_beyond (hr.lt (by simp))
    refine bodyItem_blames (call_mem head.delegate) (head.startsAt hr) ?_
    exact call_blames head hc.1 open_ hhead hend hcalm (Params.stops home params hc.2 hitem hcalm h)
  | .binding gap name value =>
    obtain ⟨t, hr, h⟩ := h
    have hitem : IsItemFrom home (beyond s (bodyItem home)) t :=
      isItemFrom_beyond (hr.lt (by simp [letHead]))
    obtain ⟨hapart, hstops⟩ := Binding.stops home "let" value hc hitem hcalm h
    exact bodyItem_blames let_mem (startsAt_gap _ (by decide) gap hr) (letBinding_blames gap name hr hapart hstops)
  | .control block parsed args body close =>
    obtain ⟨hargs, t, hr, h⟩ := h
    have hi : Interior block.interior := fun w hw => ⟨block, hw⟩
    have hitem : IsItemFrom home (beyond s (bodyItem home)) t :=
      isItemFrom_beyond (hr.lt (by simp [tagText]))
    refine bodyItem_blames (Grammar.control_mem parsed) (tag_startsAt control_mem args.toTagRest hargs hr) ?_
    exact controlBlock_blames args hr
      ((Body.stops home hi body hc hitem hcalm h).bind (calm_bodyPart hcalm hi).quiet)
  | .literal gap content close =>
    obtain ⟨t, hr, hx, rfl⟩ := h
    have hstart := tag_startsAt (by decide) gap.args.toTagRest (Nesting.not_command_of_blanks gap) hr
    have hmem : ("literal", literal) ∈ commandRules home (beyond s (bodyItem home)) := by
      simp [commandRules]
    exact bodyItem_blames hmem hstart (literal_blames gap content hr hx)

theorem Binding.stops (home : List String) (word : String) (b : Binding) (hc : b.Canonical)
    {item : Rule Node} {s : Cursor} {here o : Opener} (hitem : IsItemFrom home item s)
    (hcalm : Calm item) (h : b.CutOff here s o) :
    (∀ c ∈ s.rest.head?, isWordPart c = false) ∧
      (bindingValue word item).StopsAt s here.offset o.offset := by
  match b with
  | .inline _ _ _ _ => exact h.elim
  | .block attrs gap body close =>
    obtain ⟨t, hr, h⟩ := h
    refine ⟨blockValue_apart attrs gap hr, blockValue_stops attrs gap hr ?_⟩
    exact (Body.stops home interior_nil body hc (hitem.later hr) hcalm h).bind
      (calm_bodyPart hcalm interior_nil).quiet

theorem Params.stops (home : List String) (ps : Params) (hc : ps.Canonical) {word : String}
    {item : Rule Node} {s : Cursor} {here o : Opener} (hitem : IsItemFrom home item s)
    (hcalm : Calm item) (h : ps.CutOff here s o) :
    ManyStops (blanks >>= fun _ => param item) (fun params => blanks >>= fun _ =>
      closeTag word >>= fun _ => pure params) s here.offset o.offset := by
  match ps with
  | .nil =>
    obtain ⟨hs, rfl⟩ := h
    exact params_ends hs
  | .cons lead gap name value rest =>
    rcases h with ⟨hs, rfl⟩ | ⟨t, u, hlead, hhead, h⟩ | ⟨t, hr, h⟩
    · exact params_ends hs
    · obtain ⟨hapart, hstops⟩ := Binding.stops home "param" value hc.1
        (hitem.later (hlead.trans hhead)) hcalm h
      have hblanks := blanks_yields lead hlead (hhead.forall_cons (by decide))
      have hclose := startsAt_closeTag word (startsAt_gap _ (by decide) gap hhead)
      exact .inner (.bind_later hblanks tame_blanks (param_blames gap name hhead hapart hstops))
        fun _ => .bind_later hblanks tame_blanks hclose.bind
    · obtain ⟨u, hlead, hparam⟩ := hr.split
      obtain ⟨v, hhead, hvalue⟩ := hparam.split
      have hy := param_yields gap name value hhead hvalue
        (hc.1.yields home (by decide) (hitem.later (hlead.trans hhead)) hvalue)
      have hblanks := blanks_yields lead hlead (hhead.forall_cons (by decide))
      exact .cons (hblanks.bind hy) (tame_blanks.bind fun _ => (calm_param hcalm).quiet)
        (hr.lt (by simp [paramHead])) (Params.stops home rest hc.2 (hitem.later hr) hcalm h)

theorem Body.stops {interior : List String} (home : List String) (hi : Interior interior)
    (body : Body interior) (hc : body.Canonical) {β : Type} {name : String}
    {parts : List (Option Node) → Unit → Rule β} {item : Rule Node} {s : Cursor} {here o : Opener}
    (hitem : IsItemFrom home item s) (hcalm : Calm item) (h : body.CutOff here s o) :
    ManyStops (bodyPart interior item) (fun nodes => closeTag name >>= parts nodes) s here.offset
      o.offset := by
  match body with
  | .nil =>
    obtain ⟨hs, rfl⟩ := h
    exact bodyPart_ends hitem hs
  | .item first rest =>
    rcases h with ⟨hs | ⟨hplain, hs⟩, rfl⟩ | h | ⟨t, hr, h⟩
    · exact bodyPart_ends hitem hs
    · exact bodyPart_text hitem hcalm hi (first.brace_notMem hplain hs)
    · obtain ⟨hword, hstart⟩ := Item.startsAt h
      have hblames := hitem.blames (Item.blames home first hc.1 h)
      have htag : (openTag interior).Fails s := by
        refine openTag_fails (startsAt_opens hword hstart) fun w hw heq => ?_
        exact (hi.word hw).2.2 (String.toList_injective heq ▸ hword)
      exact .inner (.either_right ((tame_openTag interior).failsMildly htag).bind hblames.bind)
        fun _ => (startsAt_closeTag name hstart).bind
    · have hbrace : first.isPlain = true → ∀ c ∈ t.rest.head?, c = '\x7b' :=
        fun hp => Body.cutOff_head h (hc.2.1 hp)
      have hy := hitem.yields (hc.1.yields home hr hbrace)
      exact .cons (bodyPart_item (openTag_fails_of_fits (hc.1.fits hi name) hi hr) hy)
        (calm_bodyPart hcalm hi).quiet (hr.lt (item_text_ne_nil first))
        (Body.stops home hi rest hc.2.2 (hitem.later hr) hcalm h)
  | .tag word allowed args rest =>
    rcases h with ⟨hs, rfl⟩ | ⟨t, hr, h⟩
    · exact bodyPart_ends hitem hs
    · exact .cons (bodyPart_tag hi allowed args hr) (calm_bodyPart hcalm hi).quiet
        (hr.lt (by simp [tagText])) (Body.stops home hi rest hc (hitem.later hr) hcalm h)

end

end SoyTree.Concrete
