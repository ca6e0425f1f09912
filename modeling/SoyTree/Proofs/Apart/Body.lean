import SoyTree.Proofs.Coverage
import SoyTree.Proofs.Grammar.Values
import SoyTree.Proofs.Interpolation

/-! # Telling the parts of a body apart

A written body is read as it is written if nothing in it runs into its neighbour: no name goes on
behind a call, no two texts stand side by side, and no interpolation divides the block around it or
starts another block of its command. Of an inline value nothing is asked but that it is read where it
stands.
-/

namespace SoyTree

open Rule Cursor

namespace Concrete

section Apart

/-- In a body of `name` the tag neither divides the block nor opens one that the body's closing tag
would close. -/
def Item.Fits (name : String) (interior : List String) : Item → Prop
  | .interpolation raw =>
    (∀ w ∈ interior, Grammar.leadWord raw.chars ≠ w.toList) ∧
      ∀ block : Control, block.word = name → Grammar.leadWord raw.chars ≠ name.toList
  | _ => True

mutual

/-- Nothing in the item runs into its neighbour. -/
def Item.Apart : Item → Prop
  | .plain _ => True
  | .interpolation _ => True
  | .closedCall head => head.Apart
  | .blockCall head _ params _ _ => head.Apart ∧ params.Apart
  | .binding _ _ value => value.Apart "let"
  | .control block _ _ body _ => body.Apart block.word
  | .literal _ _ _ => True

def Binding.Apart (word : String) : Binding → Prop
  | .inline _ _ _ _ => True
  | .block _ _ body _ => body.Apart word

def Params.Apart : Params → Prop
  | .nil => True
  | .cons _ _ _ value rest => value.Apart "param" ∧ rest.Apart

def Body.Apart (name : String) {interior : List String} : Body interior → Prop
  | .nil => True
  | .item first rest =>
    first.Apart ∧ first.Fits name interior ∧ (first.isPlain = true → rest.startsPlain = false) ∧
      rest.Apart name
  | .tag _ _ _ rest => rest.Apart name

end

end Apart

end Concrete

section Places

variable {s t u : Cursor}

theorem Cursor.Reaches.eq_of_position (ht : s.Reaches t) (hu : s.Reaches u)
    (h : t.position = u.position) : t = u := by
  obtain ⟨a, ha⟩ := ht
  obtain ⟨b, hb⟩ := hu
  have hlength : a.length = b.length := by
    have hindex := congrArg Position.index h
    rw [ha.position, hb.position, Position.index_after, Position.index_after] at hindex
    omega
  have htexts := ha.rest.symm.trans hb.rest
  obtain ⟨position, rest⟩ := t
  obtain ⟨position', rest'⟩ := u
  obtain rfl : position = position' := h
  obtain rfl : rest = rest' := (List.append_inj htexts hlength).2
  rfl

end Places

namespace Grammar

open Concrete

variable {α : Type} {s₀ s t u v : Cursor} {home interior : List String} {item : Rule Node}
  {node : Node} {name word : String}

section Values

variable {es : List SoyTree.Expr}

theorem HasValues.yields {value : Concrete.Expr false} (h : HasValues s₀ es)
    (he : value.tree s.position ∈ es) (hs : s₀.Reaches s) (hr : s.Reads value.text t) :
    Visible s ∧ (expression slashClose).Yields s (value.tree s.position) t := by
  obtain ⟨u, v, hu, hvisible, hy⟩ := h _ he
  obtain ⟨value', hr', htree⟩ := expression_spelled _ _ _ hy
  have hmark : markAt s.position value.text = markAt u.position value'.text := by
    rw [← Expr.mark_tree, ← Expr.mark_tree, htree]
  obtain ⟨hstart, hstop⟩ := Mark.mk.inj hmark
  obtain rfl := hs.eq_of_position hu hstart
  obtain rfl : t = v := hr.reaches.eq_of_position hr'.reaches (by
    rw [hr.position, hr'.position]
    exact hstop)
  exact ⟨hvisible, hy⟩

theorem inlineValue_yields (gap₁ gap₂ gap₃ : Blanks) (value : Concrete.Expr false)
    (hv : HasValues s₀ [value.tree (s.position.after (gap₁.chars ++ ':' :: gap₂.chars))])
    (hs : s₀.Reaches s) (hr : s.Reads ((Binding.inline gap₁ gap₂ value gap₃).text word) t) :
    (bindingValue word item).Yields s
      (.inline (value.tree (s.position.after (gap₁.chars ++ ':' :: gap₂.chars)))) t := by
  obtain ⟨u₁, h₁, hr⟩ := Reads.split (a := gap₁.chars) hr
  obtain ⟨u₂, hcolon, hr⟩ := hr.split_cons
  obtain ⟨u₃, h₂, hr⟩ := hr.split
  obtain ⟨u₄, hvalue, hend⟩ := hr.split
  have hlead : s.Reads (gap₁.chars ++ ':' :: gap₂.chars) u₃ := h₁.trans (hcolon.trans h₂)
  rw [← hlead.position] at hv ⊢
  obtain ⟨hvisible, hy⟩ := hv.yields (by simp) (hs.trans hlead.reaches) hvalue
  refine yields_either.2 (Or.inl ?_)
  refine (blanks_yields gap₁ h₁ (hcolon.forall_cons (by decide))).bind ((char_yields hcolon).bind ?_)
  refine (blanks_yields gap₂ h₂ hvisible).bind (hy.bind ?_)
  exact Yields.bind (v := ()) (yields_slashClose.2 ⟨gap₃, hend⟩) (yields_pure.2 ⟨rfl, rfl⟩)

end Values

section Tags

theorem Opens.unique {w w' : List Char} (h : Opens s w) (h' : Opens s w') : w = w' := by
  obtain ⟨rest, hs, rfl⟩ := h
  obtain ⟨rest', hs', rfl⟩ := h'
  rw [(List.cons.inj (hs.symm.trans hs')).2]

theorem tag_end_unique {a b : List Char} (ha : s.Reads ('\x7b' :: (a ++ ['\x7d'])) t)
    (hb : s.Reads ('\x7b' :: (b ++ ['\x7d'])) u) (hopen : '\x7d' ∉ a) (hopen' : '\x7d' ∉ b) :
    t = u := by
  have htag : ∀ {x : List Char} {w : Cursor}, s.Reads ('\x7b' :: (x ++ ['\x7d'])) w → '\x7d' ∉ x →
      (char '\x7b' >>= fun _ => rawThrough (char '\x7d')).Yields s x w := by
    intro x w hr hx
    obtain ⟨m, hbrace, hrest⟩ := hr.split_cons
    exact (char_yields hbrace).bind (yields_rawThrough_char.2 ⟨hx, hrest⟩)
  exact ((htag ha hopen).unique (htag hb hopen')).2

theorem word_open (h : isWord word.toList = true) : '\x7d' ∉ word.toList := fun hc =>
  absurd (Word.isWordPart ⟨word.toList, h⟩ _ hc) (by decide)

theorem inserted_end_unique {raw : Inserted} (hraw : s.Reads ('\x7b' :: (raw.chars ++ ['\x7d'])) t)
    (hw : isWord word.toList = true) (args : TagArgs) (hr : s.Reads (tagText word args.chars) u) :
    u = t := by
  refine tag_end_unique (a := word.toList ++ args.chars) (by simpa [tagText] using hr) hraw ?_ raw.open_
  exact List.not_mem_append (word_open hw) args.open_

theorem closeTag_fails_of_opens {w : List Char} (hword : isWord word.toList = true)
    (h : Opens s w) (hw : w ≠ []) : (closeTag word).Fails s := by
  refine fails_iff.2 fun d t hy => hw ?_
  obtain ⟨close, hr⟩ := (yields_closeTag hword).1 hy
  exact h.unique (opens_close hr)

theorem closeTag_fails_of_other {close : Blanks} (hname : isWord name.toList = true)
    (hr : s.Reads (closeText name close) t) (hne : word ≠ name) : (closeTag word).Fails s := by
  obtain ⟨u, hbrace, hr⟩ := Reads.split (a := "\x7b/".toList) hr
  obtain ⟨v, hread, hr⟩ := hr.split
  obtain ⟨w, hgap, hend⟩ := hr.split
  have happart : ∀ c ∈ v.rest.head?, isWordPart c = false :=
    hgap.forall_head close.apart (hend.forall_cons (by decide))
  refine Fails.bind_later (v := ()) (yields_text.2 hbrace) (Fails.bind (fails_keyword ?_))
  rw [hread.rest, leadWord_append hname happart]
  exact fun h => hne (String.toList_injective h.symm)

end Tags

section Interpolations

theorem command_fails_joined {f : Unit → Rule α} (hword : word ∈ itemWords) (raw : Inserted)
    (hr : s.Reads ('\x7b' :: (raw.chars ++ ['\x7d'])) t)
    (hf : ∀ (v : Cursor) (c : Char), c ∈ v.rest.head? → isCommandChar c = true → (f ()).Fails v) :
    (char '\x7b' >>= fun _ => keyword word >>= f).Fails s := by
  obtain ⟨u, hbrace, -⟩ := hr.split_cons
  refine Fails.bind_later (char_yields hbrace) ?_
  rcases yields_or_fails (keyword word) u with ⟨_, v, hy⟩ | hfails
  · obtain ⟨hw, hread, hstop⟩ := yields_keyword.1 hy
    have hid : identifier.Yields u word v :=
      yields_identifier.2 ⟨⟨word.toList, hw⟩, hread, by simp, hstop⟩
    obtain ⟨-, c, hc, hcommand⟩ :=
      (interpolation_at_word hword hbrace hid).1 ⟨_, t, interpolation_yields raw hr⟩
    exact Fails.bind_later hy (hf v c hc hcommand)
  · exact Fails.bind hfails

theorem blank_of_isCommandChar {c : Char} (h : isCommandChar c = true) : blank.accepts c = false := by
  rw [← Bool.not_eq_true]
  intro hb
  rw [isCommandChar_of_blank hb] at h
  cases h

theorem fails_blanks1_joined {c : Char} (hc : c ∈ s.rest.head?) (hcommand : isCommandChar c = true) :
    blanks1.Fails s :=
  fails_blanks1.2 fun d hd => by
    obtain rfl := Option.mem_unique hc hd
    exact blank_of_isCommandChar hcommand

theorem spaced_fails_joined {f : Unit → Rule α} {build : Mark → α → Node} (hword : word ∈ itemWords)
    (raw : Inserted) (hr : s.Reads ('\x7b' :: (raw.chars ++ ['\x7d'])) t) :
    (closed (marked build (char '\x7b' >>= fun _ => keyword word >>= fun _ => blanks1 >>= f))).Fails
      s :=
  fails_closed.2 (fails_marked.2 (command_fails_joined hword raw hr
    fun _ _ hc hcommand => Fails.bind (fails_blanks1_joined hc hcommand)))

/-- Where an interpolation stands no command is read, except that a block may be. -/
theorem commandRule_fails_joined {x : String × Rule Node} (hx : x ∈ commandRules home item)
    (raw : Inserted) (hr : s.Reads ('\x7b' :: (raw.chars ++ ['\x7d'])) t)
    (hblock : ∀ block : Control, block ≠ .literal → block.word = x.1 →
      (controlBlock block item).Fails s) : x.2.Fails s := by
  obtain ⟨word, rule⟩ := x
  cases commandRule_of_mem hx with
  | call delegate => exact spaced_fails_joined (callWord_mem_itemWords delegate) raw hr
  | binding => exact spaced_fails_joined (show "let" ∈ itemWords by decide) raw hr
  | control block parsed => exact hblock block parsed rfl
  | literal =>
    refine fails_closed.2 (fails_marked.2 (command_fails_joined (by decide) raw hr
      fun v c hc hcommand => ?_))
    have hstop : ∀ d ∈ v.rest.head?, blank.accepts d = false := fun d hd => by
      obtain rfl := Option.mem_unique hc hd
      exact blank_of_isCommandChar hcommand
    refine Fails.bind_later (blanks_yields noBlanks (.refl v) hstop) (Fails.bind (fails_char.2 ?_))
    intro hclose
    obtain rfl := Option.mem_unique hc hclose
    exact absurd hcommand (by decide)

theorem bodyItem_inserted (raw : Inserted) (hr : s.Reads ('\x7b' :: (raw.chars ++ ['\x7d'])) t)
    (hblock : ∀ block : Control, block ≠ .literal → leadWord raw.chars = block.word.toList →
      (controlBlock block (beyond s (bodyItem home))).Fails s) :
    (bodyItem home).Yields s ((Item.interpolation raw).tree home s.position) t := by
  have hopens : Opens s (leadWord raw.chars) := item_opens (i := .interpolation raw) rfl hr
  rw [yields_bodyItem, ← List.cons_append]
  refine Yields.choice (fun q hq => ?_) (interpolation_yields raw hr)
  rcases List.mem_cons.1 hq with rfl | hq
  · exact textRun_fails hr.head_cons
  · obtain ⟨x, hx, rfl⟩ := List.mem_map.1 hq
    by_cases hw : leadWord raw.chars = x.1.toList
    · exact commandRule_fails_joined hx raw hr fun block hparsed hword =>
        hblock block hparsed (hword ▸ hw)
    · exact commandRule_fails hx hopens hw

/-- A tag whose word is no item word is at most an interpolation. -/
theorem interpolation_of_bodyItem {w : List Char} (hopens : Opens s w)
    (hw : ∀ x ∈ itemWords, w ≠ x.toList) (hy : (bodyItem home).Yields s node t) :
    interpolation.Yields s node t := by
  rcases bodyItem_of_brace hopens.brace hy with ⟨x, hx, hy⟩ | hy
  · have hword : x.1 ∈ itemWords := commandRules_words ▸ List.mem_map_of_mem hx
    exact absurd (commandRule_fails hx hopens (hw x.1 hword)) hy.not_fails
  · exact hy

end Interpolations

section Parts

theorem IsItemFrom.yields_bodyItem (h : IsItemFrom home item s) (hy : item.Yields s node t) :
    (bodyItem home).Yields s node t := by
  unfold Yields at hy ⊢
  rwa [← h s (Nat.le_refl _)]

variable {part : Option Node} {i : Item}

theorem itemWord_mem (hp : i.isPlain = false) (hraw : ∀ raw, i ≠ .interpolation raw) :
    ∃ w ∈ itemWords, itemWord i = w.toList := by
  cases i with
  | plain content => cases hp
  | interpolation raw => exact absurd rfl (hraw raw)
  | closedCall head => exact ⟨_, callWord_mem_itemWords head.delegate, rfl⟩
  | blockCall head open_ params gap close => exact ⟨_, callWord_mem_itemWords head.delegate, rfl⟩
  | binding gap name value => exact ⟨"let", by decide, rfl⟩
  | control block parsed args body close => exact ⟨_, control_mem_itemWords block, rfl⟩
  | literal gap content close => exact ⟨"literal", by decide, rfl⟩

theorem interpolation_of_openTag {d : Unit} (hi : Interior interior) (hr : s.Reads i.text t)
    (h : (openTag interior).Yields s d u) :
    ∃ raw, i = .interpolation raw ∧ (∃ w ∈ interior, leadWord raw.chars = w.toList) ∧ u = t := by
  obtain ⟨w, hw, hword, args, htag⟩ := yields_openTag.1 h
  have hopens := opens_tag hword args htag
  cases hp : i.isPlain with
  | true =>
    cases i with
    | plain content =>
      obtain ⟨c, rest, hchars⟩ := List.exists_cons_of_ne_nil content.nonempty
      have hhead := Reads.head_cons (c := c) (hchars ▸ hr : s.Reads (c :: rest) t)
      rw [htag.head_cons] at hhead
      obtain rfl := Option.some.inj hhead
      exact absurd (by simp [hchars]) content.plain
    | _ => cases hp
  | false =>
    have heq := (item_opens hp hr).unique hopens
    by_cases hraw : ∀ raw, i ≠ .interpolation raw
    · obtain ⟨w', hw', hitem⟩ := itemWord_mem hp hraw
      exact absurd (String.toList_injective (hitem.symm.trans heq) ▸ hw') (hi.word hw).2.2
    · push Not at hraw
      obtain ⟨raw, rfl⟩ := hraw
      exact ⟨raw, rfl, ⟨w, hw, heq⟩, inserted_end_unique hr hword args htag⟩

theorem openTag_fails_of_fits (h : i.Fits name interior) (hi : Interior interior)
    (hr : s.Reads i.text t) : (openTag interior).Fails s := by
  refine fails_iff.2 fun d u hy => ?_
  obtain ⟨raw, rfl, ⟨w, hw, hlead⟩, -⟩ := interpolation_of_openTag hi hr hy
  exact h.1 w hw hlead

/-- Whatever divides the body, a part of it that starts where an item does ends with the item. -/
theorem bodyPart_end_unique (hi : Interior interior) (hr : s.Reads i.text t) (hitem : item.Yields s node t)
    (h : (bodyPart interior item).Yields s part u) : u = t := by
  rcases bodyPart_cases h with ⟨-, htag⟩ | ⟨node', -, -, hitem'⟩
  · obtain ⟨-, -, -, hend⟩ := interpolation_of_openTag hi hr htag
    exact hend
  · exact (hitem'.unique hitem).2

theorem bodyPart_tag_end_unique {interior' : List String} (hi : Interior interior)
    (hword : word ∈ interior) (args : TagArgs) (hr : s.Reads (tagText word args.chars) t)
    (hitem : IsItemFrom home item s) (h : (bodyPart interior' item).Yields s part u) : u = t := by
  obtain ⟨hw, -, hother⟩ := hi.word hword
  rcases bodyPart_cases h with ⟨-, htag⟩ | ⟨node, -, -, hy⟩
  · obtain ⟨word', -, hw', args', hr'⟩ := yields_openTag.1 htag
    refine tag_end_unique (a := word'.toList ++ args'.chars) (b := word.toList ++ args.chars)
      (by simpa [tagText] using hr') (by simpa [tagText] using hr) ?_ ?_
    · exact List.not_mem_append (word_open hw') args'.open_
    · exact List.not_mem_append (word_open hw) args.open_
  · obtain ⟨raw, hraw, -⟩ := yields_interpolation.1
      (interpolation_of_bodyItem (opens_tag hw args hr) (fun w hmem heq =>
        hother (String.toList_injective heq ▸ hmem)) (hitem.yields_bodyItem hy))
    exact (inserted_end_unique hraw hw args hr).symm

theorem bodyContent_fails_here (hpart : (bodyPart interior item).Fails s)
    (hclose : (closeTag word).Fails s) : (bodyContent word interior item).Fails s :=
  Fails.bind_later (Yields.many_nil hpart) (Fails.bind hclose)

theorem bodyContent_fails_behind (hpart : (bodyPart interior item).Yields s part u)
    (hlt : u.rest.length < s.rest.length) (hf : (bodyContent word interior item).Fails u) :
    (bodyContent word interior item).Fails s := by
  rcases fails_bind.1 hf with hf | ⟨parts, v, hparts, hf⟩
  · exact absurd hf not_fails_many
  · have hclose : (closeTag word).Fails v := by
      rcases fails_bind.1 hf with hf | ⟨_, _, -, hf⟩
      · exact hf
      · exact absurd hf not_fails_pure
    exact Fails.bind_later (Yields.many_cons hpart hlt hparts) (Fails.bind hclose)

/-- If what stands behind an item is no content of a command, nothing is from the item on. -/
theorem bodyContent_fails_at_item (hi : Interior interior) (hr : s.Reads i.text t)
    (hy : item.Yields s node t) (hf : (bodyContent word interior item).Fails t) :
    (bodyContent word interior item).Fails s := by
  rcases yields_or_fails (bodyPart interior item) s with ⟨part, v, hpart⟩ | hpart
  · obtain rfl := bodyPart_end_unique hi hr hy hpart
    exact bodyContent_fails_behind hpart (hr.lt (item_text_ne_nil i)) hf
  · -- the item itself is a part of any body
    obtain ⟨-, hfails⟩ := fails_either.1 hpart
    rcases fails_bind.1 hfails with hfails | ⟨_, _, -, hfails⟩
    · exact absurd hfails hy.not_fails
    · exact absurd hfails not_fails_pure

theorem bodyContent_fails_at_tag {name : String} {interior' : List String} (hi : Interior interior)
    (hname : name ∈ interior) (args : TagArgs) (hr : s.Reads (tagText name args.chars) t)
    (hitem : IsItemFrom home item s) (hword : isWord word.toList = true)
    (hf : (bodyContent word interior' item).Fails t) : (bodyContent word interior' item).Fails s := by
  rcases yields_or_fails (bodyPart interior' item) s with ⟨part, v, hpart⟩ | hpart
  · obtain rfl := bodyPart_tag_end_unique hi hname args hr hitem hpart
    exact bodyContent_fails_behind hpart (hr.lt (by simp [tagText])) hf
  · obtain ⟨hisWord, -, -⟩ := hi.word hname
    exact bodyContent_fails_here hpart (closeTag_fails_of_opens hword (opens_tag hisWord args hr)
      (Word.ne_nil ⟨name.toList, hisWord⟩))

/-- A block that starts where an interpolation stands would have its content behind it. -/
theorem controlBlock_fails_behind {block : Control} {raw : Inserted}
    (hr : s.Reads ('\x7b' :: (raw.chars ++ ['\x7d'])) t)
    (hf : (bodyContent block.word block.interior item).Fails t) : (controlBlock block item).Fails s := by
  refine fails_closed.2 (fails_marked.2 ?_)
  rcases yields_or_fails (openTag [block.word]) s with ⟨d, u, hy⟩ | hfails
  · obtain ⟨w, -, hw, args, htag⟩ := yields_openTag.1 hy
    obtain rfl := inserted_end_unique hr hw args htag
    exact Fails.bind_later hy hf
  · exact Fails.bind hfails

end Parts

end Grammar

namespace Concrete

open Grammar

mutual

/-- An item is read as its tree where its inline values are read as theirs. A text has to reach up to
the next brace, or to the end of the input, and no block may start where an interpolation does. -/
theorem Item.Apart.yields (home : List String) (i : Item) (h : i.Apart) {s₀ s t : Cursor}
    (hs : s₀.Reaches s) (hr : s.Reads i.text t)
    (hv : HasValues s₀ (i.tree home s.position).values)
    (hnext : i.isPlain = true → ∀ c ∈ t.rest.head?, c = '\x7b')
    (hblock : ∀ raw, i = .interpolation raw → ∀ block : Control, block ≠ .literal →
      leadWord raw.chars = block.word.toList →
        (controlBlock block (beyond s (bodyItem home))).Fails s) :
    (bodyItem home).Yields s (i.tree home s.position) t := by
  match i with
  | .plain content => exact bodyItem_textRun (textRun_yields content hr (hnext rfl))
  | .interpolation raw => exact bodyItem_inserted raw hr (hblock raw rfl)
  | .closedCall head =>
    obtain ⟨u, hhead, hend⟩ := Reads.split hr
    have hclosed : (text "/\x7d").Yields u () t := yields_text.2 hend
    refine bodyItem_command (call_mem head.delegate) (item_opens rfl hr) ?_
    rw [Item.tree, markAt_of_reads hr]
    refine call_yields head h hhead (yields_either.2 (Or.inl hclosed)) (fun hbrace => ?_)
      (yields_either.2 (Or.inl (hclosed.bind (yields_pure.2 ⟨rfl, rfl⟩))))
    rw [hend.head_cons] at hbrace
    exact absurd hbrace (by decide)
  | .blockCall head open_ params gap close =>
    obtain ⟨u, hhead, hrest⟩ := Reads.split hr
    obtain ⟨v, hopen, hrest'⟩ := hrest.split_cons
    obtain ⟨w, hparams, hclose⟩ := hrest'.split
    have htag : s.Reads (head.text ++ ['\x7d']) v := hhead.trans hopen
    have hslash : (text "/\x7d").Fails u := by
      refine fails_text.2 fun hstart => ?_
      rw [hopen.rest] at hstart
      exact absurd (List.cons_prefix_cons.1 hstart).1 (by decide)
    rw [Item.tree, ← htag.position] at hv ⊢
    have hitems := Params.Apart.yields home params h.2 (hs.trans htag.reaches) hparams hv
      (isItemFrom_beyond (htag.lt (by simp))) (param_fails gap close hclose)
    refine bodyItem_command (call_mem head.delegate) (item_opens rfl hr) ?_
    rw [markAt_of_reads hr]
    refine call_yields head h.1 hhead (yields_either.2 (Or.inr ⟨hslash, char_yields hopen⟩))
      (fun _ => open_) (yields_either.2 (Or.inr ⟨Fails.bind hslash, ?_⟩))
    exact callParams_yields (isWord_callWord head.delegate) gap close hopen hitems hclose
  | .binding gap name value =>
    obtain ⟨u, hhead, hvalue⟩ := Reads.split (a := letHead gap name) hr
    have hitem : IsItemFrom home (beyond s (bodyItem home)) u :=
      isItemFrom_beyond (hhead.lt (by simp [letHead]))
    rw [Item.tree, ← hhead.position] at hv ⊢
    refine bodyItem_command let_mem (item_opens rfl hr) ?_
    rw [markAt_of_reads hr]
    exact letBinding_yields gap name value hhead hvalue (Binding.Apart.yields home (by decide) value h
      (hs.trans hhead.reaches) hvalue hv hitem)
  | .control block parsed args body close =>
    obtain ⟨u, htag, hrest⟩ := Reads.split (a := tagText block.word args.chars) hr
    obtain ⟨v, hbody, hclose⟩ := hrest.split
    have hitem : IsItemFrom home (beyond s (bodyItem home)) u :=
      isItemFrom_beyond (htag.lt (by simp [tagText]))
    rw [Item.tree, ← htag.position] at hv ⊢
    obtain ⟨hparts, -⟩ := Body.Apart.yields home (fun w hw => ⟨block, hw⟩) (isWord_control block) body h
      (hs.trans htag.reaches) hbody hclose hv hitem
    refine bodyItem_command (control_mem parsed) (item_opens rfl hr) ?_
    rw [markAt_of_reads hr]
    refine yields_closed.2 (yields_marked.2 ⟨_, ?_, rfl⟩)
    refine Yields.bind (v := ()) (yields_openTag.2 ⟨_, by simp, isWord_control block, args, htag⟩) ?_
    exact bodyContent_yields (isWord_control block) close hclose hparts
  | .literal gap content close =>
    refine bodyItem_command ?_ (item_opens rfl hr) (literal_yields gap content close hr)
    simp [commandRules]

theorem Binding.Apart.yields (home : List String) {word : String} (hw : isWord word.toList = true)
    (b : Binding) (h : b.Apart word) {s₀ s t : Cursor} (hs : s₀.Reaches s)
    (hr : s.Reads (b.text word) t) (hv : HasValues s₀ (b.tree home s.position).values)
    {item : Rule Node} (hitem : IsItemFrom home item s) :
    (bindingValue word item).Yields s (b.tree home s.position) t := by
  match b with
  | .inline gap₁ gap₂ value gap₃ => exact inlineValue_yields gap₁ gap₂ gap₃ value hv hs hr
  | .block attrs gap body close =>
    refine block_yields attrs gap hr fun u hhead hrest => ?_
    obtain ⟨v, hbody, hclose⟩ := hrest.split
    rw [Binding.tree, ← hhead.position] at hv
    rw [← hhead.position]
    exact bodyContent_yields hw close hclose (Body.Apart.yields home (fun w hw => absurd hw (by simp))
      hw body h (hs.trans hhead.reaches) hbody hclose hv (hitem.later hhead)).1

theorem Params.Apart.yields (home : List String) (ps : Params) (h : ps.Apart) {s₀ s t : Cursor}
    (hs : s₀.Reaches s) (hr : s.Reads ps.text t)
    (hv : HasValues s₀ (Node.paramsValues (ps.trees home s.position))) {item : Rule Node}
    (hitem : IsItemFrom home item s) (hend : (blanks >>= fun _ => param item).Fails t) :
    (many (blanks >>= fun _ => param item)).Yields s (ps.trees home s.position) t := by
  match ps with
  | .nil =>
    obtain rfl := hr.eq_of_nil
    exact Yields.many_nil hend
  | .cons lead gap name value rest =>
    obtain ⟨u, hlead, hr'⟩ := Reads.split (a := lead.chars) hr
    obtain ⟨w, hparam, hrest⟩ := hr'.split
    obtain ⟨v, hhead, hvalue⟩ := hparam.split
    rw [Params.trees, ← hlead.position, ← hparam.position, ← hhead.position] at hv ⊢
    have hs' := hs.trans hlead.reaches
    have hy := param_yields gap name value hhead hvalue
      (Binding.Apart.yields home (by decide) value h.1 (hs'.trans hhead.reaches) hvalue hv.left
        (hitem.later (hlead.trans hhead)))
    rw [markAt_of_reads hparam]
    exact Yields.many_cons ((blanks_yields lead hlead (hhead.forall_cons (by decide))).bind hy)
      ((hlead.trans hparam).lt (by simp [paramHead]))
      (Params.Apart.yields home rest h.2 (hs'.trans hparam.reaches) hrest hv.right
        (hitem.later (hlead.trans hparam)) hend)

/-- In front of the closing tag of `name` a body is read as its trees, and is no content of any other
command. -/
theorem Body.Apart.yields (home : List String) {interior : List String} (hi : Interior interior)
    {name : String} (hw : isWord name.toList = true) (body : Body interior) (h : body.Apart name)
    {s₀ s t u : Cursor} {close : Blanks} (hs : s₀.Reaches s) (hr : s.Reads body.text t)
    (hclose : t.Reads (closeText name close) u)
    (hv : HasValues s₀ (Node.bodyValues (body.trees home s.position))) {item : Rule Node}
    (hitem : IsItemFrom home item s) :
    (∃ parts, (many (bodyPart interior item)).Yields s parts t ∧
      parts.filterMap id = body.trees home s.position) ∧
    ∀ word interior', Interior interior' → isWord word.toList = true → word ≠ name →
      (bodyContent word interior' item).Fails s := by
  match body with
  | .nil =>
    obtain rfl := hr.eq_of_nil
    refine ⟨⟨[], Yields.many_nil (bodyPart_fails hi hclose hitem), rfl⟩, fun word _ hi' _ hne => ?_⟩
    exact bodyContent_fails_here (bodyPart_fails hi' hclose hitem)
      (closeTag_fails_of_other hw hclose hne)
  | .item first rest =>
    obtain ⟨u₁, hfirst, hrest⟩ := Reads.split (a := first.text) hr
    obtain ⟨hapart, hfits, hplain, hbehind⟩ := h
    rw [Body.trees, ← hfirst.position] at hv ⊢
    have hs' := hs.trans hfirst.reaches
    have hlt := hfirst.lt (item_text_ne_nil first)
    have hbrace : first.isPlain = true → ∀ c ∈ u₁.rest.head?, c = '\x7b' := by
      intro hp
      rw [body_head_brace (hplain hp) hrest hclose.head_cons]
      rintro c (_ | _)
      rfl
    have hinner := (Body.Apart.yields home hi hw rest hbehind hs' hrest hclose hv.right
      (isItemFrom_beyond hlt)).2
    have hy := hitem.yields (Item.Apart.yields home first hapart hs hfirst hv.left hbrace (by
      rintro raw rfl block - hlead
      refine controlBlock_fails_behind hfirst (hinner _ _ (fun w hw => ⟨block, hw⟩)
        (isWord_control block) fun hname => ?_)
      exact hfits.2 block hname (hname ▸ hlead)))
    obtain ⟨⟨parts, hparts, htrees⟩, hothers⟩ := Body.Apart.yields home hi hw rest hbehind hs' hrest
      hclose hv.right (hitem.later hfirst)
    have hpart := bodyPart_item (openTag_fails_of_fits hfits hi hfirst) hy
    refine ⟨⟨some _ :: parts, Yields.many_cons hpart hlt hparts, ?_⟩, fun word interior' hi' hword hne =>
      bodyContent_fails_at_item hi' hfirst hy (hothers word interior' hi' hword hne)⟩
    rw [← htrees]
    rfl
  | .tag word' allowed args rest =>
    obtain ⟨u₁, htag, hrest⟩ := Reads.split (a := tagText word' args.chars) hr
    rw [Body.trees, ← htag.position] at hv ⊢
    obtain ⟨⟨parts, hparts, htrees⟩, hothers⟩ := Body.Apart.yields home hi hw rest h
      (hs.trans htag.reaches) hrest hclose hv (hitem.later htag)
    have hpart : (bodyPart interior item).Yields s none u₁ := bodyPart_tag hi allowed args htag
    refine ⟨⟨none :: parts, Yields.many_cons hpart (htag.lt (by simp [tagText])) hparts, ?_⟩,
      fun word interior' hi' hword hne => bodyContent_fails_at_tag hi allowed args htag hitem hword
        (hothers word interior' hi' hword hne)⟩
    rw [← htrees]
    rfl

end

end Concrete

end SoyTree
