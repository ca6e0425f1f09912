import SoyTree.Proofs.Canonical.ReadBack
import SoyTree.Proofs.Nesting.Plain

/-! # The nesting limit

The scan over a plain file keeps count of the blocks that are open and reaches every level of the
tree, so the limit on the scan limits the tree.
-/

namespace SoyTree

namespace Concrete

open Nesting

section Tags

variable {text a b : List Char} {d : Nat}

/-- A text at whose end a tag is still open, and is not about to close itself. -/
def Inner (text : List Char) : Prop :=
  '\x7d' ∉ text ∧ text.getLast? ≠ some '/'

theorem Inner.append (ha : Inner a) (hb : Inner b) : Inner (a ++ b) := by
  refine ⟨fun h => (List.mem_append.1 h).elim ha.1 hb.1, fun h => ?_⟩
  rw [List.getLast?_append] at h
  cases hlast : b.getLast? with
  | none => exact ha.2 (by simpa [hlast] using h)
  | some c => exact hb.2 (by simpa [hlast] using h)

theorem inner_of_free (h : ∀ c ∈ text, c ≠ '\x7d' ∧ c ≠ '/') : Inner text :=
  ⟨fun hc => (h _ hc).1 rfl, fun hc => (h _ (List.mem_of_getLast? hc)).2 rfl⟩

theorem inner_nil : Inner [] :=
  inner_of_free (by simp)

theorem Blanks.inner (b : Blanks) : Inner b.chars := by
  refine inner_of_free fun c hc => ?_
  have hb := b.blank c hc
  constructor <;> rintro rfl <;> exact absurd hb (by decide)

theorem Word.inner (w : Word) : Inner w.chars := by
  refine inner_of_free fun c hc => ?_
  have hw := w.isWordPart c hc
  constructor <;> rintro rfl <;> exact absurd hw (by decide)

theorem Name.inner (n : Name) : Inner n.text := by
  have hdot : Inner ['.'] := inner_of_free (by simp)
  have hlead : Inner (if n.relative then ['.'] else []) := by
    cases n.relative
    · exact inner_nil
    · exact hdot
  have hmore : ∀ ws : List Word, Inner (ws.flatMap fun w => '.' :: w.chars) := by
    intro ws
    induction ws with
    | nil => exact inner_nil
    | cons w ws ih => exact (hdot.append w.inner).append ih
  exact hlead.append (n.first.inner.append (hmore n.more))

theorem inner_attrs {attrs : List Attr} (h : PlainAttrs attrs) : Inner (attrsText attrs) := by
  induction attrs with
  | nil => exact inner_nil
  | cons a rest ih =>
    have hname : Inner a.pair.name := by
      refine inner_of_free fun c hc => ?_
      have hplain := a.pair.plain c hc
      constructor <;> rintro rfl <;> exact absurd hplain (by decide)
    have hquote : Inner (a.pair.value ++ ['"']) := by
      refine ⟨fun hc => ?_, by simp⟩
      rcases List.mem_append.1 hc with hc | hc
      · exact h a (by simp) hc
      · exact absurd hc (by decide)
    have hequals : Inner ['=', '"'] := inner_of_free (by simp)
    have ha : Inner a.text := a.gap.inner.append (hname.append (hequals.append hquote))
    exact ha.append (ih fun b hb => h b (List.mem_cons_of_mem _ hb))

theorem Gap.not_command (g : Gap) (rest : List Char) :
    ∀ c ∈ (g.chars ++ rest).head?, Grammar.isCommandChar c = false := by
  rw [List.head?_append_of_ne_nil _ g.nonempty]
  exact not_command_of_blanks g.toBlanks

theorem blockWord_head {word : String} (hw : word ∈ blockWords) (args : List Char) :
    (word.toList ++ args).head? ≠ some '/' := by
  have h : ∀ w ∈ blockWords, ∃ c rest, w.toList = c :: rest ∧ c ≠ '/' := by
    simp [blockWords]
  obtain ⟨c, rest, hword, hc⟩ := h word hw
  simpa [hword] using hc

theorem blockWord_inner {word : String} (hw : word ∈ blockWords) : Inner word.toList := by
  refine inner_of_free fun c hc => ?_
  have hcommand := isCommandChar_of_mem hw c hc
  constructor <;> rintro rfl <;> exact absurd hcommand (by decide)

theorem literalTag (gap : Blanks) : Inner ("literal".toList ++ gap.chars) ∧
    tagWord ("literal".toList ++ gap.chars) = "literal" :=
  ⟨(blockWord_inner (by decide)).append gap.inner,
    tagWord_append (isCommandChar_of_mem (by decide)) (not_command_of_blanks gap)⟩

theorem passes_commandTag {word : String} {args : List Char} (hw : word ∈ blockWords)
    (hl : word ≠ "literal") (hargs : ∀ c ∈ args.head?, Grammar.isCommandChar c = false)
    (hin : Inner args) (d : Nat) : Passes (tagOf (word.toList ++ args)) d (d + 1)
      [d + (bracketDepth (word.toList ++ args) + 1)] := by
  have hword := tagWord_append (isCommandChar_of_mem hw) hargs
  obtain ⟨hopen, hlast⟩ := (blockWord_inner hw).append hin
  refine passes_blockTag hopen (blockWord_head hw args) ?_ (by rwa [hword]) d
  rw [opensBlock, hword, List.contains_iff_mem.2 hw]
  simpa using hlast

theorem scans_command {word : String} {args body : List Char} {n : Nat} (hw : word ∈ blockWords)
    (hl : word ≠ "literal") (hargs : ∀ c ∈ args.head?, Grammar.isCommandChar c = false)
    (hin : Inner args) (hbody : Scans body (d + 1) (d + 1) n) (close : Blanks) :
    Scans (tagOf (word.toList ++ args) ++ (body ++ closeText word close)) d d (n + 1) :=
  have hopening := (passes_commandTag hw hl hargs hin d).scans
    (Or.inr ⟨_, List.mem_singleton_self _, by omega⟩)
  hopening.block hbody (scans_closeTag hw close d)

theorem passes_closedTag {word : String} {args : List Char} (hw : word ∈ blockWords)
    (hopen : '\x7d' ∉ args) (d : Nat) : Passes (tagOf (word.toList ++ (args ++ ['/']))) d d
      [d + bracketDepth (word.toList ++ (args ++ ['/']))] := by
  refine passes_tag ?_ (blockWord_head hw _) ?_ d
  · simp only [List.mem_append, List.mem_singleton, not_or]
    exact ⟨(blockWord_inner hw).1, hopen, by decide⟩
  · simp [opensBlock]

theorem scans_closedTag {word : String} {args : List Char} (hw : word ∈ blockWords)
    (hopen : '\x7d' ∉ args) (d : Nat) : Scans (tagOf (word.toList ++ (args ++ ['/']))) d d
      (bracketDepth (word.toList ++ (args ++ ['/']))) :=
  (passes_closedTag hw hopen d).scans (Or.inr ⟨_, List.mem_singleton_self _, Nat.le_refl _⟩)

/-- A block word starts neither with a blank nor with a slash, and inserted values start with
none. -/
theorem opensBlock_inserted (raw : Inserted) : opensBlock raw.chars = false := by
  rw [← Bool.not_eq_true]
  intro hblock
  have hword : tagWord raw.chars ∈ blockWords := by
    have := (Bool.and_eq_true _ _ ▸ hblock).1
    simpa using this
  have hstart : ∀ w ∈ blockWords, w ≠ "" ∧ w.toList.head?.all (!Text.isBlank ·) = true ∧
      w ∈ Grammar.reservedWords := by
    decide +kernel
  obtain ⟨hne, hblank, hreserved⟩ := hstart _ hword
  have hhead : (tagWord raw.chars).toList.head? = raw.chars.head? := by
    cases hraw : raw.chars with
    | nil => simp [tagWord]
    | cons c rest =>
      cases hc : Grammar.isCommandChar c with
      | false => simp [tagWord, hraw, hc] at hne
      | true => simp [tagWord, hc]
  rw [hhead] at hblank
  exact (raw.word_free (by simpa [Option.all_eq_true] using hblank)).2 hreserved

theorem inserted_head (raw : Inserted) : raw.chars.head? ≠ some '/' := by
  intro h
  refine (raw.word_free ?_).1 h
  rw [h]
  rintro c (_ | _)
  decide

/-- The tags that divide a block are no blocks themselves, whatever follows their words. -/
theorem opensBlock_interior {block : Control} {word : String} (hw : word ∈ block.interior)
    (args : TagArgs) : opensBlock (word.toList ++ args.chars) = false := by
  have hinterior : word ∉ blockWords ∧ word.toList.all Grammar.isCommandChar = true := by
    revert word
    cases block <;> decide +kernel
  have hwords : ∀ w ∈ blockWords, w.toList.all isWordPart = true := by
    decide +kernel
  rw [← Bool.not_eq_true]
  intro hblock
  have hmem : tagWord (word.toList ++ args.chars) ∈ blockWords := by
    have := (Bool.and_eq_true _ _ ▸ hblock).1
    simpa using this
  have hsplit : tagWord (word.toList ++ args.chars) =
      String.ofList (word.toList ++ args.chars.takeWhile Grammar.isCommandChar) := by
    rw [tagWord, List.takeWhile_append_of_pos (List.all_eq_true.1 hinterior.2)]
  rw [hsplit] at hmem
  cases hargs : args.chars with
  | nil =>
    rw [hargs] at hmem
    exact hinterior.1 (by simpa using hmem)
  | cons c rest =>
    cases hc : Grammar.isCommandChar c with
    | false =>
      rw [hargs] at hmem
      exact hinterior.1 (by simpa [hc] using hmem)
    | true =>
      -- the word would go on with a character that no block word holds
      have hpart := List.all_eq_true.1 (hwords _ hmem) c (by simp [hargs, hc])
      exact absurd hpart (by simp [args.apart c (by simp [hargs])])

end Tags

section Items

theorem tagText_eq (word : String) (args : List Char) :
    tagText word args = tagOf (word.toList ++ args) := by
  simp [tagText, tagOf]

theorem interior_tag {block : Control} {word : String} (hw : word ∈ block.interior)
    (args : TagArgs) : '\x7d' ∉ word.toList ++ args.chars ∧
      (word.toList ++ args.chars).head? ≠ some '/' := by
  have h : ∀ w ∈ block.interior, '\x7d' ∉ w.toList ∧ w.toList ≠ [] ∧ w.toList.head? ≠ some '/' := by
    cases block <;> decide
  obtain ⟨hopen, hne, hhead⟩ := h word hw
  refine ⟨fun hc => (List.mem_append.1 hc).elim hopen args.open_, ?_⟩
  rwa [List.head?_append_of_ne_nil _ hne]

theorem Blanks.scans (b : Blanks) (d : Nat) : Scans b.chars d d 0 :=
  scans_plain (fun hc => absurd (b.blank _ hc) (by decide)) d

theorem callWord_mem (delegate : Bool) : callWord delegate ∈ blockWords := by
  cases delegate <;> decide

theorem inner_name (gap : Gap) (name : Name) : Inner (gap.chars ++ name.text) :=
  gap.inner.append name.inner

theorem control_mem {block : Control} : block.word ∈ blockWords := by
  cases block <;> decide

theorem control_ne {block : Control} (h : block ≠ .literal) : block.word ≠ "literal" := by
  cases block <;> first | decide | exact absurd rfl h

mutual

theorem Item.scans (home : List String) (p : Position) (i : Item) (h : i.Plain) (d : Nat) :
    Scans i.text d d (i.tree home p).depth := by
  match i with
  | .plain content => exact scans_plain content.plain d
  | .interpolation raw =>
    exact (scans_tag raw.open_ (inserted_head raw) (opensBlock_inserted raw) d).weaken
      (Nat.zero_le _)
  | .closedCall head =>
    have hopen : '\x7d' ∉ head.gap.chars ++ (head.name.text ++ head.extra.chars) := by
      rw [← List.append_assoc, List.mem_append, not_or]
      exact ⟨(inner_name head.gap head.name).1, head.extra.open_⟩
    have htag := scans_closedTag (callWord_mem head.delegate) hopen d
    have htext : (Item.closedCall head).text = tagOf ((callWord head.delegate).toList ++
        ((head.gap.chars ++ (head.name.text ++ head.extra.chars)) ++ ['/'])) := by
      simp [Item.text, CallHead.text, tagOf]
    rw [htext]
    exact htag.weaken (Nat.zero_le _)
  | .blockCall head open_ params gap close =>
    have hparams := Params.scans home (p.after (head.text ++ ['\x7d'])) params h (d + 1)
    have hin : Inner (head.gap.chars ++ (head.name.text ++ head.extra.chars)) := by
      rw [← List.append_assoc]
      exact (inner_name head.gap head.name).append ⟨head.extra.open_, open_⟩
    have hblock := scans_command (callWord_mem head.delegate)
      (by cases head.delegate <;> decide) (head.gap.not_command _) hin
      (hparams.append (gap.scans (d + 1))) close
    have htext : (Item.blockCall head open_ params gap close).text =
        tagOf ((callWord head.delegate).toList ++
          (head.gap.chars ++ (head.name.text ++ head.extra.chars))) ++
          ((params.text ++ gap.chars) ++ closeText (callWord head.delegate) close) := by
      simp [Item.text, CallHead.text, tagOf]
    rw [htext]
    refine hblock.weaken ?_
    simp only [Item.tree, Nat.max_zero]
    cases params.trees home (p.after (head.text ++ ['\x7d'])) with
    | nil => exact Nat.zero_le _
    | cons q qs => exact Nat.le_refl _
  | .binding gap name value =>
    have hdollar : Inner ['$'] := inner_of_free (by simp)
    have hin : Inner (gap.chars ++ '$' :: name.chars) :=
      gap.inner.append (hdollar.append name.inner)
    have hvalue := Binding.scans home "let" (by decide) (by decide) hin
      (fun rest => by rw [List.append_assoc]; exact gap.not_command _)
      (p.after (letHead gap name)) value h d
    have htext : (Item.binding gap name value).text =
        '\x7b' :: ("let".toList ++ (gap.chars ++ '$' :: name.chars ++ value.text "let")) := by
      simp only [Item.text, letHead, List.cons_append, List.append_assoc]
    rw [htext]
    exact hvalue
  | .control block parsed args body close =>
    have hbody := Body.scans home (fun w hw => ⟨block, hw⟩)
      (p.after (tagText block.word args.chars)) body h.2.2 (d + 1)
    rw [Item.text, tagText_eq]
    exact scans_command control_mem (control_ne parsed) h.1 ⟨args.open_, h.2.1⟩ hbody close
  | .literal gap content close =>
    have hclose : close.chars = [] := h
    obtain ⟨hin, hword⟩ := literalTag gap
    have hblock := scans_literal hin.1 (blockWord_head (by decide) _) hin.2 hword content d
    rw [Item.text, literalHead_eq, closeText_literal hclose]
    refine hblock.weaken ?_
    simp only [Item.tree, Node.depth]
    split <;> exact Nat.le_refl _

theorem Binding.scans (home : List String) (word : String) (hw : word ∈ blockWords)
    (hl : word ≠ "literal") {mid : List Char} (hmid : Inner mid)
    (hhead : ∀ rest, ∀ c ∈ (mid ++ rest).head?, Grammar.isCommandChar c = false) (p : Position)
    (b : Binding) (h : b.Plain) (d : Nat) :
    Scans ('\x7b' :: (word.toList ++ (mid ++ b.text word))) d d (b.tree home p).depth := by
  match b with
  | .inline gap₁ gap₂ value gap₃ =>
    let before := mid ++ (gap₁.chars ++ ':' :: gap₂.chars)
    let e := value.tree (p.after (gap₁.chars ++ ':' :: gap₂.chars))
    have hopen : '\x7d' ∉ before ++ (value.text ++ gap₃.chars) := by
      simp only [before, List.mem_append, List.mem_cons, not_or]
      exact ⟨⟨hmid.1, gap₁.inner.1, by decide, gap₂.inner.1⟩, h.1, gap₃.inner.1⟩
    have htag := scans_closedTag hw hopen d
    have hdepth : e.depth ≤ bracketDepth value.text := value.depth_le_bracketDepth _ h.2
    have hwhole := le_bracketDepth_append (word.toList ++ before) value.text (gap₃.chars ++ ['/'])
    have htext : '\x7b' :: (word.toList ++ (mid ++ (Binding.inline gap₁ gap₂ value gap₃).text word)) =
        tagOf (word.toList ++ ((before ++ (value.text ++ gap₃.chars)) ++ ['/'])) := by
      simp [Binding.text, tagOf, before]
    rw [htext]
    refine htag.weaken (hdepth.trans ?_)
    simpa only [List.append_assoc] using hwhole
  | .block attrs gap body close =>
    have hbody := Body.scans home (fun w hw => absurd hw List.not_mem_nil)
      (p.after (attrsText attrs ++ (gap.chars ++ ['\x7d']))) body h.2 (d + 1)
    have hin : Inner (mid ++ (attrsText attrs ++ gap.chars)) :=
      hmid.append ((inner_attrs h.1).append gap.inner)
    have hblock := scans_command hw hl (hhead _) hin hbody close
    have htext : '\x7b' :: (word.toList ++ (mid ++ (Binding.block attrs gap body close).text word)) =
        tagOf (word.toList ++ (mid ++ (attrsText attrs ++ gap.chars))) ++
          (body.text ++ closeText word close) := by
      simp [Binding.text, tagOf]
    rw [htext]
    exact hblock

theorem Params.scans (home : List String) (p : Position) (ps : Params) (h : ps.Plain) (d : Nat) :
    Scans ps.text d d (Node.paramsDepth (ps.trees home p)) := by
  match ps with
  | .nil => exact scans_nil d
  | .cons lead gap name value rest =>
    let q := p.after lead.chars
    have hin : Inner (gap.chars ++ name.chars) := gap.inner.append name.inner
    have hvalue := Binding.scans home "param" (by decide) (by decide) hin
      (fun rest => by rw [List.append_assoc]; exact gap.not_command _)
      (q.after (paramHead gap name)) value h.1 d
    have hrest := Params.scans home (q.after (paramHead gap name ++ value.text "param")) rest h.2 d
    have hall := (lead.scans d).append (hvalue.append hrest)
    have htext : (Params.cons lead gap name value rest).text = lead.chars ++
        ('\x7b' :: ("param".toList ++ (gap.chars ++ name.chars ++ value.text "param")) ++
          rest.text) := by
      simp only [Params.text, paramHead, List.cons_append, List.append_assoc]
    rw [htext]
    exact hall.weaken (Nat.le_max_right _ _)

theorem Body.scans {interior : List String} (home : List String)
    (hi : ∀ w ∈ interior, ∃ block : Control, w ∈ block.interior) (p : Position)
    (b : Body interior) (h : b.Plain) (d : Nat) :
    Scans b.text d d (Node.bodyDepth (b.trees home p)) := by
  match b with
  | .nil => exact scans_nil d
  | .item first rest =>
    exact (Item.scans home p first h.1 d).append
      (Body.scans home hi (p.after first.text) rest h.2 d)
  | .tag word allowed args rest =>
    obtain ⟨block, hblock⟩ := hi word allowed
    have hrest := Body.scans home hi (p.after (tagText word args.chars)) rest h d
    obtain ⟨hopen, hhead⟩ := interior_tag hblock args
    have htag := scans_tag hopen hhead (opensBlock_interior hblock args) d
    rw [Body.text, tagText_eq]
    exact (htag.append hrest).weaken (Nat.le_max_right _ _)

end

end Items

section Files

theorem passes_otherTag {word : String} {args : List Char}
    (hw : word ∉ blockWords ∧ word.toList.all Grammar.isCommandChar = true)
    (hargs : ∀ c ∈ args.head?, Grammar.isCommandChar c = false) (hopen : '\x7d' ∉ args)
    (hslash : (word.toList ++ args).head? ≠ some '/') (d : Nat) :
    Passes (tagOf (word.toList ++ args)) d d [d + bracketDepth (word.toList ++ args)] := by
  have hword := List.all_eq_true.1 hw.2
  refine passes_tag ?_ hslash ?_ d
  · rw [List.mem_append, not_or]
    exact ⟨fun hc => absurd (hword _ hc) (by decide), hopen⟩
  · rw [opensBlock, tagWord_append hword hargs]
    simp [hw.1]

theorem scans_otherTag {word : String} {args : List Char}
    (hw : word ∉ blockWords ∧ word.toList.all Grammar.isCommandChar = true)
    (hargs : ∀ c ∈ args.head?, Grammar.isCommandChar c = false) (hopen : '\x7d' ∉ args)
    (hslash : (word.toList ++ args).head? ≠ some '/') (d : Nat) :
    Scans (tagOf (word.toList ++ args)) d d 0 :=
  (passes_otherTag hw hargs hopen hslash d).scans (Or.inl rfl)

theorem HeaderParam.scans (p : HeaderParam) (d : Nat) : Scans p.text d d 0 := by
  let mark := if p.optional then ['?'] else []
  have hmark : Inner mark ∧ ∀ c ∈ mark.head?, Grammar.isCommandChar c = false := by
    cases hp : p.optional with
    | false => exact ⟨by simpa [mark, hp] using inner_nil, by simp [mark, hp]⟩
    | true =>
      have hquestion : Inner ['?'] := inner_of_free (by simp)
      exact ⟨by simpa [mark, hp] using hquestion, by simp [mark, hp]; decide⟩
  let args := mark ++ (p.gap₁.chars ++ (p.name.chars ++ (p.gap₂.chars ++ (':' :: p.type.chars))))
  have hopen : '\x7d' ∉ args := by
    simp only [args, List.mem_append, List.mem_cons, not_or]
    exact ⟨hmark.1.1, p.gap₁.inner.1, p.name.inner.1, p.gap₂.inner.1, by decide, p.type.open_⟩
  have hargs : ∀ c ∈ args.head?, Grammar.isCommandChar c = false :=
    forall_head?_append hmark.2 (p.gap₁.not_command _)
  have htag : Scans (tagOf ("@param".toList ++ args)) d d 0 :=
    scans_otherTag (by decide +kernel) hargs hopen (by simp) d
  have htext : p.tag = tagOf ("@param".toList ++ args) := by
    have hword : "\x7b@param".toList = '\x7b' :: "@param".toList := by decide
    unfold HeaderParam.tag
    simp only [hword, tagOf, args, mark, List.cons_append, List.append_assoc]
  rw [HeaderParam.text, htext]
  exact (p.lead.scans d).append htag

theorem headerParams_scans (ps : List HeaderParam) (d : Nat) : Scans (headerParamsText ps) d d 0 := by
  induction ps with
  | nil => exact scans_nil d
  | cons p rest ih => exact (p.scans d).append ih

theorem Template.scans (home : List String) (p : Position) (t : Template) (h : t.Plain) :
    Scans t.text 0 0 (t.tree home p).depth := by
  obtain ⟨hdoc, hattrs, hbody⟩ := h
  have hword : templateWord t.delegate ∈ blockWords ∧ templateWord t.delegate ≠ "literal" := by
    cases t.delegate <;> decide
  let args := t.gap₁.chars ++ (t.name.text ++ (attrsText t.attrs ++ t.gap₂.chars))
  have hin : Inner args :=
    t.gap₁.inner.append (t.name.inner.append ((inner_attrs hattrs).append t.gap₂.inner))
  have hcontent := (headerParams_scans t.params 1).append (t.body.scans home
    (fun w hw => absurd hw List.not_mem_nil)
    (((p.after t.docText).after t.headText).after (headerParamsText t.params)) hbody 1)
  have hblock := scans_command hword.1 hword.2 (t.gap₁.not_command _) hin hcontent t.close
  have htext : t.text = t.docText ++ (tagOf ((templateWord t.delegate).toList ++ args) ++
      ((headerParamsText t.params ++ t.body.text) ++
        closeText (templateWord t.delegate) t.close)) := by
    simp [Template.text, Template.headText, Template.nameText, tagOf, args]
  rw [htext]
  refine ((scans_plain hdoc 0).append hblock).weaken ?_
  rw [Nat.zero_max, Nat.zero_max]
  exact Nat.le_refl _

theorem entries_scans (home : List String) (p : Position) (es : List Entry)
    (h : ∀ e ∈ es, '\x7b' ∉ e.lead.chars ∧ e.template.Plain) :
    Scans (entriesText es) 0 0
      (((entriesTree home p es).map SoyTree.Template.depth).foldr max 0) := by
  induction es generalizing p with
  | nil => exact scans_nil 0
  | cons e rest ih =>
    obtain ⟨hlead, hplain⟩ := h e (by simp)
    have he := e.template.scans home (p.after e.lead.chars) hplain
    have hrest := ih ((p.after e.lead.chars).after e.template.text)
      fun e' he' => h e' (List.mem_cons_of_mem _ he')
    refine ((scans_plain hlead 0).append (he.append hrest)).weaken ?_
    rw [Nat.zero_max]
    exact Nat.le_refl _

theorem NamespaceTag.scans (n : NamespaceTag) : Scans n.text 0 0 0 := by
  let args := n.gap.chars ++ (n.path ++ n.extra.chars)
  have hopen : '\x7d' ∉ args := by
    simp only [args, List.mem_append, not_or]
    exact ⟨n.gap.inner.1, fun hc => absurd (n.path_chars _ hc) (by decide), n.extra.open_⟩
  have htext : n.text = tagOf ("namespace".toList ++ args) := by
    simp [NamespaceTag.text, tagOf, args]
  rw [htext]
  exact scans_otherTag (by decide +kernel) (n.gap.not_command _) hopen (by simp) 0

/-- In a plain file the scan goes at least as deep as the tree. -/
theorem File.depth_le_deepest (f : File) (h : f.Plain) : f.program.depth ≤ deepest f.text := by
  let p := Position.origin.after f.lead.chars
  have hentries := entries_scans f.tag.segments (p.after f.tag.text) f.entries h.2
  have hall := (scans_plain h.1 0).append (f.tag.scans.append hentries)
  have hdeep := hall.le_deepest f.final.chars
  have htext : f.lead.chars ++ (f.tag.text ++ entriesText f.entries) ++ f.final.chars = f.text := by
    simp [File.text]
  rw [htext, Nat.zero_max, Nat.zero_max] at hdeep
  exact hdeep

end Files

end Concrete

section Limit

open Concrete

variable {source : String} {options : Options} {program : Program}

/-- Besides the nesting check no limit has a say in what is parsed. -/
theorem parseWith_limit (h : parseWith source options = .ok program) (limit : Nat) :
    parseWith source ⟨limit⟩ = .ok program ↔ Nesting.deepest source.toList ≤ limit := by
  obtain ⟨-, hread⟩ := Grammar.parseChars_ok_iff.1 h
  rw [← Nesting.check_ok_iff]
  constructor
  · exact fun hlimit => (Grammar.parseChars_ok_iff.1 hlimit).1
  · exact fun hlimit => Grammar.parseChars_ok_iff.2 ⟨hlimit, hread⟩

/-- The limit of a parse limits the depth of its tree exactly if the scan sees the tree at its full
depth. It does in every plain file. -/
theorem limit_bounds_depth_iff (h : parseWith source options = .ok program) :
    ((∀ limit, parseWith source ⟨limit⟩ = .ok program → program.depth ≤ limit) ↔
      program.depth ≤ Nesting.deepest source.toList) ∧
    (∃ f : File, f.text = source.toList ∧ f.program = program) ∧
    ∀ f : File, f.text = source.toList → f.program = program → f.Plain →
      program.depth ≤ Nesting.deepest source.toList ∧ program.depth ≤ options.maxDepth := by
  refine ⟨⟨fun hall => ?_, fun hdeep limit hlimit => ?_⟩, Grammar.parse_spelled h, ?_⟩
  · exact hall _ ((parseWith_limit h _).2 (Nat.le_refl _))
  · exact hdeep.trans ((parseWith_limit h limit).1 hlimit)
  · rintro f htext rfl hplain
    have hdeep := f.depth_le_deepest hplain
    rw [htext] at hdeep
    exact ⟨hdeep, hdeep.trans ((parseWith_limit h options.maxDepth).1 h)⟩

def plainSample : File where
  lead := ⟨[], .nil⟩
  tag := ⟨oneSpace, ['a'], by decide, noRest, by simp [noRest]⟩
  entries := [⟨⟨[], .nil⟩, {
    doc := none
    delegate := false
    gap₁ := oneSpace
    name := ⟨true, ⟨['t'], by decide⟩, []⟩
    attrs := []
    gap₂ := noBlanks
    params := []
    body := .item (.control .cond (by decide) ⟨⟨[' ', '1'], by simp⟩, by simp; decide⟩
      (.item (.plain ⟨['x'], by simp, by simp⟩) .nil) noBlanks) .nil
    close := noBlanks }⟩]
  nonempty := by simp
  final := ⟨[], .nil⟩

theorem plainSample_bounded : plainSample.Plain ∧
    parseWith (String.ofList plainSample.text) ⟨2⟩ = .ok plainSample.program ∧
    plainSample.program.depth ≤ Nesting.deepest (String.ofList plainSample.text).toList ∧
    plainSample.program.depth ≤ 2 := by
  have hplain : plainSample.Plain := by
    refine ⟨by simp [plainSample], ?_⟩
    rintro e (_ | ⟨_, ⟨⟩⟩)
    exact ⟨by simp, by simp [Template.docText], by simp [PlainAttrs],
      ⟨by simp; decide, by decide, trivial, trivial⟩, trivial⟩
  have hcanonical : plainSample.Canonical := by
    refine ⟨by simp [plainSample], ?_, by simp [plainSample]⟩
    rintro e (_ | ⟨_, ⟨⟩⟩)
    exact ⟨by simp, rfl, ⟨trivial, fun _ => rfl, trivial⟩, fun _ => rfl, trivial⟩
  have hparse := (Grammar.parse_canonical_iff plainSample hcanonical ⟨2⟩).2 (by decide +kernel)
  exact ⟨hplain, hparse,
    (limit_bounds_depth_iff hparse).2.2 plainSample String.toList_ofList.symm rfl hplain⟩

def inTemplate (body : String) : String :=
  "\x7bnamespace a\x7d\x7btemplate .t\x7d" ++ body ++ "\x7b/template\x7d"

/-- Limits and sources, each of which leaves out one thing that a plain file keeps. -/
def deeperSources : List (Nat × String) :=
  [ -- a control tag that ends in a slash, and one whose word goes on
    (1, inTemplate "\x7bif 1/\x7dx\x7b/if\x7d"),
    (1, inTemplate "\x7bif@\x7dx\x7b/if\x7d"),
    -- blanks in the tag that closes a literal block
    (2, inTemplate "\x7bliteral\x7d\x7b/literal \x7d\x7bif 1\x7d\x7bif 2\x7d\x7b/if\x7d\x7b/if\x7d"),
    -- a closing bracket in a string within brackets, and a closing brace in a string
    (2, inTemplate "\x7blet $x: f(')', g(1)) /\x7d"),
    (1, inTemplate "\x7blet $x: '/\x7d\x7b/template\x7d' /\x7d\x7bif 1\x7d\x7b/if\x7d"),
    -- a closing brace in an attribute value, of a binding and of a template
    (1, inTemplate "\x7blet $x k=\"/\x7d\"\x7dy\x7b/let\x7d"),
    (0, "\x7bnamespace a\x7d\x7btemplate .t k=\"/\x7d\"\x7d\x7b/template\x7d"),
    -- an opening brace in a doc block, and in a comment
    (0, "\x7bnamespace a\x7d/** \x7b */\x7btemplate .t\x7d\x7b/template\x7d"),
    (0, "\x7bnamespace a\x7d// \x7b\n\x7btemplate .t\x7d\x7b/template\x7d")]

/-- Whether a source is read as a tree that goes deeper than the limit. -/
def exceedsLimit (limit : Nat) (source : String) : Bool :=
  match parseWith source ⟨limit⟩ with
  | .ok program => limit < program.depth
  | .error _ => false

/-- Without one of the conditions on a plain file a tree may go deeper than the limit. -/
theorem deeperSources_exceed_limit : ∀ x ∈ deeperSources, ∃ program,
    parseWith x.2 ⟨x.1⟩ = .ok program ∧ x.1 < program.depth := by
  have h : deeperSources.all (fun x => exceedsLimit x.1 x.2) = true := by
    decide +kernel
  intro x hx
  have hd := List.all_eq_true.1 h x hx
  unfold exceedsLimit at hd
  split at hd
  · exact ⟨_, by assumption, of_decide_eq_true hd⟩
  · cases hd

theorem slashedControl_exceeds_limit : ∃ program,
    parseWith (inTemplate "\x7bif 1/\x7dx\x7b/if\x7d") ⟨1⟩ = .ok program ∧ 1 < program.depth := by
  have hmem : (1, inTemplate "\x7bif 1/\x7dx\x7b/if\x7d") ∈ deeperSources := by
    unfold deeperSources
    exact List.mem_cons_self
  exact deeperSources_exceed_limit (1, inTemplate "\x7bif 1/\x7dx\x7b/if\x7d") hmem

end Limit

end SoyTree
