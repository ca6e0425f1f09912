import SoyTree.Proofs.Canonical.Commands
import SoyTree.Proofs.Grammar.Expression

/-! # What the rules for bodies read

What a success of each body rule moves over is said once, with what the rule for inner items reads
left open. From this every success of a body rule moves over the text of a written item and gives its
tree. The rule for items is recursive, so each rule takes the one for inner items as an argument that
is known to read written items only.
-/

namespace SoyTree.Grammar

open Rule Cursor Concrete

variable {s t : Cursor} {home : List String} {item : Rule Node} {node : Node} {nodes : List Node}
  {value : Value}

theorem markAt_of_reads {text : List Char} (hr : s.Reads text t) :
    markAt s.position text = ⟨s.position, t.position⟩ := by
  rw [hr.position]
  rfl

/-- The rule reads written items only. -/
def ReadsItem (home : List String) (p : Rule Node) : Prop :=
  p.Ensures (Spells Item.text fun i p => i.tree home p)

/-- A part of a body: a dividing tag, which leaves no node, or an item. -/
def bodyPart (interior : List String) (item : Rule Node) : Rule (Option Node) :=
  either (do openTag interior; pure none) (do let node ← item; pure (some node))

section Leaves

theorem textRun_reads (h : textRun.Yields s node t) :
    ∃ content : PlainText, s.Reads content.chars t ∧ (∀ c ∈ t.rest.head?, c = '\x7b') ∧
      node = .text ⟨s.position, t.position⟩ (String.ofList content.chars) := by
  simp only [textRun, yields_marked, yields_run1] at h
  obtain ⟨cs, ⟨hne, hr, hplain, hstop⟩, rfl⟩ := h
  have hbrace : '\x7b' ∉ cs := fun hc => absurd (hplain _ hc) (by decide)
  refine ⟨⟨cs, hne, hbrace⟩, hr, fun c hc => ?_, rfl⟩
  simpa [CharClass.noneOf] using hstop c hc

theorem interpolation_reads (h : interpolation.Yields s node t) :
    ∃ raw : Inserted, s.Reads ('\x7b' :: (raw.chars ++ ['\x7d'])) t ∧
      node = .interpolation ⟨s.position, t.position⟩ (String.ofList raw.chars) := by
  simp only [interpolation, yields_marked, yields_check, yields_bind, yields_char,
    yields_rawThrough_char] at h
  obtain ⟨raw, ⟨raw', ⟨-, u, hbrace, hopen, hr⟩, hok⟩, rfl⟩ := h
  split at hok
  · cases hok
  · rename_i hfree
    cases hok
    exact ⟨⟨raw, hopen, by simpa using hfree⟩, hbrace.trans hr, rfl⟩

theorem literal_reads (home : List String) (h : literal.Yields s node t) :
    ∃ (gap : Blanks) (content : LiteralText) (close : Blanks),
      s.Reads (Item.literal gap content close).text t ∧
        node = (Item.literal gap content close).tree home s.position := by
  have hw : isWord "literal".toList = true := by decide
  simp only [literal, yields_closed, yields_marked, yields_bind, yields_char, yields_keyword,
    yields_blanks, yields_rawUntil, yields_closeTag hw, yields_pure] at h
  obtain ⟨_, ⟨-, u₁, hb, -, u₂, ⟨-, hk, -⟩, -, u₃, ⟨gap, hg, -⟩, -, u₄, hc, _, u₅,
    ⟨cs, ⟨hcs, -, hmiss⟩, rfl⟩, -, u₆, ⟨close, hclose⟩, rfl, rfl⟩, rfl⟩ := h
  have hopen : ∀ a gap b, cs ≠ a ++ closeText "literal" gap ++ b := by
    rintro a gap b rfl
    have hf := hmiss a (closeText "literal" gap ++ b) (by simp) (by simp [closeText])
    rw [List.append_assoc] at hf
    exact ((yields_closeTag hw (d := ())).2 ⟨gap, reads_append _ _ _⟩).not_fails hf
  have hhead : s.Reads (literalHead gap) u₄ := hb.trans (hk.trans (hg.trans hc))
  have hr := hhead.trans (hcs.trans hclose)
  refine ⟨gap, ⟨cs, hopen⟩, close, hr, ?_⟩
  rw [hr.position, hcs.position, hhead.position]
  rfl

end Leaves

section Bindings

/-- How the value of a binding is read: as an expression in front of the end of the tag, or as a body
behind the rest of the tag. -/
inductive BindingRead (word : String) (item : Rule Node) (s : Cursor) : Value → Cursor → Prop where
  | inline {u v t : Cursor} {e : SoyTree.Expr} (gap₁ gap₂ gap₃ : Blanks)
      (head : s.Reads (gap₁.chars ++ ':' :: gap₂.chars) u)
      (visible : ∀ c ∈ u.rest.head?, blank.accepts c = false)
      (value : (expression slashClose).Yields u e v)
      (close : v.Reads (gap₃.chars ++ ['/', '\x7d']) t) : BindingRead word item s (.inline e) t
  | block {u t : Cursor} {nodes : List Node} (attrs : List Attr) (gap : Blanks)
      (head : s.Reads (attrsText attrs ++ (gap.chars ++ ['\x7d'])) u)
      (content : (bodyContent word [] item).Yields u nodes t) :
      BindingRead word item s (.block nodes) t

theorem bindingValue_reads {word : String} (h : (bindingValue word item).Yields s value t) :
    BindingRead word item s value t := by
  rcases yields_either.1 h with h | ⟨-, h⟩
  · simp only [yields_bind, yields_blanks, yields_char, yields_slashClose, yields_pure] at h
    obtain ⟨-, u₁, ⟨gap₁, h₁, -⟩, -, u₂, hc, -, u₃, ⟨gap₂, h₂, hvisible⟩, _, u₄, hvalue, -, u₅,
      ⟨gap₃, hclose⟩, rfl, rfl⟩ := h
    exact .inline gap₁ gap₂ gap₃ (h₁.trans (hc.trans h₂)) hvisible hvalue hclose
  · simp only [yields_bind, yields_blanks, yields_char, yields_pure] at h
    obtain ⟨_, u₁, hattrs, -, u₂, ⟨gap, hg, -⟩, -, u₃, hc, _, u₄, hcontent, rfl, rfl⟩ := h
    obtain ⟨attrs, ha, -⟩ := attributes_spelled hattrs
    exact .block attrs gap (ha.trans (hg.trans hc)) hcontent

theorem letBinding_reads (h : (letBinding item).Yields s node t) :
    ∃ (gap : Gap) (name : Word) (value : Value) (u : Cursor), s.Reads (letHead gap name) u ∧
      (bindingValue "let" item).Yields u value t ∧
      node = .binding ⟨s.position, t.position⟩ (String.ofList name.chars) value := by
  simp only [letBinding, yields_closed, yields_marked, yields_bind, yields_char, yields_keyword,
    yields_blanks1, yields_identifier, yields_pure] at h
  obtain ⟨_, ⟨-, u₁, hb, -, u₂, ⟨-, hk, -⟩, -, u₃, ⟨gap, hg, -⟩, -, u₄, hd, _, u₅,
    ⟨name, hname, rfl, -⟩, value, u₆, hvalue, rfl, rfl⟩, rfl⟩ := h
  exact ⟨gap, name, value, u₅, hb.trans (hk.trans (hg.trans (hd.trans hname))), hvalue, rfl⟩

theorem param_reads {q : Param} (h : (param item).Yields s q t) :
    ∃ (gap : Gap) (name : Word) (value : Value) (u : Cursor), s.Reads (paramHead gap name) u ∧
      (bindingValue "param" item).Yields u value t ∧
      q = .mk ⟨s.position, t.position⟩ (String.ofList name.chars) value := by
  simp only [param, yields_closed, yields_marked, yields_bind, yields_char, yields_keyword,
    yields_blanks1, yields_identifier, yields_pure] at h
  obtain ⟨_, ⟨-, u₁, hb, -, u₂, ⟨-, hk, -⟩, -, u₃, ⟨gap, hg, -⟩, _, u₄, ⟨name, hname, rfl, -⟩,
    value, u₅, hvalue, rfl, rfl⟩, rfl⟩ := h
  exact ⟨gap, name, value, u₄, hb.trans (hk.trans (hg.trans hname)), hvalue, rfl⟩

end Bindings

section Blocks

theorem bodyPart_cases {interior : List String} {part : Option Node}
    (h : (bodyPart interior item).Yields s part t) :
    part = none ∧ (openTag interior).Yields s () t ∨
      ∃ node, part = some node ∧ (openTag interior).Fails s ∧ item.Yields s node t := by
  rcases yields_either.1 h with h | ⟨hf, h⟩
  · obtain ⟨d, u, htag, hpure⟩ := yields_bind.1 h
    obtain ⟨rfl, rfl⟩ := yields_pure.1 hpure
    exact Or.inl ⟨rfl, htag⟩
  · obtain ⟨node, u, hitem, hpure⟩ := yields_bind.1 h
    obtain ⟨rfl, rfl⟩ := yields_pure.1 hpure
    rcases fails_bind.1 hf with hf | ⟨_, _, -, hf⟩
    · exact Or.inr ⟨node, rfl, hf, hitem⟩
    · exact absurd hf not_fails_pure

theorem bodyContent_reads {name : String} {interior : List String}
    (h : (bodyContent name interior item).Yields s nodes t) :
    ∃ (parts : List (Option Node)) (u : Cursor), (many (bodyPart interior item)).Yields s parts u ∧
      (closeTag name).Yields u () t ∧ nodes = parts.filterMap id := by
  obtain ⟨parts, u, hparts, h⟩ := yields_bind.1 h
  obtain ⟨d, v, hclose, hpure⟩ := yields_bind.1 h
  obtain ⟨rfl, rfl⟩ := yields_pure.1 hpure
  exact ⟨parts, u, hparts, hclose, rfl⟩

theorem controlBlock_reads {block : Control} (h : (controlBlock block item).Yields s node t) :
    ∃ (args : TagArgs) (nodes : List Node) (u : Cursor), s.Reads (tagText block.word args.chars) u ∧
      (bodyContent block.word block.interior item).Yields u nodes t ∧
      node = .control ⟨s.position, t.position⟩ block nodes := by
  simp only [controlBlock, yields_closed, yields_marked, yields_bind, yields_openTag,
    List.mem_singleton, exists_eq_left] at h
  obtain ⟨nodes, ⟨-, u, ⟨-, args, htag⟩, hcontent⟩, rfl⟩ := h
  exact ⟨args, nodes, u, htag, hcontent, rfl⟩

end Blocks

section Calls

def callEnd : Rule Unit :=
  either (text "/\x7d") (char '\x7d')

/-- What is passed over in a call tag holds no closing brace, and in front of one no slash. -/
theorem callExtra_open {passed : List Char} (h : (ahead callEnd).Misses s passed t) :
    '\x7d' ∉ passed ∧ (t.rest.head? = some '\x7d' → passed.getLast? ≠ some '/') := by
  have hf : ∀ a b, passed = a ++ b → b ≠ [] → callEnd.Fails ⟨s.position.after a, b ++ t.rest⟩ :=
    fun a b hab hb => fails_ahead.1 (h a b hab hb)
  constructor
  · intro hc
    obtain ⟨a, b, rfl⟩ := List.append_of_mem hc
    exact fails_char.1 (fails_either.1 (hf a ('\x7d' :: b) rfl (by simp))).2 rfl
  · intro ht hlast
    obtain ⟨a, rfl⟩ := List.getLast?_eq_some_iff.1 hlast
    refine fails_text.1 (fails_either.1 (hf a ['/'] rfl (by simp))).1 ?_
    obtain ⟨rest, hrest⟩ : ∃ rest, t.rest = '\x7d' :: rest := by
      cases hr : t.rest with
      | nil => simp [hr] at ht
      | cons c rest => exact ⟨rest, by simpa [hr] using ht⟩
    exact ⟨rest, by simp [hrest]⟩

/-- How a call is read: closed at once, or with parameters. The tag ends where its name does, and a
tag with parameters behind it ends in no slash. -/
inductive CallRead (home : List String) (item : Rule Node) (s : Cursor) :
    Bool → Node → Cursor → Prop where
  | closed {t : Cursor} (head : CallHead) (apart : NameEnds head.extra.chars)
      (tag : s.Reads (head.text ++ ['/', '\x7d']) t) :
      CallRead home item s head.delegate
        (.call ⟨s.position, t.position⟩ (head.target home) head.delegate []) t
  | block {u v t : Cursor} {params : List Param} (head : CallHead) (gap close : Blanks)
      (apart : NameEnds head.extra.chars) (open_ : head.extra.chars.getLast? ≠ some '/')
      (tag : s.Reads (head.text ++ ['\x7d']) u)
      (content : (many (blanks >>= fun _ => param item)).Yields u params v)
      (last : v.Reads (gap.chars ++ closeText (callWord head.delegate) close) t) :
      CallRead home item s head.delegate
        (.call ⟨s.position, t.position⟩ (head.target home) head.delegate params) t

theorem callTag_reads {delegate : Bool} (h : (call home delegate item).Yields s node t) :
    CallRead home item s delegate node t := by
  have hw : isWord (callWord delegate).toList = true := isWord_callWord delegate
  change (closed (marked _ (char '\x7b' >>= fun _ => keyword (callWord delegate) >>= fun _ =>
    blanks1 >>= fun _ => templateName >>= fun name => upTo (ahead callEnd) >>= fun _ =>
      either (text "/\x7d" >>= fun _ => pure []) (callParams (callWord delegate) item) >>=
        fun params => pure (name, params)))).Yields s node t at h
  simp only [callParams, yields_closed, yields_marked, yields_bind, yields_char, yields_keyword,
    yields_blanks1, yields_upTo, yields_ahead, yields_either, yields_text, yields_blanks,
    yields_closeTag hw, yields_pure] at h
  obtain ⟨_, ⟨-, u₁, hb, -, u₂, ⟨-, hk, -⟩, -, u₃, ⟨gap, hg, -⟩, _, u₄, hname, ⟨passed, _⟩, u₅,
    ⟨_, hp, ⟨rfl, -⟩, hmiss⟩, params, u₆, hparams, rfl, rfl⟩, rfl⟩ := h
  have hends := templateName_ends hname
  obtain ⟨name, hn, rfl⟩ := templateName_spelled hname
  obtain ⟨hopen, hslash⟩ := callExtra_open hmiss
  let head : CallHead := ⟨delegate, gap, name, ⟨passed, hopen⟩⟩
  have hhead : s.Reads head.text u₅ := hb.trans (hk.trans (hg.trans (hn.trans hp)))
  have happart : NameEnds head.extra.chars := NameEnds.of_append (hp.rest ▸ hends)
  rcases hparams with ⟨-, u, hc, rfl, rfl⟩ |
    ⟨-, -, v₁, hc, _, v₂, hps, -, v₃, ⟨gap', hgap', -⟩, -, v₄, ⟨close, hclose⟩, rfl, rfl⟩
  · exact .closed head happart (hhead.trans hc)
  · exact .block head gap' close happart (hslash (by rw [hc.head?]; rfl)) (hhead.trans hc) hps
      (hgap'.trans hclose)

end Calls

section Items

/-- A node that one of the rules for body items reads, where `item` reads the nodes within. -/
inductive ByRule (home : List String) (item : Rule Node) (s : Cursor) (n : Node) (t : Cursor) :
    Prop where
  | text (h : textRun.Yields s n t)
  | call (delegate : Bool) (h : (call home delegate item).Yields s n t)
  | binding (h : (letBinding item).Yields s n t)
  | control (block : Control) (parsed : block ≠ .literal)
      (h : (controlBlock block item).Yields s n t)
  | literal (h : literal.Yields s n t)
  | interpolation (h : interpolation.Yields s n t)

theorem byRule_of_choice (h : (choice (textRun :: ((commandRules home item).map Prod.snd ++
    [interpolation]))).Yields s node t) : ByRule home item s node t := by
  obtain ⟨p, hp, hy⟩ := h.of_choice
  rcases bodyRule_cases hp with rfl | ⟨word, hrule⟩ | rfl
  · exact .text hy
  · cases hrule with
    | call delegate => exact .call delegate hy
    | binding => exact .binding hy
    | control block parsed => exact .control block parsed hy
    | literal => exact .literal hy
  · exact .interpolation hy

end Items

section Spelling

theorem textRun_spelled : ReadsItem home textRun := by
  intro s node t h
  obtain ⟨content, hr, -, rfl⟩ := textRun_reads h
  refine ⟨.plain content, hr, ?_⟩
  rw [hr.position]
  rfl

theorem interpolation_spelled : ReadsItem home interpolation := by
  intro s node t h
  obtain ⟨raw, hr, rfl⟩ := interpolation_reads h
  refine ⟨.interpolation raw, hr, ?_⟩
  rw [hr.position]
  rfl

theorem literal_spelled : ReadsItem home literal := by
  intro s node t h
  obtain ⟨gap, content, close, hr, htree⟩ := literal_reads home h
  exact ⟨.literal gap content close, hr, htree⟩

theorem bodyContent_spelled {name : String} {interior : List String}
    (hw : isWord name.toList = true) (hi : ReadsItem home item)
    (h : (bodyContent name interior item).Yields s nodes t) :
    ∃ (body : Body interior) (close : Blanks), s.Reads (body.text ++ closeText name close) t ∧
      nodes = body.trees home s.position := by
  obtain ⟨parts, u, hm, hclose, rfl⟩ := bodyContent_reads h
  obtain ⟨close, hclose⟩ := (yields_closeTag hw).1 hclose
  have hbody : Spells (fun b : Body interior => b.text) (fun b p => b.trees home p) s
      (parts.filterMap id) u := by
    refine hm.many_induction (P := fun s parts t => Spells (fun b : Body interior => b.text)
      (fun b p => b.trees home p) s (parts.filterMap id) t) (fun s => ⟨.nil, .refl s, rfl⟩) ?_
    rintro s part u parts t hp ⟨rest, hrest, hparts⟩
    rcases bodyPart_cases hp with ⟨rfl, htag⟩ | ⟨node, rfl, -, hn⟩
    · obtain ⟨w, hw, -, args, hr⟩ := yields_openTag.1 htag
      refine ⟨.tag w hw args rest, hr.trans hrest, ?_⟩
      rw [hr.position] at hparts
      exact hparts
    · obtain ⟨i, hr, rfl⟩ := hi _ _ _ hn
      refine ⟨.item i rest, hr.trans hrest, ?_⟩
      rw [hr.position] at hparts
      exact congrArg _ hparts
  obtain ⟨body, hr, hnodes⟩ := hbody
  exact ⟨body, close, hr.trans hclose, hnodes⟩

theorem bindingValue_spelled {word : String} (hw : isWord word.toList = true)
    (hi : ReadsItem home item) (h : (bindingValue word item).Yields s value t) :
    Spells (Binding.text word) (fun b p => b.tree home p) s value t := by
  cases bindingValue_reads h with
  | inline gap₁ gap₂ gap₃ head visible value close =>
    obtain ⟨e, he, rfl⟩ := expression_spelled _ _ _ value
    refine ⟨.inline gap₁ gap₂ e gap₃, ?_, ?_⟩
    · exact Binding.text_inline gap₁ gap₂ gap₃ e ▸ head.trans (he.trans close)
    · rw [head.position]
      rfl
  | block attrs gap head content =>
    obtain ⟨body, close, hb, rfl⟩ := bodyContent_spelled hw hi content
    refine ⟨.block attrs gap body close, ?_, ?_⟩
    · exact Binding.text_block attrs gap body close ▸ head.trans hb
    · rw [head.position]
      rfl

theorem letBinding_spelled (hi : ReadsItem home item) : ReadsItem home (letBinding item) := by
  intro s node t h
  obtain ⟨gap, name, value, u, hhead, hvalue, rfl⟩ := letBinding_reads h
  obtain ⟨value, hv, rfl⟩ := bindingValue_spelled (by decide) hi hvalue
  have hr := hhead.trans hv
  refine ⟨.binding gap name value, hr, ?_⟩
  rw [hr.position, hhead.position]
  rfl

theorem controlBlock_spelled {block : Control} (hb : block ≠ .literal) (hi : ReadsItem home item) :
    ReadsItem home (controlBlock block item) := by
  intro s node t h
  obtain ⟨args, nodes, u, htag, hcontent, rfl⟩ := controlBlock_reads h
  obtain ⟨body, close, hbody, rfl⟩ := bodyContent_spelled (isWord_control block) hi hcontent
  have hr := htag.trans hbody
  refine ⟨.control block hb args body close, hr, ?_⟩
  rw [hr.position, htag.position]
  rfl

theorem params_spelled {params : List Param} (hi : ReadsItem home item)
    (h : (many (blanks >>= fun _ => param item)).Yields s params t) :
    Spells Params.text (fun ps p => ps.trees home p) s params t := by
  refine h.many_induction (fun s => ⟨.nil, .refl s, rfl⟩) ?_
  rintro s p u ps t hp ⟨rest, hrest, rfl⟩
  obtain ⟨_, u₀, hblanks, hparam⟩ := yields_bind.1 hp
  obtain ⟨lead, hl, -⟩ := yields_blanks.1 hblanks
  obtain ⟨gap, name, value, u₁, hhead, hvalue, rfl⟩ := param_reads hparam
  obtain ⟨value, hv, rfl⟩ := bindingValue_spelled (by decide) hi hvalue
  have hr := hhead.trans hv
  refine ⟨.cons lead gap name value rest, hl.trans (hr.trans hrest), ?_⟩
  rw [hr.position, hhead.position, hl.position]
  rfl

theorem call_spelled (delegate : Bool) (hi : ReadsItem home item) :
    ReadsItem home (call home delegate item) := by
  intro s node t h
  cases callTag_reads h with
  | closed head apart tag =>
    refine ⟨.closedCall head, tag, ?_⟩
    rw [tag.position]
    rfl
  | block head gap close apart open_ tag content last =>
    obtain ⟨params, hps, rfl⟩ := params_spelled hi content
    have hr := tag.trans (hps.trans last)
    rw [List.append_assoc] at hr
    refine ⟨.blockCall head open_ params gap close, hr, ?_⟩
    rw [hr.position, tag.position]
    rfl

theorem bodyItem_spelled (home : List String) : ReadsItem home (bodyItem home) := by
  refine Ensures.recursive fun item hi s node t h => ?_
  have hrule : ByRule home item s node t := byRule_of_choice h
  cases hrule with
  | text h => exact textRun_spelled s node t h
  | call delegate h => exact call_spelled delegate hi s node t h
  | binding h => exact letBinding_spelled hi s node t h
  | control block parsed h => exact controlBlock_spelled parsed hi s node t h
  | literal h => exact literal_spelled s node t h
  | interpolation h => exact interpolation_spelled s node t h

end Spelling

end SoyTree.Grammar
