import SoyTree.Proofs.Nesting.Bound
import SoyTree.Proofs.Nesting.Brackets
import SoyTree.Proofs.Nesting.Limit

/-! # Bare programs and the nesting scan

On the text of a bare program the scan counts what the tree nests, no more and no less: with `d`
constructs open around a part of the tree, the deepest level that the scan meets in its text is `d`
and the depth of the part.
-/

namespace SoyTree.Nesting

open Concrete

section Pieces

variable {a b text content : List Char} {d d' d'' n m : Nat}

/-- The scan passes the text, which takes it from `d` open blocks to `d'`, and the deepest level that
it meets on the way is `n` above `d`. If `n` is zero it may meet none. -/
def Peaks (text : List Char) (d d' n : Nat) : Prop :=
  ∃ found, Passes text d d' found ∧ (∀ level ∈ found, level ≤ d + n) ∧ (n = 0 ∨ d + n ∈ found)

theorem peaks_nil (d : Nat) : Peaks [] d d 0 :=
  ⟨[], passes_nil d, by simp, Or.inl rfl⟩

theorem Passes.peaks_none (h : Passes text d d' []) : Peaks text d d' 0 :=
  ⟨[], h, by simp, Or.inl rfl⟩

theorem Passes.peaks (h : Passes text d d' [d + n]) : Peaks text d d' n :=
  ⟨_, h, by simp, Or.inr (List.mem_singleton_self _)⟩

theorem Peaks.append (ha : Peaks a d d n) (hb : Peaks b d d m) : Peaks (a ++ b) d d (max n m) := by
  obtain ⟨found, hpass, hle, hmem⟩ := ha
  obtain ⟨found', hpass', hle', hmem'⟩ := hb
  refine ⟨found ++ found', hpass.append hpass', fun level hlevel => ?_, ?_⟩
  · rcases List.mem_append.1 hlevel with hlevel | hlevel
    · have := hle level hlevel
      omega
    · have := hle' level hlevel
      omega
  · rcases Nat.le_total m n with h | h
    · rw [Nat.max_eq_left h]
      exact hmem.imp_right (List.mem_append_left _)
    · rw [Nat.max_eq_right h]
      exact hmem'.imp_right (List.mem_append_right _)

theorem Peaks.block {opening body close : List Char} (ho : Passes opening d (d + 1) [d + 1])
    (hb : Peaks body (d + 1) (d + 1) n) (hc : Passes close (d + 1) d []) :
    Peaks (opening ++ (body ++ close)) d d (n + 1) := by
  obtain ⟨found, hpass, hle, hmem⟩ := hb
  refine ⟨[d + 1] ++ (found ++ []), ho.append (hpass.append hc), fun level hlevel => ?_, Or.inr ?_⟩
  · simp only [List.append_nil, List.singleton_append, List.mem_cons] at hlevel
    rcases hlevel with rfl | hlevel
    · omega
    · have := hle level hlevel
      omega
  · rcases hmem with rfl | hmem
    · simp
    · have hlevel : d + (n + 1) = d + 1 + n := by omega
      simp [hlevel, hmem]

/-- The deepest level of a text that the scan starts and ends with no block open. -/
theorem Peaks.deepest_eq (h : Peaks text 0 0 n) : deepest text = n := by
  obtain ⟨found, hpass, hle, hmem⟩ := h
  obtain ⟨tags, rfl, heq⟩ := hpass 0 []
  have hlevels : levels text = tags := by
    simpa [levels, levelsFrom] using heq
  refine Nat.le_antisymm (deepest_le_iff.2 fun tag htag => ?_) ?_
  · rw [hlevels] at htag
    have := hle tag.level (List.mem_map_of_mem htag)
    omega
  · rcases hmem with rfl | hmem
    · exact Nat.zero_le _
    · obtain ⟨tag, htag, hlevel⟩ := List.mem_map.1 hmem
      have := le_deepest_of_mem (hlevels ▸ htag)
      omega

end Pieces

end SoyTree.Nesting

namespace SoyTree

open Concrete Nesting

section Tags

variable {a b text args body : List Char} {word : String} {d n : Nat}

/-- The content of a tag with a body behind it: bare, and not about to close itself. -/
def BareInner (text : List Char) : Prop :=
  Bare text ∧ text.getLast? ≠ some '/'

theorem BareInner.inner (h : BareInner text) : Inner text :=
  ⟨(nested_of_bare h.1).open_, h.2⟩

theorem BareInner.append (ha : BareInner a) (hb : BareInner b) : BareInner (a ++ b) :=
  ⟨bare_append.2 ⟨ha.1, hb.1⟩, (ha.inner.append hb.inner).2⟩

theorem Concrete.Blanks.bareInner (b : Blanks) : BareInner b.chars :=
  ⟨b.bare, b.inner.2⟩

theorem bareInner_word (h : isWord text = true) : BareInner text :=
  ⟨bare_word h, (Word.inner ⟨text, h⟩).2⟩

theorem bareInner_dotted {path : String} (h : Path.isDotted path = true) :
    BareInner path.toList := by
  obtain ⟨name, hname⟩ := Path.exists_name h
  exact ⟨bare_dotted h, hname ▸ name.inner.2⟩

theorem bare_attr {name value : List Char} (gap : Gap)
    (hname : ∀ c ∈ name, (c.isAlphanum || c == '_' || c == '-') = true) (hvalue : Bare value) :
    BareInner (gap.chars ++ (name ++ ('=' :: '"' :: (value ++ ['"'])))) := by
  have hbare : Bare name := bare_of_forall hname (by decide)
  refine ⟨by simp [gap.bare, hbare, hvalue], ?_⟩
  simp [List.getLast?_append, List.getLast?_cons]

theorem bareInner_attrs {attrs : List Attr} (h : ∀ a ∈ attrs, Bare a.pair.value) :
    BareInner (attrsText attrs) := by
  induction attrs with
  | nil => exact noBlanks.bareInner
  | cons a rest ih =>
    exact (bare_attr a.gap a.pair.plain (h a (by simp))).append
      (ih fun b hb => h b (List.mem_cons_of_mem _ hb))

theorem Attribute.ListPrints.bareInner {written : List Attribute} {text : List Char}
    (h : Attribute.ListPrints written text)
    (hbare : ∀ a ∈ written, a.Printable ∧ Bare a.value.toList) : BareInner text := by
  induction written generalizing text with
  | nil =>
    obtain rfl : text = [] := h
    exact noBlanks.bareInner
  | cons a rest ih =>
    obtain ⟨gap, more, hmore, rfl⟩ := h
    obtain ⟨hprintable, hvalue⟩ := hbare a (by simp)
    exact (bare_attr gap hprintable.2.1 hvalue).append
      (ih hmore fun b hb => hbare b (List.mem_cons_of_mem _ hb))

theorem peaks_command (hw : word ∈ blockWords) (hl : word ≠ "literal")
    (hargs : ∀ c ∈ args.head?, Grammar.isCommandChar c = false) (hin : BareInner args)
    (hbody : Peaks body (d + 1) (d + 1) n) (close : Blanks) :
    Peaks (tagOf (word.toList ++ args) ++ (body ++ closeText word close)) d d (n + 1) := by
  have htag := passes_commandTag hw hl hargs hin.inner d
  rw [(nested_of_bare (bare_append.2 ⟨bare_blockWord hw, hin.1⟩)).bracketDepth_eq] at htag
  exact Peaks.block (by simpa using htag) hbody (passes_closeTag hw close d)

/-- A tag that closes itself reaches as deep as its brackets. -/
theorem peaks_closedTag (hw : word ∈ blockWords) (h : Nested n args) (d : Nat) :
    Peaks (tagOf (word.toList ++ (args ++ ['/']))) d d n := by
  have hslash : Bare ['/'] := by simp
  have htag := passes_closedTag hw h.open_ d
  rw [(h.around (bare_blockWord hw) hslash).bracketDepth_eq] at htag
  exact htag.peaks

theorem peaks_otherTag (hw : word ∉ blockWords ∧ word.toList.all Grammar.isCommandChar = true)
    (hargs : ∀ c ∈ args.head?, Grammar.isCommandChar c = false)
    (hslash : (word.toList ++ args).head? ≠ some '/') (hword : Bare word.toList)
    (hbare : Bare args) (d : Nat) : Peaks (tagOf (word.toList ++ args)) d d 0 := by
  have htag := passes_otherTag hw hargs (nested_of_bare hbare).open_ hslash d
  rw [(nested_of_bare (bare_append.2 ⟨hword, hbare⟩)).bracketDepth_eq] at htag
  exact htag.peaks

theorem BareDividers.peaks {interior : List String}
    (hi : ∀ w ∈ interior, ∃ block : Control, w ∈ block.interior)
    (h : BareDividers interior text) (d : Nat) : Peaks text d d 0 := by
  induction h with
  | nil => exact peaks_nil d
  | cons word allowed args bare h ih =>
    obtain ⟨block, hblock⟩ := hi word allowed
    obtain ⟨hopen, hhead⟩ := interior_tag hblock args
    have hword : Bare word.toList := by
      have hall : ∀ w ∈ block.interior, Bare w.toList := by
        cases block <;> simp [Control.interior]
      exact hall word hblock
    have htag := passes_tag hopen hhead (opensBlock_interior hblock args) d
    rw [(nested_of_bare (bare_append.2 ⟨hword, bare⟩)).bracketDepth_eq] at htag
    rw [tagText_eq]
    exact htag.peaks.append ih

theorem peaks_interpolation {raw : List Char} (hfree : Grammar.isCommand raw = false)
    (hbare : Bare raw) (d : Nat) : Peaks (tagOf raw) d d 0 := by
  let inserted : Inserted := ⟨raw, (nested_of_bare hbare).open_, hfree⟩
  have htag := passes_tag inserted.open_ (inserted_head inserted) (opensBlock_inserted inserted) d
  rw [(nested_of_bare hbare).bracketDepth_eq] at htag
  exact htag.peaks

theorem peaks_literal {content : List Char} (gap : Blanks) (h : Bare content) (d : Nat) :
    Peaks (literalHead gap ++ (content ++ closeText "literal" noBlanks)) d d 1 := by
  obtain ⟨hin, hword⟩ := literalTag gap
  let literal : LiteralText := ⟨content, fun a gap b hcontent => by
    have hbrace : '\x7b' ∈ content := by
      rw [hcontent]
      simp [closeText]
    exact absurd (h _ hbrace) (by decide)⟩
  have htag := passes_literal hin.1 (blockWord_head (by decide) _) hin.2 hword literal d
  have hhead : Bare ("literal".toList ++ gap.chars) :=
    bare_append.2 ⟨bare_blockWord (by decide), gap.bare⟩
  rw [(nested_of_bare hhead).bracketDepth_eq] at htag
  rw [literalHead_eq, closeText_literal rfl]
  exact htag.peaks

end Tags

section Nodes

theorem peaks_blanks (b : Blanks) (d : Nat) : Peaks b.chars d d 0 :=
  (passes_plain (fun hc => absurd (b.blank _ hc) (by decide)) d).peaks_none

theorem bodyDepth_literal {body : List Node} (h : Node.IsLiteralBody body) :
    Node.bodyDepth body = 0 := by
  match body, h with
  | [], _ => rfl
  | [.text _ _], _ => rfl

mutual

theorem Node.BarePrints.peaks (node : Node) (text : List Char) (h : node.BarePrints text)
    (d : Nat) : Peaks text d d node.depth := by
  match node, h with
  | .text _ content, ⟨htext, hbare⟩ =>
    exact (passes_plain (fun hc => absurd (hbare _ hc) (by decide)) d).peaks_none
  | .interpolation _ raw, ⟨hfree, hbare, htext⟩ =>
    rw [htext]
    exact peaks_interpolation hfree hbare d
  | .call _ target delegate [], ⟨hname, gap, extra, htext⟩ =>
    have hargs : Bare (gap.chars ++ (target.toList ++ extra.chars)) := by
      simp [gap.bare, bare_dotted hname, extra.bare]
    have htag := peaks_closedTag (callWord_mem delegate) (nested_of_bare hargs) d
    have heq : text = tagOf ((callWord delegate).toList ++
        ((gap.chars ++ (target.toList ++ extra.chars)) ++ ['/'])) := by
      simp [htext, callHead, tagOf]
    rw [heq]
    exact htag
  | .call _ target delegate (q :: qs), ⟨hname, gap, extra, inner, behind, close, hlast, hinner,
      htext⟩ =>
    have hparams := Node.ParamsBarePrint.peaks (q :: qs) inner hinner (d + 1)
    have hin : BareInner (gap.chars ++ (target.toList ++ extra.chars)) :=
      gap.bareInner.append ((bareInner_dotted hname).append ⟨extra.bare, hlast⟩)
    have hblock := peaks_command (callWord_mem delegate) (by cases delegate <;> decide)
      (gap.not_command _) hin (hparams.append (peaks_blanks behind (d + 1))) close
    have heq : text = tagOf ((callWord delegate).toList ++
        (gap.chars ++ (target.toList ++ extra.chars))) ++
          ((inner ++ behind.chars) ++ closeText (callWord delegate) close) := by
      simp [htext, callHead, tagOf]
    rw [Nat.max_zero] at hblock
    rw [heq]
    exact hblock
  | .binding _ name value, ⟨hname, gap, rest, hvalue, htext⟩ =>
    have hdollar : BareInner ['$'] := ⟨by simp, by simp⟩
    have hin : BareInner (gap.chars ++ ('$' :: name.toList)) :=
      gap.bareInner.append (hdollar.append (bareInner_word hname))
    have hall := Value.BarePrints.peaks "let" (by decide) (by decide) hin
      (fun more => by rw [List.append_assoc]; exact gap.not_command _) value rest hvalue d
    have heq : text = '\x7b' :: ("let".toList ++ (gap.chars ++ ('$' :: name.toList) ++ rest)) := by
      simp [htext]
    rw [heq]
    exact hall
  | .control _ block body, h =>
    by_cases hblock : block = .literal
    · obtain ⟨hbody, hbare, gap, htext⟩ := h.1 hblock
      rw [htext, Node.depth, bodyDepth_literal hbody]
      exact peaks_literal gap hbare d
    · obtain ⟨args, inner, close, hlast, hinner, htext⟩ := h.2 hblock
      have hbody := Node.BodyBarePrints.peaks (fun w hw => ⟨block, hw⟩) body inner hinner (d + 1)
      rw [htext, tagText_eq]
      exact peaks_command control_mem (control_ne hblock)
        (fun c hc => isCommandChar_of_blank (args.apart c hc)) ⟨args.bare, hlast⟩ hbody close

theorem Value.BarePrints.peaks (word : String) (hw : word ∈ blockWords) (hl : word ≠ "literal")
    {mid : List Char} (hmid : BareInner mid)
    (hhead : ∀ rest, ∀ c ∈ (mid ++ rest).head?, Grammar.isCommandChar c = false) (value : Value)
    (text : List Char) (h : value.BarePrints word text) (d : Nat) :
    Peaks ('\x7b' :: (word.toList ++ (mid ++ text))) d d value.depth := by
  match value, h with
  | .inline expr, ⟨hexpr, gap₁, gap₂, gap₃, htext⟩ =>
    have hbefore : Bare (mid ++ (gap₁.chars ++ ':' :: gap₂.chars)) := by
      simp [hmid.1, gap₁.bare, gap₂.bare]
    have hargs := (nested_expr expr hexpr).around hbefore gap₃.bare
    have htag := peaks_closedTag hw hargs d
    have heq : '\x7b' :: (word.toList ++ (mid ++ text)) = tagOf (word.toList ++
        ((mid ++ (gap₁.chars ++ ':' :: gap₂.chars) ++ (expr.toSource.toList ++ gap₃.chars)) ++
          ['/'])) := by
      simp [htext, tagOf]
    rw [heq]
    exact htag
  | .block body, ⟨attrs, gap, close, inner, hattrs, hinner, htext⟩ =>
    have hbody := Node.BodyBarePrints.peaks (fun w hw => absurd hw List.not_mem_nil) body inner
      hinner (d + 1)
    have hin : BareInner (mid ++ (attrsText attrs ++ gap.chars)) :=
      hmid.append ((bareInner_attrs hattrs).append gap.bareInner)
    have hblock := peaks_command hw hl (hhead _) hin hbody close
    have heq : '\x7b' :: (word.toList ++ (mid ++ text)) =
        tagOf (word.toList ++ (mid ++ (attrsText attrs ++ gap.chars))) ++
          (inner ++ closeText word close) := by
      simp [htext, tagOf]
    rw [heq]
    exact hblock

theorem Node.ParamsBarePrint.peaks (params : List Param) (text : List Char)
    (h : Node.ParamsBarePrint params text) (d : Nat) :
    Peaks text d d (Node.paramsDepth params) := by
  match params, h with
  | [], htext =>
    obtain rfl : text = [] := htext
    exact peaks_nil d
  | .mk _ name value :: rest, ⟨hname, lead, gap, inner, more, hvalue, hmore, htext⟩ =>
    have hin : BareInner (gap.chars ++ name.toList) :=
      gap.bareInner.append (bareInner_word hname)
    have hparam := Value.BarePrints.peaks "param" (by decide) (by decide) hin
      (fun more => by rw [List.append_assoc]; exact gap.not_command _) value inner hvalue d
    have hrest := Node.ParamsBarePrint.peaks rest more hmore d
    have hall := (peaks_blanks lead d).append (hparam.append hrest)
    have heq : text = lead.chars ++
        ('\x7b' :: ("param".toList ++ (gap.chars ++ name.toList ++ inner)) ++ more) := by
      simp [htext]
    rw [Nat.zero_max] at hall
    rw [heq]
    exact hall

theorem Node.BodyBarePrints.peaks {interior : List String}
    (hi : ∀ w ∈ interior, ∃ block : Control, w ∈ block.interior) (nodes : List Node)
    (text : List Char) (h : Node.BodyBarePrints interior nodes text) (d : Nat) :
    Peaks text d d (Node.bodyDepth nodes) := by
  match nodes, h with
  | [], h => exact BareDividers.peaks hi h d
  | n :: rest, ⟨tags, first, more, htags, hfirst, hmore, htext⟩ =>
    have hall := (htags.peaks hi d).append ((Node.BarePrints.peaks n first hfirst d).append
      (Node.BodyBarePrints.peaks hi rest more hmore d))
    rw [Nat.zero_max] at hall
    rw [htext]
    exact hall

end

end Nodes

section Programs

theorem ParamDecl.ListPrints.peaks {params : List ParamDecl} {text : List Char}
    (h : ParamDecl.ListPrints params text)
    (hbare : ∀ d ∈ params, isWord d.name.toList = true ∧ Bare d.type.toList) (d : Nat) :
    Peaks text d d 0 := by
  induction params generalizing text with
  | nil =>
    obtain rfl : text = [] := h
    exact peaks_nil d
  | cons decl rest ih =>
    obtain ⟨lead, gap₁, gap₂, type, more, htrim, hmore, rfl⟩ := h
    obtain ⟨hname, htype⟩ := hbare decl (by simp)
    have htype' : Bare type.chars := bare_of_trim (htrim ▸ htype)
    let mark := if decl.required then [] else ['?']
    have hmark : Bare mark ∧ ∀ c ∈ mark.head?, Grammar.isCommandChar c = false := by
      cases hr : decl.required with
      | true => simp [mark, hr]
      | false => exact ⟨by simp [mark, hr], by simp [mark, hr]; decide⟩
    let args := mark ++ (gap₁.chars ++ (decl.name.toList ++ (gap₂.chars ++ (':' :: type.chars))))
    have hargs : Bare args := by
      simp [args, hmark.1, gap₁.bare, bare_word hname, gap₂.bare, htype']
    have hword : "@param" ∉ blockWords ∧ "@param".toList.all Grammar.isCommandChar = true := by
      decide +kernel
    have htag := peaks_otherTag hword (forall_head?_append hmark.2 (gap₁.not_command _)) (by simp)
      (by simp) hargs d
    have hall := (peaks_blanks lead d).append
      (htag.append (ih hmore fun e he => hbare e (List.mem_cons_of_mem _ he)))
    have htext : lead.chars ++ (tagOf ("@param".toList ++ args) ++ more) =
        (lead.chars ++ ("\x7b@param".toList ++ (mark ++ (gap₁.chars ++ (decl.name.toList ++
          (gap₂.chars ++ (':' :: (type.chars ++ ['\x7d'])))))))) ++ more := by
      simp [tagOf, args]
    rw [htext] at hall
    exact hall

theorem Template.BarePrints.peaks {t : Template} {text : List Char} (h : t.BarePrints text) :
    Peaks text 0 0 t.depth := by
  obtain ⟨-, hname, gap₁, written, attrs, gap₂, params, body, close, -, hattrs, hwritten, hparams,
    hdecls, hbody, rfl⟩ := h
  have hword : templateWord t.kind.isDelegate ∈ blockWords ∧
      templateWord t.kind.isDelegate ≠ "literal" := by
    cases t.kind.isDelegate <;> decide
  have hin : BareInner (gap₁.chars ++ (t.name.toList ++ (attrs ++ gap₂.chars))) :=
    gap₁.bareInner.append ((bareInner_dotted hname).append
      ((hattrs.bareInner hwritten).append gap₂.bareInner))
  have hcontent := (hparams.peaks hdecls 1).append
    (Node.BodyBarePrints.peaks (fun w hw => absurd hw List.not_mem_nil) t.body body hbody 1)
  rw [Nat.zero_max] at hcontent
  have hblock := peaks_command hword.1 hword.2 (gap₁.not_command _) hin hcontent close
  simpa [tagOf, Template.depth] using hblock

theorem Template.ListBarePrints.peaks {ts : List Template} {text : List Char}
    (h : Template.ListBarePrints ts text) :
    Peaks text 0 0 ((ts.map Template.depth).foldr max 0) := by
  induction ts generalizing text with
  | nil =>
    obtain rfl : text = [] := h
    exact peaks_nil 0
  | cons t rest ih =>
    obtain ⟨lead, first, more, hfirst, hmore, rfl⟩ := h
    have hall := (peaks_blanks lead 0).append (hfirst.peaks.append (ih hmore))
    rw [Nat.zero_max] at hall
    exact hall

theorem Program.BarePrints.deepest_eq {p : Program} {text : List Char} (h : p.BarePrints text) :
    deepest text = p.depth := by
  obtain ⟨hnamed, hpath, -, lead, gap, extra, templates, final, htemplates, rfl⟩ := h
  obtain ⟨w, ws, hwords⟩ := List.exists_cons_of_ne_nil hnamed
  have hdotted : Path.isDotted (Path.join p.namespacePath) = true := by
    rw [hwords] at hpath ⊢
    exact Path.isDotted_join w ws hpath
  have hargs : Bare (gap.chars ++ ((Path.join p.namespacePath).toList ++ extra.chars)) := by
    simp [gap.bare, bare_dotted hdotted, extra.bare]
  have hword : "namespace" ∉ blockWords ∧
      "namespace".toList.all Grammar.isCommandChar = true := by
    decide +kernel
  have htag := peaks_otherTag hword (gap.not_command _) (by simp) (by simp) hargs 0
  have hall := (peaks_blanks lead 0).append
    (htag.append (htemplates.peaks.append (peaks_blanks final 0)))
  simp only [Nat.zero_max, Nat.max_zero] at hall
  have hdeep := hall.deepest_eq
  simpa [tagOf, Program.depth] using hdeep

/-- The check of a bare program returns the depth of its tree if the limit allows for it. If it does
not, the check refuses the program at the first tag that goes too deep, and so does the parse. -/
theorem check_of_bare {p : Program} {text : List Char} (h : p.BarePrints text) (m : Nat) :
    (p.depth ≤ m → check text m = .ok p.depth) ∧
    (m < p.depth → ∃ tag e, FirstBeyond (levels text) m tag ∧ check text m = .error tag.offset ∧
      parseChars text ⟨m⟩ = .error e ∧ e.cause = .tooDeep m) := by
  rw [← h.deepest_eq]
  refine ⟨check_of_le, fun hlt => ?_⟩
  obtain ⟨tag, e, htag, hcheck, hparse, hcause, -⟩ := parseChars_of_lt hlt
  exact ⟨tag, e, htag, hcheck, hparse, hcause⟩

/-- A map in a call, and a parameter with a body, each in two more blocks. -/
def bareBlock : Node :=
  .control noMark .cond [
    .binding noMark "y" (.inline (.call noMark "f" [
      .map noMark [.mk noMark ⟨noMark, "k"⟩ (.boolean noMark true)]])),
    .call noMark "a.u" false [.mk noMark "z" (.block [.text noMark "w"])]]

def bareSample : Program where
  mark := noMark
  namespacePath := ["a"]
  templates := [{
    mark := noMark
    kind := .plain
    doc := none
    name := "a.t"
    attributes := []
    params := []
    body := [bareBlock] }]

def bareBlockText : List Char :=
  "\x7bif $x\x7d\x7blet $y: f(['k': true]) /\x7d".toList ++
    "\x7bcall a.u\x7d\x7bparam z\x7dw\x7b/param\x7d\x7b/call\x7d\x7b/if\x7d".toList

def bareText : List Char :=
  "\x7bnamespace a\x7d\x7btemplate a.t\x7d".toList ++ (bareBlockText ++ "\x7b/template\x7d".toList)

def noArgs : BareArgs := ⟨[], bare_nil, noRest_apart⟩

theorem bareBlock_prints : bareBlock.BarePrints bareBlockText := by
  let condition : BareArgs := ⟨" $x".toList, by simp, by simp; decide⟩
  have hlet : Node.BarePrints (.binding noMark "y" (.inline (.call noMark "f" [
      .map noMark [.mk noMark ⟨noMark, "k"⟩ (.boolean noMark true)]])))
      "\x7blet $y: f(['k': true]) /\x7d".toList :=
    ⟨by decide, oneSpace, _, ⟨⟨by decide, ⟨by simp, trivial, trivial⟩, trivial⟩, noBlanks,
      oneSpace.toBlanks, oneSpace.toBlanks, rfl⟩, by decide⟩
  have hblock : Value.BarePrints "param" (.block [.text noMark "w"]) "\x7dw\x7b/param\x7d".toList :=
    ⟨[], noBlanks, noBlanks, "w".toList, by simp, ⟨[], _, [], .nil, ⟨rfl, by simp⟩, .nil, rfl⟩,
      by decide⟩
  have hcall : Node.BarePrints (.call noMark "a.u" false [.mk noMark "z" (.block [.text noMark "w"])])
      "\x7bcall a.u\x7d\x7bparam z\x7dw\x7b/param\x7d\x7b/call\x7d".toList :=
    ⟨by decide, oneSpace, noArgs, _, noBlanks, noBlanks, by decide,
      ⟨by decide, noBlanks, oneSpace, _, [], hblock, rfl, rfl⟩, by decide⟩
  exact ⟨(by cases ·), fun _ => ⟨condition, _, noBlanks, by decide,
    ⟨[], _, _, .nil, hlet, ⟨[], _, [], .nil, hcall, .nil, rfl⟩, rfl⟩, by decide +kernel⟩⟩

theorem bareSample_prints : bareSample.BarePrints bareText := by
  have hbody : Node.BodyBarePrints [] [bareBlock] bareBlockText :=
    ⟨[], _, [], .nil, bareBlock_prints, .nil, by decide⟩
  refine ⟨by decide, by decide, by simp [bareSample], noBlanks, oneSpace, noArgs, _, noBlanks,
    ⟨noBlanks, _, [], ⟨rfl, by decide, oneSpace, [], [], noBlanks, [], _, noBlanks, rfl, rfl, by simp,
      rfl, by simp, hbody, rfl⟩, rfl, rfl⟩, ?_⟩
  decide +kernel

theorem bareSample_checked : bareSample.BarePrints bareText ∧ check bareText 4 = .ok 4 ∧
    ∃ tag e, FirstBeyond (levels bareText) 3 tag ∧ check bareText 3 = .error tag.offset ∧
      parseChars bareText ⟨3⟩ = .error e ∧ e.cause = .tooDeep 3 :=
  ⟨bareSample_prints, (check_of_bare bareSample_prints 4).1 (by decide),
    (check_of_bare bareSample_prints 3).2 (by decide)⟩

end Programs

end SoyTree
