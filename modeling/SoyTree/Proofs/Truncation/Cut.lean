import SoyTree.Proofs.Canonical.ReadBack
import SoyTree.Proofs.Nesting.Prefix

/-! # Cut-off sources

A source that ends within the body of a template, outside of its tags. The cut leaves blocks open, and
the innermost of them is told by its command word and the place of its opening brace.
-/

namespace SoyTree.Concrete

open Cursor Nesting

/-- A block that is still open: where its opening brace stands, and its command word. -/
structure Opener where
  offset : Nat
  word : String

def OnlyBlanks (text : List Char) : Prop :=
  ∀ c ∈ text, Grammar.blank.accepts c = true

section Cuts

mutual

/-- From `s` on the input is an item that is cut off within its content, and `o` is the innermost block
that is open. The word of a control block has to be set apart from what follows it: else its tag is
an interpolation where the block has no end. -/
def Item.CutOff (s : Cursor) (o : Opener) : Item → Prop
  | .plain _ => False
  | .interpolation _ => False
  | .closedCall _ => False
  | .blockCall head _ params _ _ =>
    ∃ t, s.Reads (head.text ++ ['\x7d']) t ∧ params.CutOff ⟨s.offset, callWord head.delegate⟩ t o
  | .binding gap name value =>
    ∃ t, s.Reads (letHead gap name) t ∧ value.CutOff ⟨s.offset, "let"⟩ t o
  | .control block _ args body _ =>
    (∀ c ∈ args.chars.head?, Grammar.isCommandChar c = false) ∧
      ∃ t, s.Reads (tagText block.word args.chars) t ∧ body.CutOff ⟨s.offset, block.word⟩ t o
  | .literal gap content _ =>
    ∃ t, s.Reads (literalHead gap) t ∧ t.rest <+: content.chars ∧ o = ⟨s.offset, "literal"⟩

/-- A binding of the block `here` that is cut off within its body. -/
def Binding.CutOff (here : Opener) (s : Cursor) (o : Opener) : Binding → Prop
  | .inline _ _ _ _ => False
  | .block attrs gap body _ =>
    ∃ t, s.Reads (attrsText attrs ++ (gap.chars ++ ['\x7d'])) t ∧ body.CutOff here t o

/-- The parameters of the call `here`, cut off within one of them or between them. -/
def Params.CutOff (here : Opener) (s : Cursor) (o : Opener) : Params → Prop
  | .nil => OnlyBlanks s.rest ∧ o = here
  | .cons lead gap name value rest =>
    (OnlyBlanks s.rest ∧ o = here) ∨
      (∃ t u, s.Reads lead.chars t ∧ t.Reads (paramHead gap name) u ∧
        value.CutOff ⟨t.offset, "param"⟩ u o) ∨
      ∃ t, s.Reads (lead.chars ++ (paramHead gap name ++ value.text "param")) t ∧
        rest.CutOff here t o

/-- The body of the block `here`, cut off within one of its parts, behind one of them, or in the middle
of a text. -/
def Body.CutOff {interior : List String} (here : Opener) (s : Cursor) (o : Opener) :
    Body interior → Prop
  | .nil => s.rest = [] ∧ o = here
  | .item first rest =>
    ((s.rest = [] ∨ first.isPlain = true ∧ s.rest <+: first.text) ∧ o = here) ∨
      first.CutOff s o ∨ ∃ t, s.Reads first.text t ∧ rest.CutOff here t o
  | .tag word _ args rest =>
    (s.rest = [] ∧ o = here) ∨ ∃ t, s.Reads (tagText word args.chars) t ∧ rest.CutOff here t o

end

/-- The header parameters of the template `here` and the body behind them. -/
def Template.HeadCutOff (here : Opener) (s : Cursor) (o : Opener) (body : Body []) :
    List HeaderParam → Prop
  | [] => body.CutOff here s o
  | d :: rest =>
    (OnlyBlanks s.rest ∧ o = here) ∨ ∃ t, s.Reads d.text t ∧ HeadCutOff here t o body rest

def Template.CutOff (s : Cursor) (o : Opener) (T : Template) : Prop :=
  ∃ t u, s.Reads T.docText t ∧ t.Reads T.headText u ∧
    HeadCutOff ⟨t.offset, templateWord T.delegate⟩ u o T.body T.params

/-- Templates, the last of which that are left is cut off. -/
def EntriesCutOff (s : Cursor) (o : Opener) : List Entry → Prop
  | [] => False
  | e :: rest => ∃ t, s.Reads e.lead.chars t ∧
    (e.template.CutOff t o ∨ ∃ u, t.Reads e.template.text u ∧ EntriesCutOff u o rest)

/-- The text is the file cut off within the body of a template, and `o` is the innermost block that is
open at the cut. -/
def File.CutOff (text : List Char) (o : Opener) (f : File) : Prop :=
  ∃ s t, (Cursor.ofChars text).Reads f.lead.chars s ∧ s.Reads f.tag.text t ∧
    EntriesCutOff t o f.entries

end Cuts

section Ends

variable {s t : Cursor} {here o : Opener}

theorem closeText_last (word : String) (gap : Blanks) :
    (closeText word gap).getLast? = some '\x7d' := by
  simp [closeText, List.getLast?_cons, List.getLast?_append]

theorem Binding.text_last (word : String) (b : Binding) :
    (b.text word).getLast? = some '\x7d' := by
  cases b <;> simp [Binding.text, List.getLast?_cons, List.getLast?_append, closeText_last]

theorem Item.text_last {i : Item} (h : i.isPlain = false) : i.text.getLast? = some '\x7d' := by
  cases i with
  | plain content => cases h
  | _ =>
    simp [Item.text, List.getLast?_cons, List.getLast?_append, closeText_last, Binding.text_last]

theorem endsOutside_of_plain {text : List Char} (h : '\x7b' ∉ text) : EndsOutside text := by
  rw [← List.append_nil text]
  exact .plain h .nil

theorem endsOutside_of_blanks {text : List Char} (h : OnlyBlanks text) : EndsOutside text :=
  endsOutside_of_plain fun hc => absurd (h _ hc) (by decide)

theorem endsOutside_of_reads {text : List Char} (hr : s.Reads text t)
    (hlast : text.getLast? = some '\x7d') (h : EndsOutside t.rest) : EndsOutside s.rest := by
  rw [hr.rest]
  exact .tag hlast h

theorem Blanks.endsOutside (b : Blanks) (hr : s.Reads b.chars t) (h : EndsOutside t.rest) :
    EndsOutside s.rest := by
  rw [hr.rest]
  exact .plain (fun hc => absurd (b.blank _ hc) (by decide)) h

theorem Item.endsOutside_behind (i : Item) (hr : s.Reads i.text t) (h : EndsOutside t.rest) :
    EndsOutside s.rest := by
  cases hp : i.isPlain with
  | false => exact endsOutside_of_reads hr (i.text_last hp) h
  | true =>
    cases i with
    | plain content =>
      rw [hr.rest]
      exact .plain content.plain h
    | _ => cases hp

theorem Item.brace_notMem {i : Item} {text : List Char} (hp : i.isPlain = true)
    (h : text <+: i.text) : '\x7b' ∉ text := by
  cases i with
  | plain content => exact fun hc => content.plain (h.subset hc)
  | _ => cases hp

mutual

/-- A cut is no place within a tag. -/
theorem Item.endsOutside {s : Cursor} {o : Opener} (i : Item) (h : i.CutOff s o) : EndsOutside s.rest := by
  match i with
  | .plain _ => exact h.elim
  | .interpolation _ => exact h.elim
  | .closedCall _ => exact h.elim
  | .blockCall head open_ params gap close =>
    obtain ⟨t, hr, h⟩ := h
    exact endsOutside_of_reads hr (by simp) (Params.endsOutside params h)
  | .binding gap name value =>
    obtain ⟨t, hr, h⟩ := h
    exact Binding.endsOutside value hr h
  | .control block parsed args body close =>
    obtain ⟨-, t, hr, h⟩ := h
    refine endsOutside_of_reads hr ?_ (Body.endsOutside body h)
    simp [tagText, List.getLast?_cons, List.getLast?_append]
  | .literal gap content close =>
    obtain ⟨t, hr, h, -⟩ := h
    rw [hr.rest]
    exact .literal gap content h

theorem Binding.endsOutside {s t : Cursor} {here o : Opener} {text : List Char} (b : Binding)
    (hr : s.Reads text t) (h : b.CutOff here t o) : EndsOutside s.rest := by
  match b with
  | .inline _ _ _ _ => exact h.elim
  | .block attrs gap body close =>
    obtain ⟨u, hhead, h⟩ := h
    refine endsOutside_of_reads (hr.trans hhead) ?_ (Body.endsOutside body h)
    simp [List.getLast?_append]

theorem Params.endsOutside {s : Cursor} {here o : Opener} (ps : Params)
    (h : ps.CutOff here s o) : EndsOutside s.rest := by
  match ps with
  | .nil => exact endsOutside_of_blanks h.1
  | .cons lead gap name value rest =>
    rcases h with h | ⟨t, u, hlead, hhead, h⟩ | ⟨t, hr, h⟩
    · exact endsOutside_of_blanks h.1
    · exact lead.endsOutside hlead (Binding.endsOutside value hhead h)
    · refine endsOutside_of_reads hr ?_ (Params.endsOutside rest h)
      simp [List.getLast?_append, Binding.text_last]

theorem Body.endsOutside {interior : List String} {s : Cursor} {here o : Opener}
    (body : Body interior) (h : body.CutOff here s o) : EndsOutside s.rest := by
  match body with
  | .nil => exact h.1 ▸ .nil
  | .item first rest =>
    rcases h with ⟨hs | ⟨hp, hs⟩, -⟩ | h | ⟨t, hr, h⟩
    · exact hs ▸ .nil
    · exact endsOutside_of_plain (Item.brace_notMem hp hs)
    · exact Item.endsOutside first h
    · exact first.endsOutside_behind hr (Body.endsOutside rest h)
  | .tag word allowed args rest =>
    rcases h with ⟨hs, -⟩ | ⟨t, hr, h⟩
    · exact hs ▸ .nil
    · refine endsOutside_of_reads hr ?_ (Body.endsOutside rest h)
      simp [tagText, List.getLast?_cons, List.getLast?_append]

end

theorem HeaderParam.text_last (d : HeaderParam) : d.text.getLast? = some '\x7d' := by
  unfold HeaderParam.text HeaderParam.tag
  generalize "\x7b@param".toList = word
  simp [List.getLast?_cons, List.getLast?_append]

theorem Template.head_endsOutside {body : Body []} {ds : List HeaderParam}
    (h : HeadCutOff here s o body ds) : EndsOutside s.rest := by
  induction ds generalizing s with
  | nil => exact body.endsOutside h
  | cons d ds ih =>
    rcases h with h | ⟨t, hr, h⟩
    · exact endsOutside_of_blanks h.1
    · exact endsOutside_of_reads hr d.text_last (ih h)

theorem Template.endsOutside {T : Template} {text : List Char} (hr : s.Reads text t)
    (h : T.CutOff t o) : EndsOutside s.rest := by
  obtain ⟨u, v, hdoc, hhead, h⟩ := h
  refine endsOutside_of_reads (hr.trans (hdoc.trans hhead)) ?_ (head_endsOutside h)
  simp [Template.headText, List.getLast?_append]

theorem entries_endsOutside {text : List Char} {es : List Entry} (hr : s.Reads text t)
    (h : EntriesCutOff t o es) : EndsOutside s.rest := by
  induction es generalizing t text with
  | nil => exact h.elim
  | cons e es ih =>
    obtain ⟨u, hlead, h | ⟨v, hT, h⟩⟩ := h
    · exact Template.endsOutside (hr.trans hlead) h
    · exact ih (hr.trans (hlead.trans hT)) h

theorem File.endsOutside {f : File} {text : List Char} (h : f.CutOff text o) : EndsOutside text := by
  obtain ⟨s, t, hlead, htag, h⟩ := h
  exact entries_endsOutside (hlead.trans htag) h

end Ends

section Openers

variable {s t : Cursor} {here o : Opener}

/-- The block starts here, and its command word is as long as it is read. -/
def Opener.StartsAt (o : Opener) (s : Cursor) : Prop :=
  o.offset = s.offset ∧ (∀ c ∈ o.word.toList, Grammar.isCommandChar c = true) ∧ o.word ≠ "" ∧
    ∃ behind, s.rest = '\x7b' :: (o.word.toList ++ behind) ∧
      ∀ c ∈ behind.head?, Grammar.isCommandChar c = false

def Opener.Within (o : Opener) (s : Cursor) : Prop :=
  ∃ text t, s.Reads text t ∧ o.StartsAt t

theorem Opener.StartsAt.within (h : o.StartsAt s) : o.Within s :=
  ⟨[], s, .refl s, h⟩

theorem Opener.Within.earlier {text : List Char} (hr : s.Reads text t) (h : o.Within t) :
    o.Within s := by
  obtain ⟨text', u, hr', h⟩ := h
  exact ⟨text ++ text', u, hr.trans hr', h⟩

/-- Behind a tag of the block `here` it is that block or one that starts later. -/
theorem Opener.within_of_inner {text : List Char} (hhere : here.StartsAt s) (hr : s.Reads text t)
    (h : o = here ∨ o.Within t) : o.Within s := by
  rcases h with rfl | h
  · exact hhere.within
  · exact h.earlier hr

theorem startsAt_of_reads {word : String} {behind : List Char} (hw : word ∈ blockWords)
    (hr : s.Reads ('\x7b' :: (word.toList ++ behind)) t)
    (hbehind : ∀ c ∈ (behind ++ t.rest).head?, Grammar.isCommandChar c = false) :
    Opener.StartsAt ⟨s.offset, word⟩ s := by
  have hne : ∀ w ∈ blockWords, w ≠ "" := by decide
  refine ⟨rfl, isCommandChar_of_mem hw, hne word hw, behind ++ t.rest, ?_, hbehind⟩
  rw [hr.rest]
  simp

theorem startsAt_gap {word : String} (behind : List Char) (hw : word ∈ blockWords) (gap : Gap)
    (hr : s.Reads ('\x7b' :: (word.toList ++ (gap.chars ++ behind))) t) :
    Opener.StartsAt ⟨s.offset, word⟩ s := by
  refine startsAt_of_reads hw hr ?_
  rw [List.append_assoc]
  exact gap.not_command _

theorem CallHead.startsAt (head : CallHead) {text : List Char} (hr : s.Reads (head.text ++ text) t) :
    Opener.StartsAt ⟨s.offset, callWord head.delegate⟩ s := by
  refine startsAt_gap (t := t) (head.name.text ++ (head.extra.chars ++ text))
    (callWord_mem head.delegate) head.gap ?_
  simpa [CallHead.text] using hr

theorem tag_startsAt {word : String} (hw : word ∈ blockWords) (args : TagRest)
    (hargs : ∀ c ∈ args.chars.head?, Grammar.isCommandChar c = false)
    (hr : s.Reads (tagText word args.chars) t) : Opener.StartsAt ⟨s.offset, word⟩ s := by
  refine startsAt_of_reads hw hr ?_
  rw [List.append_assoc]
  refine forall_head?_append hargs ?_
  rintro c (_ | _)
  decide

/-- The command word of an item that has a body. -/
def Item.word : Item → String
  | .plain _ => ""
  | .interpolation _ => ""
  | .closedCall _ => ""
  | .blockCall head _ _ _ _ => callWord head.delegate
  | .binding _ _ _ => "let"
  | .control block _ _ _ _ => block.word
  | .literal _ _ _ => "literal"

theorem Item.startsAt {i : Item} (h : i.CutOff s o) :
    i.word ∈ Grammar.itemWords ∧ Opener.StartsAt ⟨s.offset, i.word⟩ s := by
  cases i with
  | plain content => exact h.elim
  | interpolation raw => exact h.elim
  | closedCall head => exact h.elim
  | blockCall head open_ params gap close =>
    obtain ⟨t, hr, -⟩ := h
    exact ⟨Grammar.callWord_mem_itemWords head.delegate, head.startsAt hr⟩
  | binding gap name value =>
    obtain ⟨t, hr, -⟩ := h
    have hword : "let" ∈ Grammar.itemWords ∧ "let" ∈ blockWords := by decide
    exact ⟨hword.1, startsAt_gap _ hword.2 gap hr⟩
  | control block parsed args body close =>
    obtain ⟨hargs, t, hr, -⟩ := h
    exact ⟨Grammar.control_mem_itemWords block, tag_startsAt control_mem args.toTagRest hargs hr⟩
  | literal gap content close =>
    obtain ⟨t, hr, -⟩ := h
    have hword : "literal" ∈ Grammar.itemWords ∧ "literal" ∈ blockWords := by decide
    exact ⟨hword.1, tag_startsAt hword.2 gap.args.toTagRest (not_command_of_blanks gap) hr⟩

mutual

theorem Item.within {s : Cursor} {o : Opener} (i : Item) (h : i.CutOff s o) : o.Within s := by
  have hstart := (Item.startsAt h).2
  match i with
  | .plain _ => exact h.elim
  | .interpolation _ => exact h.elim
  | .closedCall _ => exact h.elim
  | .blockCall head open_ params gap close =>
    obtain ⟨t, hr, h⟩ := h
    exact Opener.within_of_inner hstart hr (Params.within params h)
  | .binding gap name value =>
    obtain ⟨t, hr, h⟩ := h
    exact Opener.within_of_inner hstart hr (Binding.within value h)
  | .control block parsed args body close =>
    obtain ⟨-, t, hr, h⟩ := h
    exact Opener.within_of_inner hstart hr (Body.within body h)
  | .literal gap content close =>
    obtain ⟨t, -, -, rfl⟩ := h
    exact hstart.within

theorem Binding.within {s : Cursor} {here o : Opener} (b : Binding) (h : b.CutOff here s o) :
    o = here ∨ o.Within s := by
  match b with
  | .inline _ _ _ _ => exact h.elim
  | .block attrs gap body close =>
    obtain ⟨t, hr, h⟩ := h
    exact (Body.within body h).imp_right (·.earlier hr)

theorem Params.within {s : Cursor} {here o : Opener} (ps : Params) (h : ps.CutOff here s o) :
    o = here ∨ o.Within s := by
  match ps with
  | .nil => exact Or.inl h.2
  | .cons lead gap name value rest =>
    rcases h with h | ⟨t, u, hlead, hhead, h⟩ | ⟨t, hr, h⟩
    · exact Or.inl h.2
    · refine Or.inr (Opener.Within.earlier hlead ?_)
      exact Opener.within_of_inner (startsAt_gap _ (by decide) gap hhead) hhead
        (Binding.within value h)
    · exact (Params.within rest h).imp_right (·.earlier hr)

theorem Body.within {interior : List String} {s : Cursor} {here o : Opener}
    (body : Body interior) (h : body.CutOff here s o) : o = here ∨ o.Within s := by
  match body with
  | .nil => exact Or.inl h.2
  | .item first rest =>
    rcases h with h | h | ⟨t, hr, h⟩
    · exact Or.inl h.2
    · exact Or.inr (Item.within first h)
    · exact (Body.within rest h).imp_right (·.earlier hr)
  | .tag word allowed args rest =>
    rcases h with h | ⟨t, hr, h⟩
    · exact Or.inl h.2
    · exact (Body.within rest h).imp_right (·.earlier hr)

end

theorem Template.head_within {body : Body []} {ds : List HeaderParam}
    (h : HeadCutOff here s o body ds) : o = here ∨ o.Within s := by
  induction ds generalizing s with
  | nil => exact body.within h
  | cons d ds ih =>
    rcases h with h | ⟨t, hr, h⟩
    · exact Or.inl h.2
    · exact (ih h).imp_right (·.earlier hr)

theorem Template.startsAt (T : Template) (hr : s.Reads T.headText t) :
    Opener.StartsAt ⟨s.offset, templateWord T.delegate⟩ s := by
  have hmem : templateWord T.delegate ∈ blockWords := by
    cases T.delegate <;> decide
  refine startsAt_gap (t := t) (T.name.text ++ (attrsText T.attrs ++ (T.gap₂.chars ++ ['\x7d'])))
    hmem T.gap₁ ?_
  simpa [Template.headText, Template.nameText] using hr

theorem Template.within {T : Template} (h : T.CutOff s o) : o.Within s := by
  obtain ⟨t, u, hdoc, hhead, h⟩ := h
  exact .earlier hdoc (Opener.within_of_inner (T.startsAt hhead) hhead (head_within h))

theorem entries_within {es : List Entry} (h : EntriesCutOff s o es) : o.Within s := by
  induction es generalizing s with
  | nil => exact h.elim
  | cons e es ih =>
    obtain ⟨t, hlead, h | ⟨u, hT, h⟩⟩ := h
    · exact .earlier hlead (Template.within h)
    · exact .earlier hlead (.earlier hT (ih h))

/-- The innermost block that is open starts within the text. -/
theorem File.within {f : File} {text : List Char} (h : f.CutOff text o) :
    o.Within (.ofChars text) := by
  obtain ⟨s, t, hlead, htag, h⟩ := h
  exact .earlier (hlead.trans htag) (entries_within h)

end Openers

end SoyTree.Concrete
