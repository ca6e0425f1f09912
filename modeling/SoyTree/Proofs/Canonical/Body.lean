import SoyTree.Proofs.Canonical.Commands
import SoyTree.Proofs.Canonical.Expression
import SoyTree.Proofs.Grammar.Body

/-! # Reading the parts of bodies back

The items of a body are read as they are written: every item is reached past the rules in front of its
own, and every raw capture stops where the item ends.
-/

namespace SoyTree

namespace Concrete

section Canonical

/-- What follows the name of a call does not continue the name. -/
def CallHead.Canonical (h : CallHead) : Prop :=
  ∀ c ∈ h.extra.chars.head?, Grammar.endsName c

/-- What follows the name of a call goes on neither with the name nor with one more segment. -/
def CallHead.Apart (h : CallHead) : Prop :=
  NameEnds h.extra.chars

theorem CallHead.Canonical.apart {h : CallHead} (hc : h.Canonical) : h.Apart :=
  Grammar.nameEnds_of_endsName hc

def Item.isPlain : Item → Bool
  | .plain _ => true
  | _ => false

def Body.startsPlain {interior : List String} : Body interior → Bool
  | .item first _ => first.isPlain
  | _ => false

mutual

/-- No interpolation starts with a command word, inline values are simple, and no two texts stand
side by side. -/
def Item.Canonical : Item → Prop
  | .plain _ => True
  | .interpolation raw => String.ofList (Grammar.leadWord raw.chars) ∉ Grammar.reservedWords
  | .closedCall head => head.Canonical
  | .blockCall head _ params _ _ => head.Canonical ∧ params.Canonical
  | .binding _ _ value => value.Canonical
  | .control _ _ _ body _ => body.Canonical
  | .literal _ _ _ => True

def Binding.Canonical : Binding → Prop
  | .inline _ _ value _ => value.Simple
  | .block _ _ body _ => body.Canonical

def Params.Canonical : Params → Prop
  | .nil => True
  | .cons _ _ _ value rest => value.Canonical ∧ rest.Canonical

def Body.Canonical {interior : List String} : Body interior → Prop
  | .nil => True
  | .item first rest =>
    first.Canonical ∧ (first.isPlain = true → rest.startsPlain = false) ∧ rest.Canonical
  | .tag _ _ _ rest => rest.Canonical

end

end Canonical

end Concrete

namespace Grammar

open Rule Cursor Concrete

variable {s t u v : Cursor} {home interior : List String} {item : Rule Node}

section Leads

def itemWord : Item → List Char
  | .plain _ => []
  | .interpolation raw => leadWord raw.chars
  | .closedCall head => (callWord head.delegate).toList
  | .blockCall head _ _ _ _ => (callWord head.delegate).toList
  | .binding _ _ _ => "let".toList
  | .control block _ _ _ _ => block.word.toList
  | .literal _ _ _ => "literal".toList

theorem callWord_mem_itemWords (delegate : Bool) : callWord delegate ∈ itemWords := by
  cases delegate <;> decide

theorem control_mem_itemWords (block : Control) : block.word ∈ itemWords := by
  cases block <;> decide

theorem call_mem (delegate : Bool) :
    (callWord delegate, call home delegate item) ∈ commandRules home item := by
  cases delegate <;> simp [commandRules, callWord]

theorem let_mem : ("let", letBinding item) ∈ commandRules home item := by
  simp [commandRules]

theorem control_mem {block : Control} (h : block ≠ .literal) :
    (block.word, controlBlock block item) ∈ commandRules home item := by
  cases block <;> first | exact absurd rfl h | simp [commandRules, Control.word]

theorem leadWord_closed (raw rest : List Char) :
    leadWord (raw ++ '\x7d' :: rest) = leadWord raw := by
  cases raw with
  | nil => rfl
  | cons c raw =>
    have hstop : isWordPart '\x7d' = false := by decide
    simp only [List.cons_append, leadWord, takeWhile_append_stop hstop]

theorem item_opens {i : Item} (hi : i.isPlain = false) (hr : s.Reads i.text t) :
    Opens s (itemWord i) := by
  cases i with
  | plain content => cases hi
  | interpolation raw =>
    refine ⟨raw.chars ++ '\x7d' :: t.rest, ?_, leadWord_closed raw.chars t.rest⟩
    rw [hr.rest]
    simp [Item.text]
  | closedCall head =>
    obtain ⟨u, hhead, -⟩ := Reads.split hr
    exact opens_gap (isWord_callWord head.delegate) head.gap hhead
  | blockCall head open_ params gap close =>
    obtain ⟨u, hhead, -⟩ := Reads.split hr
    exact opens_gap (isWord_callWord head.delegate) head.gap hhead
  | binding gap name value =>
    obtain ⟨u, hhead, -⟩ := Reads.split (a := letHead gap name) hr
    exact opens_gap (by decide) gap hhead
  | control block parsed args body close =>
    obtain ⟨u, hhead, -⟩ := Reads.split (a := tagText block.word args.chars) hr
    exact opens_tag (isWord_control block) args hhead
  | literal gap content close =>
    obtain ⟨u, hhead, -⟩ := Reads.split (a := literalHead gap) hr
    exact opens_tag (by decide) gap.args hhead

/-- The words that may divide some block. -/
def Interior (interior : List String) : Prop :=
  ∀ w ∈ interior, ∃ block : Control, w ∈ block.interior

theorem Interior.word {w : String} (hi : Interior interior) (hw : w ∈ interior) :
    isWord w.toList = true ∧ w ∈ reservedWords ∧ w ∉ itemWords := by
  have h : ∀ block : Control, ∀ w ∈ block.interior,
      isWord w.toList = true ∧ w ∈ reservedWords ∧ w ∉ itemWords := by
    intro block
    cases block <;> decide
  obtain ⟨block, hblock⟩ := hi w hw
  exact h block w hblock

end Leads

section Leaves

theorem textRun_yields (content : PlainText) (hr : s.Reads content.chars t)
    (hnext : ∀ c ∈ t.rest.head?, c = '\x7b') :
    textRun.Yields s (.text (markAt s.position content.chars) (String.ofList content.chars)) t := by
  refine Yields.markedAt (fun mark text => Node.text mark (String.ofList text)) ?_ hr
  refine yields_run1.2 ⟨content.nonempty, hr, fun c hc => ?_, ?_⟩
  · have hne : c ≠ '\x7b' := fun h => content.plain (h ▸ hc)
    simpa [CharClass.noneOf] using hne
  · intro c hc
    rw [hnext c hc]
    decide

theorem interpolation_yields (raw : Inserted)
    (hr : s.Reads ('\x7b' :: (raw.chars ++ ['\x7d'])) t) :
    interpolation.Yields s (.interpolation (markAt s.position ('\x7b' :: (raw.chars ++ ['\x7d'])))
      (String.ofList raw.chars)) t := by
  obtain ⟨u, hopen, hraw⟩ := hr.split_cons
  refine Yields.markedAt (fun mark raw => Node.interpolation mark (String.ofList raw)) ?_ hr
  refine yields_check.2 ⟨raw.chars, (char_yields hopen).bind ?_, by simp [raw.free]⟩
  exact yields_rawThrough_char.2 ⟨raw.open_, hraw⟩

/-- The closing tag of a literal block is first met at the end of its content: it holds no second
brace with which an earlier match could overlap it. -/
theorem misses_literalClose (content : LiteralText) (close : Blanks)
    (hr : u.Reads (closeText "literal" close) t) :
    (closeTag "literal").Misses s content.chars u := by
  have hw : isWord "literal".toList = true := by decide
  intro a b hab hb
  refine fails_iff.2 fun d v hy => ?_
  obtain ⟨gap, hclose⟩ := (yields_closeTag hw).1 hy
  have htexts : b ++ u.rest = closeText "literal" gap ++ v.rest := hclose.rest
  rcases List.append_eq_append_iff.1 htexts with ⟨x, hx, hrest⟩ | ⟨x, hx, -⟩
  · obtain ⟨c, b, rfl⟩ := List.exists_cons_of_ne_nil hb
    have htail : '/' :: ("literal".toList ++ (gap.chars ++ ['\x7d'])) = b ++ x :=
      (List.cons.inj hx).2
    have hfree : '\x7b' ∉ b ++ x := by
      rw [← htail]
      simp only [List.mem_cons, List.mem_append, not_or]
      exact ⟨by decide, by decide, fun hc => absurd (gap.blank _ hc) (by decide), by decide, by simp⟩
    have hhead := hr.head_cons
    rw [hrest] at hhead
    cases x with
    | nil =>
      refine content.open_ a gap [] ?_
      rw [hab, hx]
      simp
    | cons c x =>
      obtain rfl : c = '\x7b' := by simpa using hhead
      exact hfree (by simp)
  · refine content.open_ a gap x ?_
    rw [hab, hx, List.append_assoc]

theorem literal_yields (gap : Blanks) (content : LiteralText) (close : Blanks)
    (hr : s.Reads (Item.literal gap content close).text t) :
    literal.Yields s ((Item.literal gap content close).tree home s.position) t := by
  have hw : isWord "literal".toList = true := by decide
  obtain ⟨u, hhead, hrest⟩ := Reads.split (a := literalHead gap) hr
  obtain ⟨v, hcontent, hclose⟩ := hrest.split
  obtain ⟨u₁, hopen, hhead'⟩ := hhead.split_cons
  obtain ⟨u₂, hword, hhead''⟩ := hhead'.split
  obtain ⟨u₃, hgap, hend⟩ := hhead''.split
  have hapart : ∀ c ∈ u₂.rest.head?, isWordPart c = false :=
    hgap.forall_head gap.apart (hend.forall_cons (by decide))
  refine yields_closed.2 (Yields.markedAt _
    (v := (markAt (s.position.after (literalHead gap)) content.chars, content.chars)) ?_ hr)
  refine (char_yields hopen).bind ((keyword_yields hw hword hapart).bind ?_)
  refine (blanks_yields gap hgap (hend.forall_cons (by decide))).bind ((char_yields hend).bind ?_)
  refine Yields.bind (t := v) ?_
    ((closeTag_yields hw close hclose).bind (yields_pure.2 ⟨rfl, rfl⟩))
  rw [← hhead.position]
  refine Yields.markedAt Prod.mk (yields_rawUntil.2 ⟨hcontent, ?_, ?_⟩) hcontent
  · exact ⟨(), t, closeTag_yields hw close hclose⟩
  · exact misses_literalClose content close hclose

end Leaves

section Bodies

/-- From `s` on the rule is the one for items, as it is for inner items within an outer one. -/
def IsItemFrom (home : List String) (item : Rule Node) (s : Cursor) : Prop :=
  ∀ u : Cursor, u.rest.length ≤ s.rest.length → item u = bodyItem home u

theorem isItemFrom_beyond (h : s.rest.length < u.rest.length) :
    IsItemFrom home (beyond u (bodyItem home)) s := by
  intro v hv
  unfold beyond
  rw [if_pos (Nat.lt_of_le_of_lt hv h)]

theorem IsItemFrom.later {text : List Char} (h : IsItemFrom home item s) (hr : s.Reads text t) :
    IsItemFrom home item t :=
  fun u hu => h u (Nat.le_trans hu hr.le)

theorem IsItemFrom.yields {node : Node} (h : IsItemFrom home item s)
    (hy : (bodyItem home).Yields s node t) : item.Yields s node t := by
  unfold Yields
  rwa [h s (Nat.le_refl _)]

theorem IsItemFrom.fails (h : IsItemFrom home item s) (hf : (bodyItem home).Fails s) :
    item.Fails s := by
  unfold Fails
  rwa [h s (Nat.le_refl _)]

theorem bodyContent_yields {name : String} {nodes : List Node} (hw : isWord name.toList = true)
    (close : Blanks) (hclose : u.Reads (closeText name close) t)
    (hparts : ∃ parts, (many (bodyPart interior item)).Yields s parts u ∧
      parts.filterMap id = nodes) :
    (bodyContent name interior item).Yields s nodes t := by
  obtain ⟨parts, hparts, rfl⟩ := hparts
  exact hparts.bind ((closeTag_yields hw close hclose).bind (yields_pure.2 ⟨rfl, rfl⟩))

theorem bodyPart_tag {word : String} (hi : Interior interior) (hword : word ∈ interior)
    (args : TagArgs) (hr : s.Reads (tagText word args.chars) t) :
    (bodyPart interior item).Yields s none t := by
  refine yields_either.2 (Or.inl (Yields.bind (v := ()) ?_ (yields_pure.2 ⟨rfl, rfl⟩)))
  exact yields_openTag.2 ⟨word, hword, (hi.word hword).1, args, hr⟩

theorem bodyPart_item {node : Node} (htag : (openTag interior).Fails s)
    (hitem : item.Yields s node t) : (bodyPart interior item).Yields s (some node) t :=
  yields_either.2 (Or.inr ⟨Fails.bind htag, hitem.bind (yields_pure.2 ⟨rfl, rfl⟩)⟩)

theorem bodyPart_fails {name : String} {close : Blanks} (hi : Interior interior)
    (hr : s.Reads (closeText name close) t) (hitem : IsItemFrom home item s) :
    (bodyPart interior item).Fails s := by
  have hs : s.rest = '\x7b' :: '/' :: (name.toList ++ (close.chars ++ ['\x7d']) ++ t.rest) := hr.rest
  refine fails_either.2 ⟨Fails.bind (openTag_fails (opens_close hr) fun w hw h => ?_),
    Fails.bind (hitem.fails (bodyItem_fails hs))⟩
  have hword := (hi.word hw).1
  rw [← h] at hword
  cases hword

theorem item_text_head {i : Item} (h : i.isPlain = false) : ∃ rest, i.text = '\x7b' :: rest := by
  cases i with
  | plain content => cases h
  | _ => exact ⟨_, rfl⟩

theorem item_text_ne_nil (i : Item) : i.text ≠ [] := by
  cases h : i.isPlain with
  | false =>
    obtain ⟨rest, hrest⟩ := item_text_head h
    simp [hrest]
  | true =>
    cases i with
    | plain content => exact content.nonempty
    | _ => cases h

/-- A body that does not start with text starts with a brace, if what follows it does. -/
theorem body_head_brace {body : Body interior} (h : body.startsPlain = false)
    (hr : s.Reads body.text t) (ht : t.rest.head? = some '\x7b') : s.rest.head? = some '\x7b' := by
  cases body with
  | nil =>
    obtain rfl := hr.eq_of_nil
    exact ht
  | item first rest =>
    obtain ⟨text, htext⟩ := item_text_head h
    rw [hr.rest, Body.text, htext]
    rfl
  | tag word allowed args rest =>
    rw [hr.rest]
    rfl

end Bodies

section Bindings

/-- The tag of a block value has no colon behind its name. -/
theorem blockValue_blanks (attrs : List Attr) (gap : Blanks) {rest : List Char}
    (hr : s.Reads (attrsText attrs ++ (gap.chars ++ '\x7d' :: rest)) t) :
    ∃ u, blanks.Yields s () u ∧ u.rest ≠ [] ∧ u.rest.head? ≠ some ':' := by
  cases attrs with
  | nil =>
    obtain ⟨u, hgap, hend⟩ := Reads.split (a := gap.chars) hr
    refine ⟨u, blanks_yields gap hgap (hend.forall_cons (by decide)), ?_, ?_⟩
    · simp [hend.rest]
    · rw [hend.head_cons]
      decide
  | cons a attrs =>
    rw [attrsText, List.flatMap_cons, List.append_assoc] at hr
    obtain ⟨u, ha, -⟩ := Reads.split hr
    obtain ⟨v, hgap, hpair⟩ := ha.split
    refine ⟨v, blanks_yields a.gap.toBlanks hgap (pair_head a.pair hpair fun _ => attrChar_not_blank),
      ?_, fun hcolon => ?_⟩
    · simp [hpair.rest, Pair.text]
    · refine pair_head (P := (· ≠ ':')) a.pair hpair (fun c hc h => ?_) ':' hcolon rfl
      rw [h] at hc
      exact absurd hc (by decide)

theorem inline_fails {α : Type} {f : Unit → Rule α} (attrs : List Attr) (gap : Blanks)
    {rest : List Char} (hr : s.Reads (attrsText attrs ++ (gap.chars ++ '\x7d' :: rest)) t) :
    (blanks >>= fun _ => char ':' >>= f).Fails s := by
  obtain ⟨u, hblanks, -, hcolon⟩ := blockValue_blanks attrs gap hr
  exact Fails.bind_later hblanks (Fails.bind (fails_char.2 hcolon))

theorem blockValue_apart (attrs : List Attr) (gap : Blanks) {rest : List Char}
    (hr : s.Reads (attrsText attrs ++ (gap.chars ++ '\x7d' :: rest)) t) :
    ∀ c ∈ s.rest.head?, isWordPart c = false := by
  cases attrs with
  | nil =>
    obtain ⟨u, hgap, hend⟩ := Reads.split (a := gap.chars) hr
    exact hgap.forall_head gap.apart (hend.forall_cons (by decide))
  | cons a attrs =>
    rw [hr.rest]
    simp only [attrsText, List.flatMap_cons, Attr.text, List.append_assoc]
    exact a.gap.forall_head _ fun c => isWordPart_of_blank

theorem binding_apart {word : String} (b : Binding) (hr : s.Reads (b.text word) t) :
    ∀ c ∈ s.rest.head?, isWordPart c = false := by
  cases b with
  | inline gap₁ gap₂ value gap₃ =>
    obtain ⟨u, hgap, hcolon⟩ := Reads.split (a := gap₁.chars) hr
    exact hgap.forall_head gap₁.apart (hcolon.forall_cons (by decide))
  | block attrs gap body close => exact blockValue_apart attrs gap hr

theorem block_yields {word : String} {nodes : List Node} (attrs : List Attr) (gap : Blanks)
    {rest : List Char} (hr : s.Reads (attrsText attrs ++ (gap.chars ++ '\x7d' :: rest)) t)
    (hbody : ∀ u, s.Reads (attrsText attrs ++ (gap.chars ++ ['\x7d'])) u → u.Reads rest t →
      (bodyContent word [] item).Yields u nodes t) :
    (bindingValue word item).Yields s (.block nodes) t := by
  refine yields_either.2 (Or.inr ⟨inline_fails attrs gap hr, ?_⟩)
  obtain ⟨u₁, hattrs, hr⟩ := hr.split
  obtain ⟨u₂, hgap, hr⟩ := hr.split
  obtain ⟨u₃, hend, hrest⟩ := hr.split_cons
  have hhead := hattrs.trans (hgap.trans hend)
  refine (attributes_yields attrs hattrs (attributes_stop gap (hgap.trans hend))).bind ?_
  refine (blanks_yields gap hgap (hend.forall_cons (by decide))).bind ((char_yields hend).bind ?_)
  exact (hbody u₃ hhead hrest).bind (yields_pure.2 ⟨rfl, rfl⟩)

theorem letBinding_yields {value : Value} (gap : Gap) (name : Word) (b : Binding)
    (hhead : s.Reads (letHead gap name) u) (hb : u.Reads (b.text "let") t)
    (hvalue : (bindingValue "let" item).Yields u value t) :
    (letBinding item).Yields s
      (.binding ⟨s.position, t.position⟩ (String.ofList name.chars) value) t := by
  obtain ⟨v, hcommand, hname⟩ := Reads.split (a := '\x7b' :: ("let".toList ++ gap.chars))
    (b := '$' :: name.chars) (by simpa [letHead] using hhead)
  obtain ⟨w, hdollar, hname'⟩ := hname.split_cons
  refine yields_closed.2 (yields_marked.2 ⟨(String.ofList name.chars, value), ?_, rfl⟩)
  refine command_yields (by decide) gap hcommand (hdollar.forall_cons (by decide)) ?_
  refine (char_yields hdollar).bind ((identifier_yields name hname' (binding_apart b hb)).bind ?_)
  exact hvalue.bind (yields_pure.2 ⟨rfl, rfl⟩)

theorem param_yields {value : Value} (gap : Gap) (name : Word) (b : Binding)
    (hhead : s.Reads (paramHead gap name) u) (hb : u.Reads (b.text "param") t)
    (hvalue : (bindingValue "param" item).Yields u value t) :
    (param item).Yields s (.mk ⟨s.position, t.position⟩ (String.ofList name.chars) value) t := by
  obtain ⟨v, hcommand, hname⟩ := Reads.split (a := '\x7b' :: ("param".toList ++ gap.chars))
    (b := name.chars) (by simpa [paramHead] using hhead)
  refine yields_closed.2 (yields_marked.2 ⟨(String.ofList name.chars, value), ?_, rfl⟩)
  refine command_yields (by decide) gap hcommand (word_not_blank name hname) ?_
  refine (identifier_yields name hname (binding_apart b hb)).bind ?_
  exact hvalue.bind (yields_pure.2 ⟨rfl, rfl⟩)

end Bindings

section Calls

theorem callEnd_head {d : Unit} (h : callEnd.Yields s d t) : ∀ c ∈ s.rest.head?, endsName c := by
  rcases yields_either.1 h with h | ⟨-, h⟩
  · exact Reads.forall_cons (c := '/') (yields_text.1 h) ⟨by decide, by decide⟩
  · exact (yields_char.1 h).forall_cons ⟨by decide, by decide⟩

/-- What stands in a call tag in front of its end holds no earlier end. -/
theorem misses_callEnd {extra : List Char} (hopen : '\x7d' ∉ extra)
    (hlast : u.rest.head? = some '\x7d' → extra.getLast? ≠ some '/') :
    (ahead callEnd).Misses s extra u := by
  rintro a b rfl hb
  obtain ⟨c, b, rfl⟩ := List.exists_cons_of_ne_nil hb
  refine fails_ahead.2 (fails_either.2 ⟨fails_text.2 ?_, fails_char.2 fun hc => ?_⟩)
  · rintro ⟨rest, hrest⟩
    obtain ⟨rfl, hnext⟩ : '/' = c ∧ '\x7d' :: rest = b ++ u.rest := by simpa using hrest
    cases b with
    | nil =>
      refine hlast ?_ (by simp)
      rw [← List.nil_append u.rest, ← hnext]
      rfl
    | cons d b =>
      obtain rfl : '\x7d' = d := (List.cons.inj hnext).1
      exact hopen (by simp)
  · obtain rfl : c = '\x7d' := by simpa using hc
    exact hopen (by simp)

theorem callHead_parts {head : CallHead} (hhead : s.Reads head.text u) :
    ∃ u₁ u₂, s.Reads ('\x7b' :: ((callWord head.delegate).toList ++ head.gap.chars)) u₁ ∧
      u₁.Reads head.name.text u₂ ∧ u₂.Reads head.extra.chars u := by
  obtain ⟨u₁, hcommand, hrest⟩ := Reads.split
    (a := '\x7b' :: ((callWord head.delegate).toList ++ head.gap.chars))
    (b := head.name.text ++ head.extra.chars) (by simpa [CallHead.text] using hhead)
  obtain ⟨u₂, hname, hextra⟩ := hrest.split
  exact ⟨u₁, u₂, hcommand, hname, hextra⟩

theorem call_yields {params : List Param} (head : CallHead) (hc : head.Apart)
    (hhead : s.Reads head.text u) (hend : callEnd.Yields u () v)
    (hlast : u.rest.head? = some '\x7d' → head.extra.chars.getLast? ≠ some '/')
    (hparams : (either (do text "/\x7d"; pure []) (callParams (callWord head.delegate) item)).Yields
      u params t) :
    (call home head.delegate item).Yields s
      (.call ⟨s.position, t.position⟩ (head.target home) head.delegate params) t := by
  obtain ⟨u₁, u₂, hcommand, hname, hextra⟩ := callHead_parts hhead
  refine yields_closed.2 (yields_marked.2 ⟨(head.name.value, params), ?_, rfl⟩)
  refine command_yields (isWord_callWord head.delegate) head.gap hcommand
    (name_not_blank head.name hname) ?_
  have hends : NameEnds u₂.rest := hextra.rest ▸ NameEnds.append hc (callEnd_head hend)
  refine (templateName_yields head.name hname hends).bind ?_
  refine Yields.bind (v := (head.extra.chars, ())) (yields_upTo.2 ⟨u, hextra,
    yields_ahead.2 ⟨rfl, v, hend⟩, misses_callEnd head.extra.open_ hlast⟩) ?_
  exact hparams.bind (yields_pure.2 ⟨rfl, rfl⟩)

theorem callParams_yields {params : List Param} {word : String} (hw : isWord word.toList = true)
    (gap close : Blanks) (hopen : s.Reads ['\x7d'] u)
    (hparams : (many (blanks >>= fun _ => param item)).Yields u params v)
    (hend : v.Reads (gap.chars ++ closeText word close) t) :
    (callParams word item).Yields s params t := by
  obtain ⟨w, hgap, hclose⟩ := hend.split
  refine (char_yields hopen).bind (hparams.bind ?_)
  refine (blanks_yields gap hgap (hclose.forall_cons (by decide))).bind ?_
  exact (closeTag_yields hw close hclose).bind (yields_pure.2 ⟨rfl, rfl⟩)

theorem param_fails {word : String} (gap close : Blanks)
    (hr : s.Reads (gap.chars ++ closeText word close) t) :
    (blanks >>= fun _ => param item).Fails s := by
  obtain ⟨u, hgap, hclose⟩ := hr.split
  refine Fails.bind_later (blanks_yields gap hgap (hclose.forall_cons (by decide))) ?_
  exact fails_closed.2 (fails_marked.2 (command_fails (opens_close hclose) (by decide)))

end Calls

end Grammar

end SoyTree
