import Mathlib.Data.List.TakeWhile
import SoyTree.Nesting
import SoyTree.Proofs.Apart.Doc
import SoyTree.Proofs.Coverage

/-! # Doc blocks line by line

The content of a doc block is cut at its line breaks. A line without its margin names a parameter, or
it is a line of text. The rule for doc blocks reads every line of every content in this way, and nothing
behind the block.
-/

namespace SoyTree.DocLines

open Rule Cursor Concrete Grammar

section Reference

/-- A line without the blanks and the star that it may start with. -/
def unmargined (line : List Char) : List Char :=
  match line.dropWhile inlineBlank.accepts with
  | '*' :: content => content
  | content => content

/-- The annotation of a parameter as it is written. -/
structure Annotation where
  optional : Bool
  gap : List Char
  name : List Char
  deriving DecidableEq, Repr

def Annotation.text (a : Annotation) : List Char :=
  "@param".toList ++ ((if a.optional then ['?'] else []) ++ (a.gap ++ a.name))

theorem Annotation.text_eq (a : Annotation) : a.text =
    "@param".toList ++ ((if a.optional then ['?'] else []) ++ (a.gap ++ a.name)) := rfl

/-- Blanks at the start of a text and an identifier behind them. -/
def named? (optional : Bool) (text : List Char) : Option Annotation :=
  let gap := text.takeWhile inlineBlank.accepts
  let name := leadWord (text.dropWhile inlineBlank.accepts)
  if gap = [] ∨ name = [] then none else some ⟨optional, gap, name⟩

/-- The annotation that a text starts with. -/
def annotation? (text : List Char) : Option Annotation :=
  if "@param?".toList.isPrefixOf text then named? true (text.drop 7)
  else if "@param".toList.isPrefixOf text then named? false (text.drop 6)
  else none

/-- A line from the place on where it may name a parameter. -/
def inner (line : List Char) : List Char :=
  (unmargined line).dropWhile inlineBlank.accepts

def lead (line : List Char) : List Char :=
  line.take (line.length - (inner line).length)

/-- What a line that starts at `p` contributes: a parameter, or else a text. -/
def lineAt (p : Position) (line : List Char) : Grammar.DocLine :=
  match annotation? (inner line) with
  | some a => .param ⟨markAt (p.after (lead line)) a.text, !a.optional, String.ofList a.name, "any"⟩
  | none => .text (Text.trim (unmargined line))

def linesAt (p : Position) : List (List Char) → List Grammar.DocLine
  | [] => []
  | line :: rest => lineAt p line :: linesAt ((p.after line).next '\n') rest

def blockText (content : List Char) : List Char :=
  "/**".toList ++ (content ++ "*/".toList)

def blockAt (p : Position) (content : List Char) : Doc :=
  let lines := linesAt (p.after "/**".toList) (content.splitOn '\n')
  { mark := markAt p (blockText content)
    text := String.ofList (Text.trim (['\n'].intercalate (lines.filterMap Grammar.DocLine.text?)))
    params := lines.filterMap Grammar.DocLine.param? }

end Reference

variable {s t : Cursor} {p : Position} {source text line content tail : List Char} {a : Annotation}

section Annotations

theorem leadWord_split (h : leadWord text ≠ []) : ∃ tail, text = leadWord text ++ tail ∧
    isWord (leadWord text) = true ∧ ∀ c ∈ tail.head?, isWordPart c = false := by
  cases text with
  | nil => exact absurd rfl h
  | cons c rest =>
    rw [leadWord] at h ⊢
    split at h
    · rename_i hc
      rw [if_pos hc]
      refine ⟨rest.dropWhile isWordPart, ?_, ?_, stop_of_dropWhile rest⟩
      · rw [List.cons_append, List.takeWhile_append_dropWhile]
      · simp only [isWord, hc, Bool.true_and, List.all_eq_true]
        exact fun d hd => List.mem_takeWhile_imp hd
    · exact absurd rfl h

theorem named?_eq_some {optional : Bool} : named? optional text = some a ↔
    a.optional = optional ∧ a.gap ≠ [] ∧ (∀ c ∈ a.gap, inlineBlank.accepts c = true) ∧
      isWord a.name = true ∧ ∃ tail, text = a.gap ++ (a.name ++ tail) ∧
        ∀ c ∈ tail.head?, isWordPart c = false := by
  rw [named?]
  constructor
  · intro h
    split at h
    · cases h
    · rename_i hparts
      obtain rfl := Option.some.inj h
      obtain ⟨tail, hsplit, hword, htail⟩ := leadWord_split (not_or.1 hparts).2
      refine ⟨rfl, (not_or.1 hparts).1, fun c hc => List.mem_takeWhile_imp hc, hword, tail, ?_, htail⟩
      rw [← hsplit, List.takeWhile_append_dropWhile]
  · rintro ⟨rfl, hne, hgap, hword, tail, rfl, htail⟩
    have hstop : ∀ c ∈ (a.name ++ tail).head?, inlineBlank.accepts c = false := by
      obtain ⟨optional, gap, name⟩ := a
      cases name with
      | nil => cases hword
      | cons c name =>
        rintro d (_ | _)
        simp only [isWord, Bool.and_eq_true] at hword
        refine Bool.eq_false_iff.2 fun hc => ?_
        have hblank : c = ' ' ∨ c = '\t' := by simpa [inlineBlank, CharClass.oneOf] using hc
        rcases hblank with rfl | rfl <;> exact absurd hword.1 (by decide)
    have hname : a.name ≠ [] := by
      intro h
      rw [h] at hword
      cases hword
    rw [takeWhile_of_stop hgap hstop, dropWhile_of_stop hgap hstop, leadWord_append hword htail,
      if_neg (not_or.2 ⟨hne, hname⟩)]

theorem parts_of_named? {command : List Char} {optional : Bool}
    (hmark : command.isPrefixOf text = true)
    (hcommand : command = "@param".toList ++ if optional then ['?'] else [])
    (h : named? optional (text.drop command.length) = some a) :
    a.gap ≠ [] ∧ (∀ c ∈ a.gap, inlineBlank.accepts c = true) ∧ isWord a.name = true ∧
      ∃ tail, text = a.text ++ tail ∧ ∀ c ∈ tail.head?, isWordPart c = false := by
  obtain ⟨rest, rfl⟩ := List.isPrefixOf_iff_prefix.1 hmark
  rw [List.drop_left] at h
  obtain ⟨rfl, hne, hgap, hword, tail, rfl, htail⟩ := named?_eq_some.1 h
  refine ⟨hne, hgap, hword, tail, ?_, htail⟩
  rw [hcommand, a.text_eq]
  simp

/-- An annotation consists of its parts, and its name ends with the identifier. -/
theorem annotation?_eq_some : annotation? text = some a ↔
    a.gap ≠ [] ∧ (∀ c ∈ a.gap, inlineBlank.accepts c = true) ∧ isWord a.name = true ∧
      ∃ tail, text = a.text ++ tail ∧ ∀ c ∈ tail.head?, isWordPart c = false := by
  rw [annotation?]
  constructor
  · intro h
    split at h
    · next hmark => exact parts_of_named? hmark rfl h
    split at h
    · next hmark => exact parts_of_named? hmark rfl h
    · cases h
  · rintro ⟨hne, hgap, hword, tail, rfl, htail⟩
    have hnamed : named? a.optional (a.gap ++ (a.name ++ tail)) = some a :=
      named?_eq_some.2 ⟨rfl, hne, hgap, hword, tail, rfl, htail⟩
    cases hoptional : a.optional with
    | true =>
      have htext : a.text ++ tail = "@param?".toList ++ (a.gap ++ (a.name ++ tail)) := by
        simp [a.text_eq, hoptional]
      rw [hoptional] at hnamed
      rw [htext, if_pos (List.isPrefixOf_iff_prefix.2 (List.prefix_append _ _))]
      exact hnamed
    | false =>
      have htext : a.text ++ tail = "@param".toList ++ (a.gap ++ (a.name ++ tail)) := by
        simp [a.text_eq, hoptional]
      rw [hoptional] at hnamed
      -- the blank behind the command is no question mark
      have hother : ¬ "@param?".toList.isPrefixOf
          ("@param".toList ++ (a.gap ++ (a.name ++ tail))) = true := by
        rw [List.isPrefixOf_iff_prefix, show "@param?".toList = "@param".toList ++ ['?'] from rfl,
          List.prefix_append_right_inj]
        rintro ⟨rest, hrest⟩
        cases hg : a.gap with
        | nil => exact hne hg
        | cons c gap =>
          rw [hg] at hrest
          obtain rfl : '?' = c := (List.cons.inj hrest).1
          exact absurd (hgap '?' (by simp [hg])) (by decide)
      rw [htext, if_neg hother,
        if_pos (List.isPrefixOf_iff_prefix.2 (List.prefix_append _ _))]
      exact hnamed

end Annotations

section Lines

theorem unended_concat_star (h : Unended line) : Unended (line ++ ['*']) := by
  refine List.isChain_append.2 ⟨h, .singleton _, ?_⟩
  rintro x - y (_ | _)
  exact fun hend => absurd hend.2 (by decide)

theorem margin_unmargined (hopen : Unended line) (ht : EndsLine t) :
    ∃ m, line = m ++ unmargined line ∧ Margin m (unmargined line ++ t.rest) := by
  have hline : line.takeWhile inlineBlank.accepts ++ line.dropWhile inlineBlank.accepts = line :=
    List.takeWhile_append_dropWhile
  have hblank : ∀ c ∈ line.takeWhile inlineBlank.accepts, inlineBlank.accepts c = true :=
    fun c hc => List.mem_takeWhile_imp hc
  have hstop := stop_of_dropWhile (p := inlineBlank.accepts) line
  rw [unmargined]
  split
  · rename_i content hcontent
    rw [hcontent] at hline
    refine ⟨line.takeWhile inlineBlank.accepts ++ ['*'], ?_, _, hblank, Or.inl ⟨rfl, ?_⟩⟩
    · rw [List.append_assoc]
      exact hline.symm
    · cases content with
      | nil =>
        rcases ht.head with h | h
        · exact ⟨'\n', h, by decide⟩
        · exact ⟨'*', h, by decide⟩
      | cons c content =>
        refine ⟨c, rfl, ?_⟩
        rintro rfl
        rw [← hline] at hopen
        have hchain := (List.isChain_append.1 hopen).2.1
        exact (List.isChain_cons_cons.1 hchain).1 ⟨rfl, rfl⟩
  · rename_i hstar
    refine ⟨_, hline.symm, _, hblank, Or.inr ⟨rfl, ?_, ?_⟩⟩
    · refine forall_head?_append hstop fun c hc => ?_
      rcases ht.head with h | h <;> obtain rfl := Option.mem_unique hc h <;> decide
    · intro c rest hrest
      cases hbody : line.dropWhile inlineBlank.accepts with
      | nil =>
        rw [hbody, List.nil_append] at hrest
        rcases ht with h | ⟨more, hmore⟩
        · rw [hrest] at h
          cases h
        · rw [hrest] at hmore
          exact (List.cons.inj (List.cons.inj hmore).2).1.symm
      | cons d body =>
        rw [hbody] at hrest
        exact absurd ((List.cons.inj hrest).1 ▸ hbody) (hstar body)

theorem lead_eq (h : line = content ++ inner line) : lead line = content := by
  have hlength := congrArg List.length h
  rw [List.length_append] at hlength
  rw [lead, show line.length - (inner line).length = content.length by omega]
  conv_lhs => rw [h]
  exact List.take_left

theorem exists_mention (h : annotation? (inner line) = some a) (hline : '\n' ∉ unmargined line)
    (hopen : Unended (unmargined line ++ ['*'])) : ∃ x : Mention, x.text = unmargined line ∧
      x.text = x.cs ++ inner line ∧ x.chars = a.text ∧ x.optional = a.optional ∧
        x.name.chars = a.name := by
  obtain ⟨hne, hgap, hword, tail, hinner, htail⟩ := annotation?_eq_some.1 h
  have hsplit : (unmargined line).takeWhile inlineBlank.accepts ++ (a.text ++ tail) =
      unmargined line := by
    rw [← hinner]
    exact List.takeWhile_append_dropWhile
  have hpart : tail <:+ unmargined line := by
    rw [← hsplit, ← List.append_assoc]
    exact List.suffix_append _ _
  refine ⟨⟨(unmargined line).takeWhile inlineBlank.accepts, a.optional, a.gap, ⟨a.name, hword⟩, tail,
    ?_, hne, htail, fun hmem => hline (hpart.mem hmem), ?_⟩, hsplit, ?_, rfl, rfl, rfl⟩
  · intro c hc
    rcases List.mem_append.1 hc with hc | hc
    · exact List.mem_takeWhile_imp hc
    · exact hgap c hc
  · exact unended_concat_star ((List.isChain_append.1 hopen).1.suffix hpart)
  · rw [hinner]
    rfl

/-- No line that names a parameter is taken for text. -/
theorem annotation?_of_mention (x : Mention) (h : x.text = unmargined line) :
    annotation? (inner line) = some ⟨x.optional, x.gap, x.name.chars⟩ := by
  have hblank : ∀ c ∈ x.cs, inlineBlank.accepts c = true := fun c hc => x.blank c (by simp [hc])
  have hstop : ∀ c ∈ (x.chars ++ x.tail).head?, inlineBlank.accepts c = false := by
    rintro c (_ | _)
    decide
  have hinner : inner line = x.chars ++ x.tail := by
    rw [inner, ← h, Mention.text, dropWhile_of_stop hblank hstop]
  refine annotation?_eq_some.2 ⟨x.nonempty, fun c hc => x.blank c (by simp [hc]), x.name.isWord,
    x.tail, ?_, x.apart⟩
  rw [hinner]
  rfl

/-- A line is read as what it contributes. -/
theorem docLine_lineAt (hr : s.Reads line t) (ht : EndsLine t) (hline : '\n' ∉ line)
    (hopen : Unended line) : docLine.Yields s (lineAt s.position line) t := by
  obtain ⟨m, hm, hmargin⟩ := margin_unmargined hopen ht
  have hpart : unmargined line <:+ line := by
    conv_rhs => rw [hm]
    exact List.suffix_append _ _
  have hline' : '\n' ∉ unmargined line := fun hmem => hline (hpart.mem hmem)
  have hopen' : Unended (unmargined line ++ ['*']) := unended_concat_star (hopen.suffix hpart)
  have hsplit : s.Reads (m ++ unmargined line) t := by rwa [← hm]
  obtain ⟨u, hlead, hbody⟩ := hsplit.split
  rw [← hbody.rest] at hmargin
  have hmargin' : docMargin.Yields s () u := yields_docMargin.2 ⟨m, hlead, hmargin⟩
  have htail : (rawUntil docLineEnd).Yields u (unmargined line) t :=
    yields_docTail.2 ⟨hbody, ht, hline', hopen'⟩
  change (docMargin >>= fun _ => choice [docMention, rawUntil docLineEnd >>= fun text =>
    pure (.text (Text.trim text))]).Yields s (lineAt s.position line) t
  apply hmargin'.bind
  rw [lineAt]
  cases hann : annotation? (inner line) with
  | some a =>
    obtain ⟨x, htext, hcut, hchars, hoptional, hname⟩ := exists_mention hann hline' hopen'
    refine yields_choice_cons.2 (Or.inl (yields_docMention.2 ⟨x, htext ▸ hbody, ht, ?_⟩))
    have hwhole : line = (m ++ x.cs) ++ inner line := by
      rw [List.append_assoc, ← hcut, htext]
      exact hm
    rw [Mention.decl, lead_eq hwhole, hchars, hoptional, hname, hlead.position,
      Position.after_append]
    rfl
  | none =>
    refine yields_choice_cons.2 (Or.inr ⟨fails_iff.2 fun _ v hy => ?_, ?_⟩)
    · obtain ⟨x, hx, hv, -⟩ := yields_docMention.1 hy
      have htail' : (rawUntil docLineEnd).Yields u x.text v :=
        yields_docTail.2 ⟨hx, hv, x.text_line, x.text_unended⟩
      have hmention := annotation?_of_mention x (htail'.unique htail).1
      rw [hann] at hmention
      cases hmention
    · exact htail.bind (yields_pure.2 ⟨rfl, rfl⟩)

def breaksText (lines : List (List Char)) : List Char :=
  lines.flatMap ('\n' :: ·)

theorem endsLine_breaksText {lines : List (List Char)} (hr : s.Reads (breaksText lines) t)
    (ht : EndsDoc t) : EndsLine s := by
  cases lines with
  | nil =>
    obtain rfl := hr.eq_of_nil
    exact Or.inr ht
  | cons line lines => exact Or.inl hr.head_cons

theorem many_linesAt {lines : List (List Char)} (hr : s.Reads (breaksText lines) t)
    (ht : EndsDoc t) (hlines : ∀ line ∈ lines, '\n' ∉ line ∧ Unended line) :
    (many (char '\n' >>= fun _ => docLine)).Yields s (linesAt (s.position.next '\n') lines) t := by
  induction lines generalizing s with
  | nil =>
    obtain rfl := hr.eq_of_nil
    obtain ⟨rest, hrest⟩ := ht
    refine Yields.many_nil (Fails.bind (fails_char.2 ?_))
    rw [← hrest]
    exact fun h => absurd (Option.some.inj h) (by decide)
  | cons line lines ih =>
    obtain ⟨v, hbreak, hr⟩ := Reads.split_cons hr
    obtain ⟨u, hline, hmore⟩ := hr.split
    obtain ⟨hfree, hopen⟩ := hlines line (by simp)
    have hfirst : docLine.Yields v (lineAt v.position line) u :=
      docLine_lineAt hline (endsLine_breaksText hmore ht) hfree hopen
    have hrest := ih hmore fun l hl => hlines l (by simp [hl])
    have hposition : v.position = s.position.next '\n' := hbreak.position
    rw [hline.position, hposition] at hrest
    rw [hposition] at hfirst
    exact Yields.many_cons ((char_yields hbreak).bind hfirst) ((hbreak.trans hline).lt (by simp)) hrest

theorem splitOn_lines (content : List Char) : ∃ first more, content.splitOn '\n' = first :: more ∧
    content = first ++ breaksText more ∧ ∀ line ∈ first :: more, '\n' ∉ line := by
  obtain ⟨first, more, hsplit⟩ := List.exists_cons_of_ne_nil (List.splitOn_ne_nil '\n' content)
  refine ⟨first, more, hsplit, ?_, fun line hline => Path.not_mem_of_mem_splitOn (hsplit ▸ hline)⟩
  rw [breaksText, ← Path.intercalate_cons_eq, ← hsplit, List.intercalate_splitOn]

theorem unended_breaksText {lines : List (List Char)} (h : Unended (breaksText lines)) :
    ∀ line ∈ lines, Unended line := by
  induction lines with
  | nil => simp
  | cons line lines ih =>
    have hparts := List.isChain_append.1 (show Unended (('\n' :: line) ++ breaksText lines) from h)
    rintro l (_ | ⟨_, hl⟩)
    · exact hparts.1.tail
    · exact ih hparts.2.1 l hl

end Lines

section Slices

theorem inner_suffix (line : List Char) : inner line <:+ line := by
  refine (List.dropWhile_suffix _).trans ?_
  rw [unmargined]
  split
  · rename_i content hcontent
    have hcons : content <:+ '*' :: content := List.suffix_cons _ _
    rw [← hcontent] at hcons
    exact hcons.trans (List.dropWhile_suffix _)
  · exact List.dropWhile_suffix _

/-- A parameter that a line contributes is marked where its annotation stands. -/
theorem lineAt_slice (h : Stands source p line) (hann : annotation? (inner line) = some a) :
    (markAt (p.after (lead line)) a.text).sliceChars source = a.text := by
  obtain ⟨front, hfront⟩ := inner_suffix line
  rw [← lead_eq hfront.symm] at hfront
  obtain ⟨-, -, -, tail, hinner, -⟩ := annotation?_eq_some.1 hann
  rw [← hfront, hinner] at h
  exact h.right.left.slice

theorem linesAt_slices {lines : List (List Char)} (h : Stands source p (line ++ breaksText lines)) :
    List.Forall₂ (fun d a => d.mark.sliceChars source = Annotation.text a)
      ((linesAt p (line :: lines)).filterMap Grammar.DocLine.param?)
      ((line :: lines).filterMap fun l => annotation? (inner l)) := by
  induction lines generalizing p line with
  | nil =>
    rw [linesAt, linesAt, List.filterMap_cons, List.filterMap_cons, lineAt]
    cases hann : annotation? (inner line) with
    | some a => exact .cons (lineAt_slice h.left hann) .nil
    | none => exact .nil
  | cons next lines ih =>
    have hnext : Stands source ((p.after line).next '\n') (next ++ breaksText lines) :=
      Stands.right (a := ['\n']) h.right
    have hrest := ih hnext
    rw [linesAt, List.filterMap_cons, List.filterMap_cons, lineAt]
    cases hann : annotation? (inner line) with
    | some a => exact .cons (lineAt_slice h.left hann) hrest
    | none => exact hrest

end Slices

section Blocks

theorem unended_of_indexOf?
    (h : Nesting.indexOf? "*/".toList (content ++ "*/".toList) = some content.length) :
    Unended content := by
  induction content with
  | nil => exact .nil
  | cons c content ih =>
    rw [List.cons_append, Nesting.indexOf?] at h
    split at h
    · simp at h
    · rename_i hopen
      obtain ⟨n, hn, hlength⟩ := Option.map_eq_some_iff.1 h
      rw [List.length_cons, Nat.add_right_cancel_iff] at hlength
      refine List.isChain_cons.2 ⟨?_, ih (hlength ▸ hn)⟩
      rintro d hd ⟨rfl, rfl⟩
      obtain ⟨rest, rfl⟩ : ∃ rest, content = '/' :: rest := by
        cases content with
        | nil => cases hd
        | cons e rest => exact ⟨rest, by simpa using hd⟩
      exact hopen (List.isPrefixOf_iff_prefix.2 ⟨rest ++ "*/".toList, rfl⟩)

/-- A doc block is read line by line, wherever it stands: each line of its content names a parameter
or is part of its text, and each parameter is marked where its annotation stands. -/
theorem docBlock_reads_lines (before content behind : List Char)
    (h : Nesting.indexOf? "*/".toList (content ++ "*/".toList) = some content.length) :
    docBlock.Yields ⟨Position.origin.after before, blockText content ++ behind⟩
        (blockAt (Position.origin.after before) content)
        ⟨Position.origin.after (before ++ blockText content), behind⟩ ∧
      List.Forall₂
        (fun d a => d.mark.sliceChars (before ++ (blockText content ++ behind)) = Annotation.text a)
        (blockAt (Position.origin.after before) content).params
        ((content.splitOn '\n').filterMap fun line => annotation? (inner line)) := by
  generalize hp : Position.origin.after before = p
  have hindex : p.index = before.length := by
    rw [← hp, Position.index_after]
    simp [Position.origin]
  obtain ⟨first, more, hsplit, hcontent, hfree⟩ := splitOn_lines content
  have hopen : Unended (first ++ breaksText more) := hcontent ▸ unended_of_indexOf? h
  constructor
  · have hr : Reads ⟨p, blockText content ++ behind⟩ (blockText content)
        ⟨Position.origin.after (before ++ blockText content), behind⟩ :=
      ⟨rfl, by rw [Position.after_append, hp]⟩
    obtain ⟨u, hstart, hrest⟩ := Reads.split (a := "/**".toList) hr
    obtain ⟨v, hlines, hend⟩ := hrest.split
    rw [hcontent] at hlines
    obtain ⟨w, hfirst, hmore⟩ := hlines.split
    have hdoc : EndsDoc v := ⟨behind, hend.rest.symm⟩
    have hline : docLine.Yields u (lineAt u.position first) w :=
      docLine_lineAt hfirst (endsLine_breaksText hmore hdoc) (hfree first (by simp))
        (List.isChain_append.1 hopen).1
    have hlines' : (sepBy docLine (char '\n')).Yields u (linesAt u.position (first :: more)) v := by
      have hmany := many_linesAt hmore hdoc fun line hl => ⟨hfree line (by simp [hl]),
        unended_breaksText (List.isChain_append.1 hopen).2.1 line hl⟩
      rw [hfirst.position] at hmany
      exact yields_sepBy.2 (Or.inl (yields_sepBy1.2 ⟨_, w, _, hline, hmany, rfl⟩))
    rw [hstart.position] at hlines'
    rw [blockAt, hsplit]
    exact Yields.markedAt (fun mark lines =>
      (⟨mark, docText lines, lines.filterMap Grammar.DocLine.param?⟩ : Doc))
      (Yields.bind (v := ()) (yields_text.2 hstart) (hlines'.bind (Yields.bind (v := ())
        (yields_text.2 hend) (yields_pure.2 ⟨rfl, rfl⟩)))) hr
  · have hstands : Stands (before ++ (blockText content ++ behind)) p (blockText content) := by
      rw [Stands, hindex, List.drop_left]
      exact List.prefix_append _ _
    have hlines : Stands (before ++ (blockText content ++ behind)) (p.after "/**".toList)
        (first ++ breaksText more) := by
      rw [← hcontent]
      exact hstands.right.left
    rw [blockAt, hsplit]
    exact linesAt_slices hlines

def commentSample : List Char :=
  " a\n\t*@param? b  c\r\n@param\td*\n * @parameter\n@param *e\n**".toList

theorem commentSample_read :
    Nesting.indexOf? "*/".toList (commentSample ++ "*/".toList) = some commentSample.length ∧
      ∃ doc, docBlock.Yields ⟨Position.origin.after [], blockText commentSample ++ ['\x7b']⟩ doc
          ⟨Position.origin.after (blockText commentSample), ['\x7b']⟩ ∧
        doc.text = "a\n@parameter\n@param *e\n*" ∧
        doc.params.map (fun d => (d.required, d.name, d.type)) =
          [(false, "b", "any"), (true, "d", "any")] ∧
        doc.params.map (fun d => d.mark.sliceChars (blockText commentSample ++ ['\x7b'])) =
          ["@param? b".toList, "@param\td".toList] := by
  have hend : Nesting.indexOf? "*/".toList (commentSample ++ "*/".toList) =
      some commentSample.length := by decide +kernel
  refine ⟨hend, _, (docBlock_reads_lines [] commentSample ['\x7b'] hend).1, ?_, ?_, ?_⟩
  all_goals decide +kernel

end Blocks

end SoyTree.DocLines
