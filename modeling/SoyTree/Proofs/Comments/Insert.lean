import SoyTree.Proofs.Apart.Parsed
import SoyTree.Proofs.Comments.Expression
import SoyTree.Proofs.Comments.Nesting

/-! # Comments between declarations

A comment that is put behind the namespace tag or behind a template is passed over by the grammar, and
the marks behind it move on. Two things see it nonetheless: the nesting check, which counts the tags that
a comment mentions, and a raw capture that has started in front of it and not found its end.
-/

namespace SoyTree

namespace Position

/-- The place `p`, which is not in front of `b`, where the text from `b` on stands at `b'`. -/
def shift (b b' p : Position) : Position where
  line := b'.line + (p.line - b.line)
  column := if p.line = b.line then b'.column + (p.column - b.column) else p.column
  index := b'.index + (p.index - b.index)

/-- A place that is reached from `b`. -/
structure Behind (b p : Position) : Prop where
  line : b.line ≤ p.line
  column : p.line = b.line → b.column ≤ p.column
  index : b.index ≤ p.index

variable {b p : Position}

theorem Behind.next (h : b.Behind p) (c : Char) : b.Behind (p.next c) := by
  obtain ⟨hline, hcolumn, hindex⟩ := h
  unfold Position.next
  split
  · exact ⟨by simp only; omega, fun h => by simp only at h; omega, by simp only; omega⟩
  · exact ⟨hline, fun h => by have := hcolumn h; simp only; omega, by simp only; omega⟩

theorem shift_next (h : b.Behind p) (b' : Position) (c : Char) :
    shift b b' (p.next c) = (shift b b' p).next c := by
  obtain ⟨hline, hcolumn, hindex⟩ := h
  unfold Position.next shift
  by_cases hc : c = '\n'
  · simp only [hc, if_true, Position.mk.injEq]
    refine ⟨by omega, ?_, by omega⟩
    rw [if_neg (by omega)]
  · simp only [hc, if_false, Position.mk.injEq, true_and]
    refine ⟨?_, by omega⟩
    by_cases hl : p.line = b.line
    · have := hcolumn hl
      simp only [hl, if_true]
      omega
    · simp only [hl, if_false]

theorem moved_shift (b b' : Position) : Moved (shift b b') b b' := by
  have hafter : ∀ text p, b.Behind p → shift b b' (p.after text) = (shift b b' p).after text := by
    intro text
    induction text with
    | nil => exact fun p _ => rfl
    | cons c text ih => exact fun p hp => by rw [after_cons, ih _ (hp.next c), shift_next hp, after_cons]
  intro text
  rw [hafter text b ⟨Nat.le_refl _, fun _ => Nat.le_refl _, Nat.le_refl _⟩]
  simp [shift]

end Position

def tagEnd (source : List Char) (p : Position) : Position :=
  p.after ((source.drop p.index).takeWhile (· ≠ '\x7d') ++ ['\x7d'])

/-- The place behind the namespace tag, and those behind the templates. -/
def Program.boundaries (source : List Char) (p : Program) : List Position :=
  tagEnd source p.mark.start :: p.templates.map (·.mark.stop)

/-- The program with everything behind its first `j` templates moved. -/
def Program.movedFrom (j : Nat) (φ : Position → Position) (p : Program) : Program where
  mark := ⟨p.mark.start, if j < p.templates.length then φ p.mark.stop else p.mark.stop⟩
  namespacePath := p.namespacePath
  templates := p.templates.take j ++ (p.templates.drop j).map (Template.moved φ)

def insertAt (source : List Char) (b : Position) (text : List Char) : List Char :=
  source.take b.index ++ (text ++ source.drop b.index)

namespace Concrete

/-- A comment up to its end: with a line break, or a block comment that is no doc block. -/
structure Comment where
  text : List Char
  isComment : (∃ body, '\n' ∉ body ∧ text = "//".toList ++ (body ++ ['\n'])) ∨ BlockComment text

def Comment.before {final : Bool} (c : Comment) (t : Trivia BlockComment final) :
    Trivia BlockComment final where
  chars := c.text ++ t.chars
  isTrivia := by
    rcases c.isComment with ⟨body, hbody, htext⟩ | hblock
    · rw [htext]
      simpa using IsTrivia.line hbody (.blank (by decide) t.isTrivia)
    · exact .block hblock t.isTrivia

def Comment.beforeFirst (c : Comment) : List Entry → List Entry
  | [] => []
  | e :: es => ⟨c.before e.lead, e.template⟩ :: es

namespace File

variable (f : File) (j : Nat) (c : Comment)

def front : List Char :=
  f.lead.chars ++ (f.tag.text ++ entriesText (f.entries.take j))

def behind : List Char :=
  entriesText (f.entries.drop j) ++ f.final.chars

/-- The file with a comment behind its first `j` templates. -/
def commented : File where
  lead := f.lead
  tag := f.tag
  entries := f.entries.take j ++ c.beforeFirst (f.entries.drop j)
  nonempty := by
    intro h
    obtain ⟨htake, hdrop⟩ := List.append_eq_nil_iff.1 h
    refine f.nonempty ?_
    rw [← List.take_append_drop j f.entries, htake, List.nil_append]
    cases hd : f.entries.drop j with
    | nil => rfl
    | cons e es => simp [hd, Comment.beforeFirst] at hdrop
  final := if f.entries.drop j = [] then c.before f.final else f.final

end File

variable {home : List String}

theorem entriesText_append (es es' : List Entry) :
    entriesText (es ++ es') = entriesText es ++ entriesText es' := by
  induction es with
  | nil => rfl
  | cons e es ih => simp [entriesText, ih]

theorem entriesTree_append (es es' : List Entry) (p : Position) :
    entriesTree home p (es ++ es') =
      entriesTree home p es ++ entriesTree home (p.after (entriesText es)) es' := by
  induction es generalizing p with
  | nil => rfl
  | cons e es ih => simp [entriesTree, entriesText, ih]

theorem length_entriesTree (es : List Entry) (p : Position) :
    (entriesTree home p es).length = es.length := by
  induction es generalizing p with
  | nil => rfl
  | cons e es ih => simp [entriesTree, ih]

theorem take_entriesTree (j : Nat) (es : List Entry) (p : Position) :
    (entriesTree home p es).take j = entriesTree home p (es.take j) := by
  induction es generalizing p j with
  | nil => simp [entriesTree]
  | cons e es ih => cases j <;> simp [entriesTree, ih]

theorem drop_entriesTree (j : Nat) (es : List Entry) (p : Position) :
    (entriesTree home p es).drop j =
      entriesTree home (p.after (entriesText (es.take j))) (es.drop j) := by
  induction es generalizing p j with
  | nil => simp [entriesTree]
  | cons e es ih => cases j <;> simp [entriesTree, entriesText, ih]

theorem beforeFirst_tree (c : Comment) (es : List Entry) (p : Position) :
    entriesTree home p (c.beforeFirst es) = entriesTree home (p.after c.text) es := by
  cases es with
  | nil => rfl
  | cons e es => simp [Comment.beforeFirst, Comment.before, entriesTree]

theorem stop_of_entriesTree {es : List Entry} {p q : Position} {k : Nat}
    (h : ((entriesTree home p es).map (·.mark.stop))[k]? = some q) :
    k < es.length ∧ q = p.after (entriesText (es.take (k + 1))) := by
  induction es generalizing p k with
  | nil => simp [entriesTree] at h
  | cons e es ih =>
    cases k with
    | zero =>
      obtain rfl : (e.template.tree home (p.after e.lead.chars)).mark.stop = q := by
        simpa [entriesTree] using h
      simp [entriesText, Template.tree, markAt]
    | succ k =>
      obtain ⟨hk, rfl⟩ := ih (p := (p.after e.lead.chars).after e.template.text) (k := k)
        (by simpa [entriesTree] using h)
      simp [entriesText, hk]

theorem Template.text_ends (T : Template) : ∃ inner, T.text = inner ++ ['\x7d'] := by
  refine ⟨T.docText ++ (T.headText ++ (headerParamsText T.params ++ (T.body.text ++
    ('\x7b' :: '/' :: ((templateWord T.delegate).toList ++ T.close.chars))))), ?_⟩
  simp [Template.text, closeText]

theorem entriesText_last (es : List Entry) : ∀ d ∈ (entriesText es).getLast?, d = '\x7d' := by
  induction es with
  | nil => simp [entriesText]
  | cons e es ih =>
    obtain ⟨inner, hinner⟩ := e.template.text_ends
    by_cases hnil : entriesText es = []
    · simp [entriesText, hnil, hinner]
    · rwa [entriesText, List.getLast?_append_of_ne_nil _ (by simp [hnil]),
        List.getLast?_append_of_ne_nil _ hnil]

theorem NamespaceTag.text_ends (n : NamespaceTag) :
    ∃ inner, n.text = inner ++ ['\x7d'] ∧ '\x7d' ∉ inner := by
  refine ⟨'\x7b' :: ("namespace".toList ++ (n.gap.chars ++ (n.path ++ n.extra.chars))), by simp [text],
    ?_⟩
  rw [List.mem_cons, List.mem_append, List.mem_append, List.mem_append]
  rintro (h | h | h | h | h)
  · exact absurd h (by decide)
  · exact absurd h (by decide)
  · exact absurd (n.gap.blank _ h) (by decide)
  · rcases n.path_chars _ h with h | h <;> exact absurd h (by decide)
  · exact n.extra.open_ h

namespace File

variable (f : File) {j : Nat} (c : Comment)

theorem text_eq (j : Nat) : f.text = f.front j ++ f.behind j := by
  have hentries : entriesText f.entries =
      entriesText (f.entries.take j) ++ entriesText (f.entries.drop j) := by
    rw [← entriesText_append, List.take_append_drop]
  simp only [text, front, behind, hentries, List.append_assoc]

theorem text_commented (j : Nat) : (f.commented j c).text = f.front j ++ (c.text ++ f.behind j) := by
  cases hd : f.entries.drop j with
  | nil => simp [text, commented, front, behind, hd, Comment.beforeFirst, Comment.before, entriesText]
  | cons e es =>
    simp [text, commented, front, behind, hd, Comment.beforeFirst, Comment.before, entriesText,
      entriesText_append]

theorem program_commented (j : Nat) : (f.commented j c).program = f.program.movedFrom j
    (Position.shift (Position.origin.after (f.front j))
      ((Position.origin.after (f.front j)).after c.text)) := by
  have hmoved := Position.moved_shift (Position.origin.after (f.front j))
    ((Position.origin.after (f.front j)).after c.text)
  have hfront : ((Position.origin.after f.lead.chars).after f.tag.text).after
      (entriesText (f.entries.take j)) = Position.origin.after (f.front j) := by
    simp [front]
  have htemplates : (f.commented j c).program.templates = (f.program.movedFrom j
      (Position.shift (Position.origin.after (f.front j))
        ((Position.origin.after (f.front j)).after c.text))).templates := by
    simp only [program, commented, Program.movedFrom, entriesTree_append, take_entriesTree,
      drop_entriesTree, hfront, beforeFirst_tree, entriesTree_moved _ hmoved]
  have hmark : (f.commented j c).program.mark = (f.program.movedFrom j
      (Position.shift (Position.origin.after (f.front j))
        ((Position.origin.after (f.front j)).after c.text))).mark := by
    have hentries : entriesText f.entries =
        entriesText (f.entries.take j) ++ entriesText (f.entries.drop j) := by
      rw [← entriesText_append, List.take_append_drop]
    simp only [program, commented, Program.movedFrom, markAt, length_entriesTree, hentries,
      entriesText_append, Position.after_append, hfront]
    cases hd : f.entries.drop j with
    | nil =>
      rw [if_neg (Nat.not_lt.2 (List.drop_eq_nil_iff.1 hd))]
      rfl
    | cons e es =>
      rw [if_pos (Nat.lt_of_not_le fun h => by simp [List.drop_eq_nil_of_le h] at hd), hmoved]
      simp [Comment.beforeFirst, Comment.before, entriesText]
  exact congrArg₂ (fun mark templates => (⟨mark, f.tag.segments, templates⟩ : Program)) hmark
    htemplates

theorem front_last (j : Nat) : ∀ d ∈ (f.front j).getLast?, d = '\x7d' := by
  obtain ⟨inner, htag, -⟩ := f.tag.text_ends
  by_cases hnil : entriesText (f.entries.take j) = []
  · simp [front, hnil, htag]
  · rw [front, List.getLast?_append_of_ne_nil _ (by simp [hnil]),
      List.getLast?_append_of_ne_nil _ hnil]
    exact entriesText_last _

theorem commented_apart (h : f.Apart) (j : Nat) : (f.commented j c).Apart := by
  intro e he
  have hall : ∀ e ∈ f.entries, e.template.Apart := h
  rcases List.mem_append.1 he with he | he
  · exact hall e (List.mem_of_mem_take he)
  · cases hd : f.entries.drop j with
    | nil => simp [hd, Comment.beforeFirst] at he
    | cons e' es =>
      have hmem : ∀ x ∈ e' :: es, x.template.Apart :=
        fun x hx => hall x (List.mem_of_mem_drop (hd ▸ hx))
      rw [hd] at he
      rcases List.mem_cons.1 he with rfl | he
      · exact hmem e' (by simp)
      · exact hmem e (by simp [he])

/-- The boundaries of a file are the ends of its namespace tag and of its templates. -/
theorem boundary {b : Position} (h : (f.program.boundaries f.text)[j]? = some b) :
    b = Position.origin.after (f.front j) := by
  cases j with
  | zero =>
    obtain rfl : tagEnd f.text f.program.mark.start = b := by simpa [Program.boundaries] using h
    have hstart : f.program.mark.start = Position.origin.after f.lead.chars := rfl
    have hindex : (Position.origin.after f.lead.chars).index = f.lead.chars.length := by
      simp [Position.origin]
    obtain ⟨inner, htag, hopen⟩ := f.tag.text_ends
    have hinner : f.text = f.lead.chars ++ (inner ++ ('\x7d' :: (entriesText f.entries ++
        f.final.chars))) := by
      simp [text, htag]
    have hne : ∀ d ∈ inner, decide (d ≠ '\x7d') = true :=
      fun d hd => decide_eq_true fun hbrace => hopen (hbrace ▸ hd)
    rw [tagEnd, hstart, hindex, hinner, List.drop_left, takeWhile_of_stop hne (by simp), ← htag]
    simp [front, entriesText]
  | succ k =>
    obtain ⟨-, rfl⟩ := stop_of_entriesTree (p := (Position.origin.after f.lead.chars).after f.tag.text)
      (k := k) (by simpa [Program.boundaries, program] using h)
    simp [front]

end File

end Concrete

namespace Grammar

open Rule Cursor Concrete

variable {s s' : Cursor} {es : List SoyTree.Expr} {φ : Position → Position}

theorem HasValues.moved (h : HasValues s es) (hs : Moved φ s s') :
    HasValues s' (es.map (Expr.moved φ)) := by
  rintro e' he'
  obtain ⟨e, he, rfl⟩ := List.mem_map.1 he'
  obtain ⟨u, t, ⟨text, hr⟩, hvisible, hy⟩ := h e he
  obtain ⟨u', hr', hu⟩ := hs.reads hr
  obtain ⟨t', hy', -⟩ := moves_expression.yields hu hy
  exact ⟨u', t', ⟨text, hr'⟩, by rwa [Visible, hu.rest], hy'⟩

/-- The inline values of the templates behind a place are read there or further on. -/
theorem values_behind (f : Concrete.File) (h : f.Apart)
    (hv : HasValues (.ofChars f.text) f.program.values) (j : Nat) :
    HasValues ⟨Position.origin.after (f.front j), f.behind j⟩
      ((f.program.templates.drop j).flatMap fun T => Node.bodyValues T.body) := by
  have hr : (Cursor.ofChars f.text).Reads (f.front j)
      ⟨Position.origin.after (f.front j), f.behind j⟩ := ⟨f.text_eq j, rfl⟩
  have hsplit : f.program.values =
      (f.program.templates.take j).flatMap (fun T => Node.bodyValues T.body) ++
        (f.program.templates.drop j).flatMap fun T => Node.bodyValues T.body := by
    rw [← List.flatMap_append, List.take_append_drop]
    rfl
  rw [hsplit] at hv
  have htemplates : f.program.templates.drop j = entriesTree f.tag.segments
      (Position.origin.after (f.front j)) (f.entries.drop j) := by
    simp [File.program, File.front, drop_entriesTree]
  rw [htemplates] at hv ⊢
  have hbehind : Reads ⟨Position.origin.after (f.front j), f.behind j⟩ (f.behind j)
      ⟨(Position.origin.after (f.front j)).after (f.behind j), []⟩ := ⟨by simp, rfl⟩
  obtain ⟨u, hentries, hfinal⟩ := hbehind.split
  have hlast := trivia_yields f.final hfinal
    (triviaPart_fails (blockComment_fails (by simp)) (by simp)) fun _ => rfl
  exact entries_values (entries_yields _ (fun e he => h e (List.mem_of_mem_drop he)) hr.reaches
    hentries hv.right (Fails.bind_later hlast (templateItem_fails_at_end rfl)))

end Grammar

open Concrete Grammar

/-- A comment behind the namespace tag or behind a template is passed over, and what follows is moved,
exactly if the source does not nest too deep with the tags that the comment mentions and the inline
values in front of it are still read where they stand. A comment without an opening brace leaves the
nesting as it is. -/
theorem parse_commented {source : String} {options : Options} {program : Program}
    (h : parseWith source options = .ok program) {j : Nat} {b : Position}
    (hb : (program.boundaries source.toList)[j]? = some b) (c : Comment) :
    (parseWith (String.ofList (insertAt source.toList b c.text)) options =
        .ok (program.movedFrom j (Position.shift b (b.after c.text))) ↔
      Nesting.deepest (insertAt source.toList b c.text) ≤ options.maxDepth ∧
        HasValues (.ofChars (insertAt source.toList b c.text))
          ((program.templates.take j).flatMap fun T => Node.bodyValues T.body)) ∧
      ('\x7b' ∉ c.text →
        Nesting.deepest (insertAt source.toList b c.text) = Nesting.deepest source.toList) := by
  have hv := parse_values h
  obtain ⟨f, htext, rfl, hf⟩ := parse_apart h
  rw [← htext] at hb hv ⊢
  obtain rfl := f.boundary hb
  have hinsert : insertAt f.text (Position.origin.after (f.front j)) c.text =
      (f.commented j c).text := by
    have hindex : (Position.origin.after (f.front j)).index = (f.front j).length := by
      simp [Position.origin]
    rw [insertAt, hindex, f.text_eq j, List.take_left, List.drop_left, f.text_commented]
  have hmoved := Position.moved_shift (Position.origin.after (f.front j))
    ((Position.origin.after (f.front j)).after c.text)
  have hbehind : HasValues (.ofChars (f.commented j c).text)
      (((f.program.templates.drop j).flatMap fun T => Node.bodyValues T.body).map (Expr.moved
        (Position.shift (Position.origin.after (f.front j))
          ((Position.origin.after (f.front j)).after c.text)))) := by
    have hshift : Cursor.Moved _ ⟨Position.origin.after (f.front j), f.behind j⟩
        ⟨(Position.origin.after (f.front j)).after c.text, f.behind j⟩ := ⟨rfl, hmoved⟩
    refine ((values_behind f hf hv j).moved hshift).later ⟨f.front j ++ c.text, ?_, ?_⟩
    · simp [Cursor.ofChars, f.text_commented]
    · simp [Cursor.ofChars]
  have hvalues : (f.commented j c).program.values =
      ((f.program.templates.take j).flatMap fun T => Node.bodyValues T.body) ++
        ((f.program.templates.drop j).flatMap fun T => Node.bodyValues T.body).map (Expr.moved
          (Position.shift (Position.origin.after (f.front j))
            ((Position.origin.after (f.front j)).after c.text))) := by
    rw [f.program_commented, Program.values, Program.movedFrom, List.flatMap_append, List.flatMap_map,
      List.map_flatMap]
    exact congrArg _ (congrArg (List.flatMap · _) (funext fun T => Node.bodyValues_moved _ T.body))
  rw [hinsert, ← f.program_commented, parse_apart_iff _ (f.commented_apart c hf j), hvalues,
    HasValues.append_iff, and_iff_left hbehind, f.text_commented, f.text_eq j]
  refine ⟨Iff.rfl, fun hplain => Nesting.deepest_of_reaches ?_⟩
  exact Nesting.reaches_inserted (f.front_last j) hplain (Nat.zero_le _)

def commentedSample : String :=
  "\x7bnamespace a\x7d\x7btemplate .t\x7dx\x7b/template\x7d" ++
    "\x7btemplate .u\x7d\x7blet $x: $y /\x7d\x7b/template\x7d"

def blockSample : Comment where
  text := "/* c */".toList
  isComment := Or.inr (Or.inr ⟨' ', ['c', ' '], by decide, by simp [Unended], by decide⟩)

theorem commentedSample_moves : ∃ program b, parseWith commentedSample {} = .ok program ∧
    (program.boundaries commentedSample.toList)[1]? = some b ∧
    parseWith (String.ofList (insertAt commentedSample.toList b blockSample.text)) {} =
      .ok (program.movedFrom 1 (Position.shift b (b.after blockSample.text))) := by
  have hrun : parsesTo commentedSample (fun p => (p.boundaries commentedSample.toList)[1]?.isSome &&
      ((p.templates.take 1).flatMap fun T => Node.bodyValues T.body).isEmpty) = true := by
    decide +kernel
  obtain ⟨program, h, hprogram⟩ := exists_program_of hrun
  obtain ⟨hsome, hempty⟩ := Bool.and_eq_true_iff.1 hprogram
  obtain ⟨b, hb⟩ := Option.isSome_iff_exists.1 hsome
  obtain ⟨hiff, hplain⟩ := parse_commented h hb blockSample
  refine ⟨program, b, h, hb, hiff.2 ⟨?_, ?_⟩⟩
  · rw [hplain (by decide)]
    decide +kernel
  · rw [List.isEmpty_iff.1 hempty]
    exact HasValues.nil

/-- A raw argument whose bracket is not closed. -/
def unclosedSample : String :=
  "\x7bnamespace a\x7d\x7btemplate .t\x7d\x7blet $x: f($a /\x7d\x7b/template\x7d"

def namingSample : Comment where
  text := "//\x7bif\x7d\x7bif\x7d\n".toList
  isComment := Or.inl ⟨"\x7bif\x7d\x7bif\x7d".toList, by decide, by decide⟩

def closingSample : Comment where
  text := "//) /\x7d\n".toList
  isComment := Or.inl ⟨") /\x7d".toList, by decide, by decide⟩

/-- Whether the source is parsed, but not with the comment at its boundary `j`. -/
def Concrete.Comment.breaks (c : Comment) (source : String) (options : Options) (j : Nat) : Bool :=
  match parseWith source options with
  | .error _ => false
  | .ok program =>
    (program.boundaries source.toList)[j]?.any fun b =>
      !(parseWith (String.ofList (insertAt source.toList b c.text)) options).isOk

theorem exists_of_breaks {c : Comment} {source : String} {options : Options} {j : Nat}
    (h : c.breaks source options j = true) :
    ∃ program b, parseWith source options = .ok program ∧
      (program.boundaries source.toList)[j]? = some b ∧
      ∀ program', parseWith (String.ofList (insertAt source.toList b c.text)) options ≠
        .ok program' := by
  unfold Comment.breaks at h
  cases hp : parseWith source options with
  | error e => simp [hp] at h
  | ok program =>
    simp only [hp, Option.any_eq_true, Bool.not_eq_true'] at h
    obtain ⟨b, hb, hnot⟩ := h
    refine ⟨program, b, rfl, hb, fun program' hp' => ?_⟩
    rw [hp'] at hnot
    cases hnot

/-- A comment that names blocks makes the source nest too deep, and one that ends a raw argument in front
of it is read into the argument. Both sources are parsed without the comment, and not with it. -/
theorem comment_breaks :
    (∃ program b, parseWith commentedSample ⟨1⟩ = .ok program ∧
      (program.boundaries commentedSample.toList)[1]? = some b ∧
      ∀ program', parseWith (String.ofList (insertAt commentedSample.toList b namingSample.text)) ⟨1⟩ ≠
        .ok program') ∧
    ∃ program b, parseWith unclosedSample {} = .ok program ∧
      (program.boundaries unclosedSample.toList)[1]? = some b ∧
      ∀ program', parseWith (String.ofList (insertAt unclosedSample.toList b closingSample.text)) {} ≠
        .ok program' :=
  ⟨exists_of_breaks (by decide +kernel), exists_of_breaks (by decide +kernel)⟩

end SoyTree
