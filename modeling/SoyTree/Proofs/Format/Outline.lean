import SoyTree.Proofs.Format.Labels

/-! # The outline of a parsed source

Every part of a parsed source that has a line gets it, in tree order and behind its margin. A label that
keeps a line break of the source takes more than one line, and only then.
-/

namespace SoyTree

open Concrete

namespace Outline

section Names

variable {source : List Char} {home : List String}

theorem named_of {n : Node} (hshape : n.Shaped) (hname : n.Named source home) : Named n := by
  cases n with
  | call mark target delegate params =>
    obtain ⟨w, -, htarget⟩ := hname
    refine ⟨?_, fun q hq => break_not_mem_of_isWord (hshape q hq).1⟩
    split at htarget
    · exact htarget ▸ w.break_not_mem
    · exact break_not_mem_of_isDotted htarget.2
  | binding mark name value => exact break_not_mem_of_isWord hshape.1
  | _ => trivial

theorem break_not_mem_name {T : SoyTree.Template} (h : T.Named source home) :
    '\n' ∉ T.name.toList := by
  obtain ⟨w, doc, tag, -, -, -, hname⟩ := h
  split at hname
  · exact break_not_mem_of_isDotted hname.2
  · exact hname ▸ w.break_not_mem

theorem docParam_name (p : Position) (line : DocLine) :
    ∀ d ∈ (line.tree p).param?, '\n' ∉ d.name.toList := by
  cases line with
  | param lead optional gap name tail =>
    rintro d (_ | _)
    rw [String.toList_ofList]
    exact break_not_mem_of_isWord name.isWord
  | prose margin content => simp [DocLine.tree, Grammar.DocLine.param?]

theorem docParams_names (p : Position) (D : DocBlock) :
    ∀ d ∈ (D.tree p).params, '\n' ∉ d.name.toList := by
  have hmore : ∀ (lines : List DocLine) (p : Position), ∀ line ∈ moreLinesTree p lines,
      ∀ d ∈ line.param?, '\n' ∉ d.name.toList := by
    intro lines
    induction lines with
    | nil => simp [moreLinesTree]
    | cons line lines ih =>
      rintro p l (_ | ⟨_, hl⟩)
      · exact docParam_name _ line
      · exact ih _ l hl
  intro d hd
  obtain ⟨line, hline, hparam⟩ := List.mem_filterMap.1 hd
  cases hlines : D.lines with
  | nil => simp [hlines, linesTree] at hline
  | cons first more =>
    rw [hlines, linesTree] at hline
    rcases List.mem_cons.1 hline with rfl | hline
    · exact docParam_name _ first d hparam
    · exact hmore more _ line hline d hparam

end Names

section Parsed

variable {source : String} {options : Options} {program : Program}

theorem parse_bodies (h : parseWith source options = .ok program) {T : SoyTree.Template}
    (hT : T ∈ program.templates) : AllNamed (Node.bodyNodes T.body) (Node.bodyValues T.body) := by
  obtain ⟨hne, hwords⟩ := Grammar.parse_namespace h
  constructor
  · intro n hn
    rcases Grammar.parse_nodes h n (List.mem_flatMap.2 ⟨T, hT, hn⟩) with
      ⟨u, t, hu, hy⟩ | ⟨mark, content, rfl, -⟩
    · exact named_of (Grammar.bodyItem_shaped hy) (Grammar.bodyItem_named hne hwords hu hy)
    · trivial
  · intro v hv x hx
    obtain ⟨u, t, -, -, hy⟩ := Grammar.parse_values h v (List.mem_flatMap.2 ⟨T, hT, hv⟩)
    obtain ⟨o, ho, rfl⟩ := List.mem_map.1 hx
    exact Grammar.expressionWith_shaped Grammar.nestedExpression_shaped u v t hy _ _ o ho

theorem parse_roots_named (h : parseWith source options = .ok program) :
    ∀ e ∈ roots program, e.NamedBelow := by
  obtain ⟨hne, hwords⟩ := Grammar.parse_namespace h
  intro e he
  obtain ⟨T, hT, rfl⟩ := List.mem_map.1 he
  obtain ⟨u, t, hu, hy⟩ := (Grammar.parse_templates h).2 T hT
  obtain ⟨C, hr, hC⟩ := Grammar.templateItem_spelled (Grammar.bodyItem_spelled _) hy
  refine ⟨?_, ?_, ?_, parse_bodies h hT⟩
  · rw [hC]
    exact break_not_mem_name (Grammar.named_tree hne hwords C u.position (hr.stands hu))
  · rw [hC]
    intro d hd
    obtain ⟨D, -, rfl⟩ := Option.map_eq_some_iff.1 hd
    exact docParams_names u.position D.1
  · rw [hC]
    exact fun d hd => break_not_mem_of_isWord (Grammar.headerParams_words _ C.params d hd)

end Parsed

section Titles

theorem truncate_eq (width : Nat) (text : String) : (truncate width text).toList =
    text.toList.take width ++ if width < text.length then "...".toList else [] := by
  unfold truncate
  split
  · simp
  · next h =>
    rw [List.append_nil, List.take_of_length_le]
    rw [String.length_toList]
    omega

theorem break_not_mem_kind (e : Entry) : '\n' ∉ e.brief.kind.toList := by
  cases e with
  | template t =>
    obtain ⟨mark, kind, doc, name, attributes, params, body⟩ := t
    cases kind <;> simp [Entry.brief, Template.brief, TemplateKind.name]
  | doc d => simp [Entry.brief, Doc.brief]
  | declaration d => simp [Entry.brief, ParamDecl.brief]
  | node n => cases n <;> simp [Entry.brief, Node.brief, Node.kind]
  | param q => simp [Entry.brief, Param.brief]
  | expr e => cases e <;> simp [Entry.brief, Expr.brief, Expr.kind]

/-- A title breaks its line where the part of the label that it shows does. -/
theorem break_mem_title (r : Row) : '\n' ∈ r.title.toList ↔
    '\n' ∈ r.entry.brief.label.toList.take labelWidth := by
  simp [Row.title, title, truncate_eq, break_not_mem_kind]

end Titles

/-- The outline of a program and its rows. -/
structure Shows (program : Program) (rows : List Row) : Prop where
  /-- There is one row for each entry, in front of those below it. -/
  order : Lists [] (roots program) rows
  text : program.renderOutline = ended (rows.map Row.line)
  breaks : program.renderOutline.toList.count '\n' =
    rows.length + (rows.flatMap fun r => r.title.toList).count '\n'
  /-- Only what an entry keeps as it was written can break its label, and so its title. -/
  labels : ∀ r ∈ rows, '\n' ∈ r.entry.brief.label.toList ↔
    ∃ text ∈ r.entry.captured, '\n' ∈ text.toList
  titles : ∀ r ∈ rows, '\n' ∈ r.title.toList ↔
    '\n' ∈ r.entry.brief.label.toList.take labelWidth
  oneEach : program.renderOutline.toList.count '\n' = rows.length ↔ Unbroken rows
  /-- Unbroken outlines tell the titles of all entries and how they are nested. -/
  determines : Unbroken rows → ∀ (other : Program) (rows' : List Row),
    Lists [] (roots other) rows' → Unbroken rows' →
      (other.renderOutline = program.renderOutline ↔ Alike (roots other) (roots program))

end Outline

open Outline

/-- The outline of a parsed source has a row for each entry. Each row is one line exactly if no title
breaks it, which takes a line break in an interpolation, a raw expression, a declared type or a
variant. -/
theorem parse_outlined {source : String} {options : Options} {program : Program}
    (h : parseWith source options = .ok program) : ∃ rows, Shows program rows := by
  obtain ⟨rows, hrows⟩ := exists_lists [] (roots program)
  have hnamed := hrows.forall_rows (fun e he => he.children) (parse_roots_named h)
  exact ⟨rows, {
    order := hrows
    text := hrows.renderOutline_eq
    breaks := hrows.count_renderOutline
    labels := fun r hr => Entry.break_mem_label (hnamed r hr)
    titles := fun r _ => break_mem_title r
    oneEach := hrows.count_eq_length_iff
    determines := fun hunbroken other rows' hrows' hunbroken' =>
      hrows'.renderOutline_eq_iff hrows hunbroken' hunbroken }⟩

def outlinedSample : String :=
  "\x7bnamespace a\x7d/** doc\n * @param p */\x7bdeltemplate b variant=\"v\"\x7d\x7b@param q: ?\x7d" ++
    "text\x7b$p\x7d\x7blet $x: f($p ? [] : ['k': 1], true) /\x7d\x7bif $x\x7d\x7bcall .u\x7d" ++
    "\x7bparam y\x7d\x7b$q\n\x7d\x7b/param\x7d\x7b/call\x7d\x7b/if\x7d\x7b/deltemplate\x7d"

theorem outlinedSample_outlined : ∃ program, parseWith outlinedSample {} = .ok program ∧
    ∃ rows, Shows program rows := by
  obtain ⟨program, h⟩ := Grammar.exists_program outlinedSample {} (by decide +kernel)
  exact ⟨program, h, parse_outlined h⟩

/-- A template with an interpolation that ends on another line. -/
def brokenSample : String :=
  "\x7bnamespace a\x7d\x7btemplate .t\x7d\x7b$a\n\x7d\x7b/template\x7d"

theorem brokenSample_outline : ∃ program rows, parseWith brokenSample {} = .ok program ∧
    Lists [] (roots program) rows ∧ rows.length = 2 ∧
    program.renderOutline = "└─ Template: a.t\n  └─ Interpolation: \x7b$a\n\x7d\n" ∧
    program.renderOutline.toList.count '\n' = 3 := by
  have hrun : Grammar.parsesTo brokenSample (fun p => (linesAll "" p.outline).length == 2 &&
      p.renderOutline == "└─ Template: a.t\n  └─ Interpolation: \x7b$a\n\x7d\n") = true := by
    decide +kernel
  obtain ⟨program, h, hprogram⟩ := Grammar.exists_program_of hrun
  obtain ⟨hlines, htext⟩ := Bool.and_eq_true_iff.1 hprogram
  rw [beq_iff_eq] at hlines htext
  obtain ⟨rows, hrows⟩ := exists_lists [] (roots program)
  refine ⟨program, rows, h, hrows, ?_, htext, ?_⟩
  · have hrowLines := hrows.linesAll_eq
    rw [roots, List.map_map] at hrowLines
    rw [← List.length_map, ← hrowLines]
    exact hlines
  · rw [htext]
    decide

end SoyTree
