import SoyTree.Format.Outline

/-! # Lines of the outline

The parts of a program that have a line of their own, in tree order, and how each line is drawn. As
long as no label breaks its line, the outline tells the titles of all entries and how they are nested.
-/

namespace SoyTree

def Expr.operands : Expr → List Expr
  | map _ items => items.map (·.value)
  | call _ _ args => args
  | ternary _ cond left right => [cond, left, right]
  | _ => []

namespace Outline

/-- A part of a program that has a line of its own. -/
inductive Entry where
  | template (t : Template)
  | doc (d : Doc)
  | declaration (d : ParamDecl)
  | node (n : Node)
  | param (q : Param)
  | expr (e : Expr)

/-- An entry on its line: whether it is the last one below its parent, and the same of the entries
above it, outermost first. -/
structure Row where
  margin : List Bool
  last : Bool
  entry : Entry

namespace Entry

def brief : Entry → Brief
  | template t => t.brief
  | doc d => d.brief
  | declaration d => d.brief
  | node n => n.brief
  | param q => q.brief
  | expr e => e.brief

def ofValue : Value → List Entry
  | .inline e => [expr e]
  | .block body => body.map node

/-- The entries directly below an entry. Attributes and the keys of maps are none. -/
def children : Entry → List Entry
  | template t => t.doc.toList.map doc ++ t.params.map declaration ++ t.body.map node
  | doc d => d.params.map declaration
  | declaration _ => []
  | node (.text _ _) => []
  | node (.interpolation _ _) => []
  | node (.call _ _ _ params) => params.map param
  | node (.binding _ _ value) => ofValue value
  | node (.control _ _ body) => body.map node
  | param q => ofValue q.value
  | expr e => e.operands.map expr

end Entry

/-- The rows of siblings and of everything below them, each entry in front of those below it. -/
inductive Lists : List Bool → List Entry → List Row → Prop where
  | nil (margin : List Bool) : Lists margin [] []
  | cons {margin : List Bool} {e : Entry} {rest : List Entry} {below behind : List Row}
      (hbelow : Lists (margin ++ [rest.isEmpty]) e.children below)
      (hbehind : Lists margin rest behind) :
      Lists margin (e :: rest) (⟨margin, rest.isEmpty, e⟩ :: (below ++ behind))

/-- The same titles, nested in the same way. -/
inductive Alike : List Entry → List Entry → Prop where
  | nil : Alike [] []
  | cons {e e' : Entry} {rest rest' : List Entry} (htitle : title e.brief = title e'.brief)
      (hbelow : Alike e.children e'.children) (hbehind : Alike rest rest') :
      Alike (e :: rest) (e' :: rest')

/-- The line of an entry: a cell for each entry above it, the connector and the title. -/
def draw (margin : List Bool) (last : Bool) (shown : String) : String :=
  String.join (margin.map cell) ++ connector last ++ " " ++ shown

namespace Row

def title (r : Row) : String :=
  Outline.title r.entry.brief

def line (r : Row) : String :=
  draw r.margin r.last r.title

end Row

def roots (p : Program) : List Entry :=
  p.templates.map .template

def Unbroken (rows : List Row) : Prop :=
  ∀ r ∈ rows, '\n' ∉ r.title.toList

variable {margin margin' : List Bool} {last last' : Bool} {entries entries' : List Entry}
  {rows rows' : List Row}

section Trees

namespace Entry

def tree : Entry → Outline
  | template t => t.outline
  | doc d => d.outline
  | declaration d => d.outline
  | node n => n.outline
  | param q => .entry q.brief (Node.outlineValue q.value)
  | expr e => e.outline

theorem outlineAll_eq (body : List Node) : Node.outlineAll body = (body.map node).map tree := by
  induction body with
  | nil => rfl
  | cons n body ih => rw [Node.outlineAll, ih]; rfl

theorem outlineValue_eq (value : Value) : Node.outlineValue value = (ofValue value).map tree := by
  cases value with
  | inline e => rfl
  | block body => exact outlineAll_eq body

theorem outlineParams_eq (params : List Param) :
    Node.outlineParams params = (params.map param).map tree := by
  induction params with
  | nil => rfl
  | cons q params ih =>
    obtain ⟨mark, name, value⟩ := q
    rw [Node.outlineParams, ih]
    rfl

theorem outlineArgs_eq (args : List Expr) : Expr.outlineArgs args = (args.map expr).map tree := by
  induction args with
  | nil => rfl
  | cons e args ih => rw [Expr.outlineArgs, ih]; rfl

theorem outlineItems_eq (items : List MapItem) :
    Expr.outlineItems items = ((items.map (·.value)).map expr).map tree := by
  induction items with
  | nil => rfl
  | cons i items ih =>
    obtain ⟨mark, key, value⟩ := i
    rw [Expr.outlineItems, ih]
    rfl

theorem tree_eq (e : Entry) : e.tree = .entry e.brief (e.children.map tree) := by
  cases e with
  | template t =>
    simp only [tree, Template.outline, children, brief, List.map_append, outlineAll_eq, List.map_map]
    rfl
  | doc d =>
    simp only [tree, Doc.outline, children, brief, List.map_map]
    rfl
  | declaration d => rfl
  | node n =>
    cases n with
    | text mark content => simp only [tree, Node.outline, children, brief, List.map_nil]
    | interpolation mark raw => simp only [tree, Node.outline, children, brief, List.map_nil]
    | call mark target delegate params =>
      simp only [tree, Node.outline, children, brief, outlineParams_eq]
    | binding mark name value => simp only [tree, Node.outline, children, brief, outlineValue_eq]
    | control mark block body => simp only [tree, Node.outline, children, brief, outlineAll_eq]
  | param q => simp only [tree, children, brief, outlineValue_eq]
  | expr e =>
    cases e with
    | map mark items =>
      simp only [tree, Expr.outline, children, brief, Expr.operands, outlineItems_eq]
    | call mark name args =>
      simp only [tree, Expr.outline, children, brief, Expr.operands, outlineArgs_eq]
    | ternary mark cond left right =>
      simp only [tree, Expr.outline, children, brief, Expr.operands, List.map_cons, List.map_nil]
    | _ => simp only [tree, Expr.outline, children, brief, Expr.operands, List.map_nil]

end Entry

end Trees

section Rows

mutual

theorem exists_lists_below (o : Outline) (e : Entry) (h : e.tree = o) (margin : List Bool) :
    ∃ rows, Lists margin e.children rows := by
  match o with
  | .entry brief below =>
    rw [Entry.tree_eq, Outline.entry.injEq] at h
    exact exists_lists_of below e.children h.2 margin

theorem exists_lists_of (os : List Outline) (entries : List Entry) (h : entries.map Entry.tree = os)
    (margin : List Bool) : ∃ rows, Lists margin entries rows := by
  match os, entries with
  | [], [] => exact ⟨[], .nil margin⟩
  | o :: os, e :: rest =>
    rw [List.map_cons, List.cons.injEq] at h
    obtain ⟨below, hbelow⟩ := exists_lists_below o e h.1 (margin ++ [rest.isEmpty])
    obtain ⟨behind, hbehind⟩ := exists_lists_of os rest h.2 margin
    exact ⟨_, .cons hbelow hbehind⟩

end

theorem exists_lists (margin : List Bool) (entries : List Entry) :
    ∃ rows, Lists margin entries rows :=
  exists_lists_of _ entries rfl margin

/-- What holds of siblings and goes over to the entries below holds of all rows. -/
theorem Lists.forall_rows {P : Entry → Prop} (hP : ∀ e, P e → ∀ c ∈ e.children, P c)
    (h : Lists margin entries rows) (hentries : ∀ e ∈ entries, P e) : ∀ r ∈ rows, P r.entry := by
  induction h with
  | nil => simp
  | @cons margin e rest below behind _ _ ihbelow ihbehind =>
    have he := hentries e (by simp)
    rintro r (_ | ⟨_, hr⟩)
    · exact he
    · rcases List.mem_append.1 hr with hr | hr
      · exact ihbelow (hP e he) r hr
      · exact ihbehind (fun c hc => hentries c (by simp [hc])) r hr

theorem Lists.margins (h : Lists margin entries rows) :
    (∀ r ∈ rows, margin.length ≤ r.margin.length) ∧ ∀ r ∈ rows.head?, r.margin = margin := by
  induction h with
  | nil => simp
  | @cons margin e rest below behind _ _ ihbelow ihbehind =>
    refine ⟨?_, by simp⟩
    rintro r (_ | ⟨_, hr⟩)
    · exact Nat.le_refl _
    · rcases List.mem_append.1 hr with hr | hr
      · have := ihbelow.1 r hr
        rw [List.length_append] at this
        omega
      · exact ihbehind.1 r hr

theorem Lists.linesAll_eq (h : Lists margin entries rows) :
    linesAll (String.join (margin.map cell)) (entries.map Entry.tree) = rows.map Row.line := by
  induction h with
  | nil => rfl
  | @cons margin e rest below behind _ _ ihbelow ihbehind =>
    have hmargin : String.join ((margin ++ [rest.isEmpty]).map cell) =
        String.join (margin.map cell) ++ cell rest.isEmpty := by
      simp [String.join_append]
    rw [hmargin] at ihbelow
    simp only [List.map_cons, Entry.tree_eq e, linesAll, lines, List.map_append, List.isEmpty_map,
      ihbelow, ihbehind]
    rfl

end Rows

section Drawing

variable {shown shown' : String}

theorem toList_draw : (draw margin last shown).toList =
    margin.flatMap (fun above => (cell above).toList) ++
      ((connector last).toList ++ ' ' :: shown.toList) := by
  simp [draw, String.toList_join, List.flatMap_map]

theorem draw_inj : draw margin last shown = draw margin' last' shown' ↔
    margin = margin' ∧ last = last' ∧ shown = shown' := by
  rw [← String.toList_inj, toList_draw, toList_draw]
  induction margin generalizing margin' with
  | nil =>
    cases margin' with
    | nil => cases last <;> cases last' <;> simp [connector, String.toList_inj]
    | cons above margin' => cases last <;> cases above <;> simp [connector, cell]
  | cons above margin ih =>
    cases margin' with
    | nil => cases last' <;> cases above <;> simp [connector, cell]
    | cons above' margin' =>
      have ih := @ih margin'
      cases above <;> cases above' <;> simp_all [cell]

theorem count_draw : (draw margin last shown).toList.count '\n' = shown.toList.count '\n' := by
  have hcells : ∀ above, (cell above).toList.count '\n' = 0 := by decide
  have hconnector : (connector last).toList.count '\n' = 0 := by cases last <;> decide
  have hmargin : (margin.flatMap fun above => (cell above).toList).count '\n' = 0 := by
    induction margin with
    | nil => rfl
    | cons above margin ih => rw [List.flatMap_cons, List.count_append, hcells, ih]
  rw [toList_draw, List.count_append, hmargin, List.count_append, hconnector, List.count_cons]
  simp

end Drawing

section Texts

def ended (lines : List String) : String :=
  String.join (lines.map (· ++ "\n"))

theorem count_ended (rows : List Row) : (ended (rows.map Row.line)).toList.count '\n' =
    rows.length + (rows.flatMap fun r => r.title.toList).count '\n' := by
  induction rows with
  | nil => rfl
  | cons r rows ih =>
    have hrows : (ended ((r :: rows).map Row.line)).toList =
        r.line.toList ++ '\n' :: (ended (rows.map Row.line)).toList := by
      simp [ended]
    rw [hrows, List.count_append, List.count_cons_self, ih, List.flatMap_cons, List.count_append,
      List.length_cons, Row.line, count_draw]
    omega

theorem splitOn_ended {lines : List String} (h : ∀ line ∈ lines, '\n' ∉ line.toList) :
    (ended lines).toList.splitOn '\n' = lines.map String.toList ++ [[]] := by
  induction lines with
  | nil => rfl
  | cons line lines ih =>
    have htext : (ended (line :: lines)).toList = line.toList ++ '\n' :: (ended lines).toList := by
      simp [ended]
    rw [htext, List.splitOn_append_cons_self_of_not_mem (h line (by simp)),
      ih fun l hl => h l (by simp [hl])]
    rfl

theorem Lists.renderOutline_eq {p : Program} (h : Lists [] (roots p) rows) :
    p.renderOutline = ended (rows.map Row.line) := by
  have hlines := h.linesAll_eq
  rw [roots, List.map_map] at hlines
  exact congrArg ended hlines

/-- There is one line break for each entry, and one more for each that a title holds. -/
theorem Lists.count_renderOutline {p : Program} (h : Lists [] (roots p) rows) :
    p.renderOutline.toList.count '\n' =
      rows.length + (rows.flatMap fun r => r.title.toList).count '\n' := by
  rw [h.renderOutline_eq, count_ended]

/-- Every entry has a line to itself exactly if no title breaks its line. -/
theorem Lists.count_eq_length_iff {p : Program} (h : Lists [] (roots p) rows) :
    p.renderOutline.toList.count '\n' = rows.length ↔ Unbroken rows := by
  rw [h.count_renderOutline, Nat.add_eq_left, List.count_eq_zero]
  simp [Unbroken]

theorem unbroken_iff : Unbroken rows ↔ ∀ line ∈ rows.map Row.line, '\n' ∉ line.toList := by
  simp only [Unbroken, List.forall_mem_map, ← List.count_eq_zero, Row.line, count_draw]

theorem ended_inj {lines lines' : List String} (h : ∀ line ∈ lines, '\n' ∉ line.toList)
    (h' : ∀ line ∈ lines', '\n' ∉ line.toList) : ended lines = ended lines' ↔ lines = lines' := by
  refine ⟨fun heq => ?_, fun heq => heq ▸ rfl⟩
  have hsplit := splitOn_ended h
  rw [heq, splitOn_ended h', List.append_left_inj] at hsplit
  exact ((List.map_inj_right fun _ _ => String.toList_inj.1).1 hsplit).symm

end Texts

section Nesting

/-- A stretch of lines below the margin holds no line at the margin. -/
theorem nil_of_lines {lines : List String} {depth : Nat}
    (hbelow : ∀ line ∈ lines, ∃ r : Row, r.line = line ∧ depth < r.margin.length)
    (hbehind : ∀ line ∈ lines.head?, ∃ r : Row, r.line = line ∧ r.margin.length = depth) :
    lines = [] := by
  cases lines with
  | nil => rfl
  | cons line lines =>
    obtain ⟨r, hr, hdeep⟩ := hbelow line (by simp)
    obtain ⟨r', hr', hflat⟩ := hbehind line (by simp)
    have hmargin := (draw_inj.1 (hr.trans hr'.symm)).1
    rw [hmargin] at hdeep
    omega

theorem Lists.deep_lines {above : Bool} (h : Lists (margin ++ [above]) entries rows) :
    ∀ line ∈ rows.map Row.line, ∃ r : Row, r.line = line ∧ margin.length < r.margin.length := by
  intro line hline
  obtain ⟨r, hr, rfl⟩ := List.mem_map.1 hline
  have hmargin := h.margins.1 r hr
  rw [List.length_append] at hmargin
  exact ⟨r, rfl, hmargin⟩

theorem Lists.first_line (h : Lists margin entries rows) :
    ∀ line ∈ (rows.map Row.line).head?, ∃ r : Row, r.line = line ∧
      r.margin.length = margin.length := by
  intro line hline
  rw [List.head?_map] at hline
  obtain ⟨r, hr, rfl⟩ := Option.map_eq_some_iff.1 hline
  exact ⟨r, rfl, by rw [h.margins.2 r hr]⟩

/-- The lines below an entry end where the lines behind it start. -/
theorem Lists.lines_split {above above' : Bool} {below below' behind behind' : List Row}
    {rest rest' children children' : List Entry}
    (hbelow : Lists (margin ++ [above]) children below)
    (hbelow' : Lists (margin ++ [above']) children' below') (hbehind : Lists margin rest behind)
    (hbehind' : Lists margin rest' behind')
    (h : (below ++ behind).map Row.line = (below' ++ behind').map Row.line) :
    below.map Row.line = below'.map Row.line ∧ behind.map Row.line = behind'.map Row.line := by
  rw [List.map_append, List.map_append] at h
  rcases List.append_eq_append_iff.1 h with ⟨lines, hx, hy⟩ | ⟨lines, hx, hy⟩
  · obtain rfl : lines = [] := by
      refine nil_of_lines (fun line hline => hbelow'.deep_lines line (hx ▸ by simp [hline]))
        fun line hline => hbehind.first_line line ?_
      rw [hy, List.head?_append, Option.mem_def.1 hline]
      rfl
    exact ⟨by simpa using hx.symm, by simpa using hy⟩
  · obtain rfl : lines = [] := by
      refine nil_of_lines (fun line hline => hbelow.deep_lines line (hx ▸ by simp [hline]))
        fun line hline => hbehind'.first_line line ?_
      rw [hy, List.head?_append, Option.mem_def.1 hline]
      rfl
    exact ⟨by simpa using hx, by simpa using hy.symm⟩

theorem Lists.alike (h : Lists margin entries rows) (h' : Lists margin entries' rows')
    (hlines : rows.map Row.line = rows'.map Row.line) : Alike entries entries' := by
  induction h generalizing entries' rows' with
  | nil =>
    cases h' with
    | nil => exact .nil
    | cons => cases hlines
  | @cons margin e rest below behind hbelow hbehind ihbelow ihbehind =>
    cases h' with
    | nil => cases hlines
    | @cons _ e' rest' below' behind' hbelow' hbehind' =>
      obtain ⟨hline, hlines⟩ := List.cons.inj hlines
      obtain ⟨-, hlast, htitle⟩ := draw_inj.1 hline
      obtain ⟨hlinesBelow, hlinesBehind⟩ := hbelow.lines_split hbelow' hbehind hbehind' hlines
      simp only at hlast
      rw [← hlast] at hbelow'
      exact .cons htitle (ihbelow hbelow' hlinesBelow) (ihbehind hbehind' hlinesBehind)

theorem Alike.isEmpty (h : Alike entries entries') : entries.isEmpty = entries'.isEmpty := by
  cases h <;> rfl

theorem Alike.lines (h : Alike entries entries') (hlists : Lists margin entries rows)
    (hlists' : Lists margin entries' rows') : rows.map Row.line = rows'.map Row.line := by
  induction h generalizing margin rows rows' with
  | nil =>
    cases hlists
    cases hlists'
    rfl
  | cons htitle _ hbehind ihbelow ihbehind =>
    cases hlists with
    | cons hbelow hrest =>
      cases hlists' with
      | cons hbelow' hrest' =>
        rw [← hbehind.isEmpty] at hbelow'
        simp only [List.map_cons, List.map_append, ihbelow hbelow hbelow', ihbehind hrest hrest',
          Row.line, Row.title, htitle, hbehind.isEmpty]

/-- As long as no title breaks its line, the outline tells the titles and how they are nested. -/
theorem Lists.renderOutline_eq_iff {p p' : Program} (h : Lists [] (roots p) rows)
    (h' : Lists [] (roots p') rows') (hunbroken : Unbroken rows) (hunbroken' : Unbroken rows') :
    p.renderOutline = p'.renderOutline ↔ Alike (roots p) (roots p') := by
  rw [h.renderOutline_eq, h'.renderOutline_eq,
    ended_inj (unbroken_iff.1 hunbroken) (unbroken_iff.1 hunbroken')]
  exact ⟨h.alike h', fun halike => halike.lines h h'⟩

end Nesting

end Outline

end SoyTree
