import SoyTree.Proofs.Canonical.Commands
import SoyTree.Proofs.Expression.Stops
import SoyTree.Proofs.Grammar.Progress

/-! # Nodes of a parsed source

Every node in the tree of a parsed source was read by the rule for body items, at some place of the
source and against the namespace of its file. Only the text of a literal block has no rule of its
own.
-/

namespace SoyTree

mutual

def Node.within : Node → List Node
  | .text _ _ => []
  | .interpolation _ _ => []
  | .call _ _ _ params => Node.paramsNodes params
  | .binding _ _ value => value.nodes
  | .control _ _ body => Node.bodyNodes body

def Value.nodes : Value → List Node
  | .inline _ => []
  | .block body => Node.bodyNodes body

def Node.paramsNodes : List Param → List Node
  | [] => []
  | .mk _ _ value :: rest => value.nodes ++ Node.paramsNodes rest

def Node.bodyNodes : List Node → List Node
  | [] => []
  | n :: rest => n :: (n.within ++ Node.bodyNodes rest)

end

def Program.nodes (p : Program) : List Node :=
  p.templates.flatMap fun t => Node.bodyNodes t.body

theorem Node.paramsNodes_eq (params : List Param) :
    Node.paramsNodes params = params.flatMap fun q => q.value.nodes := by
  induction params with
  | nil => rfl
  | cons q rest ih =>
    obtain ⟨mark, name, value⟩ := q
    simp only [Node.paramsNodes, ih, List.flatMap_cons, Param.value]

namespace Grammar

open Rule Cursor Concrete

variable {α : Type} {s t u : Cursor} {home : List String} {item : Rule Node} {n : Node}

section Repetitions

/-- Each value of a repetition was read on the way. -/
theorem many_reads {p : Rule α} {vs : List α} {a : Bool} (hp : Leads a p)
    (h : (many p).Yields s vs t) : ∀ v ∈ vs, ∃ u w, s.Reaches u ∧ p.Yields u v w := by
  refine h.many_induction (P := fun s vs _ => ∀ v ∈ vs, ∃ u w, s.Reaches u ∧ p.Yields u v w)
    (by simp) ?_
  rintro s v u vs t hv ih w (_ | ⟨_, hw⟩)
  · exact ⟨s, u, .refl s, hv⟩
  · obtain ⟨u', w', hr, hy⟩ := ih w hw
    exact ⟨u', w', (hp _ _ _ hv).reaches.trans hr, hy⟩

theorem ReadsItem.forward (hi : ReadsItem home item) : Forward item := by
  intro s n t h
  obtain ⟨i, hr, -⟩ := hi s n t h
  exact hr.reaches

end Repetitions

section Parts

/-- The body was read between the tags of a command that allows no tags within it. -/
def ReadsBody (item : Rule Node) (s : Cursor) (body : List Node) : Prop :=
  ∃ u t word, s.Reaches u ∧ (bodyContent word [] item).Yields u body t

theorem bindingValue_body {word : String} {body : List Node}
    (h : (bindingValue word item).Yields s (.block body) t) : ReadsBody item s body := by
  cases bindingValue_reads h with
  | block attrs gap head content => exact ⟨_, t, word, head.reaches, content⟩

theorem param_parts {q : Param} (h : (param item).Yields s q t) :
    isWord q.name.toList = true ∧
      ∃ u u', s.Reaches u ∧ (bindingValue "param" item).Yields u q.value u' := by
  obtain ⟨gap, name, value, u, hhead, hvalue, rfl⟩ := param_reads h
  refine ⟨?_, u, t, hhead.reaches, hvalue⟩
  rw [Param.name, String.toList_ofList]
  exact name.isWord

theorem letBinding_parts (h : (letBinding item).Yields s n t) :
    ∃ mark name value, n = .binding mark name value ∧ isWord name.toList = true ∧
      ∃ u u', s.Reaches u ∧ (bindingValue "let" item).Yields u value u' := by
  obtain ⟨gap, name, value, u, hhead, hvalue, rfl⟩ := letBinding_reads h
  refine ⟨_, _, value, rfl, ?_, u, t, hhead.reaches, hvalue⟩
  rw [String.toList_ofList]
  exact name.isWord

theorem call_parts {delegate : Bool} (hi : ReadsItem home item)
    (h : (call home delegate item).Yields s n t) :
    ∃ mark target params, n = .call mark target delegate params ∧
      ∀ q ∈ params, ∃ u u', s.Reaches u ∧ (param item).Yields u q u' := by
  cases callTag_reads h with
  | closed head apart tag => exact ⟨_, _, [], rfl, by simp⟩
  | @block u v _ params head gap close apart open_ tag content last =>
    refine ⟨_, _, params, rfl, fun q hq => ?_⟩
    obtain ⟨w, w', hr, hy⟩ := many_reads (leads_spacedParam hi.forward) content q hq
    obtain ⟨_, w'', hblanks, hy⟩ := yields_bind.1 hy
    obtain ⟨lead, hl, -⟩ := yields_blanks.1 hblanks
    exact ⟨w'', w', tag.reaches.trans (hr.trans hl.reaches), hy⟩

theorem controlBlock_parts {block : Control} (h : (controlBlock block item).Yields s n t) :
    ∃ mark body, n = .control mark block body ∧
      ∃ u u', s.Reaches u ∧ (bodyContent block.word block.interior item).Yields u body u' := by
  obtain ⟨args, body, u, htag, hcontent, rfl⟩ := controlBlock_reads h
  exact ⟨_, body, rfl, u, t, htag.reaches, hcontent⟩

theorem ofList_ne_empty {cs : List Char} (h : cs ≠ []) : String.ofList cs ≠ "" := fun hempty => by
  have hlist := congrArg String.toList hempty
  rw [String.toList_ofList] at hlist
  exact h hlist

theorem literal_parts (h : literal.Yields s n t) :
    ∃ mark body, n = .control mark .literal body ∧
      (body = [] ∨ ∃ inner content, body = [.text inner content] ∧ content ≠ "") := by
  obtain ⟨gap, content, close, -, rfl⟩ := literal_reads [] h
  refine ⟨_, _, rfl, ?_⟩
  cases hchars : content.chars with
  | nil => exact Or.inl rfl
  | cons c chars => exact Or.inr ⟨_, _, rfl, ofList_ne_empty (List.cons_ne_nil c chars)⟩

theorem textRun_parts (h : textRun.Yields s n t) :
    ∃ mark content, n = .text mark content ∧ content ≠ "" := by
  obtain ⟨content, -, -, rfl⟩ := textRun_reads h
  exact ⟨_, _, rfl, ofList_ne_empty content.nonempty⟩

theorem interpolation_parts (h : interpolation.Yields s n t) :
    ∃ mark raw, n = .interpolation mark raw ∧ isCommand raw.toList = false := by
  obtain ⟨raw, -, rfl⟩ := interpolation_reads h
  refine ⟨_, _, rfl, ?_⟩
  rw [String.toList_ofList]
  exact raw.free

end Parts

section Bodies

/-- The rule reads only what the rule for body items reads. -/
def ReadsAsItem (home : List String) (item : Rule Node) : Prop :=
  item.Ensures fun s n t => (bodyItem home).Yields s n t

theorem ReadsAsItem.spelled (h : ReadsAsItem home item) : ReadsItem home item :=
  fun s n t hy => bodyItem_spelled home s n t (h s n t hy)

/-- The node was read as a body item at `s` or behind it, or is the text of a literal block. -/
def NodeRead (home : List String) (s : Cursor) (n : Node) : Prop :=
  (∃ u t, s.Reaches u ∧ (bodyItem home).Yields u n t) ∨
    ∃ mark content, n = .text mark content ∧ content ≠ ""

def HasNodes (home : List String) (s : Cursor) (ns : List Node) : Prop :=
  ∀ n ∈ ns, NodeRead home s n

namespace HasNodes

variable {ns ms : List Node}

theorem nil : HasNodes home s [] := by
  simp [HasNodes]

theorem later (hr : s.Reaches t) (h : HasNodes home t ns) : HasNodes home s ns := by
  intro n hn
  rcases h n hn with ⟨u, v, hu, hy⟩ | htext
  · exact Or.inl ⟨u, v, hr.trans hu, hy⟩
  · exact Or.inr htext

theorem append (h : HasNodes home s ns) (h' : HasNodes home s ms) : HasNodes home s (ns ++ ms) := by
  intro n hn
  rcases List.mem_append.1 hn with hn | hn
  · exact h n hn
  · exact h' n hn

theorem cons (hn : NodeRead home s n) (h : HasNodes home s ns) : HasNodes home s (n :: ns) := by
  rintro m (_ | ⟨_, hm⟩)
  · exact hn
  · exact h m hm

end HasNodes

/-- Whatever stands below a node that the rule reads was read as a body item. -/
def ReadsWithin (home : List String) (p : Rule Node) : Prop :=
  p.Ensures fun s n _ => HasNodes home s n.within

theorem bodyContent_nodes {name : String} {interior : List String} {nodes : List Node}
    (hi : ReadsAsItem home item) (hb : ReadsWithin home item)
    (h : (bodyContent name interior item).Yields s nodes t) :
    HasNodes home s (Node.bodyNodes nodes) := by
  obtain ⟨parts, u, hm, -, rfl⟩ := bodyContent_reads h
  refine hm.many_induction (P := fun s parts _ =>
    HasNodes home s (Node.bodyNodes (parts.filterMap id))) (fun s => HasNodes.nil) ?_
  intro s part u parts t hp ih
  rcases bodyPart_cases hp with ⟨rfl, htag⟩ | ⟨node, rfl, -, hn⟩
  · obtain ⟨w, -, -, args, hr⟩ := yields_openTag.1 htag
    exact ih.later hr.reaches
  · have hread := hi _ _ _ hn
    exact HasNodes.cons (Or.inl ⟨s, u, .refl s, hread⟩)
      ((hb _ _ _ hn).append (ih.later (hi.spelled.forward _ _ _ hn)))

theorem ReadsBody.nodes {body : List Node} (hi : ReadsAsItem home item) (hb : ReadsWithin home item)
    (h : ReadsBody item s body) : HasNodes home s (Node.bodyNodes body) := by
  obtain ⟨u, t, word, hr, hy⟩ := h
  exact (bodyContent_nodes hi hb hy).later hr

theorem bindingValue_nodes {word : String} {value : Value} (hi : ReadsAsItem home item)
    (hb : ReadsWithin home item) (h : (bindingValue word item).Yields s value t) :
    HasNodes home s value.nodes := by
  cases value with
  | inline e => exact HasNodes.nil
  | block body => exact (bindingValue_body h).nodes hi hb

theorem call_within {delegate : Bool} (hi : ReadsAsItem home item) (hb : ReadsWithin home item) :
    ReadsWithin home (call home delegate item) := by
  intro s n t h
  obtain ⟨mark, target, params, rfl, hparams⟩ := call_parts hi.spelled h
  rw [Node.within, Node.paramsNodes_eq]
  intro m hm
  obtain ⟨q, hq, hm⟩ := List.mem_flatMap.1 hm
  obtain ⟨u, u', hr, hy⟩ := hparams q hq
  obtain ⟨-, v, v', hr', hvalue⟩ := param_parts hy
  exact (bindingValue_nodes hi hb hvalue).later (hr.trans hr') m hm

theorem letBinding_within (hi : ReadsAsItem home item) (hb : ReadsWithin home item) :
    ReadsWithin home (letBinding item) := by
  intro s n t h
  obtain ⟨mark, name, value, rfl, -, u, u', hr, hvalue⟩ := letBinding_parts h
  exact (bindingValue_nodes hi hb hvalue).later hr

theorem controlBlock_within {block : Control} (hi : ReadsAsItem home item)
    (hb : ReadsWithin home item) : ReadsWithin home (controlBlock block item) := by
  intro s n t h
  obtain ⟨mark, body, rfl, u, u', hr, hcontent⟩ := controlBlock_parts h
  exact (bodyContent_nodes hi hb hcontent).later hr

theorem literal_within : ReadsWithin home literal := by
  intro s n t h
  obtain ⟨mark, body, rfl, rfl | ⟨inner, content, rfl, hne⟩⟩ := literal_parts h
  · exact HasNodes.nil
  · exact HasNodes.cons (Or.inr ⟨inner, content, rfl, hne⟩) .nil

/-- A body item is read by one of the rules, and so are the items within. -/
theorem bodyItem_byRule (h : (bodyItem home).Yields s n t) :
    ∃ item, ReadsAsItem home item ∧ ByRule home item s n t :=
  ⟨_, fun _ _ _ hy => (yields_beyond.1 hy).2, byRule_of_choice (yields_bodyItem.1 h)⟩

theorem bodyItem_within (home : List String) : ReadsWithin home (bodyItem home) := by
  refine Ensures.recursive_of (P := fun s n t => (bodyItem home).Yields s n t)
    (fun _ _ _ h => h) fun item hi hb s n t h => ?_
  have hrule : ByRule home item s n t := byRule_of_choice h
  cases hrule with
  | text h =>
    obtain ⟨mark, content, rfl, -⟩ := textRun_parts h
    exact HasNodes.nil
  | call delegate h => exact call_within hi hb s n t h
  | binding h => exact letBinding_within hi hb s n t h
  | control block parsed h => exact controlBlock_within hi hb s n t h
  | literal h => exact literal_within s n t h
  | interpolation h =>
    obtain ⟨mark, raw, rfl, -⟩ := interpolation_parts h
    exact HasNodes.nil

end Bodies

section Files

variable {T : Template} {x : Option Doc × Declaration} {word : String}

theorem headerParams_words (p : Position) (ds : List HeaderParam) :
    ∀ d ∈ headerParamsTree p ds, isWord d.name.toList = true := by
  induction ds generalizing p with
  | nil => simp [headerParamsTree]
  | cons d rest ih =>
    rintro e (_ | ⟨_, he⟩)
    · simp only [HeaderParam.tree, String.toList_ofList]
      exact d.name.isWord
    · exact ih _ e he

theorem documented_parts (h : (documented word item).Yields s x t) :
    ReadsBody item s x.2.body ∧ ∀ d ∈ x.2.params, isWord d.name.toList = true := by
  obtain ⟨text, u, v, ds, hu, hbody, p, hparams⟩ := documented_body h
  exact ⟨⟨u, v, word, hu.reaches, hbody⟩, hparams ▸ headerParams_words p ds⟩

theorem templateItem_body (h : (templateItem home item).Yields s T t) : ReadsBody item s T.body := by
  obtain ⟨delegate, x, hx, rfl⟩ := templateItem_parts h
  have hbody := (documented_parts hx).1
  cases delegate <;> exact hbody

theorem templateItem_nodes (h : (templateItem home (bodyItem home)).Yields s T t) :
    HasNodes home s (Node.bodyNodes T.body) :=
  (templateItem_body h).nodes (fun _ _ _ h => h) (bodyItem_within home)

theorem leads_entry : Leads true (trivia >>= fun _ => templateItem home (bodyItem home)) :=
  leads_trivia.bind fun _ => leads_templateItem (leads_bodyItem home)

theorem entry_template (h : (trivia >>= fun _ => templateItem home (bodyItem home)).Yields s T t) :
    ∃ u, s.Reaches u ∧ (templateItem home (bodyItem home)).Yields u T t := by
  obtain ⟨_, u, htrivia, hT⟩ := yields_bind.1 h
  exact ⟨u, leads_trivia _ _ _ htrivia, hT⟩

theorem parse_reads {source : String} {options : Options} {program : Program}
    (h : parseWith source options = .ok program) :
    ∃ s t, fileHeader.Yields (.ofChars source.toList) program.namespacePath s ∧
      (file program.namespacePath).Yields (.ofChars source.toList) program t := by
  obtain ⟨-, home, s, t, hhome, hfile⟩ := parseChars_ok_iff.1 h
  have hpath : home = program.namespacePath := by
    simp only [fileHeader, yields_bind] at hhome
    obtain ⟨_, u, htrivia, hname⟩ := hhome
    obtain ⟨path, T, Ts, u₁, u₂, u₃, u₄, htrivia', hname', -, -, -, -, rfl⟩ := file_sections hfile
    obtain ⟨-, rfl⟩ := htrivia.unique htrivia'
    exact (hname.unique hname').1
  subst hpath
  exact ⟨s, t, hhome, hfile⟩

theorem parse_templates {source : String} {options : Options} {program : Program}
    (h : parseWith source options = .ok program) :
    program.templates ≠ [] ∧ ∀ T ∈ program.templates, ∃ u t, (ofChars source.toList).Reaches u ∧
      (templateItem program.namespacePath (bodyItem program.namespacePath)).Yields u T t := by
  obtain ⟨-, t, -, hfile⟩ := parse_reads h
  generalize program.namespacePath = home at hfile ⊢
  obtain ⟨path, T, Ts, u₁, u₂, u₃, u₄, htrivia, htag, hT, hTs, -, -, rfl⟩ := file_sections hfile
  obtain ⟨lead, hlead, -⟩ := trivia_spelled (fun _ _ _ => anyBlockComment_spelled)
    (fun _ => ne_nil_of_anyComment) htrivia
  obtain ⟨tag, htag, -⟩ := namespaceTag_spelled htag
  have hstart := (hlead.trans htag).reaches
  refine ⟨List.cons_ne_nil T Ts, ?_⟩
  rintro T' (_ | ⟨_, hT'⟩)
  · obtain ⟨u, hu, hy⟩ := entry_template hT
    exact ⟨u, u₃, hstart.trans hu, hy⟩
  · obtain ⟨v, w, hv, hentry⟩ := many_reads leads_entry hTs T' hT'
    obtain ⟨u, hu, hy⟩ := entry_template hentry
    exact ⟨u, w, hstart.trans ((leads_entry _ _ _ hT).reaches.trans (hv.trans hu)), hy⟩

/-- Every node of a parsed source was read as a body item, or is the text of a literal block. -/
theorem parse_nodes {source : String} {options : Options} {program : Program}
    (h : parseWith source options = .ok program) :
    HasNodes program.namespacePath (.ofChars source.toList) program.nodes := by
  intro n hn
  obtain ⟨T, hT, hn⟩ := List.mem_flatMap.1 hn
  obtain ⟨u, t, hr, hy⟩ := (parse_templates h).2 T hT
  exact (templateItem_nodes hy).later hr n hn

end Files

end Grammar

end SoyTree
