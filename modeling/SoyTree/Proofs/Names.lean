import SoyTree.Proofs.Expression.RawText
import SoyTree.Proofs.Grammar.Nodes

/-! # Names of templates and calls

Names are taken from their tags. Those of plain templates and plain calls are put below the
namespace of the file where they are relative, those of delegates stay as they are written.
-/

namespace SoyTree

open Concrete

/-- A name as it stands in a tag: a dotted path, possibly with a dot in front. -/
structure WrittenName where
  relative : Bool
  path : String
  dotted : Path.isDotted path = true

namespace WrittenName

def text (n : WrittenName) : String :=
  if n.relative then "." ++ n.path else n.path

/-- What the name stands for in a file with the namespace `home`. -/
def target (n : WrittenName) (home : List String) : String :=
  if n.relative then Path.join home ++ n.text else n.text

end WrittenName

/-- A tag of the command `word` with the name behind it. -/
def NamedIn (word : String) (n : WrittenName) (tag : List Char) : Prop :=
  ∃ (gap : Gap) (rest : List Char), NameEnds rest ∧
    tag = '\x7b' :: (word.toList ++ (gap.chars ++ (n.text.toList ++ rest)))

/-- The target of a call is the name in its tag, resolved if the call is no delegate call. -/
def Node.Named (source : List Char) (home : List String) : Node → Prop
  | .call mark target delegate _ =>
    ∃ n : WrittenName, NamedIn (callWord delegate) n (mark.sliceChars source) ∧
      if delegate then target = n.text
      else target = n.target home ∧ Path.isDotted target = true
  | _ => True

/-- The name of a template is the name in its header tag, resolved if it is no delegate. -/
def Template.Named (source : List Char) (home : List String) (T : Template) : Prop :=
  ∃ (n : WrittenName) (doc tag : List Char), IsDoc source T.doc doc ∧
    T.mark.sliceChars source = doc ++ tag ∧ NamedIn T.kind.word n tag ∧
    match T.kind with
    | .plain => T.name = n.target home ∧ Path.isDotted T.name = true
    | .delegate _ => T.name = n.text

structure Program.Named (source : List Char) (program : Program) : Prop where
  nonempty : program.namespacePath ≠ []
  words : ∀ w ∈ program.namespacePath, isWord w.toList = true
  header : Grammar.fileHeader.parse source = .ok program.namespacePath
  templates : ∀ T ∈ program.templates, T.Named source program.namespacePath
  nodes : ∀ n ∈ program.nodes, n.Named source program.namespacePath

section Resolution

variable {home : List String}

def Concrete.Name.path (n : Name) : String :=
  Path.join (n.segments.map fun w : Word => String.ofList w.chars)

theorem Concrete.Name.isDotted_path (n : Name) : Path.isDotted n.path = true := by
  obtain ⟨relative, first, more⟩ := n
  rw [Name.path, Name.segments, List.map_cons]
  refine Path.isDotted_join _ _ fun v hv => ?_
  obtain ⟨w, rfl⟩ : ∃ w : Word, v = String.ofList w.chars := by
    rcases List.mem_cons.1 hv with rfl | hv
    · exact ⟨first, rfl⟩
    · obtain ⟨w, -, rfl⟩ := List.mem_map.1 hv
      exact ⟨w, rfl⟩
  rw [String.toList_ofList]
  exact w.isWord

def Concrete.Name.written (n : Name) : WrittenName :=
  ⟨n.relative, n.path, n.isDotted_path⟩

theorem Concrete.Name.text_written (n : Name) : n.written.text = n.value := by
  rw [← Grammar.name_value]
  unfold WrittenName.text Name.written Name.path
  cases n.relative <;> simp

theorem WrittenName.text_toList (n : Name) : n.written.text.toList = n.text := by
  rw [n.text_written, Name.value, String.toList_ofList]

theorem WrittenName.resolve_text (n : WrittenName) (hne : home ≠ []) :
    Path.resolve n.text home = n.target home := by
  obtain ⟨relative, path, dotted⟩ := n
  cases relative with
  | false => exact Path.resolve_dotted dotted home
  | true =>
    have hhome : home.isEmpty = false := by simpa using hne
    simp [WrittenName.text, WrittenName.target, Path.resolve, hhome, String.append_assoc]

theorem WrittenName.target_dotted (n : WrittenName) (hne : home ≠ [])
    (hwords : ∀ w ∈ home, isWord w.toList = true) : Path.isDotted (n.target home) = true := by
  obtain ⟨relative, path, dotted⟩ := n
  cases relative with
  | false => exact dotted
  | true =>
    obtain ⟨w, ws, rfl⟩ := List.exists_cons_of_ne_nil hne
    have hjoin := Path.isDotted_append (Path.isDotted_join w ws hwords) dotted
    simpa [WrittenName.target, WrittenName.text, String.append_assoc] using hjoin

end Resolution

namespace Grammar

open Rule Cursor

variable {s t u : Cursor} {home : List String} {item : Rule Node} {n : Node}

section Calls

variable {source : List Char}

theorem call_name {delegate : Bool} (hi : ReadsItem home item)
    (h : (call home delegate item).Yields s n t) :
    ∃ (gap : Gap) (name : Name) (params : List Param) (rest : List Char),
      n = .call ⟨s.position, t.position⟩
        (if delegate then name.value else Path.resolve name.value home) delegate params ∧
      NameEnds rest ∧ s.Reads ('\x7b' :: ((callWord delegate).toList ++ (gap.chars ++
        (name.text ++ rest)))) t := by
  obtain ⟨head, c, tail, params, rfl, rfl, apart, hc, hr⟩ : ∃ (head : CallHead) (c : Char)
      (tail : List Char) (params : List Param), delegate = head.delegate ∧
        n = .call ⟨s.position, t.position⟩ (head.target home) delegate params ∧
        NameEnds head.extra.chars ∧ endsName c ∧ s.Reads (head.text ++ c :: tail) t := by
    cases callTag_reads h with
    | closed head apart tag => exact ⟨head, _, _, _, rfl, rfl, apart, ⟨by decide, by decide⟩, tag⟩
    | block head gap close apart open_ tag content last =>
      obtain ⟨params, hps, -⟩ := params_spelled hi content
      have hr := tag.trans (hps.trans last)
      rw [List.append_assoc] at hr
      exact ⟨head, _, _, _, rfl, rfl, apart, ⟨by decide, by decide⟩, hr⟩
  refine ⟨head.gap, head.name, params, head.extra.chars ++ c :: tail, rfl, NameEnds.append apart ?_, ?_⟩
  · rintro d (_ | _)
    exact hc
  · simpa [CallHead.text] using hr

theorem call_named {delegate : Bool} (hne : home ≠ []) (hwords : ∀ w ∈ home, isWord w.toList = true)
    (hi : ReadsItem home item) (hs : (ofChars source).Reaches s)
    (h : (call home delegate item).Yields s n t) : n.Named source home := by
  obtain ⟨gap, name, params, rest, rfl, hends, hr⟩ := call_name hi h
  have hslice := (hr.stands hs).slice
  rw [markAt, ← hr.position] at hslice
  refine ⟨name.written, ⟨gap, rest, hends, ?_⟩, ?_⟩
  · rw [WrittenName.text_toList]
    exact hslice
  · rw [← name.text_written, WrittenName.resolve_text _ hne]
    cases delegate with
    | true => rfl
    | false => exact ⟨rfl, name.written.target_dotted hne hwords⟩

theorem bodyItem_named (hne : home ≠ []) (hwords : ∀ w ∈ home, isWord w.toList = true)
    (hs : (ofChars source).Reaches s) (h : (bodyItem home).Yields s n t) : n.Named source home := by
  obtain ⟨item, hi, hrule⟩ := bodyItem_byRule h
  cases hrule with
  | text h =>
    obtain ⟨mark, content, rfl, -⟩ := textRun_parts h
    trivial
  | call delegate h => exact call_named hne hwords hi.spelled hs h
  | binding h =>
    obtain ⟨mark, name, value, rfl, -⟩ := letBinding_parts h
    trivial
  | control block parsed h =>
    obtain ⟨mark, body, rfl, -⟩ := controlBlock_parts h
    trivial
  | literal h =>
    obtain ⟨mark, body, rfl, -⟩ := literal_parts h
    trivial
  | interpolation h =>
    obtain ⟨mark, raw, rfl, -⟩ := interpolation_parts h
    trivial

end Calls

section Templates

variable {source : List Char} {T : SoyTree.Template}

/-- Behind the name in a header tag there are blanks or the end of the tag. -/
theorem header_ends (attrs : List Attr) (gap : Blanks) (rest : List Char) :
    NameEnds (attrsText attrs ++ (gap.chars ++ '\x7d' :: rest)) := by
  refine nameEnds_of_endsName ?_
  cases attrs with
  | nil =>
    rw [attrsText, List.flatMap_nil, List.nil_append]
    refine forall_head?_append (fun c hc => ?_) ?_
    · exact endsName_of_blank (gap.blank c (List.mem_of_mem_head? hc))
    · rintro c (_ | _)
      exact ⟨by decide, by decide⟩
  | cons a attrs =>
    simp only [attrsText, List.flatMap_cons, Attr.text, List.append_assoc]
    exact a.gap.forall_head _ fun c => endsName_of_blank

theorem named_tree (hne : home ≠ []) (hwords : ∀ w ∈ home, isWord w.toList = true)
    (C : Concrete.Template) (p : Position) (h : Stands source p C.text) :
    (C.tree home p).Named source home := by
  refine ⟨C.name.written, C.docText, C.headText ++ (headerParamsText C.params ++ (C.body.text ++
    closeText (templateWord C.delegate) C.close)), C.isDoc home h.left, h.slice, ?_, ?_⟩
  · refine ⟨C.gap₁, _, header_ends C.attrs C.gap₂ (headerParamsText C.params ++ (C.body.text ++
      closeText (templateWord C.delegate) C.close)), ?_⟩
    rw [C.word_kind home, WrittenName.text_toList]
    simp only [Concrete.Template.headText, Concrete.Template.nameText, List.append_assoc,
      List.cons_append, List.nil_append]
  · simp only [Concrete.Template.tree, ← C.name.text_written, WrittenName.resolve_text _ hne]
    cases C.delegate with
    | true => rfl
    | false => exact ⟨rfl, C.name.written.target_dotted hne hwords⟩

theorem parse_namespace {source : String} {options : Options} {program : Program}
    (h : parseWith source options = .ok program) :
    program.namespacePath ≠ [] ∧ ∀ w ∈ program.namespacePath, isWord w.toList = true := by
  obtain ⟨s, t, hheader, -⟩ := parse_reads h
  obtain ⟨_, u, -, htag⟩ := Rule.yields_bind.1 hheader
  obtain ⟨tag, -, htag⟩ := namespaceTag_spelled htag
  rw [htag]
  exact Path.split_dotted tag.dotted

end Templates

end Grammar

/-- The namespace of a parsed source is the one that its header is read as, and a list of
identifiers. Names of plain templates and calls are dotted paths: the name as it is written, or the
namespace with the relative name behind it. Names of delegates are as written. -/
theorem parse_named {source : String} {options : Options} {program : Program}
    (h : parseWith source options = .ok program) : program.Named source.toList := by
  obtain ⟨s, t, hheader, -⟩ := Grammar.parse_reads h
  obtain ⟨hne, hwords⟩ := Grammar.parse_namespace h
  constructor
  · exact hne
  · exact hwords
  · obtain ⟨hint, hheader⟩ := hheader
    simp only [Rule.parse, hheader]
  · intro T hT
    obtain ⟨u, t, hu, hy⟩ := (Grammar.parse_templates h).2 T hT
    obtain ⟨C, hr, rfl⟩ := Grammar.templateItem_spelled (Grammar.bodyItem_spelled _) hy
    exact Grammar.named_tree hne hwords C u.position (hr.stands hu)
  · intro n hn
    rcases Grammar.parse_nodes h n hn with ⟨u, t, hu, hy⟩ | ⟨mark, content, rfl, -⟩
    · exact Grammar.bodyItem_named hne hwords hu hy
    · trivial

/-- Relative and dotted names, of plain templates and calls and of delegates. -/
def namedSample : String :=
  "// lead\n/** doc */\x7bnamespace a.b\x7d\x7btemplate .t\x7d\x7bcall .u. /\x7d\x7bcall c.d\x7d" ++
    "\x7bparam p\x7d\x7bdelcall .e /\x7d\x7b/param\x7d\x7b/call\x7d\x7b/template\x7d" ++
    "\x7bdeltemplate f.g\x7d\x7b/deltemplate\x7d\x7btemplate h\x7d\x7b/template\x7d"

theorem namedSample_named : ∃ program, parseWith namedSample {} = .ok program ∧
    program.Named namedSample.toList := by
  obtain ⟨program, h⟩ := Grammar.exists_program namedSample {} (by decide +kernel)
  exact ⟨program, h, parse_named h⟩

end SoyTree
