import Mathlib.Data.List.Forall2
import SoyTree.Proofs.Format.Markup

/-! # What the tag format shows

The elements that stand for the parts of a program, in tree order. Reading the tag format gives exactly
these elements, with the names and texts of the program.
-/

namespace SoyTree

/-- What stands in an element. -/
inductive Listed.Content where
  | nothing
  | text (content : String)
  /-- Other elements, behind an initial text. -/
  | nested (lead : String)
  deriving DecidableEq, Repr

/-- The element that stands for a part of a program, and how deep it is nested. -/
structure Listed where
  depth : Nat
  tag : String
  attributes : List (String × String)
  content : Listed.Content
  deriving DecidableEq, Repr

section Listing

/-- An inline value is shown by its source text. -/
def Expr.listing (depth : Nat) (tag name : String) (e : Expr) : List Listed :=
  [⟨depth, tag, [("name", name), ("expression", e.tagKind)], .text e.toSource⟩]

mutual

def Node.listing (depth : Nat) : Node → List Listed
  | .text _ content => [⟨depth, "text", [], .text content⟩]
  | .interpolation _ raw => [⟨depth, "interpolation", [], .text raw⟩]
  | .call _ target delegate [] =>
    [⟨depth, if delegate then "delcall" else "call", [("template", target)], .nothing⟩]
  | .call _ target delegate (param :: more) =>
    ⟨depth, if delegate then "delcall" else "call", [("template", target)], .nested ""⟩ ::
      Node.paramsListing (depth + 1) (param :: more)
  | .binding _ name value => value.listing depth "let" name
  | .control _ block [] => [⟨depth, block.word, [], .nothing⟩]
  | .control _ block (node :: more) =>
    ⟨depth, block.word, [], .nested ""⟩ :: Node.bodyListing (depth + 1) (node :: more)

def Node.bodyListing (depth : Nat) : List Node → List Listed
  | [] => []
  | n :: rest => n.listing depth ++ Node.bodyListing depth rest

def Node.paramsListing (depth : Nat) : List Param → List Listed
  | [] => []
  | .mk _ name value :: rest =>
    value.listing depth "with-param" name ++ Node.paramsListing depth rest

def Value.listing (depth : Nat) (tag name : String) : Value → List Listed
  | .inline expr => expr.listing depth tag name
  | .block body =>
    ⟨depth, tag, [("name", name)], .nested ""⟩ :: Node.bodyListing (depth + 1) body

end

def ParamDecl.listed (depth : Nat) (d : ParamDecl) : Listed :=
  ⟨depth, "param", [("name", d.name), ("required", toString d.required), ("type", d.type)], .nothing⟩

/-- The text of a doc block stands in front of its parameters. -/
def Doc.listing (depth : Nat) (d : Doc) : List Listed :=
  ⟨depth, "doc", [], if d.params = [] then .text d.text else .nested d.text⟩ ::
    d.params.map (ParamDecl.listed (depth + 1))

def Attribute.listed (depth : Nat) (a : Attribute) : Listed :=
  ⟨depth, "attribute", [("name", a.name)], .text a.value⟩

/-- The tag of a template, and its attributes. -/
def TemplateKind.listed (depth : Nat) (name : String) : TemplateKind → Listed
  | plain => ⟨depth, "template", [("name", name)], .nested ""⟩
  | delegate none => ⟨depth, "deltemplate", [("name", name)], .nested ""⟩
  | delegate (some variant) =>
    ⟨depth, "deltemplate", [("name", name), ("variant", variant)], .nested ""⟩

def Template.listing (depth : Nat) (t : Template) : List Listed :=
  t.kind.listed depth t.name ::
    (t.doc.toList.flatMap (Doc.listing (depth + 1)) ++
      t.attributes.map (Attribute.listed (depth + 1)) ++
      t.params.map (ParamDecl.listed (depth + 1)) ++ Node.bodyListing (depth + 1) t.body)

def Program.listing (p : Program) : List Listed :=
  ⟨0, "program", [("namespace", ".".intercalate p.namespacePath)], .nested ""⟩ ::
    p.templates.flatMap (Template.listing 1)

end Listing

namespace Markup

mutual

/-- The elements of a node, each in front of those within, with their depth. -/
def elements (depth : Nat) : Markup → List (Nat × Markup)
  | .text _ => []
  | .element tag attributes content =>
    (depth, .element tag attributes content) :: elementsIn (depth + 1) content

def elementsIn (depth : Nat) : List Markup → List (Nat × Markup)
  | [] => []
  | m :: rest => m.elements depth ++ elementsIn depth rest

end

end Markup

namespace Listed

open Markup

def IsLayout (text : String) : Prop :=
  ∀ c ∈ text.toList, c = ' ' ∨ c = '\n'

/-- The nodes read within an element are its content, up to layout between elements. -/
def Content.Shown : Content → List Markup → Prop
  | nothing, nodes => nodes = []
  | text content, nodes => nodes = if content = "" then [] else [.text content]
  | nested lead, nodes => ∃ layout rest, nodes = .text (lead ++ layout) :: rest ∧ IsLayout layout ∧
    ∀ run, .text run ∈ rest → IsLayout run

/-- An element that was read is the listed one. -/
def Shown (l : Listed) (m : Nat × Markup) : Prop :=
  m.1 = l.depth ∧ ∃ content, m.2 = .element l.tag l.attributes content ∧ l.content.Shown content

theorem elementsIn_append (depth : Nat) (a b : List Markup) :
    elementsIn depth (a ++ b) = elementsIn depth a ++ elementsIn depth b := by
  induction a with
  | nil => rfl
  | cons m a ih => simp [elementsIn, ih]

theorem elementsIn_runs (depth : Nat) (text : List Char) : elementsIn depth (runs text) = [] := by
  unfold runs
  split <;> rfl

theorem isLayout_run {run : List Char} (h : ∀ c ∈ run, c = ' ' ∨ c = '\n') (level : Nat) :
    IsLayout (String.ofList (run ++ (Element.pad level).toList)) := by
  intro c hc
  rw [String.toList_ofList, List.mem_append, Element.pad, String.toList_ofList] at hc
  rcases hc with hc | hc
  · exact h c hc
  · exact Or.inl (List.eq_of_mem_replicate hc)

theorem mem_runs {shown : String} {text : List Char} (h : Markup.text shown ∈ runs text) :
    shown = String.ofList text := by
  unfold runs at h
  split at h
  · cases h
  · simpa using h

/-- Behind an initial run of layout, all texts between the children of an element are layout. -/
theorem isLayout_ofElements {run : List Char} (h : ∀ c ∈ run, c = ' ' ∨ c = '\n') (level : Nat)
    (children : List Element) {shown : String}
    (hs : Markup.text shown ∈ ofElements level run children) : IsLayout shown := by
  induction children generalizing run with
  | nil => exact mem_runs hs ▸ isLayout_run h level
  | cons e rest ih =>
    rcases List.mem_append.1 hs with hs | hs
    · exact mem_runs hs ▸ isLayout_run h (level + 1)
    · rcases List.mem_cons.1 hs with hs | hs
      · cases e <;> cases hs
      · exact ih (by simp) hs

theorem nested_shown (level : Nat) (lead : String) (children : List Element) :
    (Content.nested lead).Shown (ofElements level (lead.toList ++ ['\n']) children) := by
  have hruns : ∀ n, runs (lead.toList ++ ['\n'] ++ (Element.pad n).toList) =
      [.text (lead ++ String.ofList (['\n'] ++ (Element.pad n).toList))] := by
    intro n
    simp [runs, String.ofList_append]
  have hlayout : ∀ n, IsLayout (String.ofList (['\n'] ++ (Element.pad n).toList)) :=
    isLayout_run (by simp)
  cases children with
  | nil =>
    rw [ofElements, hruns]
    exact ⟨_, _, rfl, hlayout level, by simp⟩
  | cons e rest =>
    rw [ofElements, hruns]
    refine ⟨_, _, rfl, hlayout (level + 1), fun run hrun => ?_⟩
    rcases List.mem_cons.1 hrun with hrun | hrun
    · cases e <;> cases hrun
    · exact isLayout_ofElements (by simp) level rest hrun

end Listed

section Elements

open Markup Listed

mutual

def Element.listing (depth : Nat) : Element → List Listed
  | .empty tag attributes => [⟨depth, tag, attributes, .nothing⟩]
  | .leaf tag attributes content => [⟨depth, tag, attributes, .text content⟩]
  | .block tag attributes lead children =>
    ⟨depth, tag, attributes, .nested lead⟩ :: Element.listingAll (depth + 1) children

def Element.listingAll (depth : Nat) : List Element → List Listed
  | [] => []
  | e :: rest => e.listing depth ++ Element.listingAll depth rest

end

mutual

theorem Element.shown (depth level : Nat) (e : Element) :
    List.Forall₂ Shown (e.listing depth) ((ofElement level e).elements depth) := by
  match e with
  | .empty tag attributes => exact .cons ⟨rfl, [], rfl, rfl⟩ .nil
  | .leaf tag attributes content =>
    refine .cons ⟨rfl, _, rfl, ?_⟩ ?_
    · by_cases h : content = "" <;> simp [Content.Shown, runs, h]
    · rw [elementsIn_runs]
      exact .nil
  | .block tag attributes lead children =>
    exact .cons ⟨rfl, _, rfl, nested_shown level lead children⟩
      (Element.shownAll (depth + 1) level _ children)

theorem Element.shownAll (depth level : Nat) (run : List Char) (children : List Element) :
    List.Forall₂ Shown (Element.listingAll depth children)
      (elementsIn depth (ofElements level run children)) := by
  match children with
  | [] =>
    rw [ofElements, elementsIn_runs]
    exact .nil
  | e :: rest =>
    rw [ofElements, elementsIn_append, elementsIn_runs]
    exact List.rel_append (Element.shown depth (level + 1) e) (Element.shownAll depth level _ rest)

end

theorem Element.listingAll_append (depth : Nat) (a b : List Element) :
    Element.listingAll depth (a ++ b) = Element.listingAll depth a ++ Element.listingAll depth b := by
  induction a with
  | nil => rfl
  | cons e a ih => simp [Element.listingAll, ih]

theorem Element.listingAll_map {α : Type} (depth : Nat) (f : α → Element) (l : List α) :
    Element.listingAll depth (l.map f) = l.flatMap fun x => (f x).listing depth := by
  induction l with
  | nil => rfl
  | cons x l ih => simp [Element.listingAll, ih]

theorem Element.listingAll_single {α : Type} {depth : Nat} {f : α → Element} {g : α → Listed}
    (h : ∀ x, (f x).listing depth = [g x]) (l : List α) :
    Element.listingAll depth (l.map f) = l.map g := by
  rw [Element.listingAll_map, List.map_eq_flatMap]
  simp only [h]

end Elements

section Programs

mutual

theorem Node.element_listing (depth : Nat) (n : Node) :
    n.element.listing depth = n.listing depth := by
  match n with
  | .text _ _ => rfl
  | .interpolation _ _ => rfl
  | .call _ _ _ [] => rfl
  | .call _ _ _ (param :: more) =>
    exact congrArg _ (Node.paramElements_listing (depth + 1) (param :: more))
  | .binding _ name value => exact Node.valueElement_listing depth "let" name value
  | .control _ _ [] => rfl
  | .control _ _ (node :: more) => exact congrArg _ (Node.elements_listing (depth + 1) (node :: more))

theorem Node.elements_listing (depth : Nat) (body : List Node) :
    Element.listingAll depth (Node.elements body) = Node.bodyListing depth body := by
  match body with
  | [] => rfl
  | n :: rest =>
    rw [Node.elements, Element.listingAll, n.element_listing depth, Node.elements_listing depth rest]
    rfl

theorem Node.paramElements_listing (depth : Nat) (params : List Param) :
    Element.listingAll depth (Node.paramElements params) = Node.paramsListing depth params := by
  match params with
  | [] => rfl
  | .mk _ name value :: rest =>
    rw [Node.paramElements, Element.listingAll, Node.valueElement_listing depth "with-param" name value,
      Node.paramElements_listing depth rest]
    rfl

theorem Node.valueElement_listing (depth : Nat) (tag name : String) (value : Value) :
    (Node.valueElement tag name value).listing depth = value.listing depth tag name := by
  match value with
  | .inline _ => rfl
  | .block body => exact congrArg _ (Node.elements_listing (depth + 1) body)

end

theorem ParamDecl.element_listing (depth : Nat) (d : ParamDecl) :
    d.element.listing depth = [d.listed depth] := by
  unfold ParamDecl.element ParamDecl.listed
  cases d.required <;> rfl

theorem Doc.element_listing (depth : Nat) (d : Doc) : d.element.listing depth = d.listing depth := by
  unfold Doc.element Doc.listing
  cases d.params with
  | nil => rfl
  | cons param more =>
    exact congrArg _ (Element.listingAll_single (ParamDecl.element_listing (depth + 1)) (param :: more))

theorem TemplateKind.listed_eq (depth : Nat) (name : String) (kind : TemplateKind) :
    (⟨depth, kind.tag, ("name", name) :: kind.tagAttributes, .nested ""⟩ : Listed) =
      kind.listed depth name := by
  match kind with
  | .plain => rfl
  | .delegate none => rfl
  | .delegate (some _) => rfl

theorem Template.element_listing (depth : Nat) (t : Template) :
    t.element.listing depth = t.listing depth := by
  have hattributes : ∀ a : Attribute, a.element.listing (depth + 1) = [a.listed (depth + 1)] :=
    fun _ => rfl
  unfold Template.element Template.listing
  rw [Element.listing, TemplateKind.listed_eq]
  simp only [Element.listingAll_append, Element.listingAll_single hattributes,
    Element.listingAll_single (ParamDecl.element_listing (depth + 1)), Node.elements_listing]
  simp only [Element.listingAll_map, Doc.element_listing]

theorem Program.element_listing (p : Program) : p.element.listing 0 = p.listing := by
  unfold Program.element Program.listing
  simp only [Element.listing, Element.listingAll_map, Template.element_listing]

end Programs

section Names

open Markup

theorem allNamed_append {a b : List Element} (ha : AllNamed a) (hb : AllNamed b) :
    AllNamed (a ++ b) := by
  induction a with
  | nil => exact hb
  | cons e a ih => exact ⟨ha.1, ih ha.2⟩

theorem allNamed_map {α : Type} {f : α → Element} (h : ∀ x, Named (f x)) (l : List α) :
    AllNamed (l.map f) := by
  induction l with
  | nil => trivial
  | cons x l ih => exact ⟨h x, ih⟩

/-- Names are told without the values of the attributes. -/
theorem heads_of_keys {tag : String} {attributes : List (String × String)} (keys : List String)
    (hk : attributes.map Prod.fst = keys) (h : ∀ key ∈ tag :: keys, isName key.toList = true) :
    Heads tag attributes where
  tag := h tag (by simp)
  attributes a ha := h a.1 (List.mem_cons_of_mem _ (hk ▸ List.mem_map_of_mem ha))

theorem heads_call (target : String) (delegate : Bool) :
    Heads (if delegate then "delcall" else "call") [("template", target)] := by
  cases delegate <;> exact heads_of_keys ["template"] rfl (by decide)

theorem heads_name {tag : String} (ht : isName tag.toList = true) (name : String) :
    Heads tag [("name", name)] := by
  apply heads_of_keys ["name"] rfl
  rw [List.forall_mem_cons]
  exact ⟨ht, by decide⟩

theorem heads_word (block : Control) : Heads block.word [] := by
  cases block <;> exact heads_of_keys [] rfl (by decide)

mutual

theorem Node.element_named (n : Node) : Named n.element := by
  match n with
  | .text _ _ => exact heads_of_keys [] rfl (by decide)
  | .interpolation _ _ => exact heads_of_keys [] rfl (by decide)
  | .call _ target delegate [] => exact heads_call target delegate
  | .call _ target delegate (param :: more) =>
    exact ⟨heads_call target delegate, Node.paramElements_named (param :: more)⟩
  | .binding _ name value => exact Node.valueElement_named (by decide) name value
  | .control _ block [] => exact heads_word block
  | .control _ block (node :: more) => exact ⟨heads_word block, Node.elements_named (node :: more)⟩

theorem Node.elements_named (body : List Node) : AllNamed (Node.elements body) := by
  match body with
  | [] => trivial
  | n :: rest => exact ⟨n.element_named, Node.elements_named rest⟩

theorem Node.paramElements_named (params : List Param) : AllNamed (Node.paramElements params) := by
  match params with
  | [] => trivial
  | .mk _ name value :: rest =>
    exact ⟨Node.valueElement_named (by decide) name value, Node.paramElements_named rest⟩

theorem Node.valueElement_named {tag : String} (ht : isName tag.toList = true) (name : String)
    (value : Value) : Named (Node.valueElement tag name value) := by
  match value with
  | .inline expr =>
    apply heads_of_keys ["name", "expression"] rfl
    rw [List.forall_mem_cons]
    exact ⟨ht, by decide⟩
  | .block body => exact ⟨heads_name ht name, Node.elements_named body⟩

end

theorem ParamDecl.element_named (d : ParamDecl) : Named d.element :=
  heads_of_keys ["name", "required", "type"] rfl (by decide)

theorem Doc.element_named (d : Doc) : Named d.element := by
  unfold Doc.element
  split
  · exact heads_of_keys [] rfl (by decide)
  · exact ⟨heads_of_keys [] rfl (by decide), allNamed_map ParamDecl.element_named d.params⟩

theorem Template.element_named (t : Template) : Named t.element := by
  have hattributes : ∀ a : Attribute, Named a.element := fun a => heads_name (by decide) a.name
  constructor
  · match t.kind with
    | .plain => exact heads_name (by decide) t.name
    | .delegate none => exact heads_name (by decide) t.name
    | .delegate (some variant) =>
      have hvariant : Heads "deltemplate" [("name", t.name), ("variant", variant)] :=
        heads_of_keys ["name", "variant"] rfl (by decide)
      exact hvariant
  · exact allNamed_append (allNamed_append (allNamed_append (allNamed_map Doc.element_named _)
      (allNamed_map hattributes _)) (allNamed_map ParamDecl.element_named _)) (Node.elements_named _)

theorem Program.element_named (p : Program) : Named p.element :=
  ⟨heads_of_keys ["namespace"] rfl (by decide), allNamed_map Template.element_named p.templates⟩

end Names

/-- The tag format of a program is one element that is read back: its elements, in order and with their
depth, are those of the program, and hold its names and texts. Texts and values are escaped character by
character, which leaves no brackets or double quotes in them, and decoding undoes it. -/
theorem renderTag_reads (p : Program) :
    (∃ root, Markup.read? p.renderTag = some root ∧
      List.Forall₂ Listed.Shown p.listing (root.elements 0)) ∧
    ∀ text : String, (Element.escape text).toList = Markup.entities text.toList ∧
      Markup.decode? (Element.escape text).toList = some text.toList ∧
      ∀ c, c = '<' ∨ c = '>' ∨ c = '"' → c ∉ (Element.escape text).toList := by
  constructor
  · refine ⟨Markup.ofElement 0 p.element, Markup.read?_render p.element_named, ?_⟩
    rw [← p.element_listing]
    exact p.element.shown 0 0
  · intro text
    rw [Markup.toList_escape]
    exact ⟨rfl, Markup.decode?_entities text.toList, fun c hc => Markup.not_mem_entities hc text.toList⟩

end SoyTree
