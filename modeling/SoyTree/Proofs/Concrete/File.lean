import Mathlib.Data.List.Chain
import SoyTree.Grammar.File
import SoyTree.Proofs.Concrete.Item
import SoyTree.Proofs.Path

/-! # Files as written

Doc blocks, templates and the comments between them, down to the last character of a file.
-/

namespace SoyTree.Concrete

/-- No star is followed by a slash, so that no comment ends within the text. -/
def Unended (text : List Char) : Prop :=
  text.IsChain fun a b => ¬ (a = '*' ∧ b = '/')

section Doc

/-- A line of a doc block: one that names a parameter, or text behind a margin. -/
inductive DocLine where
  | param (lead : List Char) (optional : Bool) (gap : List Char) (name : Word) (tail : List Char)
  | prose (margin content : List Char)

namespace DocLine

/-- The part of a line that names a parameter. -/
def mention (optional : Bool) (gap : List Char) (name : Word) : List Char :=
  "@param".toList ++ ((if optional then ['?'] else []) ++ (gap ++ name.chars))

theorem mention_eq (optional : Bool) (gap : List Char) (name : Word) : mention optional gap name =
    "@param".toList ++ ((if optional then ['?'] else []) ++ (gap ++ name.chars)) :=
  rfl

def text : DocLine → List Char
  | param lead optional gap name tail => lead ++ (mention optional gap name ++ tail)
  | prose margin content => margin ++ content

def tree (p : Position) : DocLine → Grammar.DocLine
  | param lead optional gap name _ =>
    .param ⟨markAt (p.after lead) (mention optional gap name), !optional,
      String.ofList name.chars, Grammar.docParamType⟩
  | prose _ content => .text (Text.trim content)

end DocLine

def moreLinesText : List DocLine → List Char
  | [] => []
  | line :: rest => '\n' :: (line.text ++ moreLinesText rest)

def moreLinesTree (p : Position) : List DocLine → List Grammar.DocLine
  | [] => []
  | line :: rest => line.tree (p.next '\n') :: moreLinesTree ((p.next '\n').after line.text) rest

def linesText : List DocLine → List Char
  | [] => []
  | line :: rest => line.text ++ moreLinesText rest

def linesTree (p : Position) : List DocLine → List Grammar.DocLine
  | [] => []
  | line :: rest => line.tree p :: moreLinesTree (p.after line.text) rest

structure DocBlock where
  lines : List DocLine
  unended : Unended (linesText lines ++ ['*'])

namespace DocBlock

def text (d : DocBlock) : List Char :=
  "/**".toList ++ (linesText d.lines ++ "*/".toList)

def tree (d : DocBlock) (p : Position) : Doc :=
  let lines := linesTree (p.after "/**".toList) d.lines
  ⟨markAt p d.text, Grammar.docText lines, lines.filterMap Grammar.DocLine.param?⟩

end DocBlock

end Doc

section Template

/-- A parameter declared in a template header, with the blanks in front of it. -/
structure HeaderParam where
  lead : Blanks
  optional : Bool
  gap₁ : Gap
  name : Word
  gap₂ : Blanks
  type : TagRest

namespace HeaderParam

def tag (d : HeaderParam) : List Char :=
  "\x7b@param".toList ++ ((if d.optional then ['?'] else []) ++ (d.gap₁.chars ++ (d.name.chars ++
    (d.gap₂.chars ++ (':' :: (d.type.chars ++ ['\x7d']))))))

def text (d : HeaderParam) : List Char :=
  d.lead.chars ++ d.tag

def tree (d : HeaderParam) (p : Position) : ParamDecl :=
  ⟨markAt (p.after d.lead.chars) d.tag, !d.optional, String.ofList d.name.chars,
    String.ofList (Text.trim d.type.chars)⟩

end HeaderParam

def headerParamsText : List HeaderParam → List Char
  | [] => []
  | d :: rest => d.text ++ headerParamsText rest

def headerParamsTree (p : Position) : List HeaderParam → List ParamDecl
  | [] => []
  | d :: rest => d.tree p :: headerParamsTree (p.after d.text) rest

def templateWord (delegate : Bool) : String :=
  if delegate then "deltemplate" else "template"

structure Template where
  doc : Option (DocBlock × Blanks)
  delegate : Bool
  gap₁ : Gap
  name : Name
  attrs : List Attr
  gap₂ : Blanks
  params : List HeaderParam
  body : Body []
  close : Blanks

namespace Template

def docText (t : Template) : List Char :=
  match t.doc with
  | none => []
  | some (doc, gap) => doc.text ++ gap.chars

def nameText (t : Template) : List Char :=
  '\x7b' :: ((templateWord t.delegate).toList ++ (t.gap₁.chars ++ t.name.text))

def headText (t : Template) : List Char :=
  t.nameText ++ (attrsText t.attrs ++ (t.gap₂.chars ++ ['\x7d']))

def text (t : Template) : List Char :=
  t.docText ++ (t.headText ++ (headerParamsText t.params ++
    (t.body.text ++ closeText (templateWord t.delegate) t.close)))

/-- The tree of a template that starts at `p`, in a file with the namespace `home`. -/
def tree (t : Template) (home : List String) (p : Position) : SoyTree.Template :=
  let q := p.after t.docText
  let attributes := attrsTree t.attrs (q.after t.nameText)
  { mark := markAt p t.text
    kind := if t.delegate then .delegate ((attributes.find? Grammar.isVariant).map (·.value))
      else .plain
    doc := t.doc.map fun d => d.1.tree p
    name := if t.delegate then t.name.value else Path.resolve t.name.value home
    attributes := if t.delegate then attributes.filter (!Grammar.isVariant ·) else attributes
    params := headerParamsTree (q.after t.headText) t.params
    body := t.body.trees home ((q.after t.headText).after (headerParamsText t.params)) }

end Template

end Template

section File

def AnyComment (text : List Char) : Prop :=
  ∃ body, Unended (body ++ ['*']) ∧ text = "/*".toList ++ (body ++ "*/".toList)

/-- A block comment that is no doc block. -/
def BlockComment (text : List Char) : Prop :=
  text = "/**/".toList ∨
    ∃ c body, c ≠ '*' ∧ Unended (body ++ ['*']) ∧ text = "/*".toList ++ (c :: body ++ "*/".toList)

/-- Blanks, line comments and comments of the kind `comment`. Only at the end of a file may a line
comment lack its line break. -/
inductive IsTrivia (comment : List Char → Prop) (final : Bool) : List Char → Prop where
  | nil : IsTrivia comment final []
  | blank {c : Char} {rest : List Char} (hc : Grammar.blank.accepts c = true)
      (h : IsTrivia comment final rest) : IsTrivia comment final (c :: rest)
  | line {body rest : List Char} (hb : '\n' ∉ body) (h : IsTrivia comment final ('\n' :: rest)) :
      IsTrivia comment final ("//".toList ++ (body ++ '\n' :: rest))
  | lastLine {body : List Char} (hf : final = true) (hb : '\n' ∉ body) :
      IsTrivia comment final ("//".toList ++ body)
  | block {text rest : List Char} (ht : comment text) (h : IsTrivia comment final rest) :
      IsTrivia comment final (text ++ rest)

structure Trivia (comment : List Char → Prop) (final : Bool) where
  chars : List Char
  isTrivia : IsTrivia comment final chars

structure NamespaceTag where
  gap : Gap
  path : List Char
  dotted : Path.isDotted (String.ofList path) = true
  extra : TagRest
  apart : ∀ c ∈ extra.chars.head?, Grammar.blank.accepts c = true

namespace NamespaceTag

def text (n : NamespaceTag) : List Char :=
  '\x7b' :: ("namespace".toList ++ (n.gap.chars ++ (n.path ++ (n.extra.chars ++ ['\x7d']))))

def segments (n : NamespaceTag) : List String :=
  Path.split (String.ofList n.path)

end NamespaceTag

namespace NamespaceTag

theorem path_chars (n : NamespaceTag) : ∀ c ∈ n.path, isWordPart c = true ∨ c = '.' := by
  simpa using Path.chars_of_dotted n.dotted

theorem path_ne_nil (n : NamespaceTag) : n.path ≠ [] := by
  intro hpath
  have h := n.dotted
  rw [hpath] at h
  exact absurd h (by decide)

end NamespaceTag

/-- A template and the trivia in front of it. -/
structure Entry where
  lead : Trivia BlockComment false
  template : Template

def entriesText : List Entry → List Char
  | [] => []
  | e :: rest => e.lead.chars ++ (e.template.text ++ entriesText rest)

def entriesTree (home : List String) (p : Position) : List Entry → List SoyTree.Template
  | [] => []
  | e :: rest =>
    e.template.tree home (p.after e.lead.chars) ::
      entriesTree home ((p.after e.lead.chars).after e.template.text) rest

structure File where
  lead : Trivia AnyComment false
  tag : NamespaceTag
  entries : List Entry
  nonempty : entries ≠ []
  final : Trivia BlockComment true

namespace File

def text (f : File) : List Char :=
  f.lead.chars ++ (f.tag.text ++ (entriesText f.entries ++ f.final.chars))

def program (f : File) : Program :=
  let p := Position.origin.after f.lead.chars
  { mark := markAt p (f.tag.text ++ entriesText f.entries)
    namespacePath := f.tag.segments
    templates := entriesTree f.tag.segments (p.after f.tag.text) f.entries }

end File

end File

end SoyTree.Concrete
