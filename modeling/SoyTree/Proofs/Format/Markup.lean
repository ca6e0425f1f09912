import Mathlib.Tactic.Tauto
import SoyTree.Format.Tag
import SoyTree.Proofs.Rule.Reading

/-! # Reading tags

A plain reader of marked-up text: tags stand between brackets, elements are closed by the tag of their
name, and values and texts have their entities decoded. Brackets and double quotes may stand nowhere
else. Rendered elements are read back, with their layout as text.
-/

namespace SoyTree

/-- A node of a marked-up text: an element with what stands in it, or a run of text. -/
inductive Markup where
  | element (tag : String) (attributes : List (String × String)) (content : List Markup)
  | text (content : String)
  deriving Repr

namespace Markup

section Reader

/-- A text with its entities decoded. Brackets and double quotes are none of it, nor are ampersands
that start no entity. -/
def decode? : List Char → Option (List Char)
  | [] => some []
  | '&' :: 'a' :: 'm' :: 'p' :: ';' :: rest => (decode? rest).map ('&' :: ·)
  | '&' :: 'l' :: 't' :: ';' :: rest => (decode? rest).map ('<' :: ·)
  | '&' :: 'g' :: 't' :: ';' :: rest => (decode? rest).map ('>' :: ·)
  | '&' :: 'q' :: 'u' :: 'o' :: 't' :: ';' :: rest => (decode? rest).map ('"' :: ·)
  | '&' :: 'a' :: 'p' :: 'o' :: 's' :: ';' :: rest => (decode? rest).map ('\'' :: ·)
  | c :: rest =>
    if c = '&' ∨ c = '<' ∨ c = '>' ∨ c = '"' then none else (decode? rest).map (c :: ·)

def isNameChar (c : Char) : Bool :=
  c.isAlphanum || c == '-'

def isName (text : List Char) : Bool :=
  !text.isEmpty && text.all isNameChar

/-- The attributes of a tag that was cut at its double quotes: behind a blank and in front of an equals
sign stands a name, between quotes its value. -/
def attributes? : List (List Char) → Option (List (String × String))
  | [[]] => some []
  | (' ' :: key) :: value :: rest =>
    if key.getLast? = some '=' ∧ isName key.dropLast then do
      let value ← decode? value
      let more ← attributes? rest
      some ((String.ofList key.dropLast, String.ofList value) :: more)
    else none
  | _ => none

def head? (inside : List Char) : Option (String × List (String × String)) :=
  let tag := inside.takeWhile isNameChar
  if tag.isEmpty then none
  else
    (attributes? ((inside.dropWhile isNameChar).splitOn '"')).map fun attributes =>
      (String.ofList tag, attributes)

/-- An element that has been opened, with the nodes in front of it, the last of them first. -/
structure Frame where
  tag : String
  attributes : List (String × String)
  before : List Markup

/-- What a tag does to the open elements, the innermost first, and to the nodes that have been read of
the innermost one, the last of them first. -/
def tag? (opened : List Frame) (content : List Markup) (inside : List Char) :
    Option (List Frame × List Markup) :=
  match inside with
  | '/' :: name =>
    match opened with
    | [] => none
    | frame :: around =>
      if frame.tag.toList = name then
        some (around, .element frame.tag frame.attributes content.reverse :: frame.before)
      else none
  | _ =>
    if inside.getLast? = some '/' then
      (head? inside.dropLast).map fun (tag, attributes) =>
        (opened, .element tag attributes [] :: content)
    else
      (head? inside).map fun (tag, attributes) => (⟨tag, attributes, content⟩ :: opened, [])

/-- Where a reader is: in a run of text, or between the brackets of a tag. -/
inductive Place where
  | text (run : List Char)
  | tag (inside : List Char)

structure Reader where
  opened : List Frame
  content : List Markup
  place : Place

/-- A run of text as a node, unless it is empty. -/
def runs (text : List Char) : List Markup :=
  if text.isEmpty then [] else [.text (String.ofList text)]

def Reader.next? (r : Reader) (c : Char) : Option Reader :=
  match r.place with
  | .text run =>
    if c = '<' then
      (decode? run).map fun text => ⟨r.opened, runs text ++ r.content, .tag []⟩
    else some { r with place := .text (run ++ [c]) }
  | .tag inside =>
    if c = '>' then
      (tag? r.opened r.content inside).map fun (opened, content) => ⟨opened, content, .text []⟩
    else some { r with place := .tag (inside ++ [c]) }

/-- A text that is one element, with nothing in front of it or behind it. -/
def read? (text : String) : Option Markup := do
  match ← text.toList.foldlM Reader.next? ⟨[], [], .text []⟩ with
  | ⟨[], [root@(.element _ _ _)], .text []⟩ => some root
  | _ => none

end Reader

section Entities

/-- How a character is written in texts and values. -/
def entity (c : Char) : List Char :=
  if c = '&' then "&amp;".toList
  else if c = '<' then "&lt;".toList
  else if c = '>' then "&gt;".toList
  else if c = '"' then "&quot;".toList
  else if c = '\'' then "&apos;".toList
  else [c]

def entities (text : List Char) : List Char :=
  text.flatMap entity

theorem entity_cases (c : Char) :
    c = '&' ∨ c = '<' ∨ c = '>' ∨ c = '"' ∨ c = '\'' ∨
      (c ≠ '&' ∧ c ≠ '<' ∧ c ≠ '>' ∧ c ≠ '"' ∧ c ≠ '\'') := by
  tauto

theorem entity_plain {c : Char} (h₁ : c ≠ '&') (h₂ : c ≠ '<') (h₃ : c ≠ '>') (h₄ : c ≠ '"')
    (h₅ : c ≠ '\'') : entity c = [c] := by
  delta entity
  rw [if_neg h₁, if_neg h₂, if_neg h₃, if_neg h₄, if_neg h₅]

/-- Replacing one character after the other, the ampersand first, comes to the same. -/
theorem toList_escape (text : String) : (Element.escape text).toList = entities text.toList := by
  simp only [Element.escape, Element.replaceChar, String.toList_ofList, List.flatMap_assoc, entities]
  congr 1
  funext c
  rcases entity_cases c with rfl | rfl | rfl | rfl | rfl | ⟨h₁, h₂, h₃, h₄, h₅⟩
  iterate 5 decide
  simp only [entity_plain h₁ h₂ h₃ h₄ h₅, if_neg h₁, if_neg h₂, if_neg h₃, if_neg h₄, if_neg h₅,
    List.flatMap_cons, List.flatMap_nil, List.append_nil]

theorem decode?_entity (c : Char) (rest : List Char) :
    decode? (entity c ++ rest) = (decode? rest).map (c :: ·) := by
  rcases entity_cases c with rfl | rfl | rfl | rfl | rfl | ⟨h₁, h₂, h₃, h₄, h₅⟩
  iterate 5 rfl
  simp [entity_plain h₁ h₂ h₃ h₄ h₅, decode?, h₁, h₂, h₃, h₄]

@[simp] theorem decode?_entities (text : List Char) : decode? (entities text) = some text := by
  induction text with
  | nil => rfl
  | cons c text ih =>
    change decode? (entity c ++ entities text) = _
    rw [decode?_entity, ih]
    rfl

@[simp] theorem entities_append (a b : List Char) : entities (a ++ b) = entities a ++ entities b :=
  List.flatMap_append

theorem not_mem_entities {c : Char} (hc : c = '<' ∨ c = '>' ∨ c = '"') (text : List Char) :
    c ∉ entities text := by
  intro hmem
  obtain ⟨x, -, hx⟩ := List.mem_flatMap.1 hmem
  rcases entity_cases x with rfl | rfl | rfl | rfl | rfl | ⟨h₁, h₂, h₃, h₄, h₅⟩
  iterate 5 rcases hc with rfl | rfl | rfl <;> exact absurd hx (by decide)
  obtain rfl : c = x := by simpa [entity_plain h₁ h₂ h₃ h₄ h₅] using hx
  tauto

theorem entities_layout {text : List Char} (h : ∀ c ∈ text, c = ' ' ∨ c = '\n') :
    entities text = text := by
  induction text with
  | nil => rfl
  | cons c text ih =>
    have hc : entity c = [c] := by rcases h c (by simp) with rfl | rfl <;> rfl
    change entity c ++ entities text = _
    rw [hc, ih fun d hd => h d (by simp [hd])]
    rfl

end Entities

section Tags

variable {attributes : List (String × String)}

def attributeText (attributes : List (String × String)) : List Char :=
  attributes.flatMap fun (name, value) =>
    ' ' :: (name.toList ++ '=' :: '"' :: (entities value.toList ++ ['"']))

theorem toList_head (tag : String) (attributes : List (String × String)) :
    (Element.head tag attributes).toList = tag.toList ++ attributeText attributes := by
  simp only [Element.head, String.toList_append, String.toList_join, List.flatMap_map, attributeText,
    toList_escape]
  simp

theorem isName_not_mem {name : List Char} (h : isName name = true) {c : Char}
    (hc : isNameChar c = false) : c ∉ name := by
  intro hmem
  have hall := (Bool.and_eq_true_iff.1 h).2
  rw [List.all_eq_true.1 hall c hmem] at hc
  cases hc

theorem attributes?_text (h : ∀ a ∈ attributes, isName a.1.toList = true) :
    attributes? ((attributeText attributes).splitOn '"') = some attributes := by
  induction attributes with
  | nil => rfl
  | cons a attributes ih =>
    obtain ⟨name, value⟩ := a
    have hname : isName name.toList = true := h (name, value) (by simp)
    have hkey : '"' ∉ ' ' :: (name.toList ++ ['=']) := by
      simp [isName_not_mem hname (by decide : isNameChar '"' = false)]
    have htext : attributeText ((name, value) :: attributes) =
        ' ' :: (name.toList ++ ['=']) ++ '"' :: (entities value.toList ++ '"' :: attributeText attributes) := by
      simp [attributeText]
    rw [htext, List.splitOn_append_cons_self_of_not_mem hkey,
      List.splitOn_append_cons_self_of_not_mem (not_mem_entities (by simp) _)]
    simp [attributes?, hname, ih fun b hb => h b (by simp [hb])]

/-- The tag and the attributes of an element have names. -/
structure Heads (tag : String) (attributes : List (String × String)) : Prop where
  tag : isName tag.toList = true
  attributes : ∀ a ∈ attributes, isName a.1.toList = true

variable {tag : String} {opened : List Frame} {content before : List Markup}

theorem Heads.ne_nil (h : Heads tag attributes) : tag.toList ≠ [] := by
  intro hnil
  have hname := h.tag
  rw [hnil] at hname
  cases hname

theorem Heads.first (h : Heads tag attributes) (rest : List Char) :
    (tag.toList ++ rest).head? ≠ some '/' := by
  obtain ⟨c, more, htag⟩ := List.exists_cons_of_ne_nil h.ne_nil
  have hname := isName_not_mem h.tag (by decide : isNameChar '/' = false)
  rw [htag] at hname ⊢
  intro hhead
  exact hname (by simpa using Or.inl hhead.symm)

/-- The name of a tag ends where its attributes start. -/
theorem Heads.read (h : Heads tag attributes) :
    head? (tag.toList ++ attributeText attributes) = some (tag, attributes) := by
  have hall : ∀ c ∈ tag.toList, isNameChar c = true :=
    List.all_eq_true.1 (Bool.and_eq_true_iff.1 h.tag).2
  have hstop : ∀ c ∈ (attributeText attributes).head?, isNameChar c = false := by
    cases attributes with
    | nil => simp [attributeText]
    | cons a attributes =>
      rintro c (_ | _)
      decide
  simp only [head?, takeWhile_of_stop hall hstop, dropWhile_of_stop hall hstop,
    attributes?_text h.attributes, Option.map_some, String.ofList_toList]
  simp [h.ne_nil]

theorem attributeText_last : ∀ c ∈ (attributeText attributes).getLast?, c = '"' := by
  induction attributes with
  | nil => simp [attributeText]
  | cons a attributes ih =>
    have htext : attributeText (a :: attributes) =
        ' ' :: (a.1.toList ++ '=' :: '"' :: entities a.2.toList) ++ '"' :: attributeText attributes := by
      simp [attributeText]
    rw [htext, List.getLast?_append, List.getLast?_cons]
    cases hlast : (attributeText attributes).getLast? with
    | none => simp
    | some c => simpa using ih c hlast

theorem Heads.last (h : Heads tag attributes) :
    (tag.toList ++ attributeText attributes).getLast? ≠ some '/' := by
  intro hlast
  rw [List.getLast?_append] at hlast
  cases hattributes : (attributeText attributes).getLast? with
  | some c =>
    obtain rfl := attributeText_last c hattributes
    simp [hattributes] at hlast
  | none =>
    have htag : tag.toList.getLast? = some '/' := by simpa [hattributes] using hlast
    exact isName_not_mem h.tag (by decide) (List.mem_of_getLast? htag)

/-- A tag without a slash in front opens an element, or is one if a slash stands at its end. -/
theorem tag?_of_head {inside : List Char} (h : inside.head? ≠ some '/') :
    tag? opened content inside =
      if inside.getLast? = some '/' then
        (head? inside.dropLast).map fun (tag, attributes) =>
          (opened, .element tag attributes [] :: content)
      else
        (head? inside).map fun (tag, attributes) => (⟨tag, attributes, content⟩ :: opened, []) := by
  unfold tag?
  split
  · exact absurd rfl h
  · rfl

theorem Heads.opens (h : Heads tag attributes) :
    tag? opened content (tag.toList ++ attributeText attributes) =
      some (⟨tag, attributes, content⟩ :: opened, []) := by
  rw [tag?_of_head (h.first _), if_neg h.last, h.read]
  rfl

theorem Heads.single (h : Heads tag attributes) :
    tag? opened content (tag.toList ++ attributeText attributes ++ ['/']) =
      some (opened, .element tag attributes [] :: content) := by
  have hfirst := h.first (attributeText attributes ++ ['/'])
  rw [← List.append_assoc] at hfirst
  rw [tag?_of_head hfirst, List.getLast?_concat, if_pos rfl, List.dropLast_concat, h.read]
  rfl

theorem closes : tag? (⟨tag, attributes, before⟩ :: opened) content ('/' :: tag.toList) =
    some (opened, .element tag attributes content.reverse :: before) := by
  simp [tag?]

theorem Heads.not_mem (h : Heads tag attributes) {c : Char} (hc : c = '<' ∨ c = '>') :
    c ∉ tag.toList ++ attributeText attributes := by
  have hname : isNameChar c = false := by rcases hc with rfl | rfl <;> decide
  have hplain : c ≠ ' ' ∧ c ≠ '=' ∧ c ≠ '"' := by rcases hc with rfl | rfl <;> decide
  rw [List.mem_append, not_or]
  constructor
  · exact isName_not_mem h.tag hname
  · intro hmem
    obtain ⟨a, ha, hmem⟩ := List.mem_flatMap.1 hmem
    have hkey := isName_not_mem (h.attributes a ha) hname
    have hvalue := not_mem_entities (by tauto) a.2.toList (c := c)
    simp [hplain, hkey, hvalue] at hmem

end Tags

section Rendering

open Reader

variable {opened : List Frame} {content : List Markup}

/-- The reader goes from `r` over a text to `r'`. -/
def Reader.Reads (r : Reader) (text : List Char) (r' : Reader) : Prop :=
  text.foldlM next? r = some r'

theorem Reader.Reads.trans {r s t : Reader} {a b : List Char} (h : r.Reads a s) (h' : s.Reads b t) :
    r.Reads (a ++ b) t := by
  unfold Reads at *
  rw [List.foldlM_append, h]
  exact h'

theorem reads_text {text : List Char} (h : '<' ∉ text) (run : List Char) :
    Reads ⟨opened, content, .text run⟩ text ⟨opened, content, .text (run ++ text)⟩ := by
  unfold Reads
  induction text generalizing run with
  | nil => simp
  | cons c text ih =>
    simp only [List.mem_cons, not_or] at h
    rw [List.foldlM_cons]
    simp [next?, Ne.symm h.1, ih h.2]

theorem reads_inside {inside : List Char} (h : '>' ∉ inside) (read : List Char) :
    Reads ⟨opened, content, .tag read⟩ inside ⟨opened, content, .tag (read ++ inside)⟩ := by
  unfold Reads
  induction inside generalizing read with
  | nil => simp
  | cons c inside ih =>
    simp only [List.mem_cons, not_or] at h
    rw [List.foldlM_cons]
    simp [next?, Ne.symm h.1, ih h.2]

theorem reads_tag {inside run : List Char} {opened' : List Frame} {content' : List Markup}
    (h : '>' ∉ inside) (htag : tag? opened (runs run ++ content) inside = some (opened', content')) :
    Reads ⟨opened, content, .text (entities run)⟩ ('<' :: (inside ++ ['>']))
      ⟨opened', content', .text []⟩ := by
  have hopen : Reads ⟨opened, content, .text (entities run)⟩ ['<']
      ⟨opened, runs run ++ content, .tag []⟩ := by
    simp [Reads, next?]
  have hclose : Reads ⟨opened, runs run ++ content, .tag inside⟩ ['>'] ⟨opened', content', .text []⟩ := by
    simp [Reads, next?, htag]
  exact hopen.trans ((reads_inside h []).trans hclose)

theorem reads_entities (text run : List Char) :
    Reads ⟨opened, content, .text (entities run)⟩ (entities text)
      ⟨opened, content, .text (entities (run ++ text))⟩ := by
  rw [entities_append]
  exact reads_text (not_mem_entities (by simp) text) _

theorem reads_pad (level : Nat) (run : List Char) :
    Reads ⟨opened, content, .text (entities run)⟩ (Element.pad level).toList
      ⟨opened, content, .text (entities (run ++ (Element.pad level).toList))⟩ := by
  have hlayout : entities (Element.pad level).toList = (Element.pad level).toList := by
    apply entities_layout
    intro c hc
    rw [Element.pad, String.toList_ofList] at hc
    exact Or.inl (List.eq_of_mem_replicate hc)
  have h : Reads ⟨opened, content, .text (entities run)⟩ (entities (Element.pad level).toList)
      ⟨opened, content, .text (entities (run ++ (Element.pad level).toList))⟩ := reads_entities _ run
  rwa [hlayout] at h

mutual

/-- What is read where an element was rendered at some level. -/
def ofElement (level : Nat) : Element → Markup
  | .empty tag attributes => .element tag attributes []
  | .leaf tag attributes content => .element tag attributes (runs content.toList)
  | .block tag attributes lead children =>
    .element tag attributes (ofElements level (lead.toList ++ ['\n']) children)

/-- The content of an element at some level, each child behind its layout; `run` stands in front of
it. -/
def ofElements (level : Nat) (run : List Char) : List Element → List Markup
  | [] => runs (run ++ (Element.pad level).toList)
  | e :: rest =>
    runs (run ++ (Element.pad (level + 1)).toList) ++
      ofElement (level + 1) e :: ofElements level ['\n'] rest

end

mutual

def Named : Element → Prop
  | .empty tag attributes => Heads tag attributes
  | .leaf tag attributes _ => Heads tag attributes
  | .block tag attributes _ children => Heads tag attributes ∧ AllNamed children

def AllNamed : List Element → Prop
  | [] => True
  | e :: rest => Named e ∧ AllNamed rest

end

theorem runs_reverse (text : List Char) : (runs text).reverse = runs text := by
  unfold runs
  split <;> rfl

theorem closing_not_mem {tag : String} (ht : isName tag.toList = true) : '>' ∉ '/' :: tag.toList := by
  simpa using isName_not_mem ht (by decide)

mutual

theorem reads_render (level : Nat) (e : Element) (h : Named e) (opened : List Frame)
    (content : List Markup) (run : List Char) :
    Reads ⟨opened, content, .text (entities run)⟩ (e.render level).toList
      ⟨opened, ofElement level e :: (runs run ++ content), .text []⟩ := by
  match e with
  | .empty tag attributes =>
    have htext : ((Element.empty tag attributes).render level).toList =
        '<' :: (tag.toList ++ attributeText attributes ++ ['/'] ++ ['>']) := by
      simp [Element.render, toList_head]
    rw [htext]
    apply reads_tag _ h.single
    simpa using h.not_mem (Or.inr rfl)
  | .leaf tag attributes shown =>
    have htext : ((Element.leaf tag attributes shown).render level).toList =
        '<' :: (tag.toList ++ attributeText attributes ++ ['>']) ++
          (entities shown.toList ++ '<' :: ('/' :: tag.toList ++ ['>'])) := by
      simp [Element.render, toList_head, toList_escape]
    rw [htext]
    refine (reads_tag (h.not_mem (Or.inr rfl)) h.opens).trans
      ((reads_entities shown.toList []).trans ?_)
    apply reads_tag (closing_not_mem h.tag)
    rw [closes]
    simp [ofElement, runs_reverse]
  | .block tag attributes lead children =>
    have htext : ((Element.block tag attributes lead children).render level).toList =
        '<' :: (tag.toList ++ attributeText attributes ++ ['>']) ++
          (entities (lead.toList ++ ['\n']) ++ ((Element.renderAll (level + 1) children).toList ++
            ((Element.pad level).toList ++ '<' :: ('/' :: tag.toList ++ ['>'])))) := by
      have hbreak : entities ['\n'] = ['\n'] := rfl
      rw [entities_append, hbreak]
      simp [Element.render, toList_head, toList_escape]
    rw [htext]
    refine (reads_tag (h.1.not_mem (Or.inr rfl)) h.1.opens).trans
      ((reads_entities (lead.toList ++ ['\n']) []).trans ?_)
    exact reads_renderAll level children h.2 h.1.tag attributes _ opened [] _

/-- The rest of an element with its closing tag, `content` having been read of it already. -/
theorem reads_renderAll (level : Nat) (children : List Element) (h : AllNamed children) {tag : String}
    (ht : isName tag.toList = true) (attributes : List (String × String)) (before : List Markup)
    (opened : List Frame) (content : List Markup) (run : List Char) :
    Reads ⟨⟨tag, attributes, before⟩ :: opened, content, .text (entities run)⟩
      ((Element.renderAll (level + 1) children).toList ++ ((Element.pad level).toList ++
        '<' :: ('/' :: tag.toList ++ ['>'])))
      ⟨opened, .element tag attributes (content.reverse ++ ofElements level run children) ::
        before, .text []⟩ := by
  match children with
  | [] =>
    rw [Element.renderAll, String.toList_empty, List.nil_append]
    refine (reads_pad level run).trans (reads_tag (closing_not_mem ht) ?_)
    rw [closes]
    simp [ofElements, runs_reverse]
  | e :: rest =>
    have htext : (Element.renderAll (level + 1) (e :: rest)).toList =
        (Element.pad (level + 1)).toList ++ ((e.render (level + 1)).toList ++ (['\n'] ++
          (Element.renderAll (level + 1) rest).toList)) := by
      simp [Element.renderAll]
    have hrest := reads_renderAll level rest h.2 ht attributes before opened
      (ofElement (level + 1) e :: (runs (run ++ (Element.pad (level + 1)).toList) ++ content)) ['\n']
    have hcontent : (ofElement (level + 1) e ::
        (runs (run ++ (Element.pad (level + 1)).toList) ++ content)).reverse ++
          ofElements level ['\n'] rest = content.reverse ++ ofElements level run (e :: rest) := by
      simp [ofElements, runs_reverse]
    rw [hcontent] at hrest
    rw [htext]
    simp only [List.append_assoc]
    refine (reads_pad (level + 1) run).trans ((reads_render (level + 1) e h.1 _ _ _).trans ?_)
    exact (reads_entities ['\n'] []).trans hrest

end

theorem read?_render {e : Element} (h : Named e) : read? (e.render 0) = some (ofElement 0 e) := by
  have hreads := reads_render 0 e h [] [] []
  change List.foldlM next? ⟨[], [], .text []⟩ _ = _ at hreads
  rw [read?, hreads]
  cases e <;> rfl

end Rendering

end Markup

end SoyTree
