import SoyTree.Grammar.Body
import SoyTree.Text.Blank

/-! # Words and tags as written

The pieces that a written file is made of below the level of its nodes: blanks, identifiers, names,
attributes and tags. Each carries the rule that its characters keep.
-/

namespace SoyTree.Concrete

/-- Blanks, possibly none. -/
structure Blanks where
  chars : List Char
  blank : ∀ c ∈ chars, Grammar.blank.accepts c = true

theorem eq_of_blank {c : Char} (h : Grammar.blank.accepts c = true) :
    c = ' ' ∨ c = '\t' ∨ c = '\r' ∨ c = '\n' := by
  simpa [Grammar.blank, CharClass.oneOf] using h

theorem isWordPart_of_blank {c : Char} (h : Grammar.blank.accepts c = true) :
    isWordPart c = false := by
  rcases eq_of_blank h with rfl | rfl | rfl | rfl <;> decide

theorem isCommandChar_of_blank {c : Char} (h : Grammar.blank.accepts c = true) :
    Grammar.isCommandChar c = false := by
  rcases eq_of_blank h with rfl | rfl | rfl | rfl <;> decide

theorem Blanks.apart (b : Blanks) : ∀ c ∈ b.chars.head?, isWordPart c = false :=
  fun c hc => isWordPart_of_blank (b.blank c (List.mem_of_mem_head? hc))

/-- Blanks, at least one. -/
structure Gap extends Blanks where
  nonempty : chars ≠ []

theorem Gap.forall_head {P : Char → Prop} (g : Gap) (rest : List Char)
    (h : ∀ c, Grammar.blank.accepts c = true → P c) : ∀ c ∈ (g.chars ++ rest).head?, P c := by
  obtain ⟨⟨chars, blank⟩, nonempty⟩ := g
  cases chars with
  | nil => exact absurd rfl nonempty
  | cons d chars =>
    rintro c (_ | _)
    exact h d (blank d (by simp))

theorem toNat_of_isAlpha {c : Char} (h : c.isAlpha = true) : 65 ≤ c.toNat ∧ c.toNat ≤ 122 := by
  delta Char.isAlpha Char.isUpper Char.isLower at h
  simp only [Bool.or_eq_true, Bool.and_eq_true, decide_eq_true_eq, UInt32.le_iff_toNat_le,
    ge_iff_le] at h
  have hn : c.toNat = c.val.toNat := rfl
  rw [hn]
  rcases h with ⟨hlow, hhigh⟩ | ⟨hlow, hhigh⟩
  · exact ⟨hlow, Nat.le_trans hhigh (by decide)⟩
  · exact ⟨Nat.le_trans (by decide) hlow, hhigh⟩

theorem toNat_of_isDigit {c : Char} (h : c.isDigit = true) : 48 ≤ c.toNat ∧ c.toNat ≤ 57 := by
  rw [Char.isDigit, Bool.and_eq_true, decide_eq_true_eq, decide_eq_true_eq] at h
  exact h

structure Word where
  chars : List Char
  isWord : SoyTree.isWord chars = true

theorem isWordPart_of_isWordStart {c : Char} (h : isWordStart c = true) : isWordPart c = true := by
  simp only [isWordStart, isWordPart, Char.isAlphanum, Bool.or_eq_true] at *
  rcases h with h | h
  · exact Or.inl (Or.inl h)
  · exact Or.inr h

theorem Word.isWordPart (w : Word) : ∀ c ∈ w.chars, SoyTree.isWordPart c = true := by
  obtain ⟨chars, hw⟩ := w
  cases chars with
  | nil => simp
  | cons c rest =>
    simp only [SoyTree.isWord, Bool.and_eq_true, List.all_eq_true] at hw
    rintro d (_ | ⟨_, hd⟩)
    · exact isWordPart_of_isWordStart hw.1
    · exact hw.2 d hd

theorem Word.head (w : Word) : ∀ c ∈ w.chars.head?, isWordStart c = true := by
  obtain ⟨chars, hw⟩ := w
  cases chars with
  | nil => simp
  | cons c rest =>
    simp only [SoyTree.isWord, Bool.and_eq_true] at hw
    rintro d (_ | _)
    exact hw.1

theorem Word.ne_nil (w : Word) : w.chars ≠ [] := by
  intro h
  have hw := w.isWord
  rw [h] at hw
  cases hw

/-- The rest of a tag behind a part that may stand in front of anything. -/
structure TagRest where
  chars : List Char
  open_ : '\x7d' ∉ chars

/-- The rest of a tag behind its command word. -/
structure TagArgs extends TagRest where
  apart : ∀ c ∈ chars.head?, isWordPart c = false

def Blanks.args (b : Blanks) : TagArgs :=
  ⟨⟨b.chars, fun hc => absurd (b.blank _ hc) (by decide)⟩, b.apart⟩

def noBlanks : Blanks := ⟨[], by simp⟩

def oneSpace : Gap := ⟨⟨[' '], by simp [Grammar.blank, CharClass.oneOf]⟩, by simp⟩

def noRest : TagRest := ⟨[], by simp⟩

theorem noRest_apart : ∀ c ∈ noRest.chars.head?, Grammar.blank.accepts c = true := by
  simp [noRest]

/-- The mark of a text that starts at `p`. -/
def markAt (p : Position) (text : List Char) : Mark :=
  ⟨p, p.after text⟩

def tagText (word : String) (args : List Char) : List Char :=
  '\x7b' :: (word.toList ++ (args ++ ['\x7d']))

def closeText (word : String) (gap : Blanks) : List Char :=
  '\x7b' :: '/' :: (word.toList ++ (gap.chars ++ ['\x7d']))

/-- A dotted name, possibly with a dot in front. -/
structure Name where
  relative : Bool
  first : Word
  more : List Word

namespace Name

def segments (n : Name) : List Word :=
  n.first :: n.more

def text (n : Name) : List Char :=
  (if n.relative then ['.'] else []) ++ (n.first.chars ++ n.more.flatMap fun w => '.' :: w.chars)

def value (n : Name) : String :=
  String.ofList n.text

end Name

/-- A name, an equals sign and a value in double quotes. -/
structure Pair where
  name : List Char
  nonempty : name ≠ []
  plain : ∀ c ∈ name, (c.isAlphanum || c == '_' || c == '-') = true
  value : List Char
  closed : '"' ∉ value

namespace Pair

def text (a : Pair) : List Char :=
  a.name ++ ('=' :: '"' :: (a.value ++ ['"']))

def tree (a : Pair) (p : Position) : Attribute :=
  ⟨markAt p a.text, String.ofList a.name, String.ofList a.value⟩

end Pair

/-- An attribute, with the blanks in front of it. -/
structure Attr where
  gap : Gap
  pair : Pair

namespace Attr

def text (a : Attr) : List Char :=
  a.gap.chars ++ a.pair.text

def tree (a : Attr) (p : Position) : Attribute :=
  a.pair.tree (p.after a.gap.chars)

end Attr

def attrsText (attrs : List Attr) : List Char :=
  attrs.flatMap Attr.text

/-- The attributes of a tag, from the place on where the first of them starts. -/
def attrsTree : List Attr → Position → List Attribute
  | [], _ => []
  | a :: rest, p => a.tree p :: attrsTree rest (p.after a.text)

end SoyTree.Concrete
