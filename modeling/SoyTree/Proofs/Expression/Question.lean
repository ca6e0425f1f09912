import SoyTree.Proofs.Concrete.Expr
import SoyTree.Proofs.Grammar.Expression

/-! # Bare question marks

The scan for the question mark of a ternary, described by the text on both sides of the mark: it
stands outside quotes, no question mark stands before it, and no character that joins it follows.
-/

namespace SoyTree.Grammar

open Concrete

section Quotes

/-- Where the scan stands behind one more character. -/
def quoteStep : QuoteState → Char → QuoteState
  | .outside, c => if c = '\'' then .inside else .outside
  | .inside, c => if c = '\\' then .escaped else if c = '\'' then .outside else .inside
  | .escaped, _ => .inside

def quoteAfter (state : QuoteState) (text : List Char) : QuoteState :=
  text.foldl quoteStep state

@[simp] theorem quoteAfter_nil (state : QuoteState) : quoteAfter state [] = state := rfl

@[simp] theorem quoteAfter_cons (state : QuoteState) (c : Char) (text : List Char) :
    quoteAfter state (c :: text) = quoteAfter (quoteStep state c) text := rfl

@[simp] theorem quoteAfter_append (state : QuoteState) (a b : List Char) :
    quoteAfter state (a ++ b) = quoteAfter (quoteAfter state a) b := by
  simp [quoteAfter, List.foldl_append]

/-- Every quote that the text opens is closed within it. -/
def ClosesQuotes (text : List Char) : Prop :=
  quoteAfter .outside text = .outside

instance (text : List Char) : Decidable (ClosesQuotes text) :=
  inferInstanceAs (Decidable (quoteAfter .outside text = .outside))

theorem ClosesQuotes.append {a b : List Char} (ha : ClosesQuotes a) (hb : ClosesQuotes b) :
    ClosesQuotes (a ++ b) := by
  rw [ClosesQuotes, quoteAfter_append, ha]
  exact hb

theorem closesQuotes_of_unquoted {text : List Char} (h : '\'' ∉ text) : ClosesQuotes text := by
  induction text with
  | nil => rfl
  | cons c text ih =>
    rw [List.mem_cons, not_or] at h
    rw [ClosesQuotes, quoteAfter_cons, quoteStep, if_neg (Ne.symm h.1)]
    exact ih h.2

end Quotes

section Bare

/-- A question mark between the two texts is the question mark of a ternary. -/
structure IsBareQuestion (before after : List Char) : Prop where
  unquoted : ClosesQuotes before
  first : before.getLast? ≠ some '?'
  apart : ∀ c ∈ after.head?, joinsQuestion c = false

theorem head_apart_iff {rest : List Char} : (!(rest.head? == some ':' || rest.head? == some '?' ||
    rest.head? == some '.')) = true ↔ ∀ c ∈ rest.head?, joinsQuestion c = false := by
  cases rest.head? <;> simp [joinsQuestion]

theorem bareQuestionFrom_cons {state : QuoteState} {previous : Option Char} {c : Char}
    {rest : List Char} : bareQuestionFrom state previous (c :: rest) = true ↔
      (c = '?' ∧ state = .outside ∧ previous ≠ some '?' ∧
        ∀ d ∈ rest.head?, joinsQuestion d = false) ∨
      bareQuestionFrom (quoteStep state c) (some c) rest = true := by
  cases state with
  | escaped => simp [bareQuestionFrom, quoteStep]
  | inside => simp [bareQuestionFrom, quoteStep]
  | outside =>
    by_cases hquote : c = '\''
    · simp [bareQuestionFrom, quoteStep, hquote]
    · simp only [bareQuestionFrom, quoteStep, hquote, if_false]
      rw [← head_apart_iff]
      split
      · simp_all
      · rename_i h
        refine ⟨Or.inr, ?_⟩
        rintro (⟨rfl, -, hprevious, hafter⟩ | h')
        · exact absurd (by simp [hprevious, hafter]) h
        · exact h'

theorem getLast?_cons_or (c : Char) (text : List Char) (previous : Option Char) :
    (c :: text).getLast?.or previous = text.getLast?.or (some c) := by
  cases h : text.getLast? <;> simp [List.getLast?_cons, h]

theorem bareQuestionFrom_iff {state : QuoteState} {previous : Option Char} {text : List Char} :
    bareQuestionFrom state previous text = true ↔ ∃ before after, text = before ++ '?' :: after ∧
      quoteAfter state before = .outside ∧ before.getLast?.or previous ≠ some '?' ∧
      ∀ c ∈ after.head?, joinsQuestion c = false := by
  induction text generalizing state previous with
  | nil => simp [bareQuestionFrom]
  | cons c rest ih =>
    rw [bareQuestionFrom_cons, ih]
    constructor
    · rintro (⟨rfl, rfl, hprevious, hafter⟩ | ⟨before, after, rfl, hstate, hlast, hafter⟩)
      · exact ⟨[], rest, rfl, rfl, hprevious, hafter⟩
      · exact ⟨c :: before, after, rfl, hstate, by rwa [getLast?_cons_or], hafter⟩
    · rintro ⟨before, after, htext, hstate, hlast, hafter⟩
      cases before with
      | nil =>
        obtain ⟨rfl, rfl⟩ : c = '?' ∧ rest = after := by simpa using htext
        exact Or.inl ⟨rfl, hstate, hlast, hafter⟩
      | cons c' before =>
        obtain ⟨rfl, rfl⟩ : c = c' ∧ rest = before ++ '?' :: after := by simpa using htext
        exact Or.inr ⟨before, after, rfl, hstate, by rwa [getLast?_cons_or] at hlast, hafter⟩

/-- A text holds the question mark of a ternary exactly if it can be split at one. -/
theorem hasBareQuestion_iff {text : List Char} : hasBareQuestion text = true ↔
    ∃ before after, text = before ++ '?' :: after ∧ IsBareQuestion before after := by
  rw [hasBareQuestion, bareQuestionFrom_iff]
  simp only [Option.or_none]
  constructor
  · rintro ⟨before, after, htext, hstate, hlast, hafter⟩
    exact ⟨before, after, htext, hstate, hlast, hafter⟩
  · rintro ⟨before, after, htext, hstate, hlast, hafter⟩
    exact ⟨before, after, htext, hstate, hlast, hafter⟩

end Bare

end SoyTree.Grammar
