import SoyTree.Proofs.Grammar.Expression

/-! # Where expressions stop

The rules that end an operand, described by the text that they need in front of them, and what a
raw capture up to one of them cannot hold.
-/

namespace SoyTree

namespace Grammar

open Rule Cursor Concrete

variable {s t u : Cursor} {d : Unit} {text : List Char}

section Marks

def endsNested (c : Char) : Bool :=
  c == ',' || c == ')' || c == ']'

theorem yields_nestedStop : nestedStop.Yields s d t ↔
    ∃ (b : Blanks) (c : Char), endsNested c = true ∧ s.Reads (b.chars ++ [c]) t := by
  have haccepts : ∀ c, (CharClass.oneOf [',', ')', ']']).accepts c = endsNested c := by
    intro c
    rw [Bool.eq_iff_iff]
    simp [CharClass.oneOf, endsNested, or_assoc]
  simp only [nestedStop, yields_spaced, yields_one, haccepts]
  constructor
  · rintro ⟨b, u, c, hb, -, hc, hr⟩
    exact ⟨b, c, hc, hb.trans hr⟩
  · rintro ⟨b, c, hc, hr⟩
    obtain ⟨u, hb, hr⟩ := hr.split
    refine ⟨b, u, c, hb, hr.forall_cons ?_, hc, hr⟩
    simp only [endsNested, Bool.or_eq_true, beq_iff_eq] at hc
    rcases hc with (rfl | rfl) | rfl <;> decide

/-- The rule that ends an expression, inside or outside brackets. -/
def contextStop (inside : Bool) : Rule Unit :=
  if inside then nestedStop else slashClose

theorem stopsInside_contextStop (inside : Bool) : StopsInside inside (contextStop inside) := by
  cases inside with
  | false => exact fun h => nomatch h
  | true => exact stopsInside_nestedStop

/-- In front of the end of an expression there is a blank, a slash, a comma or a closing bracket,
none of which joins a question mark. -/
theorem contextStop_head {inside : Bool} (h : (contextStop inside).Yields s d t) :
    ∃ c, s.rest.head? = some c ∧ joinsQuestion c = false := by
  have hhead : ∃ (b : Blanks) (c : Char) (rest : List Char), joinsQuestion c = false ∧
      s.rest = b.chars ++ c :: rest := by
    cases inside with
    | false =>
      obtain ⟨b, hr⟩ := yields_slashClose.1 h
      exact ⟨b, '/', '\x7d' :: t.rest, by decide, by simpa using hr.rest⟩
    | true =>
      obtain ⟨b, c, hc, hr⟩ := yields_nestedStop.1 h
      refine ⟨b, c, t.rest, ?_, by simpa using hr.rest⟩
      simp only [endsNested, Bool.or_eq_true, beq_iff_eq] at hc
      rcases hc with (rfl | rfl) | rfl <;> decide
  obtain ⟨⟨chars, blank⟩, c, rest, hc, hs⟩ := hhead
  cases chars with
  | nil => exact ⟨c, by rw [hs]; rfl, hc⟩
  | cons c' chars =>
    refine ⟨c', by rw [hs]; rfl, ?_⟩
    rcases eq_of_blank (blank c' (by simp)) with rfl | rfl | rfl | rfl <;> decide

end Marks

section Captures

/-- The end of a tag with an inline value. -/
def tagEnd : List Char :=
  ['/', '\x7d']

theorem not_tagEnd_of_misses (h : slashClose.Misses s text t) : ¬ tagEnd <:+: text := by
  rintro ⟨a, b, rfl⟩
  have hf := h a (tagEnd ++ b) (by simp) (by simp [tagEnd])
  rw [List.append_assoc] at hf
  have hy := (yields_slashClose (d := ())).2
    ⟨noBlanks, reads_append (s.position.after a) tagEnd (b ++ t.rest)⟩
  exact hy.not_fails hf

theorem not_endsNested_of_misses (h : nestedStop.Misses s text t) :
    ∀ c ∈ text, endsNested c = false := by
  intro c hc
  obtain ⟨a, b, rfl⟩ := List.append_of_mem hc
  cases hends : endsNested c with
  | false => rfl
  | true =>
    have hf := h a (c :: b) rfl (by simp)
    have hy := (yields_nestedStop (d := ())).2 ⟨noBlanks, c, hends,
      reads_append (s.position.after a) [c] (b ++ t.rest)⟩
    exact absurd hf hy.not_fails

theorem not_colon_of_misses (h : colon.Misses s text t) : ':' ∉ text := by
  intro hc
  obtain ⟨a, b, rfl⟩ := List.append_of_mem hc
  have hf := h a (':' :: b) rfl (by simp)
  have hy := (yields_colon (d := ())).2
    ⟨noBlanks, reads_append (s.position.after a) [':'] (b ++ t.rest)⟩
  exact hy.not_fails hf

theorem joins_of_misses {before after : List Char} (h : question.Misses s text t)
    (htext : text = before ++ '?' :: after) :
    ∀ c ∈ (after ++ t.rest).head?, joinsQuestion c = true := by
  intro c hc
  cases hjoins : joinsQuestion c with
  | true => rfl
  | false =>
    have hf := h before ('?' :: after) htext (by simp)
    have hy := (yields_question (d := ())).2 ⟨noBlanks,
      reads_append (s.position.after before) ['?'] (after ++ t.rest), c, hc, hjoins⟩
    exact absurd hf hy.not_fails

theorem Misses.of_either {p q : Rule Unit} (h : (either p q).Misses s text t) :
    p.Misses s text t ∧ q.Misses s text t := by
  constructor
  · exact fun a b hab hb => (fails_either.1 (h a b hab hb)).1
  · exact fun a b hab hb => (fails_either.1 (h a b hab hb)).2

end Captures

end Grammar

end SoyTree
