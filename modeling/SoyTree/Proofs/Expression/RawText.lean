import SoyTree.Proofs.Coverage
import SoyTree.Proofs.Expression.Places

/-! # What raw text can hold

Outside brackets raw text stops in front of the end of its tag; inside brackets it stops only in
front of commas and closing brackets. A ternary question mark is kept out of raw text where it is
a whole expression, but not where it is the condition or first branch of a ternary.
-/

namespace SoyTree

open Concrete Grammar

theorem Cursor.Reads.stands {source : List Char} {u t : Cursor} {text : List Char}
    (hu : (ofChars source).Reaches u) (h : u.Reads text t) : Stands source u.position text := by
  obtain ⟨before, hb⟩ := hu
  have hsource : source = before ++ (text ++ t.rest) := by
    rw [← h.rest]
    exact hb.rest
  refine ⟨t.rest, ?_⟩
  rw [hb.position, Position.index_after, hsource]
  simp [Cursor.ofChars, Position.origin]

def inlineSource (value : String) : String :=
  "\x7bnamespace a\x7d\x7btemplate .t\x7d\x7blet $x: " ++ value ++ " /\x7d\x7b/template\x7d"

/-- Whether a source is parsed and its program has an expression with this property. -/
def holdsOccurrence (source : String) (p : Occurrence → Bool) : Bool :=
  match parseWith source {} with
  | .ok program => program.occurrences.any p
  | .error _ => false

theorem exists_occurrence {source : String} {p : Occurrence → Bool}
    (h : holdsOccurrence source p = true) :
    ∃ program, parseWith source {} = .ok program ∧ ∃ x ∈ program.occurrences, p x = true := by
  unfold holdsOccurrence at h
  split at h
  · exact ⟨_, by assumption, List.any_eq_true.1 h⟩
  · cases h

def Expr.rawText? : Expr → Option String
  | .raw _ text => some text
  | _ => none

theorem Expr.eq_raw_of_rawText? {e : Expr} {text : String} (h : e.rawText? = some text) :
    e = .raw e.mark text := by
  unfold Expr.rawText? at h
  split at h
  · cases h
    rfl
  · cases h

def Occurrence.isRaw (inside : Bool) (place : Place) (text : String) (x : Occurrence) : Bool :=
  x.inside == inside && x.place == place && x.expr.rawText? == some text

theorem exists_raw (source : String) (inside : Bool) (place : Place) (text : String)
    (h : holdsOccurrence source (Occurrence.isRaw inside place text) = true) :
    ∃ program mark, parseWith source {} = .ok program ∧
      ⟨inside, place, .raw mark text⟩ ∈ program.occurrences := by
  obtain ⟨program, hp, ⟨inside', place', e⟩, hx, hraw⟩ := exists_occurrence h
  simp only [Occurrence.isRaw, Bool.and_eq_true, beq_iff_eq] at hraw
  obtain ⟨⟨rfl, rfl⟩, he⟩ := hraw
  rw [Expr.eq_raw_of_rawText? he] at hx
  exact ⟨program, e.mark, hp, hx⟩

section Stops

variable {source : String} {options : Options} {program : Program} {inside : Bool} {place : Place}
  {mark : Mark} {text : String}

/-- Raw text is a stretch of the source. Outside brackets the end of the tag is no part of it;
inside brackets no comma or closing bracket is. -/
theorem rawText_stops (h : parseWith source options = .ok program)
    (hx : ⟨inside, place, .raw mark text⟩ ∈ program.occurrences) :
    mark.sliceChars source.toList = text.toList ∧
    (inside = false → ¬ tagEnd <:+: text.toList) ∧
    (inside = true → ∀ c ∈ text.toList, endsNested c = false) := by
  obtain ⟨u, t, hu, rfl, hraw⟩ := parse_places h _ hx
  have hslice := (hraw.reads.stands hu).slice
  rw [markAt, ← hraw.reads.position] at hslice
  refine ⟨hslice, ?_, ?_⟩
  · rintro rfl
    exact not_tagEnd_of_misses hraw.stops
  · rintro rfl
    exact not_endsNested_of_misses hraw.stops

theorem rawArgument_stops : ∃ program mark,
    parseWith (inlineSource "f($a - 1, '/\x7d')") {} = .ok program ∧
    ⟨true, .whole, .raw mark "$a - 1"⟩ ∈ program.occurrences ∧
    mark.sliceChars (inlineSource "f($a - 1, '/\x7d')").toList = "$a - 1".toList ∧
    ∀ c ∈ "$a - 1".toList, endsNested c = false := by
  obtain ⟨program, mark, h, hx⟩ := exists_raw (inlineSource "f($a - 1, '/\x7d')") true .whole
    "$a - 1" (by decide +kernel)
  have hstops := rawText_stops h hx
  exact ⟨program, mark, h, hx, hstops.1, hstops.2.2 rfl⟩

/-- Without its closing bracket an argument takes in the end of its tag and what follows it. -/
theorem rawArgument_holds_tagEnd : ∃ program mark,
    parseWith (inlineSource "f($a /\x7d\x7b$b\x7d)") {} = .ok program ∧
    ⟨true, .whole, .raw mark "$a /\x7d\x7b$b\x7d"⟩ ∈ program.occurrences ∧
    tagEnd <:+: "$a /\x7d\x7b$b\x7d".toList := by
  obtain ⟨program, mark, h, hx⟩ := exists_raw (inlineSource "f($a /\x7d\x7b$b\x7d)") true .whole
    "$a /\x7d\x7b$b\x7d" (by decide +kernel)
  exact ⟨program, mark, h, hx, "$a ".toList, "\x7b$b\x7d".toList, by decide⟩

end Stops

section Questions

variable {source : String} {options : Options} {program : Program} {inside : Bool} {place : Place}
  {mark : Mark} {text : String}

theorem Grammar.RawRead.question_last {s t : Cursor} {text before after : List Char}
    (h : RawRead inside .condition s text t) (htext : text = before ++ '?' :: after)
    (hbare : IsBareQuestion before after) : after = [] ∧ t.rest.head? = some '?' := by
  obtain ⟨hmiss, gap, rest, hrest⟩ := h.condition rfl
  have hjoins := joins_of_misses hmiss htext
  have hafter : after = [] := by
    cases after with
    | nil => rfl
    | cons c after =>
      have hc := hjoins c rfl
      rw [hbare.apart c rfl] at hc
      cases hc
  subst hafter
  refine ⟨rfl, ?_⟩
  obtain ⟨chars, blank⟩ := gap
  cases chars with
  | nil => rw [hrest]; rfl
  | cons c chars =>
    have hc := hjoins c (by rw [hrest]; rfl)
    rcases eq_of_blank (blank c (by simp)) with rfl | rfl | rfl | rfl <;> cases hc

/-- Raw text that is a whole expression holds no ternary question mark. As a condition it can hold
one only at its very end, in front of another question mark. As a first branch it may hold some,
but no colon that could belong to them. -/
theorem rawText_questions (h : parseWith source options = .ok program)
    (hx : ⟨inside, place, .raw mark text⟩ ∈ program.occurrences) :
    (place = .whole → hasBareQuestion text.toList = false) ∧
    (place = .condition → (hasBareQuestion text.toList = true ↔
        ∃ before, text.toList = before ++ ['?'] ∧ ClosesQuotes before ∧
          before.getLast? ≠ some '?') ∧
      (hasBareQuestion text.toList = true →
        Stands source.toList mark.start (text.toList ++ ['?']))) ∧
    (place = .branch → ':' ∉ text.toList) := by
  obtain ⟨u, t, hu, rfl, hraw⟩ := parse_places h _ hx
  refine ⟨hraw.whole, ?_, fun hplace => not_colon_of_misses (hraw.branch hplace)⟩
  rintro rfl
  refine ⟨⟨fun hquestion => ?_, ?_⟩, fun hquestion => ?_⟩
  · obtain ⟨before, after, htext, hbare⟩ := hasBareQuestion_iff.1 hquestion
    obtain ⟨rfl, -⟩ := hraw.question_last htext hbare
    exact ⟨before, htext, hbare.unquoted, hbare.first⟩
  · rintro ⟨before, htext, hquotes, hlast⟩
    exact hasBareQuestion_iff.2 ⟨before, [], htext, hquotes, hlast, by simp⟩
  · obtain ⟨before, after, htext, hbare⟩ := hasBareQuestion_iff.1 hquestion
    obtain ⟨-, hnext⟩ := hraw.question_last htext hbare
    obtain ⟨rest, hrest⟩ : ∃ rest, t.rest = '?' :: rest := List.head?_eq_some_iff.1 hnext
    have hread : u.Reads (text.toList ++ ['?']) ⟨t.position.next '?', rest⟩ :=
      hraw.reads.trans ⟨hrest, rfl⟩
    exact hread.stands hu

theorem rawCondition_questions : ∃ program mark,
    parseWith (inlineSource "$a + 'b' ?: $c ? 1 : 2") {} = .ok program ∧
    ⟨false, .condition, .raw mark "$a + 'b' ?: $c"⟩ ∈ program.occurrences ∧
    (hasBareQuestion "$a + 'b' ?: $c".toList = true ↔ ∃ before,
      "$a + 'b' ?: $c".toList = before ++ ['?'] ∧ ClosesQuotes before ∧
        before.getLast? ≠ some '?') := by
  obtain ⟨program, mark, h, hx⟩ := exists_raw (inlineSource "$a + 'b' ?: $c ? 1 : 2") false
    .condition "$a + 'b' ?: $c" (by decide +kernel)
  exact ⟨program, mark, h, hx, ((rawText_questions h hx).2.1 rfl).1⟩

theorem rawBranch_holds_question : ∃ program mark,
    parseWith (inlineSource "$a ? $b ? 1 : 2") {} = .ok program ∧
    ⟨false, .branch, .raw mark "$b ? 1"⟩ ∈ program.occurrences ∧
    hasBareQuestion "$b ? 1".toList = true := by
  obtain ⟨program, mark, h, hx⟩ := exists_raw (inlineSource "$a ? $b ? 1 : 2") false .branch
    "$b ? 1" (by decide +kernel)
  exact ⟨program, mark, h, hx, by decide⟩

end Questions

end SoyTree
