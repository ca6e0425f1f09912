import Mathlib.Data.String.Basic
import SoyTree.Parse
import SoyTree.Proofs.Grammar.Placed
import SoyTree.Proofs.Nesting.Limit
import SoyTree.Proofs.Source.Lines

/-! # Where a source is refused

The error of a refused source names a place in that source: its line and column are those of its
offset, and what it says about the character there is so.
-/

namespace SoyTree

namespace ParseError

/-- The error points into `source`, which was parsed under the depth limit `limit`. -/
structure PointsInto (source : List Char) (limit : Nat) (e : ParseError) : Prop where
  within : e.offset ≤ source.length
  line : e.line = 1 + (source.take e.offset).count '\n'
  /-- The column counts from one what stands behind the last line break. -/
  column : e.column = 1 + ((source.take e.offset).rtakeWhile (· ≠ '\n')).length
  found : ∀ expected found, e.cause = .unexpected expected found →
    (∀ c, source[e.offset]? = some c → found = Text.quoteChar c) ∧
      (found = "end of input" ↔ e.offset = source.length)
  expected : ∀ expected found, e.cause = .unexpected expected found → expected.Pairwise (· < ·)
  unterminated : ∀ command, e.cause = .unterminated command → source[e.offset]? = some '\x7b'
  tooDeep : ∀ n, e.cause = .tooDeep n → n = limit ∧ source[e.offset]? = some '\x7b'

section Names

variable {x y : String} {names : List String}

theorem mem_insertText : y ∈ insertText x names ↔ y = x ∨ y ∈ names := by
  induction names with
  | nil => simp [insertText]
  | cons z names ih =>
    rw [insertText]
    split
    · simp
    split
    · rename_i hx
      simp [hx]
    · simp only [List.mem_cons, ih]
      exact or_left_comm

theorem insertText_increasing (h : names.Pairwise (· < ·)) :
    (insertText x names).Pairwise (· < ·) := by
  induction names with
  | nil => simp [insertText]
  | cons z names ih =>
    obtain ⟨hz, hnames⟩ := List.pairwise_cons.1 h
    rw [insertText]
    split
    · rename_i hlt
      refine List.pairwise_cons.2 ⟨fun y hy => ?_, h⟩
      rcases List.mem_cons.1 hy with rfl | hy
      · exact hlt
      · exact hlt.trans (hz y hy)
    split
    · exact h
    · rename_i hlt hne
      refine List.pairwise_cons.2 ⟨fun y hy => ?_, ih hnames⟩
      rcases mem_insertText.1 hy with rfl | hy
      · exact lt_of_le_of_ne (not_lt.1 hlt) (Ne.symm hne)
      · exact hz y hy

theorem describeAll_increasing (tokens : List (Option Char)) :
    (describeAll tokens).Pairwise (· < ·) := by
  induction tokens with
  | nil => exact List.Pairwise.nil
  | cons token tokens ih => exact insertText_increasing ih

/-- No character is shown as the end of input, for it is shown between quotes. -/
theorem quoteChar_ne_end (c : Char) : Text.quoteChar c ≠ "end of input" := by
  intro h
  have hhead := congrArg (fun s : String => s.toList.head?) h
  simp [Text.quoteChar] at hhead

end Names

section Places

variable {source : List Char} {limit offset : Nat} {cause : Cause} {e : Failure}

theorem locate_offset (h : offset ≤ source.length) :
    (locate (.ofChars source) offset cause).offset = offset := by
  simp only [locate, Lines.position, Lines.ofChars]
  exact Nat.min_eq_left h

/-- Line and column are right wherever an error is put; what its cause says is left to show. -/
theorem pointsInto_locate (h : offset ≤ source.length)
    (hfound : ∀ expected found, cause = .unexpected expected found →
      found = describe source[offset]? ∧ expected.Pairwise (· < ·))
    (hunterminated : ∀ command, cause = .unterminated command → source[offset]? = some '\x7b')
    (hdeep : ∀ n, cause = .tooDeep n → n = limit ∧ source[offset]? = some '\x7b') :
    (locate (.ofChars source) offset cause).PointsInto source limit := by
  have hoffset : (locate (.ofChars source) offset cause).offset = offset := locate_offset h
  constructor
  · rw [hoffset]
    exact h
  · rw [hoffset]
    simp [locate, Lines.position_eq, Position.line_after, Position.origin, Nat.add_comm]
  · rw [hoffset]
    simp [locate, Lines.position_eq, Position.column_after_origin, Nat.add_comm]
  · rw [hoffset]
    intro expected found hcause
    obtain ⟨rfl, -⟩ := hfound expected found hcause
    constructor
    · intro c hc
      rw [hc, describe]
    · cases hc : source[offset]? with
      | some c =>
        obtain ⟨hlt, -⟩ := List.getElem?_eq_some_iff.1 hc
        have hne : offset ≠ source.length := Nat.ne_of_lt hlt
        simp [describe, quoteChar_ne_end, hne]
      | none =>
        have hge : source.length ≤ offset := List.getElem?_eq_none_iff.1 hc
        simp [describe, Nat.le_antisymm h hge]
  · exact fun expected found hcause => (hfound expected found hcause).2
  · rw [hoffset]
    exact hunterminated
  · rw [hoffset]
    exact hdeep

theorem pointsInto_ofFailure (h : e.Placed source) :
    (ofFailure source (.ofChars source) e).PointsInto source limit := by
  unfold ofFailure
  split
  · rename_i opener hreason
    have hbrace := h.opener opener hreason
    obtain ⟨hlt, -⟩ := List.getElem?_eq_some_iff.1 hbrace
    exact pointsInto_locate hlt.le nofun (fun _ _ => hbrace) nofun
  · exact pointsInto_locate h.start nofun nofun nofun
  · rename_i hreason
    refine pointsInto_locate h.start ?_ nofun nofun
    rintro expected found ⟨⟩
    exact ⟨by rw [h.found hreason], describeAll_increasing _⟩

theorem pointsInto_tooDeep {tag : Nesting.TagLevel} (h : tag ∈ Nesting.levels source) :
    (locate (.ofChars source) tag.offset (.tooDeep limit)).PointsInto source limit := by
  obtain ⟨i, hi, hbrace⟩ := Nesting.levelsFrom_brace h
  rw [Nat.zero_add] at hi
  refine pointsInto_locate (Nesting.offset_lt_length h).le nofun nofun ?_
  rintro n ⟨⟩
  rw [hi]
  exact ⟨rfl, hbrace⟩

end Places

end ParseError

section Parsing

variable {α : Type} {p : Rule α} {source : List Char} {failure : Failure}

theorem Rule.Placed.parse (hp : p.Placed) (h : p.parse source = .error failure) :
    failure.Placed source := by
  have hs := hp source (.ofChars source) (Cursor.in_ofChars source)
  unfold Rule.parse at h
  cases hr : p (.ofChars source) with
  | ok v t hint => simp [hr] at h
  | fail e =>
    simp only [hr, Except.error.injEq] at h
    rw [hr] at hs
    exact h ▸ hs

open ParseError in
/-- Whatever refuses a source, the limit or the grammar, its error points into the source. -/
theorem parseWith_error_pointsInto {source : String} {options : Options} {e : ParseError}
    (h : parseWith source options = .error e) :
    e.PointsInto source.toList options.maxDepth := by
  unfold parseWith parseChars at h
  cases hcheck : Nesting.check source.toList options.maxDepth with
  | error offset =>
    simp only [hcheck, Except.error.injEq] at h
    unfold Nesting.check at hcheck
    cases hfind : (Nesting.levels source.toList).find? (fun tag => options.maxDepth < tag.level) with
    | none => simp [hfind] at hcheck
    | some tag =>
      simp only [hfind, Except.error.injEq] at hcheck
      rw [← h, ← hcheck]
      exact pointsInto_tooDeep (List.mem_of_find?_eq_some hfind)
  | ok depth =>
    cases hheader : Grammar.fileHeader.parse source.toList with
    | error failure =>
      simp only [hcheck, hheader, Except.error.injEq] at h
      rw [← h]
      exact pointsInto_ofFailure (Grammar.placed_fileHeader.parse hheader)
    | ok home =>
      cases hfile : (Grammar.file home).parse source.toList with
      | error failure =>
        simp only [hcheck, hheader, hfile, Except.error.injEq] at h
        rw [← h]
        exact pointsInto_ofFailure ((Grammar.placed_file home).parse hfile)
      | ok program => simp [hcheck, hheader, hfile] at h

/-- A file without a template, a block that is never closed, and a block beyond the limit, with
what each is refused with. -/
def refusedSamples : List (String × Options × ParseError) :=
  [("\x7bnamespace a\x7d\n", {},
      ⟨.unexpected ["' '", "'/'", "'\\n'", "'\\r'", "'\\t'", "'\x7b'"] "end of input", 2, 1, 14⟩),
    ("\x7bnamespace a\x7d\n\x7btemplate .t\x7d\n  \x7bif $x\x7d\n\x7blet $y: 1 /\x7d", {},
      ⟨.unterminated "if", 3, 3, 30⟩),
    ("\x7bnamespace a\x7d\n\x7btemplate .t\x7d\n  \x7bif $x\x7d\n", ⟨1⟩, ⟨.tooDeep 1, 3, 3, 30⟩)]

def refusal? (source : String) (options : Options) : Option ParseError :=
  match parseWith source options with
  | .ok _ => none
  | .error e => some e

theorem refusal?_eq_some {source : String} {options : Options} {e : ParseError} :
    refusal? source options = some e ↔ parseWith source options = .error e := by
  unfold refusal?
  cases parseWith source options <;> simp

theorem refusedSamples_pointInto : refusedSamples.Forall fun x =>
    parseWith x.1 x.2.1 = .error x.2.2 ∧ x.2.2.PointsInto x.1.toList x.2.1.maxDepth := by
  have hrefused : ∀ x ∈ refusedSamples, refusal? x.1 x.2.1 = some x.2.2 := by decide +kernel
  rw [List.forall_iff_forall_mem]
  intro x hx
  have h := refusal?_eq_some.1 (hrefused x hx)
  exact ⟨h, parseWith_error_pointsInto h⟩

end Parsing

end SoyTree
