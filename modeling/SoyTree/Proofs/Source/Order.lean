import Mathlib.Data.Prod.Lex
import Mathlib.Order.Interval.Set.Defs
import Mathlib.Order.Monotone.Defs
import SoyTree.Proofs.Source.Lines

/-! # Positions in their order

The table of line starts is increasing, so that whatever a search of it finds, a line start or the place
for one, tells the line of an offset. No lookup leaves the table, and later offsets have later positions.
-/

namespace SoyTree

namespace Position

variable {p q : Position} {a : List Char}

/-- Line and column, compared in this order. -/
def place (p : Position) : Nat ×ₗ Nat :=
  toLex (p.line, p.column)

theorem place_lt_iff :
    p.place < q.place ↔ p.line < q.line ∨ p.line = q.line ∧ p.column < q.column := by
  rw [place, place, Prod.Lex.toLex_lt_toLex]

theorem place_lt_next (p : Position) (c : Char) : p.place < (p.next c).place := by
  rw [place_lt_iff]
  by_cases hc : c = '\n'
  · simp [next, hc]
  · simp [next, hc]

theorem place_lt_after (p : Position) (ha : a ≠ []) : p.place < (p.after a).place := by
  induction a generalizing p with
  | nil => exact absurd rfl ha
  | cons c a ih =>
    rw [after_cons]
    by_cases hrest : a = []
    · subst hrest
      exact place_lt_next p c
    · exact (place_lt_next p c).trans (ih _ hrest)

end Position

namespace Lines

variable {l : Lines} {text : List Char} {i j o low high line place steps : Nat}

section Table

theorem breaks_increasing (i : Nat) (text : List Char) : (breaks i text).Pairwise (· < ·) := by
  induction text generalizing i with
  | nil => exact .nil
  | cons c text ih =>
    rw [breaks]
    split
    · exact List.pairwise_cons.2 ⟨fun j hj => (mem_breaks hj).1, ih (i + 1)⟩
    · exact ih (i + 1)

theorem startOf_lt (hij : i < j) (hj : j < (ofChars text).count) :
    (ofChars text).startOf i < (ofChars text).startOf j := by
  have hincreasing : (0 :: breaks 0 text).Pairwise (· < ·) :=
    List.pairwise_cons.2 ⟨fun k hk => (mem_breaks hk).1, breaks_increasing 0 text⟩
  have hlength : j < (0 :: breaks 0 text).length := hj
  have hget : ∀ k, k < (0 :: breaks 0 text).length →
      (ofChars text).startOf k = ((0 :: breaks 0 text)[k]?).getD 0 := fun _ _ => by
    simp [startOf, ofChars]
  rw [hget i (by omega), hget j hlength, List.getElem?_eq_getElem (by omega),
    List.getElem?_eq_getElem hlength]
  exact List.pairwise_iff_getElem.1 hincreasing i j (by omega) hlength hij

theorem line_lt_count (text : List Char) (o : Nat) :
    ((ofChars text).position o).line < (ofChars text).count := by
  rw [position_eq, Position.line_after, count_ofChars]
  have := (List.take_sublist o text).count_le '\n'
  simp only [Position.origin]
  omega

theorem startOf_le_iff_line (hj : j < (ofChars text).count) :
    (ofChars text).startOf j ≤ min o text.length ↔ j ≤ ((ofChars text).position o).line := by
  have htext : text.take o ++ text.drop o = text := List.take_append_drop o text
  have hstarts := startOf_le_iff (a := text.take o) (b := text.drop o) (j := j) (by rwa [htext])
  rw [htext, List.length_take] at hstarts
  rw [hstarts, position_eq, Position.line_after]
  simp [Position.origin]

end Table

section Checked

/-- The search of the table, with its lookups checked. -/
def search? (l : Lines) (offset : Nat) : (steps : Nat) → (low high : Nat) → Option Nat
  | 0, low, _ => some low
  | steps + 1, low, high =>
    if high ≤ low + 1 then some low
    else do
      let middle := (low + high) / 2
      let start ← l.starts[middle]?
      if start ≤ offset then l.search? offset steps middle high
      else l.search? offset steps low middle

/-- The position of an offset, with the lookups and the subtraction checked. -/
def position? (l : Lines) (offset : Nat) : Option Position := do
  let index := min offset l.length
  let line ← l.search? index l.count 0 l.count
  let start ← l.starts[line]?
  if start ≤ index then some ⟨line, index - start, index⟩ else none

theorem getElem?_starts (hj : j < l.count) : l.starts[j]? = some (l.startOf j) := by
  have hj : j < l.starts.size := hj
  simp [startOf, hj]

theorem search?_eq (hhigh : high ≤ l.count) :
    l.search? o steps low high = some (l.search o steps low high) := by
  induction steps generalizing low high with
  | zero => rfl
  | succ steps ih =>
    rw [search?, search]
    split
    · rfl
    · have hmiddle : (low + high) / 2 < l.count := by omega
      simp only [getElem?_starts hmiddle, Option.bind_eq_bind, Option.bind_some]
      split
      · exact ih hhigh
      · exact ih (by omega)

theorem position?_eq (text : List Char) (o : Nat) :
    (ofChars text).position? o = some ((ofChars text).position o) := by
  have hcount := line_lt_count text o
  have hstart := (startOf_le_iff_line (o := o) hcount).2 (Nat.le_refl _)
  have hline : ((ofChars text).position o).line = (ofChars text).lineOf (min o text.length) := rfl
  rw [hline] at hcount hstart
  have hlength : (ofChars text).length = text.length := rfl
  simp only [position?, position, search?_eq (Nat.le_refl _), Option.bind_eq_bind, Option.bind_some,
    hlength]
  rw [← lineOf, getElem?_starts hcount, Option.bind_some, if_pos hstart]

end Checked

section Found

def StartsAt (l : Lines) (line o : Nat) : Prop :=
  line < l.count ∧ l.startOf line = o

/-- No line starts at the offset; one that did would have this place in the table. -/
structure Inserts (l : Lines) (place o : Nat) : Prop where
  within : place ≤ l.count
  before : ∀ j < place, l.startOf j < o
  behind : ∀ j < l.count, place ≤ j → o < l.startOf j

theorem StartsAt.line_eq (h : (ofChars text).StartsAt line (min o text.length)) :
    line = ((ofChars text).position o).line := by
  obtain ⟨hline, hstart⟩ := h
  refine Nat.le_antisymm ((startOf_le_iff_line hline).1 hstart.le) (Nat.le_of_not_lt fun hlt => ?_)
  have hlater := startOf_lt hlt (line_lt_count text o)
  have := (startOf_le_iff_line (o := o) (line_lt_count text o)).2 (Nat.le_refl _)
  omega

theorem Inserts.line_eq (h : (ofChars text).Inserts place (min o text.length)) :
    place = ((ofChars text).position o).line + 1 := by
  have hstart := (startOf_le_iff_line (o := o) (line_lt_count text o)).2 (Nat.le_refl _)
  have hlt : ((ofChars text).position o).line < place := by
    refine Nat.lt_of_not_le fun hle => ?_
    have := h.behind _ (line_lt_count text o) hle
    omega
  refine Nat.le_antisymm (Nat.le_of_not_lt fun hgt => ?_) hlt
  -- the line behind the found one starts in front of the offset as well
  have hbefore := h.before _ hgt
  have := (startOf_le_iff_line (Nat.lt_of_lt_of_le hgt h.within)).1 hbefore.le
  omega

theorem startsAt_or_inserts (text : List Char) (o : Nat) :
    (ofChars text).StartsAt ((ofChars text).position o).line (min o text.length) ∨
      (ofChars text).Inserts (((ofChars text).position o).line + 1) (min o text.length) := by
  have hcount := line_lt_count text o
  have hstart := (startOf_le_iff_line (o := o) hcount).2 (Nat.le_refl _)
  rcases hstart.eq_or_lt with heq | hlt
  · exact .inl ⟨hcount, heq⟩
  · refine .inr ⟨hcount, fun j hj => ?_, fun j hj hle => ?_⟩
    · rcases (Nat.le_of_lt_succ hj).eq_or_lt with rfl | hj
      · exact hlt
      · exact (startOf_lt hj hcount).trans hlt
    · exact Nat.lt_of_not_le fun h => Nat.not_lt.2 ((startOf_le_iff_line hj).1 h) hle

end Found

/-- A position counts what stands in front of an offset: all characters, the line breaks, and the
characters behind the last line break. -/
structure Counts (text : List Char) (offset : Nat) (p : Position) : Prop where
  index : p.index = min offset text.length
  line : p.line = (text.take p.index).count '\n'
  column : p.column = ((text.take p.index).rtakeWhile (· ≠ '\n')).length

theorem position_counts (text : List Char) (o : Nat) :
    Counts text o ((ofChars text).position o) := by
  have hindex : ((ofChars text).position o).index = min o text.length := by
    rw [position_eq, Position.index_after, List.length_take]
    simp [Position.origin]
  have htake : text.take ((ofChars text).position o).index = text.take o := by
    rw [hindex, List.take_eq_take_iff, Nat.min_assoc, Nat.min_self]
  constructor
  · exact hindex
  · rw [htake, position_eq, Position.line_after]
    simp [Position.origin]
  · rw [htake, position_eq, Position.column_after_origin]

theorem place_strictMonoOn (text : List Char) :
    StrictMonoOn (fun o => ((ofChars text).position o).place) (Set.Iic text.length) := by
  intro o _ o' ho' hlt
  have hsplit : text.take o' = text.take o ++ (text.take o').drop o := by
    conv => lhs; rw [← List.take_append_drop o (text.take o'), List.take_take, Nat.min_eq_left hlt.le]
  have hne : (text.take o').drop o ≠ [] := by
    have ho' : o' ≤ text.length := ho'
    rw [← List.length_pos_iff, List.length_drop, List.length_take]
    omega
  simp only [position_eq]
  rw [hsplit, Position.after_append]
  exact Position.place_lt_after _ hne

/-- The position of every offset is found by counting. Every lookup stays within the table. The offset
is found among the line starts or a place for it is, and the same line comes out. Positions are told
apart and ordered by line and column. -/
theorem offset_position (source : String) :
    (∀ offset, Counts source.toList offset ((ofString source).position offset) ∧
      (ofString source).position? offset = some ((ofString source).position offset) ∧
      (∀ line, (ofString source).StartsAt line (min offset source.toList.length) →
        line = ((ofString source).position offset).line) ∧
      (∀ place, (ofString source).Inserts place (min offset source.toList.length) →
        0 < place ∧ place - 1 = ((ofString source).position offset).line) ∧
      ((∃ line, (ofString source).StartsAt line (min offset source.toList.length)) ∨
        ∃ place, (ofString source).Inserts place (min offset source.toList.length))) ∧
    (ofString source).count = 1 + source.toList.count '\n' ∧
    StrictMonoOn (fun offset => ((ofString source).position offset).place)
      (Set.Iic source.toList.length) ∧
    Set.InjOn (fun offset => ((ofString source).position offset).place)
      (Set.Iic source.toList.length) := by
  refine ⟨fun offset => ⟨position_counts _ _, position?_eq _ _, fun _ => StartsAt.line_eq, ?_,
    (startsAt_or_inserts _ offset).imp (⟨_, ·⟩) (⟨_, ·⟩)⟩, ?_, place_strictMonoOn _,
    (place_strictMonoOn _).injOn⟩
  · intro place h
    rw [h.line_eq]
    exact ⟨Nat.succ_pos _, Nat.add_sub_cancel _ _⟩
  · rw [Nat.add_comm]
    exact count_ofChars

end Lines

end SoyTree
