import Mathlib.Data.List.DropRight
import SoyTree.Source.Lines

/-! # Positions by counting

The line of an offset is the number of line breaks in front of it, and its column is what stands
behind the last of them. The table of line starts finds both by halving.
-/

namespace SoyTree

namespace Position

variable {p : Position} {a : List Char}

theorem line_after : (p.after a).line = p.line + a.count '\n' := by
  induction a generalizing p with
  | nil => simp
  | cons c a ih =>
    rw [after_cons, ih]
    by_cases hc : c = '\n'
    · simp only [next, if_pos hc, List.count_cons, beq_iff_eq]
      omega
    · simp [next, hc]

theorem column_after_origin :
    (origin.after a).column = (a.rtakeWhile (· ≠ '\n')).length := by
  induction a using List.reverseRecOn with
  | nil => simp [origin]
  | append_singleton a c ih =>
    rw [after_append, after_cons, after_nil, List.rtakeWhile_concat]
    by_cases hc : c = '\n'
    · simp [next, hc]
    · simp [next, hc, ih]

end Position

namespace Lines

variable {l : Lines} {a b : List Char} {i j o low high line steps : Nat}

section Breaks

@[simp] theorem breaks_nil : breaks i [] = [] := rfl

theorem breaks_append : breaks i (a ++ b) = breaks i a ++ breaks (i + a.length) b := by
  induction a generalizing i with
  | nil => simp
  | cons c a ih =>
    have hlength : i + (c :: a).length = i + 1 + a.length := by
      rw [List.length_cons]
      omega
    rw [List.cons_append, breaks, breaks, ih, hlength]
    split <;> rfl

theorem length_breaks : (breaks i a).length = a.count '\n' := by
  induction a generalizing i with
  | nil => rfl
  | cons c a ih =>
    rw [breaks]
    split
    · rename_i hc
      simp [ih, hc]
    · rename_i hc
      simp [ih, hc]

theorem mem_breaks (h : j ∈ breaks i a) : i < j ∧ j ≤ i + a.length := by
  induction a generalizing i with
  | nil => cases h
  | cons c a ih =>
    have hrest : j ∈ breaks (i + 1) a → i < j ∧ j ≤ i + (c :: a).length := by
      intro h
      have := ih h
      rw [List.length_cons]
      omega
    rw [breaks] at h
    split at h
    · rcases List.mem_cons.1 h with rfl | h
      · rw [List.length_cons]
        omega
      · exact hrest h
    · exact hrest h

end Breaks

section Starts

theorem count_ofChars : (ofChars a).count = a.count '\n' + 1 := by
  simp [count, ofChars, length_breaks]

/-- The table of a text, cut where its second part starts. -/
theorem startOf_append : (ofChars (a ++ b)).startOf j =
    (((0 :: breaks 0 a) ++ breaks a.length b)[j]?).getD 0 := by
  simp [startOf, ofChars, breaks_append]

theorem startOf_le_iff (hj : j < (ofChars (a ++ b)).count) :
    (ofChars (a ++ b)).startOf j ≤ a.length ↔ j ≤ a.count '\n' := by
  rw [startOf_append]
  rw [count_ofChars, List.count_append] at hj
  have hlength : (0 :: breaks 0 a).length = a.count '\n' + 1 := by
    rw [List.length_cons, length_breaks]
  rcases Nat.lt_or_ge j (a.count '\n' + 1) with hlt | hge
  · have hin : j < (0 :: breaks 0 a).length := by rwa [hlength]
    rw [List.getElem?_append_left hin, List.getElem?_eq_getElem hin, Option.getD_some]
    refine ⟨fun _ => by omega, fun _ => ?_⟩
    rcases List.mem_cons.1 (List.getElem_mem hin) with h | h
    · omega
    · have := (mem_breaks h).2
      omega
  · have hin : j - (0 :: breaks 0 a).length < (breaks a.length b).length := by
      rw [length_breaks, hlength]
      omega
    rw [List.getElem?_append_right (by omega), List.getElem?_eq_getElem hin, Option.getD_some]
    have := (mem_breaks (List.getElem_mem hin)).1
    omega

theorem startOf_add_column (a b : List Char) :
    (ofChars (a ++ b)).startOf (Position.origin.after a).line + (Position.origin.after a).column =
      a.length := by
  induction a using List.reverseRecOn generalizing b with
  | nil => simp [startOf, ofChars, Position.origin]
  | append_singleton a c ih =>
    have hpair : (a ++ [c]) ++ b = a ++ (c :: b) := by simp
    rw [Position.after_append, Position.after_cons, Position.after_nil, List.length_append,
      List.length_singleton]
    by_cases hc : c = '\n'
    · -- the line starts at the break `c`
      subst hc
      have hline : (Position.origin.after a).line = (breaks 0 a).length := by
        rw [Position.line_after, length_breaks]
        simp [Position.origin]
      rw [hpair, startOf_append]
      simp [Position.next, hline, breaks]
    · have hnext : (Position.next (Position.origin.after a) c) =
          ⟨(Position.origin.after a).line, (Position.origin.after a).column + 1,
            (Position.origin.after a).index + 1⟩ := if_neg hc
      have := ih (c :: b)
      rw [hnext, hpair]
      simp only
      omega

end Starts

section Search

/-- Halving keeps the wanted line between the bounds, and comes to an end in time. -/
theorem search_eq (hline : ∀ j < l.count, l.startOf j ≤ o ↔ j ≤ line) (hlow : low ≤ line)
    (hhigh : line < high) (hcount : high ≤ l.count) (hsteps : high ≤ low + steps + 1) :
    l.search o steps low high = line := by
  induction steps generalizing low high with
  | zero =>
    rw [search]
    omega
  | succ steps ih =>
    rw [search]
    split
    · omega
    · have hmiddle := hline ((low + high) / 2) (by omega)
      dsimp only
      split
      · rename_i h
        exact ih (hmiddle.1 h) hhigh hcount (by omega)
      · rename_i h
        refine ih hlow ?_ (by omega) (by omega)
        exact Nat.lt_of_not_le fun hle => h (hmiddle.2 hle)

/-- The table finds the position that counting gives. -/
theorem position_eq (text : List Char) (o : Nat) :
    (ofChars text).position o = Position.origin.after (text.take o) := by
  have hlength : (text.take o).length = min o text.length := List.length_take
  have htext : text.take o ++ text.drop o = text := List.take_append_drop o text
  have hline : (Position.origin.after (text.take o)).line = (text.take o).count '\n' := by
    rw [Position.line_after]
    simp [Position.origin]
  have hsearch : (ofChars text).lineOf (min o text.length) =
      (Position.origin.after (text.take o)).line := by
    rw [lineOf, hline]
    refine search_eq (fun j hj => ?_) (Nat.zero_le _) ?_ (Nat.le_refl _) (by omega)
    · rw [← htext] at hj
      have := startOf_le_iff hj
      rwa [htext, hlength] at this
    · rw [count_ofChars]
      exact Nat.lt_succ_of_le ((List.take_sublist o text).count_le _)
  have hcolumn := startOf_add_column (text.take o) (text.drop o)
  rw [htext, hlength] at hcolumn
  have hindex : (Position.origin.after (text.take o)).index = min o text.length := by
    rw [Position.index_after, hlength]
    simp [Position.origin]
  have hsize : (ofChars text).length = text.length := rfl
  simp only [position, hsize, hsearch]
  generalize Position.origin.after (text.take o) = p at hcolumn hindex
  obtain ⟨line, column, index⟩ := p
  simp only [Position.mk.injEq, true_and]
  simp only at hcolumn hindex
  omega

end Search

end Lines

end SoyTree
