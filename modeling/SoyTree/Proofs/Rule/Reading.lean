import SoyTree.Proofs.Rule.Outcome
import SoyTree.Rule.Chars

/-! # Text between cursors

A rule that succeeds moves over a text. The rules for characters are described by the text they
move over and by what stands behind it.
-/

namespace SoyTree

section Runs

variable {p : Char → Bool} {a b : List Char}

theorem forall_head?_append {P : Char → Prop} (ha : ∀ c ∈ a.head?, P c) (hb : ∀ c ∈ b.head?, P c) :
    ∀ c ∈ (a ++ b).head?, P c := by
  cases a with
  | nil => exact hb
  | cons c a => exact ha

theorem takeWhile_of_stop (ha : ∀ c ∈ a, p c = true) (hb : ∀ c ∈ b.head?, p c = false) :
    (a ++ b).takeWhile p = a := by
  rw [List.takeWhile_append_of_pos ha]
  cases b with
  | nil => simp
  | cons c b => simp [hb c rfl]

theorem takeWhile_append_stop {c : Char} (hc : p c = false) (a b : List Char) :
    (a ++ c :: b).takeWhile p = a.takeWhile p := by
  induction a with
  | nil => simp [hc]
  | cons d a ih => cases hd : p d <;> simp [hd, ih]

theorem dropWhile_of_stop (ha : ∀ c ∈ a, p c = true) (hb : ∀ c ∈ b.head?, p c = false) :
    (a ++ b).dropWhile p = b := by
  rw [List.dropWhile_append_of_pos ha]
  cases b with
  | nil => simp
  | cons c b => simp [hb c rfl]

theorem stop_of_dropWhile (l : List Char) : ∀ c ∈ (l.dropWhile p).head?, p c = false := by
  intro c hc
  have h := List.head?_dropWhile_not p l
  rw [Option.mem_def.1 hc] at h
  simpa using h

end Runs

/-- The text that stands between `s` and `t`. -/
structure Cursor.Reads (s : Cursor) (text : List Char) (t : Cursor) : Prop where
  rest : s.rest = text ++ t.rest
  position : t.position = s.position.after text

namespace Cursor

variable {s t u : Cursor} {a b : List Char}

theorem Reads.refl (s : Cursor) : s.Reads [] s :=
  ⟨rfl, rfl⟩

theorem reads_append (p : Position) (a rest : List Char) :
    Reads ⟨p, a ++ rest⟩ a ⟨p.after a, rest⟩ :=
  ⟨rfl, rfl⟩

theorem Reads.trans (h : s.Reads a t) (h' : t.Reads b u) : s.Reads (a ++ b) u where
  rest := by rw [h.rest, h'.rest, List.append_assoc]
  position := by rw [h'.position, h.position, Position.after_append]

/-- Between two texts there is a place where the second starts. -/
theorem Reads.split (h : s.Reads (a ++ b) u) : ∃ t, s.Reads a t ∧ t.Reads b u := by
  refine ⟨⟨s.position.after a, b ++ u.rest⟩, ⟨?_, rfl⟩, rfl, ?_⟩
  · rw [h.rest, List.append_assoc]
  · rw [h.position, Position.after_append]

theorem Reads.split_cons {c : Char} (h : s.Reads (c :: b) u) : ∃ t, s.Reads [c] t ∧ t.Reads b u :=
  Reads.split (a := [c]) h

theorem Reads.head? (h : s.Reads a t) : s.rest.head? = (a ++ t.rest).head? := by
  rw [h.rest]

theorem Reads.head_cons {c : Char} (h : s.Reads (c :: a) t) : s.rest.head? = some c := by
  rw [h.rest]
  rfl

/-- What holds of the first character of a text and of what stands behind it holds of the first
character from its start on. -/
theorem Reads.forall_head {P : Char → Prop} (h : s.Reads a t) (ha : ∀ c ∈ a.head?, P c)
    (ht : ∀ c ∈ t.rest.head?, P c) : ∀ c ∈ s.rest.head?, P c := by
  rw [h.rest]
  exact forall_head?_append ha ht

theorem Reads.forall_cons {P : Char → Prop} {c : Char} (h : s.Reads (c :: a) t) (hc : P c) :
    ∀ d ∈ s.rest.head?, P d := by
  rw [h.head_cons]
  rintro d (_ | _)
  exact hc

theorem Reads.forall_of_ne_nil {P : Char → Prop} (h : s.Reads a t) (hne : a ≠ [])
    (ha : ∀ c ∈ a.head?, P c) : ∀ c ∈ s.rest.head?, P c := by
  rw [h.rest]
  cases a with
  | nil => exact absurd rfl hne
  | cons c a => exact ha

theorem Reads.lt (h : s.Reads a t) (ha : a ≠ []) : t.rest.length < s.rest.length := by
  have := List.length_pos_iff.2 ha
  rw [h.rest, List.length_append]
  omega

theorem Reads.le (h : s.Reads a t) : t.rest.length ≤ s.rest.length := by
  rw [h.rest, List.length_append]
  omega

theorem Reads.eq_of_nil (h : s.Reads [] t) : t = s := by
  obtain ⟨h, h'⟩ := h
  cases s
  cases t
  simp_all

theorem Reads.eq (h : s.Reads a t) : t = ⟨s.position.after a, s.rest.drop a.length⟩ := by
  obtain ⟨h, h'⟩ := h
  cases t
  simp_all

theorem Reads.length (h : s.Reads a t) : s.rest.length = a.length + t.rest.length := by
  rw [h.rest, List.length_append]

/-- The cursor `t` stands at `s` or behind it. -/
def Reaches (s t : Cursor) : Prop :=
  ∃ text, s.Reads text t

theorem Reads.reaches (h : s.Reads a t) : s.Reaches t :=
  ⟨a, h⟩

theorem Reaches.refl (s : Cursor) : s.Reaches s :=
  (Reads.refl s).reaches

theorem Reaches.trans (h : s.Reaches t) (h' : t.Reaches u) : s.Reaches u := by
  obtain ⟨a, ha⟩ := h
  obtain ⟨b, hb⟩ := h'
  exact (ha.trans hb).reaches

theorem rest_induction {P : Cursor → Prop}
    (h : ∀ s, (∀ t, t.rest.length < s.rest.length → P t) → P s) (s : Cursor) : P s :=
  (measure fun s : Cursor => s.rest.length).wf.induction s h

end Cursor

namespace Rule

open Cursor

variable {s t : Cursor} {cls : CharClass} {c : Char} {cs : List Char} {d : Unit}

theorem yields_one : (one cls).Yields s c t ↔ cls.accepts c = true ∧ s.Reads [c] t := by
  obtain ⟨position, rest⟩ := s
  unfold Yields one
  cases rest with
  | nil =>
    simp only [reduceCtorEq, exists_false, false_iff]
    rintro ⟨-, h⟩
    simpa using h.rest
  | cons c' rest =>
    constructor
    · rintro ⟨hint, h⟩
      cases ha : cls.accepts c' with
      | false => simp [ha] at h
      | true =>
        simp only [ha, if_true, Reply.ok.injEq] at h
        obtain ⟨rfl, rfl, -⟩ := h
        exact ⟨ha, reads_append position [c'] rest⟩
    · rintro ⟨ha, h⟩
      obtain ⟨rfl, hr⟩ : c' = c ∧ rest = t.rest := by simpa using h.rest
      have ht : t = ⟨position.next c', rest⟩ := by simpa using h.eq
      exact ⟨none, by simp [ha, ht]⟩

theorem fails_one : (one cls).Fails s ↔ ∀ c ∈ s.rest.head?, cls.accepts c = false := by
  obtain ⟨position, rest⟩ := s
  unfold Fails one
  cases rest with
  | nil => simp
  | cons c rest => cases ha : cls.accepts c <;> simp [ha]

theorem yields_char : (char c).Yields s d t ↔ s.Reads [c] t := by
  simp [char, yields_void, yields_one, CharClass.oneOf]

theorem fails_char : (char c).Fails s ↔ s.rest.head? ≠ some c := by
  simp only [char, fails_void, fails_one, CharClass.oneOf]
  cases s.rest.head? <;> simp

theorem yields_anyChar : anyChar.Yields s c t ↔ s.Reads [c] t := by
  simp [anyChar, yields_one, CharClass.satisfying]

theorem yields_chars : (chars cs).Yields s d t ↔ s.Reads cs t := by
  induction cs generalizing s with
  | nil =>
    change (pure () : Rule Unit).Yields s d t ↔ _
    rw [yields_pure]
    constructor
    · rintro ⟨-, rfl⟩
      exact .refl t
    · intro h
      exact ⟨rfl, h.eq_of_nil⟩
  | cons c cs ih =>
    change (char c >>= fun _ => chars cs).Yields s d t ↔ _
    simp only [yields_bind, yields_char, ih]
    constructor
    · rintro ⟨-, u, h, h'⟩
      exact h.trans h'
    · intro h
      refine ⟨(), ⟨s.position.next c, cs ++ t.rest⟩, ⟨h.rest, rfl⟩, rfl, h.position⟩

theorem fails_chars : (chars cs).Fails s ↔ ¬ cs <+: s.rest := by
  rw [fails_iff]
  constructor
  · rintro h ⟨rest, hr⟩
    exact h () ⟨s.position.after cs, rest⟩ (yields_chars.2 ⟨hr.symm, rfl⟩)
  · intro h d t hy
    exact h ⟨t.rest, (yields_chars.1 hy).rest.symm⟩

theorem yields_text {text : String} : (Rule.text text).Yields s d t ↔ s.Reads text.toList t :=
  yields_chars

theorem fails_text {text : String} : (Rule.text text).Fails s ↔ ¬ text.toList <+: s.rest :=
  fails_chars

theorem yields_run : (run cls).Yields s cs t ↔ s.Reads cs t ∧ (∀ c ∈ cs, cls.accepts c = true) ∧
    ∀ c ∈ t.rest.head?, cls.accepts c = false := by
  constructor
  · rintro ⟨hint, h⟩
    simp only [run, Reply.ok.injEq] at h
    obtain ⟨rfl, rfl, -⟩ := h
    -- what the run leaves is what stands behind the accepted characters
    have hs := List.takeWhile_append_dropWhile (p := cls.accepts) (l := s.rest)
    have hd : (s.skip (s.rest.takeWhile cls.accepts).length).rest = s.rest.dropWhile cls.accepts := by
      have := congrArg (List.drop (s.rest.takeWhile cls.accepts).length) hs
      rw [List.drop_left] at this
      exact this.symm
    refine ⟨⟨by rw [hd, hs], ?_⟩, fun c hc => ?_, by rw [hd]; exact stop_of_dropWhile _⟩
    · have := congrArg (List.take (s.rest.takeWhile cls.accepts).length) hs
      rw [List.take_left] at this
      exact congrArg s.position.after this.symm
    · exact List.all_eq_true.1 List.all_takeWhile c hc
  · rintro ⟨h, ha, hb⟩
    have ht : s.rest.takeWhile cls.accepts = cs := by rw [h.rest, takeWhile_of_stop ha hb]
    have hs : s.skip cs.length = t := by
      rw [h.eq]
      unfold Cursor.skip
      rw [h.rest, List.take_left]
    refine ⟨some (unexpected t cls.expected), ?_⟩
    simp only [run, ht, hs]

theorem run1_eq_run {rest : List Char} (hr : s.rest = c :: rest) (ha : cls.accepts c = true) :
    run1 cls s = run cls s := by
  unfold run1
  simp only [hr, ha, if_true]

theorem fails_run1 : (run1 cls).Fails s ↔ ∀ c ∈ s.rest.head?, cls.accepts c = false := by
  unfold Fails run1
  cases hr : s.rest with
  | nil => simp
  | cons c rest => cases ha : cls.accepts c <;> simp [run, ha]

theorem yields_run1 : (run1 cls).Yields s cs t ↔ cs ≠ [] ∧ s.Reads cs t ∧
    (∀ c ∈ cs, cls.accepts c = true) ∧ ∀ c ∈ t.rest.head?, cls.accepts c = false := by
  rw [← yields_run]
  cases hr : s.rest with
  | nil =>
    have hf : (run1 cls).Fails s := fails_run1.2 (by simp [hr])
    refine ⟨fun h => absurd hf h.not_fails, fun ⟨hcs, h⟩ => ?_⟩
    have := (yields_run.1 h).1.rest
    rw [hr] at this
    exact absurd (List.append_eq_nil_iff.1 this.symm).1 hcs
  | cons c rest =>
    cases ha : cls.accepts c with
    | false =>
      have hf : (run1 cls).Fails s := fails_run1.2 (by simp [hr, ha])
      refine ⟨fun h => absurd hf h.not_fails, fun ⟨hcs, h⟩ => ?_⟩
      obtain ⟨hs, hall, -⟩ := yields_run.1 h
      cases cs with
      | nil => exact absurd rfl hcs
      | cons c' cs =>
        obtain ⟨rfl, -⟩ : c = c' ∧ rest = cs ++ t.rest := by simpa [hr] using hs.rest
        exact absurd (hall c (by simp)) (by simp [ha])
    | true =>
      unfold Yields
      rw [run1_eq_run hr ha]
      refine ⟨fun h => ⟨?_, h⟩, And.right⟩
      rintro rfl
      obtain ⟨hs, -, hstop⟩ := yields_run.1 h
      rw [hs.eq_of_nil, hr] at hstop
      exact absurd (hstop c rfl) (by simp [ha])

theorem yields_endOfInput : endOfInput.Yields s d t ↔ s.rest = [] ∧ t = s := by
  unfold Yields endOfInput
  cases hr : s.rest <;> simp [eq_comm]

end Rule

end SoyTree
