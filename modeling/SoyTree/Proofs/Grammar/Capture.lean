import Mathlib.Data.Nat.Find
import SoyTree.Proofs.Expression.Trimmed

/-! # Raw captures

A raw capture takes the text in front of the first place at which its stop succeeds. It fails only if
there is no such place up to the end of the input.
-/

namespace SoyTree

namespace Cursor

variable {s t : Cursor} {text : List Char}

theorem reads_take (s : Cursor) (n : Nat) : s.Reads (s.rest.take n) (s.skip n) :=
  ⟨(List.take_append_drop n s.rest).symm, rfl⟩

theorem Reads.eq_skip (h : s.Reads text t) :
    text.length ≤ s.rest.length ∧ text = s.rest.take text.length ∧ t = s.skip text.length := by
  have htake : text = s.rest.take text.length := by
    rw [h.rest, List.take_left]
  refine ⟨h.length ▸ Nat.le_add_right _ _, htake, ?_⟩
  rw [h.eq, skip, ← htake]

end Cursor

namespace Rule

open Cursor Grammar

variable {β : Type} {stop : Rule β} {s t : Cursor} {text : List Char} {m n : Nat}

/-- The rule succeeds `n` characters behind `s`, and nowhere before. -/
structure StopsFirst (stop : Rule β) (s : Cursor) (n : Nat) : Prop where
  within : n ≤ s.rest.length
  stops : ∃ w u, stop.Yields (s.skip n) w u
  first : ∀ m < n, stop.Fails (s.skip m)

theorem misses_take (hn : n ≤ s.rest.length) :
    stop.Misses s (s.rest.take n) (s.skip n) ↔ ∀ m < n, stop.Fails (s.skip m) := by
  constructor
  · intro h m hm
    have hsplit : s.rest.take n = s.rest.take m ++ (s.rest.take n).drop m := by
      conv_lhs => rw [← List.take_append_drop m (s.rest.take n), List.take_take, Nat.min_eq_left hm.le]
    have hne : (s.rest.take n).drop m ≠ [] := by
      rw [← List.length_pos_iff, List.length_drop, List.length_take]
      omega
    obtain ⟨u, hr, hb⟩ := Reads.split (hsplit ▸ reads_take s n)
    have hf := h _ _ hsplit hne
    rw [← hr.position, ← hb.rest, hr.eq_skip.2.2, List.length_take,
      Nat.min_eq_left (hm.le.trans hn)] at hf
    exact hf
  · intro h a b hab hb
    obtain ⟨u, hr, hrest⟩ := Reads.split (hab ▸ reads_take s n)
    have hlength : n = a.length + b.length := by
      rw [← List.length_append, ← hab, List.length_take, Nat.min_eq_left hn]
    have hpos := List.length_pos_iff.2 hb
    rw [← hr.position, ← hrest.rest, hr.eq_skip.2.2]
    exact h a.length (by omega)

/-- The least place can be told from the text in front of it. -/
theorem stopsFirst_iff : (∃ w u, s.Reads text t ∧ stop.Yields t w u ∧ stop.Misses s text t) ↔
    ∃ n, StopsFirst stop s n ∧ text = s.rest.take n ∧ t = s.skip n := by
  constructor
  · rintro ⟨w, u, hr, hy, hmiss⟩
    obtain ⟨hle, htake, rfl⟩ := hr.eq_skip
    refine ⟨text.length, ⟨hle, ⟨w, u, hy⟩, (misses_take hle).1 ?_⟩, htake, rfl⟩
    rwa [← htake]
  · rintro ⟨n, hn, rfl, rfl⟩
    obtain ⟨w, u, hy⟩ := hn.stops
    exact ⟨w, u, reads_take s n, hy, (misses_take hn.within).2 hn.first⟩

theorem exists_stopsFirst :
    (∃ n, StopsFirst stop s n) ↔ ∃ n ≤ s.rest.length, ∃ w u, stop.Yields (s.skip n) w u := by
  classical
  constructor
  · rintro ⟨n, hn⟩
    exact ⟨n, hn.within, hn.stops⟩
  · intro h
    refine ⟨Nat.find h, (Nat.find_spec h).1, (Nat.find_spec h).2, fun m hm => fails_iff.2 ?_⟩
    intro w u hy
    exact Nat.find_min h hm ⟨hm.le.trans (Nat.find_spec h).1, w, u, hy⟩

theorem rawUntil_stopsFirst : (rawUntil stop).Yields s text t ↔
    ∃ n, StopsFirst stop s n ∧ text = s.rest.take n ∧ t = s.skip n := by
  rw [yields_rawUntil, ← stopsFirst_iff]
  constructor
  · rintro ⟨hr, ⟨w, u, hy⟩, hmiss⟩
    exact ⟨w, u, hr, hy, hmiss⟩
  · rintro ⟨w, u, hr, hy, hmiss⟩
    exact ⟨hr, ⟨w, u, hy⟩, hmiss⟩

theorem rawThrough_stopsFirst : (rawThrough stop).Yields s text t ↔
    ∃ n w, StopsFirst stop s n ∧ text = s.rest.take n ∧ stop.Yields (s.skip n) w t := by
  rw [yields_rawThrough]
  constructor
  · rintro ⟨m, w, hr, hy, hmiss⟩
    obtain ⟨n, hn, htext, rfl⟩ := stopsFirst_iff.1 ⟨w, t, hr, hy, hmiss⟩
    exact ⟨n, w, hn, htext, hy⟩
  · rintro ⟨n, w, hn, rfl, hy⟩
    exact ⟨s.skip n, w, reads_take s n, hy, (misses_take hn.within).2 hn.first⟩

/-- In front of a stop that begins with optional blanks no blank is left. -/
theorem StopsFirst.last_of_spaced (h : StopsFirst (spaced stop) s n) :
    ∀ c ∈ (s.rest.take n).getLast?, blank.accepts c = false := by
  intro c hc
  rw [← Bool.not_eq_true]
  intro hblank
  obtain ⟨before, htake⟩ := List.getLast?_eq_some_iff.1 hc
  obtain ⟨u, hr, hlast⟩ := Reads.split (htake ▸ reads_take s n)
  have hlength : before.length + 1 = n := by
    rw [← List.length_singleton (a := c), ← List.length_append, ← htake, List.length_take,
      Nat.min_eq_left h.within]
  have hfails : (spaced stop).Fails u := hr.eq_skip.2.2 ▸ h.first before.length (by omega)
  exact passesBlanks_spaced stop u (s.skip n) c hblank hlast (not_fails_iff.2 h.stops) hfails

/-- A raw capture succeeds if its stop does at some place up to the end of the input. It takes the text
in front of the first such place, and goes on there or behind the stop. Where the stop begins with
optional blanks, the text ends in none. -/
theorem rawUntil_first (stop : Rule β) (s : Cursor) :
    ((∃ text t, (rawUntil stop).Yields s text t) ↔
      ∃ n ≤ s.rest.length, ∃ w u, stop.Yields (s.skip n) w u) ∧
    ((∃ text t, (rawThrough stop).Yields s text t) ↔
      ∃ n ≤ s.rest.length, ∃ w u, stop.Yields (s.skip n) w u) ∧
    (∀ text t, (rawUntil stop).Yields s text t ↔
      ∃ n, StopsFirst stop s n ∧ text = s.rest.take n ∧ t = s.skip n) ∧
    (∀ text t, (rawThrough stop).Yields s text t ↔
      ∃ n w, StopsFirst stop s n ∧ text = s.rest.take n ∧ stop.Yields (s.skip n) w t) ∧
    ∀ text t, (rawUntil (spaced stop)).Yields s text t ∨ (rawThrough (spaced stop)).Yields s text t →
      ∀ c ∈ text.getLast?, c ∉ [' ', '\t', '\r', '\n'] := by
  refine ⟨?_, ?_, fun _ _ => rawUntil_stopsFirst, fun _ _ => rawThrough_stopsFirst, ?_⟩
  · rw [← exists_stopsFirst]
    constructor
    · rintro ⟨text, t, h⟩
      obtain ⟨n, hn, -⟩ := rawUntil_stopsFirst.1 h
      exact ⟨n, hn⟩
    · rintro ⟨n, hn⟩
      exact ⟨_, _, rawUntil_stopsFirst.2 ⟨n, hn, rfl, rfl⟩⟩
  · rw [← exists_stopsFirst]
    constructor
    · rintro ⟨text, t, h⟩
      obtain ⟨n, w, hn, -⟩ := rawThrough_stopsFirst.1 h
      exact ⟨n, hn⟩
    · rintro ⟨n, hn⟩
      obtain ⟨w, t, hy⟩ := hn.stops
      exact ⟨_, t, rawThrough_stopsFirst.2 ⟨n, w, hn, rfl, hy⟩⟩
  · intro text t h c hc hmem
    obtain ⟨n, hn, rfl⟩ : ∃ n, StopsFirst (spaced stop) s n ∧ text = s.rest.take n := by
      rcases h with h | h
      · obtain ⟨n, hn, htext, -⟩ := rawUntil_stopsFirst.1 h
        exact ⟨n, hn, htext⟩
      · obtain ⟨n, w, hn, htext, -⟩ := rawThrough_stopsFirst.1 h
        exact ⟨n, hn, htext⟩
    have hblank : blank.accepts c = true := List.contains_iff_mem.2 hmem
    rw [hn.last_of_spaced c hc] at hblank
    cases hblank

end Rule

end SoyTree
