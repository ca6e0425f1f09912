import SoyTree.Proofs.Rule.Reading

/-! # Outcomes of repetitions

A recursive rule has every property that its description hands on. Repetitions and raw captures
are described by the outcomes of the rule they repeat or stop at.
-/

namespace SoyTree.Rule

open Cursor

variable {α β : Type} {p : Rule α} {s t u : Cursor} {v : α} {vs : List α}

/-- Whatever `p` reads is related by `Q` to where reading starts and goes on. -/
def Ensures (p : Rule α) (Q : Cursor → α → Cursor → Prop) : Prop :=
  ∀ s v t, p.Yields s v t → Q s v t

theorem yields_beyond : (beyond u p).Yields s v t ↔
    s.rest.length < u.rest.length ∧ p.Yields s v t := by
  unfold Yields beyond
  constructor
  · rintro ⟨hint, h⟩
    split at h
    · exact ⟨‹_›, hint, h⟩
    · cases h
  · rintro ⟨hs, hint, h⟩
    exact ⟨hint, by rwa [if_pos hs]⟩

/-- A property that a description hands on from inner uses with a property `P`, which the recursive
rule is known to have, holds of the recursive rule. -/
theorem Ensures.recursive_of {step : Rule α → Rule α} {P Q : Cursor → α → Cursor → Prop}
    (hP : (recursive step).Ensures P)
    (h : ∀ p : Rule α, p.Ensures P → p.Ensures Q → (step p).Ensures Q) :
    (recursive step).Ensures Q := by
  intro s
  -- inner uses start later
  induction s using rest_induction with
  | h s ih =>
    intro v t hy
    have hp : (Rule.beyond s (Rule.recursive step)).Ensures P := by
      intro s' v' t' hy'
      exact hP s' v' t' (yields_beyond.1 hy').2
    have hi : (Rule.beyond s (Rule.recursive step)).Ensures Q := by
      intro s' v' t' hy'
      obtain ⟨hlt, hy'⟩ := yields_beyond.1 hy'
      exact ih s' hlt v' t' hy'
    refine h _ hp hi s v t ?_
    unfold Yields at hy ⊢
    rwa [recursive_eq] at hy

theorem Ensures.recursive {step : Rule α → Rule α} {Q : Cursor → α → Cursor → Prop}
    (h : ∀ p : Rule α, p.Ensures Q → (step p).Ensures Q) : (recursive step).Ensures Q :=
  Ensures.recursive_of (P := fun _ _ _ => True) (fun _ _ _ _ => trivial) fun p _ => h p

section Many

theorem many_eq (p : Rule α) (s : Cursor) :
    many p s = match p s with
      | .fail e => .ok [] s (some e)
      | .ok v t older =>
        match beyond s (many p) t with
        | .fail _ => .ok [v] t older
        | .ok vs u newer => .ok (v :: vs) u (Failure.later newer older) :=
  recursive_eq _ s

theorem not_fails_many : ¬ (many p).Fails s := by
  rintro ⟨e, h⟩
  rw [many_eq] at h
  cases hp : p s with
  | fail e => simp [hp] at h
  | ok v t older => cases hb : beyond s (many p) t <;> simp [hp, hb] at h

theorem Yields.many_nil (hf : p.Fails s) : (many p).Yields s [] s := by
  obtain ⟨e, hf⟩ := hf
  exact ⟨some e, by rw [many_eq, hf]⟩

theorem Yields.many_cons (hp : p.Yields s v u) (hu : u.rest.length < s.rest.length)
    (h : (many p).Yields u vs t) : (many p).Yields s (v :: vs) t := by
  obtain ⟨older, hp⟩ := hp
  obtain ⟨newer, hb⟩ := yields_beyond.2 ⟨hu, h⟩
  exact ⟨Failure.later newer older, by rw [many_eq, hp]; simp only [hb]⟩

/-- The first round of a repetition: no item, an item that moved on and more of them, or an item
that did not move on. -/
theorem yields_many_cases (h : (many p).Yields s vs t) :
    (vs = [] ∧ t = s ∧ p.Fails s) ∨
      ∃ v u ws, vs = v :: ws ∧ p.Yields s v u ∧
        (u.rest.length < s.rest.length ∧ (many p).Yields u ws t ∨
          ¬ u.rest.length < s.rest.length ∧ ws = [] ∧ t = u) := by
  obtain ⟨hint, h⟩ := h
  rw [many_eq] at h
  cases hp : p s with
  | fail e =>
    simp only [hp, Reply.ok.injEq] at h
    obtain ⟨rfl, rfl, -⟩ := h
    exact Or.inl ⟨rfl, rfl, e, hp⟩
  | ok v u older =>
    right
    cases hb : beyond s (many p) u with
    | fail e =>
      simp only [hp, hb, Reply.ok.injEq] at h
      obtain ⟨rfl, rfl, -⟩ := h
      refine ⟨v, u, [], rfl, ⟨older, hp⟩, Or.inr ⟨fun hlt => ?_, rfl, rfl⟩⟩
      unfold beyond at hb
      rw [if_pos hlt] at hb
      exact not_fails_many ⟨e, hb⟩
    | ok ws t' newer =>
      simp only [hp, hb, Reply.ok.injEq] at h
      obtain ⟨rfl, rfl, -⟩ := h
      exact ⟨v, u, ws, rfl, ⟨older, hp⟩, Or.inl (yields_beyond.1 ⟨newer, hb⟩)⟩

theorem Yields.many_induction {P : Cursor → List α → Cursor → Prop} (nil : ∀ s, P s [] s)
    (cons : ∀ s v u vs t, p.Yields s v u → P u vs t → P s (v :: vs) t)
    (h : (many p).Yields s vs t) : P s vs t := by
  induction vs generalizing s with
  | nil =>
    rcases yields_many_cases h with ⟨-, rfl, -⟩ | ⟨v, u, ws, hv, -⟩
    · exact nil t
    · cases hv
  | cons v vs ih =>
    rcases yields_many_cases h with ⟨hv, -⟩ | ⟨v', u, ws, hv, hp, hm⟩
    · cases hv
    · cases hv
      rcases hm with ⟨-, hm⟩ | ⟨-, rfl, rfl⟩
      · exact cons s v u vs t hp (ih hm)
      · exact cons s v t [] t hp (nil t)

/-- A repetition of a rule that always moves on stops where that rule fails. -/
theorem Yields.many_stop (hp : ∀ s v t, p.Yields s v t → t.rest.length < s.rest.length)
    (h : (many p).Yields s vs t) : p.Fails t := by
  induction vs generalizing s with
  | nil =>
    rcases yields_many_cases h with ⟨-, rfl, hf⟩ | ⟨v, u, ws, hv, -⟩
    · exact hf
    · cases hv
  | cons v vs ih =>
    rcases yields_many_cases h with ⟨hv, -⟩ | ⟨v', u, ws, hv, hv', hm⟩
    · cases hv
    · cases hv
      rcases hm with ⟨-, hm⟩ | ⟨hlt, -⟩
      · exact ih hm
      · exact absurd (hp s v u hv') hlt

theorem yields_many1 : (many1 p).Yields s vs t ↔
    ∃ v u ws, p.Yields s v u ∧ (many p).Yields u ws t ∧ vs = v :: ws := by
  change (p >>= fun v => many p >>= fun ws => pure (v :: ws)).Yields s vs t ↔ _
  simp only [yields_bind, yields_pure]
  constructor
  · rintro ⟨v, u, hp, ws, _, hm, rfl, rfl⟩
    exact ⟨v, u, ws, hp, hm, rfl⟩
  · rintro ⟨v, u, ws, hp, hm, rfl⟩
    exact ⟨v, u, hp, ws, t, hm, rfl, rfl⟩

end Many

section Separated

variable {separator : Rule β}

theorem yields_sepBy1 : (sepBy1 p separator).Yields s vs t ↔
    ∃ v u ws, p.Yields s v u ∧ (many (separator >>= fun _ => p)).Yields u ws t ∧ vs = v :: ws := by
  change (p >>= fun v => many (separator >>= fun _ => p) >>= fun ws =>
    pure (v :: ws)).Yields s vs t ↔ _
  simp only [yields_bind, yields_pure]
  constructor
  · rintro ⟨v, u, hp, ws, _, hm, rfl, rfl⟩
    exact ⟨v, u, ws, hp, hm, rfl⟩
  · rintro ⟨v, u, ws, hp, hm, rfl⟩
    exact ⟨v, u, hp, ws, t, hm, rfl, rfl⟩

theorem yields_sepBy : (sepBy p separator).Yields s vs t ↔
    (sepBy1 p separator).Yields s vs t ∨ (sepBy1 p separator).Fails s ∧ vs = [] ∧ t = s := by
  unfold Yields Fails sepBy
  constructor
  · rintro ⟨hint, h⟩
    cases hp : sepBy1 p separator s with
    | ok ws u hint' =>
      simp only [hp, Reply.ok.injEq] at h
      obtain ⟨rfl, rfl, -⟩ := h
      exact Or.inl ⟨hint', rfl⟩
    | fail e =>
      simp only [hp, Reply.ok.injEq] at h
      obtain ⟨rfl, rfl, -⟩ := h
      exact Or.inr ⟨⟨e, rfl⟩, rfl, rfl⟩
  · rintro (⟨hint, hp⟩ | ⟨⟨e, hp⟩, rfl, rfl⟩)
    · exact ⟨hint, by simp only [hp]⟩
    · exact ⟨some e, by simp only [hp]⟩

end Separated

section Raw

variable {stop : Rule β} {passed : List Char} {w : β}

/-- Nowhere within the text `passed`, which stands between `s` and `t`, does `stop` succeed. -/
def Misses (stop : Rule β) (s : Cursor) (passed : List Char) (t : Cursor) : Prop :=
  ∀ a b, passed = a ++ b → b ≠ [] → stop.Fails ⟨s.position.after a, b ++ t.rest⟩

theorem misses_nil : stop.Misses s [] t := by
  intro a b h hb
  exact absurd (List.append_eq_nil_iff.1 h.symm).2 hb

theorem misses_cons {position : Position} {rest : List Char} {c : Char} :
    stop.Misses ⟨position, rest⟩ (c :: passed) t ↔
      stop.Fails ⟨position, c :: passed ++ t.rest⟩ ∧
        stop.Misses ⟨position.next c, rest.tail⟩ passed t := by
  constructor
  · intro h
    refine ⟨h [] (c :: passed) rfl (by simp), fun a b hab hb => ?_⟩
    exact h (c :: a) b (by rw [hab]; rfl) hb
  · rintro ⟨hc, h⟩ a b hab hb
    cases a with
    | nil =>
      rw [List.nil_append] at hab
      rw [← hab]
      exact hc
    | cons c' a =>
      obtain ⟨rfl, rfl⟩ : c = c' ∧ passed = a ++ b := by simpa using hab
      exact h a b rfl hb

theorem Misses.append {a b : List Char} (h : stop.Misses s a u) (h' : stop.Misses u b t)
    (hs : s.Reads a u) (hu : u.Reads b t) : stop.Misses s (a ++ b) t := by
  intro x y hxy hy
  rcases List.append_eq_append_iff.1 hxy with ⟨c, rfl, rfl⟩ | ⟨c, rfl, rfl⟩
  · rw [Position.after_append, ← hs.position]
    exact h' c y rfl hy
  · cases c with
    | nil =>
      have hx : u.position = s.position.after x := by simpa using hs.position
      rw [← hx]
      exact h' [] b rfl hy
    | cons d c =>
      rw [List.append_assoc, ← hu.rest]
      exact h x (d :: c) rfl (by simp)

theorem passUntil_ok_iff {position : Position} {rest : List Char} :
    (∃ hint, passUntil stop position rest = .ok (passed, w) t hint) ↔
      ∃ m : Cursor, Reads ⟨position, rest⟩ passed m ∧ stop.Yields m w t ∧
        stop.Misses ⟨position, rest⟩ passed m := by
  induction rest generalizing position passed with
  | nil =>
    constructor
    · rintro ⟨hint, h⟩
      cases hs : stop ⟨position, []⟩ with
      | fail e => simp [passUntil, hs] at h
      | ok w' u hint' =>
        simp only [passUntil, hs, Reply.ok.injEq, Prod.mk.injEq] at h
        obtain ⟨⟨rfl, rfl⟩, rfl, -⟩ := h
        exact ⟨_, .refl _, ⟨hint', hs⟩, misses_nil⟩
    · rintro ⟨m, hr, ⟨hint, hs⟩, -⟩
      obtain ⟨rfl, -⟩ := List.append_eq_nil_iff.1 hr.rest.symm
      rw [hr.eq_of_nil] at hs
      exact ⟨hint, by simp only [passUntil, hs]⟩
  | cons c rest ih =>
    cases hs : stop ⟨position, c :: rest⟩ with
    | ok w' u hint' =>
      constructor
      · rintro ⟨hint, h⟩
        simp only [passUntil, hs, Reply.ok.injEq, Prod.mk.injEq] at h
        obtain ⟨⟨rfl, rfl⟩, rfl, -⟩ := h
        exact ⟨_, .refl _, ⟨hint', hs⟩, misses_nil⟩
      · rintro ⟨m, hr, ⟨hint, hm⟩, hmiss⟩
        cases passed with
        | nil =>
          rw [hr.eq_of_nil, hs] at hm
          exact ⟨hint, by simpa only [passUntil, hs, Reply.ok.injEq, Prod.mk.injEq, true_and] using hm⟩
        | cons c' passed =>
          have := (misses_cons.1 hmiss).1
          rw [← hr.rest] at this
          exact absurd this (Yields.not_fails ⟨hint', hs⟩)
    | fail e =>
      constructor
      · rintro ⟨hint, h⟩
        cases hp : passUntil stop (position.next c) rest with
        | fail e' => simp [passUntil, hs, hp] at h
        | ok x u hint' =>
          obtain ⟨passed', w'⟩ := x
          simp only [passUntil, hs, hp, Reply.ok.injEq, Prod.mk.injEq] at h
          obtain ⟨⟨rfl, rfl⟩, rfl, -⟩ := h
          obtain ⟨m, hr, hm, hmiss⟩ := ih.1 ⟨hint', hp⟩
          refine ⟨m, (reads_append position [c] rest).trans hr, hm, misses_cons.2 ⟨?_, hmiss⟩⟩
          rw [List.cons_append, ← hr.rest]
          exact ⟨e, hs⟩
      · rintro ⟨m, hr, hm, hmiss⟩
        cases passed with
        | nil =>
          rw [hr.eq_of_nil] at hm
          exact absurd ⟨e, hs⟩ hm.not_fails
        | cons c' passed =>
          obtain ⟨rfl, hr'⟩ : c = c' ∧ rest = passed ++ m.rest := by simpa using hr.rest
          have hr'' : Reads ⟨position.next c, rest⟩ passed m := ⟨hr', hr.position⟩
          obtain ⟨hint, hp⟩ := ih.2 ⟨m, hr'', hm, (misses_cons.1 hmiss).2⟩
          exact ⟨Failure.later hint (some e), by simp only [passUntil, hs, hp]⟩

/-- The scan passes the text in front of the first place where `stop` succeeds. -/
theorem yields_upTo {x : List Char × β} : (upTo stop).Yields s x t ↔
    ∃ m : Cursor, s.Reads x.1 m ∧ stop.Yields m x.2 t ∧ stop.Misses s x.1 m :=
  passUntil_ok_iff

theorem yields_rawUntil : (rawUntil stop).Yields s passed t ↔
    s.Reads passed t ∧ (∃ w u, stop.Yields t w u) ∧ stop.Misses s passed t := by
  change (upTo (ahead stop) >>= fun found => pure found.1).Yields s passed t ↔ _
  have hm : ∀ a m, (ahead stop).Misses s a m ↔ stop.Misses s a m := by
    intro a m
    simp only [Misses, fails_ahead]
  simp only [yields_bind, yields_pure, yields_upTo, yields_ahead, hm]
  constructor
  · rintro ⟨x, m, ⟨m', hr, ⟨rfl, u, hs⟩, hmiss⟩, rfl, rfl⟩
    exact ⟨hr, ⟨x.2, u, hs⟩, hmiss⟩
  · rintro ⟨hr, ⟨w, u, hs⟩, hmiss⟩
    exact ⟨(passed, w), t, ⟨t, hr, ⟨rfl, u, hs⟩, hmiss⟩, rfl, rfl⟩

theorem yields_rawThrough : (rawThrough stop).Yields s passed t ↔
    ∃ m w, s.Reads passed m ∧ stop.Yields m w t ∧ stop.Misses s passed m := by
  change (rawUntil stop >>= fun passed => stop >>= fun _ => pure passed).Yields s passed t ↔ _
  simp only [yields_bind, yields_pure, yields_rawUntil]
  constructor
  · rintro ⟨a, m, ⟨hr, -, hmiss⟩, w, u, hs, rfl, rfl⟩
    exact ⟨m, w, hr, hs, hmiss⟩
  · rintro ⟨m, w, hr, hs, hmiss⟩
    exact ⟨passed, m, ⟨hr, ⟨w, t, hs⟩, hmiss⟩, w, t, hs, rfl, rfl⟩

theorem misses_char {c : Char} : (char c).Misses s passed t ↔ c ∉ passed := by
  constructor
  · intro h hc
    obtain ⟨a, b, rfl⟩ := List.append_of_mem hc
    exact fails_char.1 (h a (c :: b) rfl (by simp)) rfl
  · rintro h a b rfl hb
    refine fails_char.2 fun hc => h ?_
    cases b with
    | nil => exact absurd rfl hb
    | cons c' b =>
      obtain rfl : c' = c := by simpa using hc
      simp

theorem yields_rawThrough_char {c : Char} : (rawThrough (char c)).Yields s passed t ↔
    c ∉ passed ∧ s.Reads (passed ++ [c]) t := by
  simp only [yields_rawThrough, misses_char, yields_char]
  constructor
  · rintro ⟨m, -, hr, hc, hmiss⟩
    exact ⟨hmiss, hr.trans hc⟩
  · rintro ⟨hmiss, h⟩
    refine ⟨⟨s.position.after passed, c :: t.rest⟩, (), ⟨?_, rfl⟩, ⟨rfl, ?_⟩, hmiss⟩
    · rw [h.rest, List.append_assoc]
      rfl
    · rw [h.position, Position.after_append]

end Raw

end SoyTree.Rule
