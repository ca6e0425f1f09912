import Mathlib.Data.List.Forall2
import SoyTree.Proofs.Rule.Repetition

/-! # Two runs side by side

Two rules are used at related cursors. Either both fail, or both succeed with corresponding values and
at related cursors again. Each combinator relates what is built from related parts.
-/

namespace SoyTree.Rule

variable {α β γ δ : Type} {f : α → β} {g : γ → δ} {p p' : Rule α} {q q' : Rule β}
  {R R' S S' T : Cursor → Cursor → Prop} {s s' : Cursor}

/-- At two cursors both rules fail, or both succeed: the value of the second is `f` of the value of
the first, and `S` relates the cursors behind. -/
def Agrees (S : Cursor → Cursor → Prop) (f : α → β) (p : Rule α) (q : Rule β) (s s' : Cursor) : Prop :=
  (p.Fails s ∧ q.Fails s') ∨ ∃ v t t', p.Yields s v t ∧ q.Yields s' (f v) t' ∧ S t t'

/-- The rules agree at all cursors that `R` relates. -/
def Relates (R S : Cursor → Cursor → Prop) (f : α → β) (p : Rule α) (q : Rule β) : Prop :=
  ∀ ⦃s s'⦄, R s s' → Agrees S f p q s s'

theorem Relates.fails (h : Relates R S f p q) (hs : R s s') : p.Fails s ↔ q.Fails s' := by
  rcases h hs with ⟨hp, hq⟩ | ⟨v, t, t', hp, hq, -⟩
  · exact iff_of_true hp hq
  · exact iff_of_false hp.not_fails hq.not_fails

theorem Relates.yields {v : α} {t : Cursor} (h : Relates R S f p q) (hs : R s s')
    (hp : p.Yields s v t) : ∃ t', q.Yields s' (f v) t' ∧ S t t' := by
  rcases h hs with ⟨hf, -⟩ | ⟨w, u, t', hp', hq, ht⟩
  · exact absurd hf hp.not_fails
  · obtain ⟨rfl, rfl⟩ := hp.unique hp'
    exact ⟨t', hq, ht⟩

theorem Relates.weaken (h : Relates R S f p q) (hR : ∀ ⦃s s'⦄, R' s s' → R s s')
    (hS : ∀ ⦃t t'⦄, S t t' → S' t t') : Relates R' S' f p q := by
  intro s s' hs
  rcases h (hR hs) with hf | ⟨v, t, t', hp, hq, ht⟩
  · exact Or.inl hf
  · exact Or.inr ⟨v, t, t', hp, hq, hS ht⟩

section Sequence

theorem relates_pure {v : α} {w : β} (h : w = f v) : Relates R R f (pure v) (pure w) :=
  fun s s' hs => Or.inr ⟨v, s, s', yields_pure.2 ⟨rfl, rfl⟩, yields_pure.2 ⟨h.symm, rfl⟩, hs⟩

theorem Relates.bind {k : α → Rule γ} {l : β → Rule δ} (h : Relates R S f p q)
    (hk : ∀ v, Relates S T g (k v) (l (f v))) : Relates R T g (p >>= k) (q >>= l) := by
  intro s s' hs
  rcases h hs with ⟨hp, hq⟩ | ⟨v, t, t', hp, hq, ht⟩
  · exact Or.inl ⟨hp.bind, hq.bind⟩
  · rcases hk v ht with ⟨hk, hl⟩ | ⟨x, u, u', hk, hl, hu⟩
    · exact Or.inl ⟨.bind_later hp hk, .bind_later hq hl⟩
    · exact Or.inr ⟨x, u, u', hp.bind hk, hq.bind hl, hu⟩

theorem Relates.void (h : Relates R S f p q) : Relates R S id (void p) (void q) :=
  Relates.bind h fun _ => relates_pure rfl

theorem Relates.check {q : Rule α} {k : α → Except Rejection γ} (h : Relates R S id p q) :
    Relates R S id (check p k) (check q k) := by
  intro s s' hs
  rcases h hs with ⟨hp, hq⟩ | ⟨v, t, t', hp, hq, ht⟩
  · left
    constructor
    · refine fails_iff.2 fun w u hy => ?_
      obtain ⟨v, hv, -⟩ := yields_check.1 hy
      exact hv.not_fails hp
    · refine fails_iff.2 fun w u hy => ?_
      obtain ⟨v, hv, -⟩ := yields_check.1 hy
      exact hv.not_fails hq
  · cases hk : k v with
    | ok w =>
      exact Or.inr ⟨w, t, t', yields_check.2 ⟨v, hp, hk⟩, yields_check.2 ⟨v, hq, hk⟩, ht⟩
    | error why =>
      left
      constructor
      · refine fails_iff.2 fun w u hy => ?_
        obtain ⟨v', hv, hk'⟩ := yields_check.1 hy
        obtain ⟨rfl, -⟩ := hv.unique hp
        simp [hk] at hk'
      · refine fails_iff.2 fun w u hy => ?_
        obtain ⟨v', hv, hk'⟩ := yields_check.1 hy
        obtain ⟨rfl, -⟩ := hv.unique hq
        simp [hk] at hk'

/-- The marks of corresponding nodes run between related cursors. -/
theorem Relates.marked {build : Mark → α → γ} {build' : Mark → β → δ} (h : Relates R S f p q)
    (hb : ∀ ⦃s s' t t'⦄ v, R s s' → S t t' →
      build' ⟨s'.position, t'.position⟩ (f v) = g (build ⟨s.position, t.position⟩ v)) :
    Relates R S g (marked build p) (marked build' q) := by
  intro s s' hs
  rcases h hs with ⟨hp, hq⟩ | ⟨v, t, t', hp, hq, ht⟩
  · exact Or.inl ⟨fails_marked.2 hp, fails_marked.2 hq⟩
  · exact Or.inr ⟨_, t, t', yields_marked.2 ⟨v, hp, rfl⟩,
      yields_marked.2 ⟨f v, hq, (hb v hs ht).symm⟩, ht⟩

theorem Relates.ahead (h : Relates R S f p q) : Relates R R f (ahead p) (ahead q) := by
  intro s s' hs
  rcases h hs with ⟨hp, hq⟩ | ⟨v, t, t', hp, hq, -⟩
  · exact Or.inl ⟨fails_ahead.2 hp, fails_ahead.2 hq⟩
  · exact Or.inr ⟨v, s, s', yields_ahead.2 ⟨rfl, t, hp⟩, yields_ahead.2 ⟨rfl, t', hq⟩, hs⟩

end Sequence

section Alternatives

theorem Relates.either (h : Relates R S f p q) (h' : Relates R S f p' q') :
    Relates R S f (either p p') (either q q') := by
  intro s s' hs
  rcases h hs with ⟨hp, hq⟩ | ⟨v, t, t', hp, hq, ht⟩
  · rcases h' hs with ⟨hp', hq'⟩ | ⟨v, t, t', hp', hq', ht⟩
    · exact Or.inl ⟨fails_either.2 ⟨hp, hp'⟩, fails_either.2 ⟨hq, hq'⟩⟩
    · exact Or.inr ⟨v, t, t', yields_either.2 (Or.inr ⟨hp, hp'⟩),
        yields_either.2 (Or.inr ⟨hq, hq'⟩), ht⟩
  · exact Or.inr ⟨v, t, t', yields_either.2 (Or.inl hp), yields_either.2 (Or.inl hq), ht⟩

theorem relates_choice {ps : List (Rule α)} {qs : List (Rule β)}
    (h : List.Forall₂ (Relates R S f) ps qs) : Relates R S f (choice ps) (choice qs) := by
  induction h with
  | nil => exact fun s s' _ => Or.inl ⟨Fails.choice (by simp), Fails.choice (by simp)⟩
  | cons hp hrest ih =>
    cases hrest with
    | nil => exact hp
    | cons hq hrest =>
      intro s s' hs
      rcases hp hs with ⟨hp, hp'⟩ | ⟨v, t, t', hp, hp', ht⟩
      · rcases ih hs with ⟨hq, hq'⟩ | ⟨v, t, t', hq, hq', ht⟩
        · exact Or.inl ⟨fails_choice_cons.2 ⟨hp, hq⟩, fails_choice_cons.2 ⟨hp', hq'⟩⟩
        · exact Or.inr ⟨v, t, t', yields_choice_cons.2 (Or.inr ⟨hp, hq⟩),
            yields_choice_cons.2 (Or.inr ⟨hp', hq'⟩), ht⟩
      · exact Or.inr ⟨v, t, t', yields_choice_cons.2 (Or.inl hp), yields_choice_cons.2 (Or.inl hp'),
          ht⟩

theorem Relates.maybe (h : Relates R S f p q) (hRS : ∀ ⦃s s'⦄, R s s' → S s s') :
    Relates R S (Option.map f) (maybe p) (maybe q) := by
  intro s s' hs
  rcases h hs with ⟨hp, hq⟩ | ⟨v, t, t', hp, hq, ht⟩
  · exact Or.inr ⟨none, s, s', yields_maybe.2 (Or.inr ⟨rfl, rfl, hp⟩),
      yields_maybe.2 (Or.inr ⟨rfl, rfl, hq⟩), hRS hs⟩
  · exact Or.inr ⟨some v, t, t', yields_maybe.2 (Or.inl ⟨v, rfl, hp⟩),
      yields_maybe.2 (Or.inl ⟨f v, rfl, hq⟩), ht⟩

end Alternatives

section Repetition

/-- A relation under which both runs come closer to the end of their inputs at the same time. -/
def InStep (R : Cursor → Cursor → Prop) : Prop :=
  ∀ ⦃s s' t t'⦄, R s s' → R t t' →
    (t.rest.length < s.rest.length ↔ t'.rest.length < s'.rest.length)

/-- Inner uses of two rules are related if the rules agree where less input is left. -/
theorem relates_beyond (hR : InStep R) (hs : R s s')
    (h : ∀ ⦃t t'⦄, R t t' → t.rest.length < s.rest.length → Agrees S f p q t t') :
    Relates R S f (beyond s p) (beyond s' q) := by
  intro t t' ht
  by_cases hlt : t.rest.length < s.rest.length
  · have hlt' := (hR hs ht).1 hlt
    rcases h ht hlt with ⟨hp, hq⟩ | ⟨v, u, u', hp, hq, hu⟩
    · exact Or.inl ⟨fails_iff.2 fun v u hy => (yields_beyond.1 hy).2.not_fails hp,
        fails_iff.2 fun v u hy => (yields_beyond.1 hy).2.not_fails hq⟩
    · exact Or.inr ⟨v, u, u', yields_beyond.2 ⟨hlt, hp⟩, yields_beyond.2 ⟨hlt', hq⟩, hu⟩
  · exact Or.inl ⟨fails_iff.2 fun v u hy => hlt (yields_beyond.1 hy).1,
      fails_iff.2 fun v u hy => hlt ((hR hs ht).2 (yields_beyond.1 hy).1)⟩

/-- Recursive rules are related if their descriptions agree wherever their inner uses are related. -/
theorem relates_recursive {step : Rule α → Rule α} {step' : Rule β → Rule β} (hR : InStep R)
    (h : ∀ ⦃s s'⦄, R s s' →
      Relates R R f (beyond s (recursive step)) (beyond s' (recursive step')) →
        Agrees R f (step (beyond s (recursive step))) (step' (beyond s' (recursive step'))) s s') :
    Relates R R f (recursive step) (recursive step') := by
  intro s
  -- by induction on the first input
  induction s using Cursor.rest_induction with
  | h s ih =>
    intro s' hs
    have hstep := h hs (relates_beyond hR hs fun t t' ht hlt => ih t hlt ht)
    unfold Agrees Fails Yields at hstep ⊢
    rwa [recursive_eq step s, recursive_eq step' s']

theorem Relates.many (hR : InStep R) (h : Relates R R f p q) :
    Relates R R (List.map f) (many p) (many q) := by
  refine relates_recursive hR fun s s' hs hagain => ?_
  rcases h hs with ⟨⟨e, hp⟩, e', hp'⟩ | ⟨v, t, t', ⟨hint, hp⟩, ⟨hint', hp'⟩, ht⟩
  · exact Or.inr ⟨[], s, s', ⟨some e, by simp only [hp]⟩, ⟨some e', by simp only [hp']; rfl⟩, hs⟩
  · rcases hagain ht with ⟨⟨e, hr⟩, e', hr'⟩ | ⟨vs, u, u', ⟨newer, hr⟩, ⟨newer', hr'⟩, hu⟩
    · exact Or.inr ⟨[v], t, t', ⟨hint, by simp only [hp, hr]⟩, ⟨hint', by simp only [hp', hr']; rfl⟩,
        ht⟩
    · exact Or.inr ⟨v :: vs, u, u', ⟨_, by simp only [hp, hr]; rfl⟩,
        ⟨_, by simp only [hp', hr']; rfl⟩, hu⟩

theorem Relates.sepBy {sep : Rule γ} {sep' : Rule δ}
    (h : Relates R S (List.map f) (sepBy1 p sep) (sepBy1 q sep'))
    (hRS : ∀ ⦃s s'⦄, R s s' → S s s') :
    Relates R S (List.map f) (sepBy p sep) (sepBy q sep') := by
  intro s s' hs
  rcases h hs with ⟨hp, hq⟩ | ⟨vs, t, t', hp, hq, ht⟩
  · exact Or.inr ⟨[], s, s', yields_sepBy.2 (Or.inr ⟨hp, rfl, rfl⟩),
      yields_sepBy.2 (Or.inr ⟨hq, rfl, rfl⟩), hRS hs⟩
  · exact Or.inr ⟨vs, t, t', yields_sepBy.2 (Or.inl hp), yields_sepBy.2 (Or.inl hq), ht⟩

end Repetition

end SoyTree.Rule
