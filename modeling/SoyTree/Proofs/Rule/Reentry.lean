import SoyTree.Proofs.Rule.Progress

/-! # Re-entry

A recursive rule is described in terms of itself. If the description enters the rule only strictly
behind the place where it is entered itself, no guard is needed on inner uses: the recursive rule is
the one rule that is as described.
-/

namespace SoyTree.Rule

open Cursor

variable {α β γ : Type} {p q : Rule α} {s t : Cursor} {a b c : Bool}

/-- The rules do the same at every cursor that `P` allows. -/
def AgreesOn (P : Cursor → Prop) (p q : Rule α) : Prop :=
  ∀ t, P t → p t = q t

/-- Wherever the rule is used, what it does follows from what its argument does from that place on,
and strictly behind it if `far` says so. -/
def Enters (far : Bool) (step : Rule α → Rule β) : Prop :=
  ∀ p q s, Forward p → AgreesOn (s.Onward far) p q → step p s = step q s

/-- The rule enters its argument only strictly behind the place where it is used itself. -/
def EntersLater (step : Rule α → Rule β) : Prop :=
  Enters true step

theorem AgreesOn.onward (h : AgreesOn (s.Onward a) p q) (ht : s.Onward b t)
    (hle : a ≤ (b || c)) : AgreesOn (t.Onward c) p q :=
  fun u hu => h u ((ht.trans hu).weaken hle)

theorem Enters.weaken {step : Rule α → Rule β} (h : Enters a step) (hle : b ≤ a) :
    Enters b step :=
  fun p q s hp hpq => h p q s hp fun t ht => hpq t (ht.weaken hle)

section Combinators

variable {step step' : Rule α → Rule β}

theorem enters_self : Enters false fun p : Rule α => p :=
  fun _ _ s _ h => h s (.refl s)

theorem enters_const (r : Rule β) : Enters true fun _ : Rule α => r :=
  fun _ _ _ _ _ => rfl

/-- What follows a part that advances starts later. -/
theorem Enters.bind {f : Rule α → β → Rule γ} (h : Enters a step)
    (hl : ∀ p, Forward p → Leads b (step p)) (hf : ∀ v, Enters c fun p => f p v) :
    Enters (a && (b || c)) fun p => step p >>= f p := by
  intro p q s hp hpq
  have hfirst : step p s = step q s :=
    h.weaken (Bool.and_le_left a (b || c)) p q s hp hpq
  change Rule.bind (step p) (f p) s = Rule.bind (step q) (f q) s
  unfold Rule.bind
  rw [← hfirst]
  cases hps : step p s with
  | fail e => rfl
  | ok v t older =>
    have ht : s.Onward b t := hl p hp s v t ⟨older, hps⟩
    simp only [hf v p q t hp (hpq.onward ht (Bool.and_le_right a (b || c)))]

theorem Enters.bind_const {f : β → Rule γ} (h : Enters a step) :
    Enters a fun p => step p >>= f := by
  intro p q s hp hpq
  change Rule.bind (step p) f s = Rule.bind (step q) f s
  simp only [Rule.bind, h p q s hp hpq]

theorem Leads.enters_bind {r : Rule β} {f : Rule α → β → Rule γ} (hr : Leads b r)
    (hf : ∀ v, Enters c fun p => f p v) : Enters (b || c) fun p => r >>= f p :=
  (enters_const r).bind (fun _ _ => hr) hf

theorem Enters.marked {build : Mark → β → γ} (h : Enters a step) :
    Enters a fun p => marked build (step p) := by
  intro p q s hp hpq
  simp only [Rule.marked, h p q s hp hpq]

theorem Enters.closed (h : Enters a step) : Enters a fun p => closed (step p) := by
  intro p q s hp hpq
  simp only [Rule.closed, h p q s hp hpq]

theorem Enters.maybe (h : Enters a step) : Enters a fun p => maybe (step p) := by
  intro p q s hp hpq
  simp only [Rule.maybe, h p q s hp hpq]

theorem Enters.either (h : Enters a step) (h' : Enters b step') :
    Enters (a && b) fun p => either (step p) (step' p) := by
  intro p q s hp hpq
  simp only [Rule.either, h.weaken (Bool.and_le_left a b) p q s hp hpq,
    h'.weaken (Bool.and_le_right a b) p q s hp hpq]

theorem Enters.choice {steps : List (Rule α → Rule β)} (h : ∀ step ∈ steps, Enters a step) :
    Enters a fun p => choice (steps.map fun step => step p) := by
  intro p q s hp hpq
  induction steps with
  | nil => rfl
  | cons step rest ih =>
    have hfirst : step p s = step q s := h step List.mem_cons_self p q s hp hpq
    have hrest := ih fun step hstep => h step (List.mem_cons_of_mem _ hstep)
    cases rest with
    | nil => exact hfirst
    | cons next rest =>
      simp only [List.map_cons] at hrest ⊢
      rw [choice_cons_cons, choice_cons_cons, hfirst, hrest]

end Combinators

section Recursion

theorem recursive_congr {step step' : Rule α → Rule α}
    (hf : ∀ p, Forward p → Forward (step p))
    (h : ∀ t, s.Reaches t → ∀ p q, Forward p → AgreesOn t.Reaches p q → step p t = step' q t) :
    recursive step s = recursive step' s := by
  have hforward : Leads false (recursive step) := Leads.recursive hf
  have main : ∀ t, s.Reaches t → recursive step t = recursive step' t := by
    intro t
    induction t using rest_induction with
    | h t ih =>
      intro ht
      rw [recursive_eq step, recursive_eq step']
      refine h t ht _ _ (hforward.beyond t) fun u hu => ?_
      unfold beyond
      split
      · exact ih u ‹_› (ht.trans hu)
      · rfl
  exact main s (.refl s)

theorem Enters.recursive {step : Rule α → Rule β → Rule β}
    (h : ∀ r, Enters a fun p => step p r)
    (hinner : ∀ p, Forward p → Enters false (step p))
    (hf : ∀ p, Forward p → ∀ r, Forward r → Forward (step p r)) :
    Enters a fun p => recursive (step p) := by
  intro p q s hp hpq
  refine recursive_congr (hf p hp) fun t ht r r' hr hagree => ?_
  calc step p r t
      = step p r' t := hinner p hp r r' t hr hagree
    _ = step q r' t := h r' p q t hp (hpq.onward (b := false) ht (Bool.le_refl a))

/-- Without a guard on inner uses a description that enters them later holds of its rule. -/
theorem EntersLater.fixed {step : Rule α → Rule α} (he : EntersLater step)
    (hf : ∀ p, Forward p → Forward (step p)) : step (recursive step) = recursive step := by
  funext s
  rw [recursive_eq step s]
  refine he _ _ s (Leads.recursive hf) fun t ht => ?_
  rw [beyond, if_pos ht.lt]

/-- The recursive rule is the only one that is as described. -/
theorem EntersLater.unique {step : Rule α → Rule α} (he : EntersLater step)
    (hf : ∀ p, Forward p → Forward (step p)) : p = step p ↔ p = recursive step := by
  constructor
  · intro hp
    funext s
    induction s using rest_induction with
    | h s ih =>
      rw [hp, ← he.fixed hf]
      exact (he _ _ s (Leads.recursive hf) fun t ht => (ih t ht.lt).symm).symm
  · rintro rfl
    exact (he.fixed hf).symm

/-- The rule advances and is entered later and later from within itself, and no other rule is as its
description says. -/
structure Progresses (p : Rule α) (step : Rule α → Rule α) : Prop where
  advances : Advances p
  enters : EntersLater step
  unique : ∀ q, q = step q ↔ q = p

theorem Progresses.recursive {step : Rule α → Rule α} (he : EntersLater step)
    (ha : ∀ p, Forward p → Advances (step p)) : Progresses (recursive step) step where
  advances := Leads.recursive ha
  enters := he
  unique _ := he.unique fun p hp => Leads.forward (ha p hp)

end Recursion

section Repetition

/-- One round of a repetition, and what comes after it. -/
def manyStep (p : Rule α) (again : Rule (List α)) : Rule (List α) :=
  fun s =>
    match p s with
    | .fail e => .ok [] s (some e)
    | .ok v t older =>
      match again t with
      | .fail _ => .ok [v] t older
      | .ok vs u newer => .ok (v :: vs) u (Failure.later newer older)

theorem many_eq_recursive (p : Rule α) : many p = recursive (manyStep p) := rfl

theorem Leads.enters_manyStep (hp : Leads a p) : Enters a (manyStep p) := by
  intro again again' s _ hagain
  unfold manyStep
  cases hps : p s with
  | fail e => rfl
  | ok v t older => simp only [hagain t (hp s v t ⟨older, hps⟩)]

theorem Forward.manyStep {again : Rule (List α)} (hp : Forward p) (hagain : Forward again) :
    Forward (manyStep p again) := by
  rintro s vs u ⟨hint, hy⟩
  unfold Rule.manyStep at hy
  cases hps : p s with
  | fail e =>
    simp only [hps, Reply.ok.injEq] at hy
    exact hy.2.1 ▸ .refl s
  | ok v t older =>
    have ht : s.Reaches t := hp s v t ⟨older, hps⟩
    cases hat : again t with
    | fail e =>
      simp only [hps, hat, Reply.ok.injEq] at hy
      exact hy.2.1 ▸ ht
    | ok ws w newer =>
      simp only [hps, hat, Reply.ok.injEq] at hy
      exact hy.2.1 ▸ ht.trans (hagain t ws w ⟨newer, hat⟩)

/-- A repetition of a rule that advances is the one rule that reads round by round. -/
theorem Advances.many_unique (hp : Advances p) (q : Rule (List α)) :
    q = Rule.manyStep p q ↔ q = many p := by
  rw [many_eq_recursive]
  exact EntersLater.unique (Leads.enters_manyStep hp) fun _ hagain =>
    Forward.manyStep (Leads.forward hp) hagain

variable {step : Rule α → Rule β}

theorem Enters.many (h : Enters a step) (hf : ∀ p, Forward p → Forward (step p)) :
    Enters a fun p => many (step p) := by
  have hround : ∀ r, Enters a fun p => Rule.manyStep (step p) r := by
    intro r p q s hp hpq
    simp only [Rule.manyStep, h p q s hp hpq]
  exact Enters.recursive hround (fun p hp => (hf p hp).enters_manyStep) fun p hp r hr =>
    (hf p hp).manyStep hr

theorem Enters.sepBy {separator : Rule γ} (h : Enters a step)
    (hf : ∀ p, Forward p → Forward (step p)) (hs : Forward separator) :
    Enters false fun p => sepBy (step p) separator := by
  have hmore : ∀ p, Forward p → Forward (separator >>= fun _ => step p) :=
    fun p hp => Leads.bind hs fun _ => hf p hp
  have hagain : Enters false fun p => separator >>= fun _ => step p :=
    hs.enters_bind fun _ => h.weaken (Bool.false_le a)
  have hsome : Enters false fun p => sepBy1 (step p) separator :=
    (h.weaken (Bool.false_le a)).bind hf fun _ => (hagain.many hmore).bind_const
  intro p q s hp hpq
  simp only [Rule.sepBy, hsome p q s hp hpq]

end Repetition

end SoyTree.Rule
