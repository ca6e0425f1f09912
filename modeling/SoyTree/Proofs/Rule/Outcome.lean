import SoyTree.Rule.Repeat

/-! # Outcomes of rules

What a rule does at a cursor, with the failures it met on the way left out: it yields a value and
a later cursor, or it fails. Each combinator is described by the outcomes of its parts.
-/

namespace SoyTree.Rule

variable {α β : Type} {p q : Rule α} {s t u : Cursor} {v w : α}

/-- `p` reads `v` at `s`, and reading goes on at `t`. -/
def Yields (p : Rule α) (s : Cursor) (v : α) (t : Cursor) : Prop :=
  ∃ hint, p s = .ok v t hint

def Fails (p : Rule α) (s : Cursor) : Prop :=
  ∃ e, p s = .fail e

theorem Yields.unique (h : p.Yields s v t) (h' : p.Yields s w u) : v = w ∧ t = u := by
  obtain ⟨_, h⟩ := h
  obtain ⟨_, h'⟩ := h'
  rw [h] at h'
  cases h'
  exact ⟨rfl, rfl⟩

theorem Yields.not_fails (h : p.Yields s v t) : ¬ p.Fails s := by
  rintro ⟨_, h'⟩
  obtain ⟨_, h⟩ := h
  rw [h] at h'
  cases h'

theorem yields_or_fails (p : Rule α) (s : Cursor) : (∃ v t, p.Yields s v t) ∨ p.Fails s := by
  cases h : p s with
  | ok v t hint => exact Or.inl ⟨v, t, hint, h⟩
  | fail e => exact Or.inr ⟨e, h⟩

theorem fails_iff : p.Fails s ↔ ∀ v t, ¬ p.Yields s v t := by
  constructor
  · intro h v t hy
    exact hy.not_fails h
  · intro h
    rcases yields_or_fails p s with ⟨v, t, hy⟩ | hf
    · exact absurd hy (h v t)
    · exact hf

theorem not_fails_iff : ¬ p.Fails s ↔ ∃ v t, p.Yields s v t := by
  constructor
  · exact (yields_or_fails p s).resolve_right
  · rintro ⟨v, t, h⟩
    exact h.not_fails

section Sequence

variable {f : α → Rule β} {x : β}

@[simp] theorem yields_pure : (pure w : Rule α).Yields s v t ↔ v = w ∧ t = s := by
  constructor
  · rintro ⟨_, h⟩
    cases h
    exact ⟨rfl, rfl⟩
  · rintro ⟨rfl, rfl⟩
    exact ⟨none, rfl⟩

@[simp] theorem not_fails_pure : ¬ (pure w : Rule α).Fails s := by
  rintro ⟨_, h⟩
  cases h

theorem yields_bind : (p >>= f).Yields s x u ↔ ∃ v t, p.Yields s v t ∧ (f v).Yields t x u := by
  change (∃ hint, bind p f s = _) ↔ _
  unfold bind
  constructor
  · rintro ⟨hint, h⟩
    cases hp : p s with
    | fail e => simp [hp] at h
    | ok v t older =>
      cases hf : f v t with
      | fail e => simp [hp, hf] at h
      | ok y t' newer =>
        simp only [hp, hf, Reply.ok.injEq] at h
        obtain ⟨rfl, rfl, -⟩ := h
        exact ⟨v, t, ⟨older, hp⟩, newer, hf⟩
  · rintro ⟨v, t, ⟨older, hp⟩, newer, hf⟩
    exact ⟨Failure.later newer older, by simp only [hp, hf]⟩

theorem fails_bind : (p >>= f).Fails s ↔ p.Fails s ∨ ∃ v t, p.Yields s v t ∧ (f v).Fails t := by
  simp only [fails_iff, yields_bind]
  constructor
  · intro h
    rcases yields_or_fails p s with ⟨v, t, hp⟩ | hp
    · exact Or.inr ⟨v, t, hp, fun x u hf => h x u ⟨v, t, hp, hf⟩⟩
    · exact Or.inl (fails_iff.1 hp)
  · rintro (hp | ⟨v, t, hp, hf⟩) x u ⟨v', t', hp', hf'⟩
    · exact hp _ _ hp'
    · obtain ⟨rfl, rfl⟩ := hp.unique hp'
      exact hf _ _ hf'

theorem Yields.bind (hp : p.Yields s v t) (hf : (f v).Yields t x u) : (p >>= f).Yields s x u :=
  yields_bind.2 ⟨v, t, hp, hf⟩

theorem Fails.bind (hp : p.Fails s) : (p >>= f).Fails s :=
  fails_bind.2 (Or.inl hp)

theorem Fails.bind_later (hp : p.Yields s v t) (hf : (f v).Fails t) : (p >>= f).Fails s :=
  fails_bind.2 (Or.inr ⟨v, t, hp, hf⟩)

theorem yields_void {d : Unit} : (void p).Yields s d t ↔ ∃ v, p.Yields s v t := by
  change (p >>= fun _ => pure ()).Yields s d t ↔ _
  simp [yields_bind]

theorem fails_void : (void p).Fails s ↔ p.Fails s := by
  change (p >>= fun _ => pure ()).Fails s ↔ _
  simp [fails_bind]

end Sequence

section Node

variable {x : β}

theorem yields_check {f : α → Except Rejection β} :
    (check p f).Yields s x t ↔ ∃ v, p.Yields s v t ∧ f v = .ok x := by
  unfold Yields check
  constructor
  · rintro ⟨hint, h⟩
    cases hp : p s with
    | fail e => simp [hp] at h
    | ok v t' hint' =>
      cases hf : f v with
      | error why => simp [hp, hf] at h
      | ok y =>
        simp only [hp, hf, Reply.ok.injEq] at h
        obtain ⟨rfl, rfl, rfl⟩ := h
        exact ⟨v, ⟨_, rfl⟩, hf⟩
  · rintro ⟨v, ⟨hint, hp⟩, hf⟩
    exact ⟨hint, by simp only [hp, hf]⟩

theorem yields_marked {build : Mark → α → β} :
    (marked build p).Yields s x t ↔ ∃ v, p.Yields s v t ∧ x = build ⟨s.position, t.position⟩ v := by
  unfold Yields marked
  constructor
  · rintro ⟨hint, h⟩
    cases hp : p s with
    | fail e => simp [hp] at h
    | ok v t' hint' =>
      simp only [hp, Reply.ok.injEq] at h
      obtain ⟨rfl, rfl, rfl⟩ := h
      exact ⟨v, ⟨_, rfl⟩, rfl⟩
  · rintro ⟨v, ⟨hint, hp⟩, rfl⟩
    exact ⟨hint, by simp only [hp]⟩

theorem fails_marked {build : Mark → α → β} : (marked build p).Fails s ↔ p.Fails s := by
  simp only [fails_iff, yields_marked]
  constructor
  · intro h v t hp
    exact h _ t ⟨v, hp, rfl⟩
  · rintro h x t ⟨v, hp, -⟩
    exact h v t hp

theorem yields_ahead : (ahead p).Yields s v t ↔ t = s ∧ ∃ u, p.Yields s v u := by
  unfold Yields ahead
  constructor
  · rintro ⟨hint, h⟩
    cases hp : p s with
    | fail e => simp [hp] at h
    | ok v' t' hint' =>
      simp only [hp, Reply.ok.injEq] at h
      obtain ⟨rfl, rfl, rfl⟩ := h
      exact ⟨rfl, t', _, rfl⟩
  · rintro ⟨rfl, u, hint, hp⟩
    exact ⟨hint, by simp only [hp]⟩

theorem fails_ahead : (ahead p).Fails s ↔ p.Fails s := by
  simp only [fails_iff, yields_ahead]
  constructor
  · intro h v t hp
    exact h v s ⟨rfl, t, hp⟩
  · rintro h v t ⟨rfl, u, hp⟩
    exact h v u hp

theorem yields_closed : (closed p).Yields s v t ↔ p.Yields s v t := by
  unfold Yields closed
  cases hp : p s with
  | ok v' t' hint' => rfl
  | fail e =>
    simp only [reduceCtorEq, exists_false, iff_false]
    rintro ⟨hint, h⟩
    split at h <;> cases h

theorem fails_closed : (closed p).Fails s ↔ p.Fails s := by
  simp only [fails_iff, yields_closed]

end Node

section Alternatives

theorem yields_either : (either p q).Yields s v t ↔ p.Yields s v t ∨ p.Fails s ∧ q.Yields s v t := by
  unfold Yields Fails either
  cases hp : p s with
  | ok v' t' hint' => simp
  | fail e => cases hq : q s <;> simp

theorem fails_either : (either p q).Fails s ↔ p.Fails s ∧ q.Fails s := by
  unfold Fails either
  cases hp : p s with
  | ok v' t' hint' => simp
  | fail e => cases hq : q s <;> simp

theorem choice_singleton (p : Rule α) : choice [p] = p := rfl

/-- The first of two replies, or the second where the first is a failure. -/
def firstReply (first second : Reply α) : Reply α :=
  match first with
  | .ok v t hint => .ok v t hint
  | .fail e =>
    match second with
    | .ok v t hint => .ok v t hint
    | .fail e' => .fail (e'.max e)

theorem choice_cons_cons (p q : Rule α) (rest : List (Rule α)) (s : Cursor) :
    choice (p :: q :: rest) s = firstReply (p s) (choice (q :: rest) s) := rfl

theorem yields_choice_cons {rest : List (Rule α)} :
    (choice (p :: q :: rest)).Yields s v t ↔
      p.Yields s v t ∨ p.Fails s ∧ (choice (q :: rest)).Yields s v t := by
  unfold Yields Fails
  rw [choice_cons_cons]
  cases hp : p s with
  | ok v' t' hint' => simp [firstReply]
  | fail e => cases hq : choice (q :: rest) s <;> simp [firstReply]

theorem fails_choice_cons {rest : List (Rule α)} :
    (choice (p :: q :: rest)).Fails s ↔ p.Fails s ∧ (choice (q :: rest)).Fails s := by
  constructor
  · intro h
    have hp : p.Fails s := fails_iff.2 fun v t hp =>
      (yields_choice_cons.2 (Or.inl hp)).not_fails h
    exact ⟨hp, fails_iff.2 fun v t hq => (yields_choice_cons.2 (Or.inr ⟨hp, hq⟩)).not_fails h⟩
  · rintro ⟨hp, hq⟩
    refine fails_iff.2 fun v t h => ?_
    rcases yields_choice_cons.1 h with hp' | ⟨-, hq'⟩
    · exact hp'.not_fails hp
    · exact hq'.not_fails hq

theorem Yields.of_choice {rules : List (Rule α)} (h : (choice rules).Yields s v t) :
    ∃ p ∈ rules, p.Yields s v t := by
  induction rules with
  | nil =>
    obtain ⟨_, h⟩ := h
    cases h
  | cons p rest ih =>
    cases rest with
    | nil => exact ⟨p, by simp, h⟩
    | cons q rest =>
      rcases yields_choice_cons.1 h with hp | ⟨-, hq⟩
      · exact ⟨p, by simp, hp⟩
      · obtain ⟨r, hr, hy⟩ := ih hq
        exact ⟨r, List.mem_cons_of_mem _ hr, hy⟩

/-- A choice yields what a rule yields in front of which all rules fail. -/
theorem Yields.choice {before after : List (Rule α)} (hf : ∀ q ∈ before, q.Fails s)
    (hp : p.Yields s v t) : (choice (before ++ p :: after)).Yields s v t := by
  induction before with
  | nil =>
    cases after with
    | nil => exact hp
    | cons q after => exact yields_choice_cons.2 (Or.inl hp)
  | cons q before ih =>
    have hq := ih fun r hr => hf r (List.mem_cons_of_mem _ hr)
    cases before <;> exact yields_choice_cons.2 (Or.inr ⟨hf q (by simp), hq⟩)

theorem Fails.choice {rules : List (Rule α)} (hf : ∀ q ∈ rules, q.Fails s) :
    (choice rules).Fails s := by
  refine fails_iff.2 fun v t h => ?_
  obtain ⟨p, hp, hy⟩ := h.of_choice
  exact hy.not_fails (hf p hp)

theorem Fails.of_choice {rules : List (Rule α)} (h : (Rule.choice rules).Fails s) :
    ∀ p ∈ rules, p.Fails s := by
  induction rules with
  | nil => simp
  | cons p rest ih =>
    cases rest with
    | nil =>
      rintro q (_ | ⟨_, ⟨⟩⟩)
      exact h
    | cons q rest =>
      obtain ⟨hp, hrest⟩ := fails_choice_cons.1 h
      rintro r (_ | ⟨_, hr⟩)
      · exact hp
      · exact ih hrest r hr

theorem yields_maybe {o : Option α} : (maybe p).Yields s o t ↔
    (∃ v, o = some v ∧ p.Yields s v t) ∨ o = none ∧ t = s ∧ p.Fails s := by
  unfold Yields Fails maybe
  constructor
  · rintro ⟨hint, h⟩
    cases hp : p s with
    | ok v' t' hint' =>
      simp only [hp, Reply.ok.injEq] at h
      obtain ⟨rfl, rfl, -⟩ := h
      exact Or.inl ⟨v', rfl, hint', rfl⟩
    | fail e =>
      simp only [hp, Reply.ok.injEq] at h
      obtain ⟨rfl, rfl, -⟩ := h
      exact Or.inr ⟨rfl, rfl, e, rfl⟩
  · rintro (⟨v, rfl, hint, hp⟩ | ⟨rfl, rfl, e, hp⟩)
    · exact ⟨hint, by simp only [hp]⟩
    · exact ⟨some e, by simp only [hp]⟩

end Alternatives

end SoyTree.Rule
