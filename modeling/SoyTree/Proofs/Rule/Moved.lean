import SoyTree.Proofs.Rule.Relates

/-! # The same text elsewhere

Whether a rule succeeds depends on the text in front of it and not on where that text stands. Where the
text is moved, what is read moves along.
-/

namespace SoyTree

variable {φ : Position → Position}

/-- The places from `p` on are taken to those from `p'` on. -/
def Position.Moved (φ : Position → Position) (p p' : Position) : Prop :=
  ∀ text, φ (p.after text) = p'.after text

namespace Position

variable {p p' : Position}

theorem Moved.eq (h : Moved φ p p') : φ p = p' :=
  h []

theorem Moved.after (h : Moved φ p p') (text : List Char) :
    Moved φ (p.after text) (p'.after text) := by
  intro more
  rw [← after_append, h, after_append]

end Position

/-- Both cursors are in front of the same text, and `φ` takes the places of the first to those of the
second. -/
structure Cursor.Moved (φ : Position → Position) (s s' : Cursor) : Prop where
  rest : s'.rest = s.rest
  position : Position.Moved φ s.position s'.position

namespace Cursor

variable {s s' t t' : Cursor} {text : List Char}

theorem Moved.reads (h : Moved φ s s') (hr : s.Reads text t) :
    ∃ t', s'.Reads text t' ∧ Moved φ t t' := by
  refine ⟨⟨s'.position.after text, t.rest⟩, ⟨h.rest.trans hr.rest, rfl⟩, rfl, ?_⟩
  rw [hr.position]
  exact h.position.after text

theorem Moved.reads_back (h : Moved φ s s') (hr : s'.Reads text t') :
    ∃ t, s.Reads text t ∧ Moved φ t t' := by
  refine ⟨⟨s.position.after text, t'.rest⟩, ⟨h.rest ▸ hr.rest, rfl⟩, rfl, ?_⟩
  rw [hr.position]
  exact h.position.after text

end Cursor

namespace Rule

open Cursor

variable {α β γ δ : Type} {f : α → β} {g : γ → δ} {p : Rule α} {q : Rule β} {s s' : Cursor}

/-- At moved cursors both rules fail, or both read the same text and the value of the second is `f` of
the first. -/
def Moves (φ : Position → Position) (f : α → β) (p : Rule α) (q : Rule β) : Prop :=
  ∀ ⦃s s'⦄, Moved φ s s' → (p.Fails s ∧ q.Fails s') ∨
    ∃ v t t', p.Yields s v t ∧ q.Yields s' (f v) t' ∧ Moved φ t t'

theorem Moves.fails (h : Moves φ f p q) (hs : Moved φ s s') : p.Fails s ↔ q.Fails s' :=
  Relates.fails (R := Moved φ) h hs

theorem Moves.yields {v : α} {t : Cursor} (h : Moves φ f p q) (hs : Moved φ s s')
    (hp : p.Yields s v t) : ∃ t', q.Yields s' (f v) t' ∧ Moved φ t t' :=
  Relates.yields (R := Moved φ) h hs hp

section Texts

/-- A rule that is described by the text it reads and by what stands behind it moves. -/
theorem moves_of_iff {p : Rule α} {Q : α → List Char → List Char → Prop}
    (h : ∀ s v t, p.Yields s v t ↔ ∃ text, s.Reads text t ∧ Q v text t.rest) :
    Moves φ id p p := by
  intro s s' hs
  rcases yields_or_fails p s with ⟨v, t, hy⟩ | hf
  · obtain ⟨text, hr, hQ⟩ := (h s v t).1 hy
    obtain ⟨t', hr', ht⟩ := hs.reads hr
    exact Or.inr ⟨v, t, t', hy, (h s' v t').2 ⟨text, hr', ht.rest ▸ hQ⟩, ht⟩
  · refine Or.inl ⟨hf, fails_iff.2 fun v t' hy => ?_⟩
    obtain ⟨text, hr', hQ⟩ := (h s' v t').1 hy
    obtain ⟨t, hr, ht⟩ := hs.reads_back hr'
    exact ((h s v t).2 ⟨text, hr, ht.rest ▸ hQ⟩).not_fails hf

variable (cls : CharClass)

theorem moves_one : Moves φ id (one cls) (one cls) :=
  moves_of_iff (Q := fun c text _ => text = [c] ∧ cls.accepts c = true) fun s c t => by
    rw [yields_one]
    constructor
    · rintro ⟨hc, hr⟩
      exact ⟨[c], hr, rfl, hc⟩
    · rintro ⟨_, hr, rfl, hc⟩
      exact ⟨hc, hr⟩

theorem moves_run : Moves φ id (run cls) (run cls) :=
  moves_of_iff (Q := fun cs text rest => text = cs ∧ (∀ c ∈ cs, cls.accepts c = true) ∧
    ∀ c ∈ rest.head?, cls.accepts c = false) fun s cs t => by
    rw [yields_run]
    constructor
    · rintro ⟨hr, hcs⟩
      exact ⟨cs, hr, rfl, hcs⟩
    · rintro ⟨_, hr, rfl, hcs⟩
      exact ⟨hr, hcs⟩

theorem moves_run1 : Moves φ id (run1 cls) (run1 cls) :=
  moves_of_iff (Q := fun cs text rest => text = cs ∧ cs ≠ [] ∧ (∀ c ∈ cs, cls.accepts c = true) ∧
    ∀ c ∈ rest.head?, cls.accepts c = false) fun s cs t => by
    rw [yields_run1]
    constructor
    · rintro ⟨hne, hr, hcs⟩
      exact ⟨cs, hr, rfl, hne, hcs⟩
    · rintro ⟨_, hr, rfl, hne, hcs⟩
      exact ⟨hne, hr, hcs⟩

theorem moves_text (t : String) : Moves φ id (text t) (text t) :=
  moves_of_iff (Q := fun _ read _ => read = t.toList) fun s _ u => by
    rw [yields_text]
    simp

end Texts

section Sequence

theorem moves_pure {v : α} {w : β} (h : w = f v) : Moves φ f (pure v) (pure w) :=
  relates_pure h

theorem Moves.bind {k : α → Rule γ} {l : β → Rule δ} (h : Moves φ f p q)
    (hk : ∀ v, Moves φ g (k v) (l (f v))) : Moves φ g (p >>= k) (q >>= l) :=
  Relates.bind h hk

theorem Moves.void (h : Moves φ f p q) : Moves φ id (void p) (void q) :=
  Relates.void h

theorem moves_char (c : Char) : Moves φ id (char c) (char c) :=
  (moves_one _).void

theorem Moves.check {k : α → Except Rejection γ} (h : Moves φ id p p) :
    Moves φ id (check p k) (check p k) :=
  Relates.check h

theorem Moves.marked {build : Mark → α → γ} {build' : Mark → β → δ} (h : Moves φ f p q)
    (hb : ∀ a b v, build' ⟨φ a, φ b⟩ (f v) = g (build ⟨a, b⟩ v)) :
    Moves φ g (marked build p) (marked build' q) := by
  refine Relates.marked (R := Moved φ) (S := Moved φ) h fun s s' t t' v hs ht => ?_
  rw [← hb, hs.position.eq, ht.position.eq]

theorem Moves.ahead (h : Moves φ f p q) : Moves φ f (ahead p) (ahead q) :=
  Relates.ahead (R := Moved φ) h

end Sequence

section Alternatives

theorem Moves.either {p' : Rule α} {q' : Rule β} (h : Moves φ f p q) (h' : Moves φ f p' q') :
    Moves φ f (either p p') (either q q') :=
  Relates.either (R := Moved φ) h h'

theorem moves_choice {f : α → α} {rules : List (Rule α)} (h : ∀ p ∈ rules, Moves φ f p p) :
    Moves φ f (choice rules) (choice rules) :=
  relates_choice (List.forall₂_same.2 h)

theorem Moves.maybe (h : Moves φ f p q) : Moves φ (Option.map f) (maybe p) (maybe q) :=
  Relates.maybe (R := Moved φ) h fun _ _ hs => hs

end Alternatives

section Repetition

theorem inStep_moved : InStep (Moved φ) := by
  intro s s' t t' hs ht
  rw [hs.rest, ht.rest]

theorem moves_recursive {f : α → α} {step : Rule α → Rule α}
    (h : ∀ p, Moves φ f p p → Moves φ f (step p) (step p)) :
    Moves φ f (recursive step) (recursive step) := by
  refine relates_recursive (R := Moved φ) inStep_moved fun s s' hs hinner => ?_
  have hsame : beyond s' (recursive step) = beyond s (recursive step) := by
    unfold beyond
    rw [hs.rest]
  rw [hsame] at hinner ⊢
  exact h _ hinner hs

theorem Moves.many {f : α → α} (h : Moves φ f p p) : Moves φ (List.map f) (many p) (many p) :=
  Relates.many inStep_moved h

theorem Moves.sepBy {f : α → α} {g : γ → γ} {sep : Rule γ} (h : Moves φ f p p)
    (hsep : Moves φ g sep sep) : Moves φ (List.map f) (sepBy p sep) (sepBy p sep) := by
  have hsome : Moves φ (List.map f) (sepBy1 p sep) (sepBy1 p sep) :=
    Moves.bind h fun _ => Moves.bind (hsep.bind fun _ => h).many fun _ => moves_pure rfl
  exact Relates.sepBy hsome fun _ _ hs => hs

/-- Both rules pass over the same text in front of the first place where they stop. -/
theorem Moves.rawUntil (h : Moves φ f p q) : Moves φ id (rawUntil p) (rawUntil q) := by
  have hmiss : ∀ {s s' : Cursor} {text t t'}, Moved φ s s' → Moved φ t t' →
      (p.Misses s text t ↔ q.Misses s' text t') := by
    intro s s' text t t' hs ht
    exact forall₄_congr fun a b _ _ => h.fails ⟨by rw [ht.rest], hs.position.after a⟩
  intro s s' hs
  rcases yields_or_fails (Rule.rawUntil p) s with ⟨text, t, hy⟩ | hf
  · obtain ⟨hr, hstop, hm⟩ := yields_rawUntil.1 hy
    obtain ⟨t', hr', ht⟩ := hs.reads hr
    refine Or.inr ⟨text, t, t', hy, yields_rawUntil.2 ⟨hr', ?_, (hmiss hs ht).1 hm⟩, ht⟩
    rw [← not_fails_iff] at hstop ⊢
    rwa [← h.fails ht]
  · refine Or.inl ⟨hf, fails_iff.2 fun text t' hy => ?_⟩
    obtain ⟨hr', hstop, hm⟩ := yields_rawUntil.1 hy
    obtain ⟨t, hr, ht⟩ := hs.reads_back hr'
    refine (yields_rawUntil.2 ⟨hr, ?_, (hmiss hs ht).2 hm⟩).not_fails hf
    rw [← not_fails_iff] at hstop ⊢
    rwa [h.fails ht]

end Repetition

end Rule

end SoyTree
