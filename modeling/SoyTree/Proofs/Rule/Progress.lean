import Mathlib.Data.Bool.Basic
import SoyTree.Proofs.Rule.Repetition

/-! # Progress

A rule goes forward if it never goes back in its input, and advances if it never stays where it is
either. Combinators hand both on: what is read one after the other advances if one part of it does,
alternatives do if all of them do.
-/

namespace SoyTree

namespace Cursor

/-- `t` stands strictly behind `s` in the same input. -/
def Later (s t : Cursor) : Prop :=
  ∃ text, text ≠ [] ∧ s.Reads text t

/-- `t` does not stand in front of `s`, and strictly behind it if `far` says so. -/
def Onward (far : Bool) (s t : Cursor) : Prop :=
  match far with
  | true => s.Later t
  | false => s.Reaches t

variable {s t u : Cursor} {a b : Bool}

theorem Later.reaches (h : s.Later t) : s.Reaches t := by
  obtain ⟨text, -, hr⟩ := h
  exact hr.reaches

theorem Later.trans_reaches (h : s.Later t) (h' : t.Reaches u) : s.Later u := by
  obtain ⟨a, hne, ha⟩ := h
  obtain ⟨b, hb⟩ := h'
  exact ⟨a ++ b, List.append_ne_nil_of_left_ne_nil hne b, ha.trans hb⟩

theorem Reaches.trans_later (h : s.Reaches t) (h' : t.Later u) : s.Later u := by
  obtain ⟨a, ha⟩ := h
  obtain ⟨b, hne, hb⟩ := h'
  exact ⟨a ++ b, List.append_ne_nil_of_right_ne_nil a hne, ha.trans hb⟩

theorem Later.lt (h : s.Later t) : t.rest.length < s.rest.length := by
  obtain ⟨text, hne, hr⟩ := h
  exact hr.lt hne

theorem Later.offset_lt (h : s.Later t) : s.offset < t.offset := by
  obtain ⟨text, hne, hr⟩ := h
  have := List.length_pos_iff.2 hne
  rw [offset, offset, hr.position, Position.index_after]
  omega

theorem Onward.trans (h : s.Onward a t) (h' : t.Onward b u) : s.Onward (a || b) u := by
  cases a <;> cases b
  · exact Reaches.trans h h'
  · exact Reaches.trans_later h h'
  · exact Later.trans_reaches h h'
  · exact Later.trans_reaches h (Later.reaches h')

theorem Onward.weaken (h : s.Onward a t) (hle : b ≤ a) : s.Onward b t := by
  cases a <;> cases b
  · exact h
  · exact absurd hle (by decide)
  · exact Later.reaches h
  · exact h

theorem Onward.reaches (h : s.Onward a t) : s.Reaches t :=
  h.weaken (Bool.false_le a)

end Cursor

namespace Rule

open Cursor

variable {α β : Type} {p q : Rule α} {f : α → Rule β} {a b : Bool}

/-- The rule never goes back, and ends strictly behind its start if `far` says so. -/
def Leads (far : Bool) (p : Rule α) : Prop :=
  p.Ensures fun s _ t => s.Onward far t

/-- The rule never goes back. -/
def Forward (p : Rule α) : Prop :=
  p.Leads false

def Advances (p : Rule α) : Prop :=
  p.Leads true

theorem Leads.weaken (h : Leads a p) (hle : b ≤ a) : Leads b p :=
  fun s v t hy => (h s v t hy).weaken hle

theorem Leads.forward (h : Leads a p) : Forward p :=
  h.weaken (Bool.false_le a)

section Combinators

theorem Leads.bind (hp : Leads a p) (hf : ∀ v, Leads b (f v)) : Leads (a || b) (p >>= f) := by
  intro s w u hy
  obtain ⟨v, t, hpv, hfw⟩ := yields_bind.1 hy
  exact (hp s v t hpv).trans (hf v t w u hfw)

theorem leads_pure (v : α) : Leads false (pure v) := by
  intro s w t hy
  obtain ⟨-, rfl⟩ := yields_pure.1 hy
  exact .refl t

theorem Leads.map {g : α → β} (hp : Leads a p) : Leads a (p >>= fun v => pure (g v)) := by
  simpa only [Bool.or_false] using hp.bind fun v => leads_pure (g v)

theorem Leads.of_yields {p' : Rule β} (hp : Leads a p)
    (h : ∀ s w t, p'.Yields s w t → ∃ v, p.Yields s v t) : Leads a p' := by
  intro s w t hy
  obtain ⟨v, hv⟩ := h s w t hy
  exact hp s v t hv

theorem Leads.void (hp : Leads a p) : Leads a (void p) :=
  hp.of_yields fun _ _ _ => yields_void.1

theorem Leads.check {g : α → Except Rejection β} (hp : Leads a p) : Leads a (check p g) := by
  refine hp.of_yields fun s w t hy => ?_
  obtain ⟨v, hv, -⟩ := yields_check.1 hy
  exact ⟨v, hv⟩

theorem Leads.marked {build : Mark → α → β} (hp : Leads a p) : Leads a (marked build p) := by
  refine hp.of_yields fun s w t hy => ?_
  obtain ⟨v, hv, -⟩ := yields_marked.1 hy
  exact ⟨v, hv⟩

theorem Leads.closed (hp : Leads a p) : Leads a (closed p) :=
  hp.of_yields fun _ v _ hy => ⟨v, yields_closed.1 hy⟩

theorem leads_ahead (p : Rule α) : Leads false (ahead p) := by
  intro s v t hy
  obtain ⟨rfl, -⟩ := yields_ahead.1 hy
  exact .refl t

theorem Leads.choice {rules : List (Rule α)} (h : ∀ p ∈ rules, Leads a p) :
    Leads a (choice rules) := by
  intro s v t hy
  obtain ⟨p, hp, hy⟩ := hy.of_choice
  exact h p hp s v t hy

/-- An alternative advances if both of its rules do. -/
theorem Leads.either (hp : Leads a p) (hq : Leads b q) : Leads (a && b) (either p q) := by
  intro s v t hy
  rcases yields_either.1 hy with hy | ⟨-, hy⟩
  · exact (hp s v t hy).weaken (Bool.and_le_left a b)
  · exact (hq s v t hy).weaken (Bool.and_le_right a b)

theorem Leads.maybe (hp : Leads a p) : Leads false (maybe p) := by
  intro s o t hy
  rcases yields_maybe.1 hy with ⟨v, -, hy⟩ | ⟨-, rfl, -⟩
  · exact hp.forward s v t hy
  · exact .refl t

end Combinators

section Characters

variable (cls : CharClass)

theorem leads_one : Leads true (one cls) :=
  fun _ c _ hy => ⟨[c], List.cons_ne_nil c [], (yields_one.1 hy).2⟩

theorem leads_char (c : Char) : Leads true (char c) :=
  (leads_one _).void

theorem leads_text (word : String) : Leads (decide (word.toList ≠ [])) (text word) := by
  by_cases h : word.toList = []
  · simp only [h, ne_eq, not_true_eq_false, decide_false]
    exact fun _ _ _ hy => ⟨_, yields_text.1 hy⟩
  · simp only [h, ne_eq, not_false_eq_true, decide_true]
    exact fun _ _ _ hy => ⟨_, h, yields_text.1 hy⟩

theorem leads_run : Leads false (run cls) :=
  fun _ cs _ hy => ⟨cs, (yields_run.1 hy).1⟩

theorem leads_run1 : Leads true (run1 cls) := by
  intro s cs t hy
  obtain ⟨hne, hr, -⟩ := yields_run1.1 hy
  exact ⟨cs, hne, hr⟩

end Characters

section Repetition

theorem Leads.recursive {step : Rule α → Rule α} (h : ∀ p, Forward p → Leads a (step p)) :
    Leads a (recursive step) := by
  have hforward : Forward (Rule.recursive step) :=
    Ensures.recursive fun p hp => (h p hp).forward
  exact Ensures.recursive_of hforward fun p hp _ => h p hp

theorem Leads.beyond (hp : Leads a p) (s : Cursor) : Leads a (beyond s p) :=
  hp.of_yields fun _ v _ hy => ⟨v, (yields_beyond.1 hy).2⟩

theorem Leads.many (hp : Leads a p) : Leads false (many p) :=
  fun _ _ _ hy => hy.many_induction (P := fun s _ t => s.Reaches t) .refl
    fun s v u _ _ hv hrest => (hp s v u hv).reaches.trans hrest

theorem Leads.sepBy1 {separator : Rule β} (hp : Leads a p) (hs : Leads b separator) :
    Leads a (sepBy1 p separator) := by
  have h : Leads (a || false) (Rule.sepBy1 p separator) :=
    hp.bind fun _ => (hs.bind fun _ => hp).many.bind fun _ => leads_pure _
  rwa [Bool.or_false] at h

theorem Leads.sepBy {separator : Rule β} (hp : Leads a p) (hs : Leads b separator) :
    Leads false (sepBy p separator) := by
  intro s vs t hy
  rcases yields_sepBy.1 hy with hy | ⟨-, -, rfl⟩
  · exact (hp.sepBy1 hs).forward s vs t hy
  · exact .refl t

theorem Leads.upTo (hp : Leads a p) : Leads false (upTo p) := by
  intro s x t hy
  obtain ⟨m, hr, hy, -⟩ := yields_upTo.1 hy
  exact hr.reaches.trans (hp.forward _ _ _ hy)

theorem leads_rawUntil (stop : Rule β) : Leads false (rawUntil stop) :=
  (leads_ahead stop).upTo.bind fun _ => leads_pure _

theorem Leads.rawThrough (hp : Leads a p) : Leads false (rawThrough p) :=
  (leads_rawUntil p).bind fun _ => (hp.bind fun _ => leads_pure _).forward

end Repetition

section Stalls

/-- A repetition of `p` that goes on at `s` comes to a round that ends where the round before it
ended. The first argument tells where the last round ended. -/
inductive Stalls (p : Rule α) : Option Nat → Cursor → Prop
  | here {s v t} : p.Yields s v t → Stalls p (some t.offset) s
  | later {last s v t} : p.Yields s v t → Stalls p (some t.offset) t → Stalls p last s

/-- A rule that advances is repeated without coming to a halt. -/
theorem Advances.not_stalls (hp : Advances p) (s : Cursor) : ¬ Stalls p none s := by
  -- no round starts in front of the end of the one before
  have main : ∀ last s, Stalls p last s → (∀ o ∈ last, o ≤ s.offset) → False := by
    intro last s h
    induction h with
    | here hy =>
      intro hlast
      exact Nat.not_lt.2 (hlast _ rfl) (hp _ _ _ hy).offset_lt
    | later _ _ ih => exact fun _ => ih (by simp)
  exact fun h => main none s h nofun

example (cls : CharClass) : Stalls (run cls) none (.ofChars []) :=
  .later ⟨_, rfl⟩ (.here ⟨_, rfl⟩)

end Stalls

end Rule

end SoyTree
