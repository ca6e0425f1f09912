import SoyTree.Proofs.Rule.Repetition

/-! # Failures that rules report

A rule reports a failure when it fails, and the furthest one that it met when it succeeds. Most rules
report mild failures only. Where the input ends within a block the furthest failure blames that
block, and no mild failure takes its place.
-/

namespace SoyTree

namespace Failure

/-- A failure within the input, which ends at `finish`; no block is to blame. -/
structure Mild (finish : Nat) (e : Failure) : Prop where
  reach : e.reach ≤ finish
  calm : ∀ opener, e.reason ≠ .unclosed opener

/-- A failure at the end of the input that blames the block opened at `opener`. -/
structure Blames (finish opener : Nat) (e : Failure) : Prop where
  reach : e.reach = finish
  reason : e.reason = .unclosed opener

/-- A failure at the end of the input for which no block has been blamed yet. -/
structure Ends (finish : Nat) (e : Failure) : Prop where
  reach : e.reach = finish
  reason : e.reason = .unexpected
  found : e.found = none
  start : finish ≤ e.start

variable {n k : Nat} {x y : Failure} {hint newer older : Option Failure}

theorem mergeReason_calm {r r' : Reason} (h : ∀ k, r ≠ .unclosed k) (h' : ∀ k, r' ≠ .unclosed k) :
    ∀ k, mergeReason r r' ≠ .unclosed k := by
  intro k
  cases r with
  | unclosed opener => exact absurd rfl (h opener)
  | _ =>
    cases r' with
    | unclosed opener => exact absurd rfl (h' opener)
    | _ => simp [mergeReason]

theorem mergeReason_unclosed {r : Reason} (h : ∀ k, r ≠ .unclosed k) :
    mergeReason r (.unclosed k) = .unclosed k := by
  cases r with
  | unclosed opener => exact absurd rfl (h opener)
  | _ => rfl

theorem mergeReason_unexpected {r : Reason} (h : ∀ k, r ≠ .unclosed k) :
    mergeReason .unexpected r = .unexpected := by
  cases r with
  | unclosed opener => exact absurd rfl (h opener)
  | _ => rfl

theorem Mild.max (hx : x.Mild n) (hy : y.Mild n) : (x.max y).Mild n := by
  unfold Failure.max
  split
  · exact hy
  split
  · exact hx
  · exact ⟨hx.reach, mergeReason_calm hx.calm hy.calm⟩

/-- Blame stays, whatever else did not reach further. -/
theorem Blames.max_left (hx : x.Blames n k) (hy : y.reach ≤ n) : (x.max y).Blames n k := by
  have hlt : ¬ x.reach < y.reach := by
    rw [hx.reach]
    omega
  unfold Failure.max
  rw [if_neg hlt]
  split
  · exact hx
  · exact ⟨hx.reach, by simp [merge, hx.reason, mergeReason]⟩

theorem Blames.max_right (hx : x.Mild n) (hy : y.Blames n k) : (x.max y).Blames n k := by
  have hle : ¬ y.reach < x.reach := by
    have := hx.reach
    rw [hy.reach]
    omega
  unfold Failure.max
  by_cases hlt : x.reach < y.reach
  · rw [if_pos hlt]
    exact hy
  · rw [if_neg hlt, if_neg hle]
    have hreach : x.reach = n := by
      have := hy.reach
      omega
    refine ⟨hreach, ?_⟩
    simp only [merge, hy.reason]
    exact mergeReason_unclosed hx.calm

theorem Ends.max (hx : x.Ends n) (hy : y.Mild n) : (x.max y).Ends n := by
  have hlt : ¬ x.reach < y.reach := by
    have := hy.reach
    rw [hx.reach]
    omega
  unfold Failure.max
  rw [if_neg hlt]
  split
  · exact hx
  · refine ⟨hx.reach, ?_, hx.found, hx.start⟩
    simp only [merge, hx.reason]
    exact mergeReason_unexpected hy.calm

theorem Ends.mild (h : x.Ends n) : x.Mild n :=
  ⟨Nat.le_of_eq h.reach, by simp [h.reason]⟩

theorem Mild.maxHint (hx : x.Mild n) (hh : ∀ h ∈ hint, h.Mild n) : (x.maxHint hint).Mild n := by
  cases hint with
  | none => exact hx
  | some y => exact hx.max (hh y rfl)

theorem Blames.maxHint (hx : x.Blames n k) (hh : ∀ h ∈ hint, h.Mild n) :
    (x.maxHint hint).Blames n k := by
  cases hint with
  | none => exact hx
  | some y => exact hx.max_left (hh y rfl).reach

theorem Ends.maxHint (hx : x.Ends n) (hh : ∀ h ∈ hint, h.Mild n) : (x.maxHint hint).Ends n := by
  cases hint with
  | none => exact hx
  | some y => exact hx.max (hh y rfl)

theorem later_mild (hn : ∀ h ∈ newer, h.Mild n) (ho : ∀ h ∈ older, h.Mild n) :
    ∀ h ∈ later newer older, h.Mild n := by
  cases newer with
  | none => exact ho
  | some x =>
    rintro h (_ | _)
    exact (hn x rfl).maxHint ho

end Failure

/-- The cursor behind is still in the same input, and what the reply reports is mild; a failure counts
if `all`. -/
def Reply.Tame {α : Type} (all : Bool) (s : Cursor) : Reply α → Prop
  | .ok _ t hint => t.finish = s.finish ∧ ∀ h ∈ hint, h.Mild s.finish
  | .fail e => all = true → e.Mild s.finish

namespace Rule

open Cursor

variable {α β : Type} {all : Bool} {p q : Rule α} {f : α → Rule β} {s t : Cursor} {v : α}

/-- What the rule reports is mild where it succeeds, and if `all` also where it fails. -/
def Tame (all : Bool) (p : Rule α) : Prop :=
  ∀ s, (p s).Tame all s

theorem Tame.quiet (h : Tame true p) : Tame all p := by
  intro s
  have hs := h s
  cases hp : p s with
  | ok v t hint =>
    rw [hp] at hs
    exact hs
  | fail e =>
    rw [hp] at hs
    exact fun _ => hs rfl

theorem Tame.finish (h : Tame all p) (hy : p.Yields s v t) : t.finish = s.finish := by
  obtain ⟨hint, hp⟩ := hy
  have hs := h s
  rw [hp] at hs
  exact hs.1

theorem Tame.mild {e : Failure} (h : Tame true p) (he : p s = .fail e) : e.Mild s.finish := by
  have hs := h s
  rw [he] at hs
  exact hs rfl

theorem unexpected_mild (s : Cursor) (expected : List (Option Char)) :
    (unexpected s expected).Mild s.finish :=
  ⟨Nat.le_add_right _ _, by simp [unexpected]⟩

section Combinators

theorem Tame.bind (hp : Tame all p) (hf : ∀ v, Tame all (f v)) : Tame all (p >>= f) := by
  intro s
  change (Rule.bind p f s).Tame all s
  have h := hp s
  unfold Rule.bind
  cases hps : p s with
  | fail e =>
    rw [hps] at h
    exact h
  | ok v t older =>
    rw [hps] at h
    obtain ⟨hfinish, holder⟩ := h
    have h' := hf v t
    cases hft : f v t with
    | fail e =>
      rw [hft] at h'
      simp only [hft]
      intro hall
      have he := h' hall
      rw [hfinish] at he
      exact he.maxHint holder
    | ok w u newer =>
      rw [hft] at h'
      obtain ⟨hfinish', hnewer⟩ := h'
      rw [hfinish] at hfinish' hnewer
      simp only [hft]
      exact ⟨hfinish', Failure.later_mild hnewer holder⟩

theorem tame_pure (v : α) : Tame all (pure v) :=
  fun _ => ⟨rfl, by simp⟩

theorem Tame.void (hp : Tame all p) : Tame all (void p) :=
  hp.bind fun _ => tame_pure ()

theorem Tame.check {g : α → Except Rejection β} (hp : Tame all p) : Tame all (check p g) := by
  intro s
  have h := hp s
  unfold Rule.check
  cases hps : p s with
  | fail e =>
    rw [hps] at h
    exact h
  | ok v t hint =>
    rw [hps] at h
    obtain ⟨hfinish, hhint⟩ := h
    cases hg : g v with
    | ok w =>
      simp only [hg]
      exact ⟨hfinish, hhint⟩
    | error why =>
      simp only [hg]
      refine fun _ => ⟨?_, by simp⟩
      rw [← hfinish]
      exact Nat.le_add_right _ _

theorem Tame.marked {build : Mark → α → β} (hp : Tame all p) : Tame all (marked build p) := by
  intro s
  have h := hp s
  unfold Rule.marked
  cases hps : p s <;> (rw [hps] at h; exact h)

theorem Tame.ahead (hp : Tame all p) : Tame all (ahead p) := by
  intro s
  have h := hp s
  unfold Rule.ahead
  cases hps : p s with
  | fail e =>
    rw [hps] at h
    exact h
  | ok v t hint =>
    rw [hps] at h
    exact ⟨rfl, h.2⟩

theorem Tame.either (hp : Tame all p) (hq : Tame all q) : Tame all (either p q) := by
  intro s
  have h := hp s
  unfold Rule.either
  cases hps : p s with
  | ok v t hint =>
    rw [hps] at h
    exact h
  | fail e =>
    rw [hps] at h
    have h' := hq s
    cases hqs : q s with
    | ok v t hint =>
      rw [hqs] at h'
      exact h'
    | fail e' =>
      rw [hqs] at h'
      exact fun hall => Failure.Mild.max (h hall) (h' hall)

theorem Tame.choice {rules : List (Rule α)} (h : ∀ p ∈ rules, Tame all p) :
    Tame all (choice rules) := by
  induction rules with
  | nil => exact fun s _ => unexpected_mild s []
  | cons p rest ih =>
    cases rest with
    | nil => exact h p (by simp)
    | cons q rest =>
      intro s
      rw [choice_cons_cons]
      have hp := h p (by simp) s
      have hrest := ih (fun r hr => h r (List.mem_cons_of_mem _ hr)) s
      unfold firstReply
      cases hps : p s with
      | ok v t hint =>
        rw [hps] at hp
        exact hp
      | fail e =>
        rw [hps] at hp
        cases hqs : Rule.choice (q :: rest) s with
        | ok v t hint =>
          rw [hqs] at hrest
          exact hrest
        | fail e' =>
          rw [hqs] at hrest
          exact fun hall => Failure.Mild.max (hrest hall) (hp hall)

theorem Tame.maybe (hp : Tame true p) : Tame all (maybe p) := by
  intro s
  have h := hp s
  unfold Rule.maybe
  cases hps : p s with
  | ok v t hint =>
    rw [hps] at h
    exact h
  | fail e =>
    rw [hps] at h
    refine ⟨rfl, ?_⟩
    rintro x (_ | _)
    exact h rfl

theorem Tame.closed (hp : Tame false p) : Tame false (closed p) := by
  intro s
  have h := hp s
  unfold Rule.closed
  cases hps : p s with
  | ok v t hint =>
    rw [hps] at h
    exact h
  | fail e =>
    dsimp only
    split <;> exact fun hall => nomatch hall

end Combinators

section Characters

theorem finish_next (s : Cursor) (c : Char) (rest : List Char) (hs : s.rest = c :: rest) :
    (⟨s.position.next c, rest⟩ : Cursor).finish = s.finish := by
  simp only [Cursor.finish, Cursor.offset, hs, Position.index_next, List.length_cons]
  omega

theorem tame_one (cls : CharClass) : Tame all (one cls) := by
  intro s
  unfold one
  split
  · exact fun _ => unexpected_mild s _
  · rename_i c rest hs
    split
    · exact ⟨finish_next s c rest hs, by simp⟩
    · exact fun _ => unexpected_mild s _

theorem tame_char (c : Char) : Tame all (char c) :=
  (tame_one _).void

theorem tame_chars (cs : List Char) : Tame all (chars cs) := by
  induction cs with
  | nil => exact tame_pure ()
  | cons c cs ih => exact (tame_char c).bind fun _ => ih

theorem tame_text (word : String) : Tame all (text word) :=
  tame_chars _

theorem tame_run (cls : CharClass) : Tame all (run cls) := by
  intro s
  have hfinish : (s.skip (s.rest.takeWhile cls.accepts).length).finish = s.finish := by
    have hle : (s.rest.takeWhile cls.accepts).length ≤ s.rest.length :=
      (List.takeWhile_sublist _).length_le
    simp only [Cursor.finish, Cursor.offset, Cursor.skip, Position.index_after, List.length_take,
      List.length_drop]
    omega
  refine ⟨hfinish, ?_⟩
  rintro h (_ | _)
  rw [← hfinish]
  exact unexpected_mild _ _

theorem tame_run1 (cls : CharClass) : Tame all (run1 cls) := by
  intro s
  unfold run1
  split
  · exact fun _ => unexpected_mild s _
  · split
    · exact tame_run cls s
    · exact fun _ => unexpected_mild s _

theorem tame_endOfInput : Tame all endOfInput := by
  intro s
  unfold endOfInput
  split
  · exact ⟨rfl, by simp⟩
  · exact fun _ => unexpected_mild s _

end Characters

section Recursion

/-- What a description hands on from its inner uses, and a failure to unfold it has, holds of the
replies of the recursive rule. -/
theorem recursive_reply {step : Rule α → Rule α} {R : Cursor → Reply α → Prop}
    (hstart : ∀ s, R s (.fail (unexpected s [])))
    (hstep : ∀ p : Rule α, (∀ s, R s (p s)) → ∀ s, R s (step p s)) (s : Cursor) :
    R s (recursive step s) := by
  have main : ∀ n s, R s (unfoldTimes step n s) := by
    intro n
    induction n with
    | zero => exact hstart
    | succ n ih =>
      intro s
      refine hstep _ (fun t => ?_) s
      unfold beyond
      split
      · exact ih t
      · exact hstart t
  exact main _ s

theorem Tame.recursive {step : Rule α → Rule α} (h : ∀ p, Tame all p → Tame all (step p)) :
    Tame all (recursive step) :=
  recursive_reply (R := fun s reply => reply.Tame all s) (fun s _ => unexpected_mild s []) h

theorem many_tame {vs : List α} {hint : Option Failure} (hp : Tame all p)
    (h : many p s = .ok vs t hint) (hend : ∀ e, p t = .fail e → e.Mild t.finish) :
    t.finish = s.finish ∧ ∀ x ∈ hint, x.Mild s.finish := by
  induction vs generalizing s hint with
  | nil =>
    rw [many_eq] at h
    cases hps : p s with
    | fail e =>
      simp only [hps, Reply.ok.injEq] at h
      obtain ⟨-, rfl, rfl⟩ := h
      refine ⟨rfl, ?_⟩
      rintro x (_ | _)
      exact hend e hps
    | ok v u older => cases hb : beyond s (many p) u <;> simp [hps, hb] at h
  | cons w vs ih =>
    rw [many_eq] at h
    cases hps : p s with
    | fail e => simp [hps] at h
    | ok v u older =>
      have hs := hp s
      rw [hps] at hs
      obtain ⟨hfinish, holder⟩ := hs
      cases hb : beyond s (many p) u with
      | fail e =>
        simp only [hps, hb, Reply.ok.injEq] at h
        obtain ⟨-, rfl, rfl⟩ := h
        exact ⟨hfinish, holder⟩
      | ok ws u' newer =>
        simp only [hps, hb, Reply.ok.injEq, List.cons.injEq] at h
        obtain ⟨⟨-, rfl⟩, rfl, rfl⟩ := h
        have hm : many p u = .ok ws u' newer := by
          unfold beyond at hb
          split at hb
          · exact hb
          · cases hb
        obtain ⟨hfinish', hnewer⟩ := ih hm
        rw [hfinish] at hfinish' hnewer
        exact ⟨hfinish', Failure.later_mild hnewer holder⟩

theorem Tame.many (hp : Tame true p) : Tame all (many p) := by
  intro s
  cases hm : Rule.many p s with
  | fail e => exact absurd ⟨e, hm⟩ not_fails_many
  | ok vs t hint => exact many_tame hp hm fun e he => hp.mild he

theorem Tame.sepBy1 {separator : Rule β} (hp : Tame true p) (hs : Tame true separator) :
    Tame all (sepBy1 p separator) :=
  hp.quiet.bind fun _ => (Tame.many (hs.bind fun _ => hp)).bind fun _ => tame_pure _

theorem Tame.sepBy {separator : Rule β} (hp : Tame true p) (hs : Tame true separator) :
    Tame all (sepBy p separator) := by
  intro s
  have htame : Tame true (Rule.sepBy1 p separator) := hp.sepBy1 hs
  have h := htame s
  unfold Rule.sepBy
  cases hps : Rule.sepBy1 p separator s with
  | ok vs t hint =>
    rw [hps] at h
    exact h
  | fail e =>
    rw [hps] at h
    refine ⟨rfl, ?_⟩
    rintro x (_ | _)
    exact h rfl

/-- The failures of the stop that a capture passes over are reported, so they must be mild. -/
theorem Tame.upTo (hp : Tame true p) : Tame all (upTo p) := by
  have main : ∀ rest position, (passUntil p position rest).Tame all ⟨position, rest⟩ := by
    intro rest
    induction rest with
    | nil =>
      intro position
      have htame : Tame all p := hp.quiet
      have h := htame ⟨position, []⟩
      unfold passUntil
      cases hps : p ⟨position, []⟩ <;> (rw [hps] at h; exact h)
    | cons c rest ih =>
      intro position
      have h := hp ⟨position, c :: rest⟩
      unfold passUntil
      cases hps : p ⟨position, c :: rest⟩ with
      | ok w u hint =>
        rw [hps] at h
        exact h
      | fail e =>
        rw [hps] at h
        have h' := ih (position.next c)
        have hfinish := finish_next ⟨position, c :: rest⟩ c rest rfl
        cases hpass : passUntil p (position.next c) rest with
        | ok x u hint =>
          rw [hpass] at h'
          obtain ⟨hu, hhint⟩ := h'
          rw [hfinish] at hu hhint
          dsimp only
          refine ⟨hu, Failure.later_mild hhint ?_⟩
          rintro y (_ | _)
          exact h rfl
        | fail e' =>
          rw [hpass] at h'
          dsimp only
          intro hall
          have he := h' hall
          rw [hfinish] at he
          exact he
  exact fun s => main s.rest s.position

theorem Tame.rawUntil (hp : Tame true p) : Tame all (rawUntil p) :=
  (Tame.upTo hp.ahead).bind fun _ => tame_pure _

theorem Tame.rawThrough (hp : Tame true p) : Tame all (rawThrough p) :=
  hp.rawUntil.bind fun _ => hp.quiet.bind fun _ => tame_pure _

end Recursion

end Rule

end SoyTree
