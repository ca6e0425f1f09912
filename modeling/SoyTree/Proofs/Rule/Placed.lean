import SoyTree.Proofs.Rule.Failures

/-! # Failures at true places

A failure points into the source that is read: what it found is the character that stands at its
start, and a block that it blames starts with an opening brace. Rules keep this where they merge
failures, hand them on or make them anew, so all failures of a rule are placed if those of its
parts are.
-/

namespace SoyTree

/-- The cursor stands in `source`, in front of all that is left of it. -/
structure Cursor.In (source : List Char) (s : Cursor) : Prop where
  le : s.offset ≤ source.length
  rest : s.rest = source.drop s.offset

/-- The failure points to a true place of `source`. -/
structure Failure.Placed (source : List Char) (e : Failure) : Prop where
  start : e.start ≤ source.length
  found : e.reason = .unexpected → e.found = source[e.start]?
  opener : ∀ k, e.reason = .unclosed k → source[k]? = some '\x7b'

/-- Reading goes on in `source`, and the failure that is reported is placed. -/
def Reply.Placed {α : Type} (source : List Char) : Reply α → Prop
  | .ok _ t hint => t.In source ∧ ∀ e ∈ hint, e.Placed source
  | .fail e => e.Placed source

namespace Cursor

variable {source text : List Char} {s t : Cursor}

theorem in_ofChars (source : List Char) : (Cursor.ofChars source).In source where
  le := Nat.zero_le _
  rest := rfl

theorem In.head? (h : s.In source) : s.rest.head? = source[s.offset]? := by
  rw [h.rest, List.head?_drop]

theorem In.reads (h : s.In source) (hr : s.Reads text t) : t.In source := by
  have hoffset : t.offset = s.offset + text.length := by
    rw [offset, hr.position, Position.index_after]
    rfl
  have hsplit : source.drop s.offset = text ++ t.rest := by rw [← h.rest, hr.rest]
  constructor
  · have hlength := congrArg List.length hsplit
    rw [List.length_drop, List.length_append] at hlength
    have := h.le
    omega
  · rw [hoffset, ← List.drop_drop, hsplit, List.drop_left]

theorem In.next {c : Char} {rest : List Char} (h : s.In source) (hs : s.rest = c :: rest) :
    (⟨s.position.next c, rest⟩ : Cursor).In source := by
  have hr : s.Reads [c] ⟨s.position.next c, rest⟩ := ⟨hs, rfl⟩
  exact h.reads hr

end Cursor

namespace Failure

variable {source : List Char} {k : Nat} {x y e : Failure} {hint newer older : Option Failure}

/-- Where merging leaves a place unexplained, the first failure did. -/
theorem eq_of_mergeReason_unexpected {r r' : Reason} (h : mergeReason r r' = .unexpected) :
    r = .unexpected := by
  cases r with
  | unexpected => rfl
  | unclosed opener => simp [mergeReason] at h
  | rejected why =>
    cases r' with
    | unexpected => simp [mergeReason] at h
    | unclosed opener => simp [mergeReason] at h
    | rejected why' => simp [mergeReason] at h

theorem eq_of_mergeReason_unclosed {r r' : Reason} (h : mergeReason r r' = .unclosed k) :
    r = .unclosed k ∨ r' = .unclosed k := by
  cases r with
  | unclosed opener => exact Or.inl h
  | unexpected =>
    cases r' with
    | unclosed opener => exact Or.inr h
    | unexpected => simp [mergeReason] at h
    | rejected why => simp [mergeReason] at h
  | rejected why =>
    cases r' with
    | unclosed opener => exact Or.inr h
    | unexpected => simp [mergeReason] at h
    | rejected why' => simp [mergeReason] at h

theorem Placed.merge (hx : x.Placed source) (hy : y.Placed source) : (x.merge y).Placed source where
  start := hx.start
  found h := hx.found (eq_of_mergeReason_unexpected h)
  opener k h := (eq_of_mergeReason_unclosed h).elim (hx.opener k) (hy.opener k)

theorem Placed.max (hx : x.Placed source) (hy : y.Placed source) : (x.max y).Placed source := by
  unfold Failure.max
  split
  · exact hy
  split
  · exact hx
  · exact hx.merge hy

theorem Placed.maxHint (hx : x.Placed source) (hh : ∀ e ∈ hint, e.Placed source) :
    (x.maxHint hint).Placed source := by
  cases hint with
  | none => exact hx
  | some y => exact hx.max (hh y rfl)

theorem later_placed (hn : ∀ e ∈ newer, e.Placed source) (ho : ∀ e ∈ older, e.Placed source) :
    ∀ e ∈ later newer older, e.Placed source := by
  cases newer with
  | none => exact ho
  | some x =>
    rintro e (_ | _)
    exact (hn x rfl).maxHint ho

end Failure

namespace Rule

open Cursor

variable {α β : Type} {p q : Rule α} {f : α → Rule β} {source : List Char} {s t : Cursor} {v : α}

/-- All that the rule reports is placed, whatever the source and wherever the rule is used. -/
def Placed (p : Rule α) : Prop :=
  ∀ source s, s.In source → (p s).Placed source

theorem unexpected_placed (h : s.In source) (expected : List (Option Char)) :
    (unexpected s expected).Placed source where
  start := h.le
  found _ := h.head?
  opener _ h := nomatch h

section Combinators

theorem Placed.bind (hp : Placed p) (hf : ∀ v, Placed (f v)) : Placed (p >>= f) := by
  intro source s hs
  change (Rule.bind p f s).Placed source
  have h := hp source s hs
  unfold Rule.bind
  cases hps : p s with
  | fail e =>
    rw [hps] at h
    exact h
  | ok v t older =>
    rw [hps] at h
    obtain ⟨ht, holder⟩ := h
    have h' := hf v source t ht
    cases hft : f v t with
    | fail e =>
      rw [hft] at h'
      simp only [hft]
      exact Failure.Placed.maxHint h' holder
    | ok w u newer =>
      rw [hft] at h'
      simp only [hft]
      exact ⟨h'.1, Failure.later_placed h'.2 holder⟩

theorem placed_pure (v : α) : Placed (pure v) :=
  fun _ _ hs => ⟨hs, nofun⟩

theorem Placed.void (hp : Placed p) : Placed (void p) :=
  hp.bind fun _ => placed_pure ()

theorem Placed.check {g : α → Except Rejection β} (hp : Placed p) : Placed (check p g) := by
  intro source s hs
  have h := hp source s hs
  unfold Rule.check
  cases hps : p s with
  | fail e =>
    rw [hps] at h
    exact h
  | ok v t hint =>
    rw [hps] at h
    cases hg : g v with
    | ok w =>
      simp only [hg]
      exact h
    | error why =>
      simp only [hg]
      exact ⟨hs.le, nofun, nofun⟩

theorem Placed.marked {build : Mark → α → β} (hp : Placed p) : Placed (marked build p) := by
  intro source s hs
  have h := hp source s hs
  unfold Rule.marked
  cases hps : p s <;> (rw [hps] at h; exact h)

theorem Placed.ahead (hp : Placed p) : Placed (ahead p) := by
  intro source s hs
  have h := hp source s hs
  unfold Rule.ahead
  cases hps : p s with
  | fail e =>
    rw [hps] at h
    exact h
  | ok v t hint =>
    rw [hps] at h
    exact ⟨hs, h.2⟩

theorem Placed.either (hp : Placed p) (hq : Placed q) : Placed (either p q) := by
  intro source s hs
  have h := hp source s hs
  unfold Rule.either
  cases hps : p s with
  | ok v t hint =>
    rw [hps] at h
    exact h
  | fail e =>
    rw [hps] at h
    have h' := hq source s hs
    cases hqs : q s with
    | ok v t hint =>
      rw [hqs] at h'
      exact h'
    | fail e' =>
      rw [hqs] at h'
      exact Failure.Placed.max h h'

theorem Placed.choice {rules : List (Rule α)} (h : ∀ p ∈ rules, Placed p) :
    Placed (choice rules) := by
  induction rules with
  | nil => exact fun _ s hs => unexpected_placed hs []
  | cons p rest ih =>
    cases rest with
    | nil => exact h p (by simp)
    | cons q rest =>
      intro source s hs
      rw [choice_cons_cons]
      have hp := h p (by simp) source s hs
      have hrest := ih (fun r hr => h r (List.mem_cons_of_mem _ hr)) source s hs
      unfold firstReply
      cases hps : p s with
      | ok v t hint =>
        rw [hps] at hp
        exact hp
      | fail e =>
        rw [hps] at hp
        cases hqs : Rule.choice (q :: rest) s with
        | ok v t hint =>
          rw [hqs] at hrest
          exact hrest
        | fail e' =>
          rw [hqs] at hrest
          exact Failure.Placed.max hrest hp

theorem Placed.maybe (hp : Placed p) : Placed (maybe p) := by
  intro source s hs
  have h := hp source s hs
  unfold Rule.maybe
  cases hps : p s with
  | ok v t hint =>
    rw [hps] at h
    exact h
  | fail e =>
    rw [hps] at h
    refine ⟨hs, ?_⟩
    rintro x (_ | _)
    exact h

end Combinators

section Blocks

/-- Where no opening brace stands, the rule finds it missing there. -/
def BraceFirst (p : Rule α) : Prop :=
  ∀ s, s.rest.head? ≠ some '\x7b' → ∃ e, p s = .fail e ∧ e.found = s.rest.head?

theorem BraceFirst.bind (h : BraceFirst p) : BraceFirst (p >>= f) := by
  intro s hs
  obtain ⟨e, he, hfound⟩ := h s hs
  refine ⟨e, ?_, hfound⟩
  change Rule.bind p f s = .fail e
  simp only [Rule.bind, he]

theorem braceFirst_char : BraceFirst (char '\x7b') := by
  have hone : BraceFirst (one (.oneOf ['\x7b'])) := by
    intro s hs
    refine ⟨unexpected s [some '\x7b'], ?_, rfl⟩
    cases hrest : s.rest with
    | nil => simp [one, hrest, CharClass.oneOf]
    | cons c rest =>
      have hc : c ≠ '\x7b' := by simpa [hrest] using hs
      simp [one, hrest, CharClass.oneOf, hc]
  exact hone.bind

theorem BraceFirst.marked {build : Mark → α → β} (h : BraceFirst p) :
    BraceFirst (marked build p) := by
  intro s hs
  obtain ⟨e, he, hfound⟩ := h s hs
  exact ⟨e, by simp only [Rule.marked, he], hfound⟩

/-- A block is blamed only where an opening brace starts it. -/
theorem Placed.closed (hp : Placed p) (hbrace : BraceFirst p) : Placed (closed p) := by
  intro source s hs
  have h := hp source s hs
  unfold Rule.closed
  cases hps : p s with
  | ok v t hint =>
    rw [hps] at h
    exact h
  | fail e =>
    rw [hps] at h
    dsimp only
    split
    · rename_i hblame
      simp only [Bool.and_eq_true, Bool.not_eq_true', List.isEmpty_eq_false_iff,
        Option.isNone_iff_eq_none] at hblame
      obtain ⟨⟨⟨hne, hfound⟩, -⟩, -⟩ := hblame
      have hhead : s.rest.head? = some '\x7b' := by
        refine Decidable.byContradiction fun hother => ?_
        obtain ⟨e', he', hfound'⟩ := hbrace s hother
        rw [hps] at he'
        cases he'
        rw [hfound] at hfound'
        exact hne (List.head?_eq_none_iff.1 hfound'.symm)
      refine ⟨hs.le, nofun, ?_⟩
      rintro k ⟨⟩
      rw [← hs.head?, hhead]
    · exact h

end Blocks

section Characters

theorem placed_one (cls : CharClass) : Placed (one cls) := by
  intro source s hs
  unfold one
  split
  · exact unexpected_placed hs _
  · rename_i c rest hrest
    split
    · exact ⟨hs.next hrest, nofun⟩
    · exact unexpected_placed hs _

theorem placed_char (c : Char) : Placed (char c) :=
  (placed_one _).void

theorem placed_chars (cs : List Char) : Placed (chars cs) := by
  induction cs with
  | nil => exact placed_pure ()
  | cons c cs ih => exact (placed_char c).bind fun _ => ih

theorem placed_text (word : String) : Placed (text word) :=
  placed_chars _

theorem placed_run (cls : CharClass) : Placed (run cls) := by
  intro source s hs
  have hr : s.Reads (s.rest.take (s.rest.takeWhile cls.accepts).length)
      (s.skip (s.rest.takeWhile cls.accepts).length) := ⟨(List.take_append_drop _ _).symm, rfl⟩
  have hnext : (s.skip (s.rest.takeWhile cls.accepts).length).In source := hs.reads hr
  refine ⟨hnext, ?_⟩
  rintro e (_ | _)
  exact unexpected_placed hnext _

theorem placed_run1 (cls : CharClass) : Placed (run1 cls) := by
  intro source s hs
  unfold run1
  split
  · exact unexpected_placed hs _
  · split
    · exact placed_run cls source s hs
    · exact unexpected_placed hs _

theorem placed_endOfInput : Placed endOfInput := by
  intro source s hs
  unfold endOfInput
  split
  · exact ⟨hs, nofun⟩
  · exact unexpected_placed hs _

end Characters

section Recursion

theorem Placed.recursive {step : Rule α → Rule α} (h : ∀ p, Placed p → Placed (step p)) :
    Placed (recursive step) := by
  intro source s
  refine recursive_reply (R := fun s reply => ∀ source, s.In source → reply.Placed source) ?_ ?_ s
    source
  · exact fun s source hs => unexpected_placed hs []
  · exact fun p hp s source hs => h p (fun source s hs => hp s source hs) source s hs

theorem Placed.many (hp : Placed p) : Placed (many p) := by
  refine Placed.recursive fun again hagain source s hs => ?_
  have h := hp source s hs
  cases hps : p s with
  | fail e =>
    rw [hps] at h
    refine ⟨hs, ?_⟩
    rintro x (_ | _)
    exact h
  | ok v t older =>
    rw [hps] at h
    obtain ⟨ht, holder⟩ := h
    have h' := hagain source t ht
    cases hat : again t with
    | fail e =>
      simp only [hat]
      exact ⟨ht, holder⟩
    | ok vs u newer =>
      rw [hat] at h'
      simp only [hat]
      exact ⟨h'.1, Failure.later_placed h'.2 holder⟩

theorem Placed.many1 (hp : Placed p) : Placed (many1 p) :=
  hp.bind fun _ => hp.many.bind fun _ => placed_pure _

theorem Placed.sepBy1 {separator : Rule β} (hp : Placed p) (hs : Placed separator) :
    Placed (sepBy1 p separator) :=
  hp.bind fun _ => (hs.bind fun _ => hp).many.bind fun _ => placed_pure _

theorem Placed.sepBy {separator : Rule β} (hp : Placed p) (hsep : Placed separator) :
    Placed (sepBy p separator) := by
  intro source s hs
  have h := hp.sepBy1 hsep source s hs
  unfold Rule.sepBy
  cases hps : Rule.sepBy1 p separator s with
  | ok vs t hint =>
    rw [hps] at h
    exact h
  | fail e =>
    rw [hps] at h
    refine ⟨hs, ?_⟩
    rintro x (_ | _)
    exact h

theorem passUntil_placed (hp : Placed p) (rest : List Char) :
    ∀ position, (⟨position, rest⟩ : Cursor).In source →
      (passUntil p position rest).Placed source := by
  induction rest with
  | nil =>
    intro position hs
    have h := hp source _ hs
    unfold passUntil
    cases hps : p ⟨position, []⟩ <;> (rw [hps] at h; exact h)
  | cons c rest ih =>
    intro position hs
    have h := hp source _ hs
    unfold passUntil
    cases hps : p ⟨position, c :: rest⟩ with
    | ok w u hint =>
      rw [hps] at h
      exact h
    | fail e =>
      rw [hps] at h
      have h' := ih (position.next c) (Cursor.In.next hs rfl)
      cases hpass : passUntil p (position.next c) rest with
      | ok x u hint =>
        rw [hpass] at h'
        refine ⟨h'.1, Failure.later_placed h'.2 ?_⟩
        rintro y (_ | _)
        exact h
      | fail e' =>
        rw [hpass] at h'
        exact h'

theorem Placed.upTo (hp : Placed p) : Placed (upTo p) :=
  fun _ s hs => passUntil_placed hp s.rest s.position hs

theorem Placed.rawUntil (hp : Placed p) : Placed (rawUntil p) :=
  hp.ahead.upTo.bind fun _ => placed_pure _

theorem Placed.rawThrough (hp : Placed p) : Placed (rawThrough p) :=
  hp.rawUntil.bind fun _ => hp.bind fun _ => placed_pure _

end Recursion

end Rule

end SoyTree
