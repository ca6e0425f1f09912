import SoyTree.Proofs.Rule.Failures

/-! # Blame at the end of the input

How a rule fails where the input ends within a block. The failure travels outwards through sequences,
alternatives and repetitions, and the first block around it that has not been closed takes the blame.
-/

namespace SoyTree.Rule

open Cursor

variable {α β : Type} {p q : Rule α} {f : α → Rule β} {s t u : Cursor} {v : α}
  {here opener : Nat}

def FailsMildly (p : Rule α) (s : Cursor) : Prop :=
  ∃ e, p s = .fail e ∧ e.Mild s.finish

/-- The rule fails mildly and blames a text in front of the end of the input. -/
def Refuses (p : Rule α) (s : Cursor) : Prop :=
  ∃ e, p s = .fail e ∧ e.Mild s.finish ∧ e.start < s.finish

def FailsShort (p : Rule α) (s : Cursor) : Prop :=
  ∃ e, p s = .fail e ∧ e.reach < s.finish

/-- The rule fails at the end of the input. -/
def EndsAt (p : Rule α) (s : Cursor) : Prop :=
  ∃ e, p s = .fail e ∧ e.Ends s.finish

/-- The rule fails at the end of the input and blames the block opened at `opener`. -/
def BlamesAt (p : Rule α) (s : Cursor) (opener : Nat) : Prop :=
  ∃ e, p s = .fail e ∧ e.Blames s.finish opener

/-- The rule fails at the end of the input. The block opened at `opener` is to blame, which is the one
around the rule, opened at `here`, or has been blamed already. -/
def StopsAt (p : Rule α) (s : Cursor) (here opener : Nat) : Prop :=
  p.BlamesAt s opener ∨ opener = here ∧ p.EndsAt s

/-- The rule succeeds, and the furthest failure that it met blames the block opened at `opener`. -/
def YieldsBlaming (p : Rule α) (s : Cursor) (v : α) (t : Cursor) (opener : Nat) : Prop :=
  ∃ h, p s = .ok v t (some h) ∧ h.Blames s.finish opener

theorem Refuses.mildly (h : p.Refuses s) : p.FailsMildly s := by
  obtain ⟨e, he, hmild, -⟩ := h
  exact ⟨e, he, hmild⟩

theorem EndsAt.mildly (h : p.EndsAt s) : p.FailsMildly s := by
  obtain ⟨e, he, hends⟩ := h
  exact ⟨e, he, hends.mild⟩

theorem FailsMildly.mild {e : Failure} (h : p.FailsMildly s) (he : p s = .fail e) :
    e.Mild s.finish := by
  obtain ⟨e', he', hmild⟩ := h
  rw [he] at he'
  cases he'
  exact hmild

theorem Tame.failsMildly (h : Tame true p) (hf : p.Fails s) : p.FailsMildly s := by
  obtain ⟨e, he⟩ := hf
  exact ⟨e, he, h.mild he⟩

section Sequence

theorem bind_fail {e : Failure} (h : p s = .fail e) : (p >>= f) s = .fail e := by
  change Rule.bind p f s = .fail e
  simp only [Rule.bind, h]

theorem bind_fail_later {e : Failure} (hp : p.Yields s v t) (ht : Tame false p)
    (h : f v t = .fail e) :
    t.finish = s.finish ∧ ∃ hint, (∀ h ∈ hint, h.Mild s.finish) ∧
      (p >>= f) s = .fail (e.maxHint hint) := by
  obtain ⟨hint, hp⟩ := hp
  have hs := ht s
  rw [hp] at hs
  refine ⟨hs.1, hint, hs.2, ?_⟩
  change Rule.bind p f s = _
  simp only [Rule.bind, hp, h]

theorem FailsMildly.bind (h : p.FailsMildly s) : (p >>= f).FailsMildly s := by
  obtain ⟨e, he, hmild⟩ := h
  exact ⟨e, bind_fail he, hmild⟩

theorem FailsMildly.bind_later (hp : p.Yields s v t) (ht : Tame false p)
    (h : (f v).FailsMildly t) : (p >>= f).FailsMildly s := by
  obtain ⟨e, he, hmild⟩ := h
  obtain ⟨hfinish, hint, hhint, hfail⟩ := bind_fail_later hp ht he
  rw [hfinish] at hmild
  exact ⟨_, hfail, hmild.maxHint hhint⟩

theorem Refuses.bind (h : p.Refuses s) : (p >>= f).Refuses s := by
  obtain ⟨e, he, hmild⟩ := h
  exact ⟨e, bind_fail he, hmild⟩

theorem char_ok {c : Char} (hr : s.Reads [c] t) : char c s = .ok () t none := by
  obtain ⟨position, rest⟩ := s
  obtain rfl : rest = c :: t.rest := hr.rest
  have ht : t = ⟨position.next c, t.rest⟩ := by
    obtain ⟨position', rest'⟩ := t
    have := hr.position
    simp_all
  rw [ht]
  simp [char, void, Rule.bind, one, CharClass.oneOf, succeed, Failure.later]

theorem finish_of_reads {text : List Char} (hr : s.Reads text t) : t.finish = s.finish := by
  simp only [Cursor.finish, Cursor.offset, hr.position, hr.length, Position.index_after]
  omega

theorem Refuses.bind_char {f : Unit → Rule β} {c : Char} (hr : s.Reads [c] t)
    (h : (f ()).Refuses t) : (char c >>= f).Refuses s := by
  obtain ⟨e, he, hmild, hstart⟩ := h
  rw [finish_of_reads hr] at hmild hstart
  refine ⟨e, ?_, hmild, hstart⟩
  change Rule.bind (char c) f s = .fail e
  simp only [Rule.bind, char_ok hr, he, Failure.maxHint]

theorem FailsShort.bind (h : p.FailsShort s) : (p >>= f).FailsShort s := by
  obtain ⟨e, he, hshort⟩ := h
  exact ⟨e, bind_fail he, hshort⟩

theorem FailsShort.bind_later {hint : Option Failure} (hp : p s = .ok v t hint)
    (hhint : ∀ h ∈ hint, h.reach < s.finish) (ht : t.finish = s.finish)
    (h : (f v).FailsShort t) : (p >>= f).FailsShort s := by
  obtain ⟨e, he, hshort⟩ := h
  rw [ht] at hshort
  refine ⟨e.maxHint hint, ?_, ?_⟩
  · change Rule.bind p f s = _
    simp only [Rule.bind, hp, he]
  · cases hint with
    | none => exact hshort
    | some x =>
      have hx := hhint x rfl
      change (e.max x).reach < s.finish
      unfold Failure.max
      split
      · exact hx
      · split <;> exact hshort

theorem char_short {c : Char} (hs : s.rest ≠ []) (hc : s.rest.head? ≠ some c) :
    (char c).FailsShort s := by
  have hlt : s.offset < s.finish := Nat.lt_add_of_pos_right (List.length_pos_iff.2 hs)
  have hone : (one (.oneOf [c])).FailsShort s := by
    refine ⟨unexpected s (CharClass.oneOf [c]).expected, ?_, hlt⟩
    obtain ⟨d, rest, hrest⟩ := List.exists_cons_of_ne_nil hs
    have hd : d ≠ c := by simpa [hrest] using hc
    simp [one, hrest, CharClass.oneOf, hd]
  exact hone.bind

/-- Where the rule fails it blames the text from its start on. -/
def FailsInPlace (p : Rule α) : Prop :=
  ∀ s e, p s = .fail e → e.start = s.offset

theorem failsInPlace_one {cls : CharClass} : FailsInPlace (one cls) := by
  intro s e h
  unfold one at h
  split at h
  · cases h
    rfl
  · split at h
    · cases h
    · cases h
      rfl

theorem FailsInPlace.bind (h : FailsInPlace p) (hf : ∀ v t, ¬ (f v).Fails t) :
    FailsInPlace (p >>= f) := by
  intro s e he
  change Rule.bind p f s = _ at he
  unfold Rule.bind at he
  cases hp : p s with
  | fail e' =>
    simp only [hp, Reply.fail.injEq] at he
    exact he ▸ h s e' hp
  | ok v t older =>
    cases hft : f v t with
    | fail e' => exact absurd ⟨e', hft⟩ (hf v t)
    | ok w u newer => simp [hp, hft] at he

theorem FailsInPlace.check {g : α → Except Rejection β} (h : FailsInPlace p) :
    FailsInPlace (check p g) := by
  intro s e he
  unfold Rule.check at he
  cases hp : p s with
  | fail e' =>
    simp only [hp, Reply.fail.injEq] at he
    exact he ▸ h s e' hp
  | ok v t hint =>
    cases hg : g v with
    | ok w => simp [hp, hg] at he
    | error why =>
      simp only [hp, hg, Reply.fail.injEq] at he
      exact he ▸ rfl

theorem FailsInPlace.refuses (h : FailsInPlace p) (ht : Tame true p) (hs : s.rest ≠ [])
    (hf : p.Fails s) : p.Refuses s := by
  obtain ⟨e, he⟩ := hf
  refine ⟨e, he, ht.mild he, ?_⟩
  rw [h s e he]
  exact Nat.lt_add_of_pos_right (List.length_pos_iff.2 hs)

theorem EndsAt.bind (h : p.EndsAt s) : (p >>= f).EndsAt s := by
  obtain ⟨e, he, hends⟩ := h
  exact ⟨e, bind_fail he, hends⟩

theorem EndsAt.bind_later (hp : p.Yields s v t) (ht : Tame false p) (h : (f v).EndsAt t) :
    (p >>= f).EndsAt s := by
  obtain ⟨e, he, hends⟩ := h
  obtain ⟨hfinish, hint, hhint, hfail⟩ := bind_fail_later hp ht he
  rw [hfinish] at hends
  exact ⟨_, hfail, hends.maxHint hhint⟩

theorem BlamesAt.bind (h : p.BlamesAt s opener) : (p >>= f).BlamesAt s opener := by
  obtain ⟨e, he, hblames⟩ := h
  exact ⟨e, bind_fail he, hblames⟩

theorem BlamesAt.bind_later (hp : p.Yields s v t) (ht : Tame false p)
    (h : (f v).BlamesAt t opener) : (p >>= f).BlamesAt s opener := by
  obtain ⟨e, he, hblames⟩ := h
  obtain ⟨hfinish, hint, hhint, hfail⟩ := bind_fail_later hp ht he
  rw [hfinish] at hblames
  exact ⟨_, hfail, hblames.maxHint hhint⟩

theorem StopsAt.bind (h : p.StopsAt s here opener) : (p >>= f).StopsAt s here opener := by
  rcases h with h | ⟨rfl, h⟩
  · exact Or.inl h.bind
  · exact Or.inr ⟨rfl, h.bind⟩

theorem StopsAt.bind_later (hp : p.Yields s v t) (ht : Tame false p)
    (h : (f v).StopsAt t here opener) : (p >>= f).StopsAt s here opener := by
  rcases h with h | ⟨rfl, h⟩
  · exact Or.inl (h.bind_later hp ht)
  · exact Or.inr ⟨rfl, h.bind_later hp ht⟩

end Sequence

section Blocks

theorem marked_fail {build : Mark → α → β} {e : Failure} (h : p s = .fail e) :
    marked build p s = .fail e := by
  simp only [marked, h]

theorem FailsMildly.marked {build : Mark → α → β} (h : p.FailsMildly s) :
    (marked build p).FailsMildly s := by
  obtain ⟨e, he, hmild⟩ := h
  exact ⟨e, marked_fail he, hmild⟩

theorem Refuses.marked {build : Mark → α → β} (h : p.Refuses s) : (marked build p).Refuses s := by
  obtain ⟨e, he, hmild⟩ := h
  exact ⟨e, marked_fail he, hmild⟩

theorem EndsAt.marked {build : Mark → α → β} (h : p.EndsAt s) : (marked build p).EndsAt s := by
  obtain ⟨e, he, hends⟩ := h
  exact ⟨e, marked_fail he, hends⟩

theorem BlamesAt.marked {build : Mark → α → β} (h : p.BlamesAt s opener) :
    (marked build p).BlamesAt s opener := by
  obtain ⟨e, he, hblames⟩ := h
  exact ⟨e, marked_fail he, hblames⟩

theorem StopsAt.marked {build : Mark → α → β} (h : p.StopsAt s here opener) :
    (marked build p).StopsAt s here opener := by
  rcases h with h | ⟨rfl, h⟩
  · exact Or.inl h.marked
  · exact Or.inr ⟨rfl, h.marked⟩

/-- A block within which the input ends takes the blame, unless an inner one has taken it. -/
theorem StopsAt.closed (h : p.StopsAt s s.offset opener) (hs : s.rest ≠ []) :
    (closed p).BlamesAt s opener := by
  rcases h with ⟨e, he, hblames⟩ | ⟨rfl, e, he, hends⟩
  · refine ⟨e, ?_, hblames⟩
    simp [Rule.closed, he, hblames.reason]
  · refine ⟨⟨e.reach, s.offset, none, [some '\x7d'], .unclosed s.offset⟩, ?_, hends.reach, rfl⟩
    have hstart := hends.start
    simp [Rule.closed, he, hends.reason, hends.found, hstart, hs]

theorem Refuses.closed (h : p.Refuses s) : (closed p).Refuses s := by
  obtain ⟨e, he, hmild, hstart⟩ := h
  refine ⟨e, ?_, hmild, hstart⟩
  have hlt : ¬ s.finish ≤ e.start := by omega
  simp [Rule.closed, he, hlt]

theorem EndsAt.closed (h : p.EndsAt s) (hs : s.rest = []) : (closed p).EndsAt s := by
  obtain ⟨e, he, hends⟩ := h
  exact ⟨e, by simp [Rule.closed, he, hs], hends⟩

end Blocks

section Alternatives

theorem either_fail {e e' : Failure} (h : p s = .fail e) (h' : q s = .fail e') :
    either p q s = .fail (e.max e') := by
  simp only [either, h, h']

theorem FailsMildly.either (h : p.FailsMildly s) (h' : q.FailsMildly s) :
    (either p q).FailsMildly s := by
  obtain ⟨e, he, hmild⟩ := h
  obtain ⟨e', he', hmild'⟩ := h'
  exact ⟨_, either_fail he he', hmild.max hmild'⟩

theorem BlamesAt.either_right (h : p.FailsMildly s) (h' : q.BlamesAt s opener) :
    (either p q).BlamesAt s opener := by
  obtain ⟨e, he, hmild⟩ := h
  obtain ⟨e', he', hblames⟩ := h'
  exact ⟨_, either_fail he he', .max_right hmild hblames⟩

/-- The alternative that got further counts. -/
theorem StopsAt.either_right (h : p.FailsShort s) (h' : q.StopsAt s here opener) :
    (either p q).StopsAt s here opener := by
  obtain ⟨e, he, hshort⟩ := h
  have hmax : ∀ e', e'.reach = s.finish → q s = .fail e' → either p q s = .fail e' := by
    intro e' hreach he'
    rw [either_fail he he', Failure.max, if_pos (by omega)]
  rcases h' with ⟨e', he', hblames⟩ | ⟨rfl, e', he', hends⟩
  · exact Or.inl ⟨e', hmax e' hblames.reach he', hblames⟩
  · exact Or.inr ⟨rfl, e', hmax e' hends.reach he', hends⟩

theorem choice_fail {rest : List (Rule α)} {e e' : Failure} (h : p s = .fail e)
    (h' : choice (q :: rest) s = .fail e') : choice (p :: q :: rest) s = .fail (e'.max e) := by
  rw [choice_cons_cons, h, h']
  rfl

theorem FailsMildly.choice {rules : List (Rule α)} (h : ∀ p ∈ rules, p.FailsMildly s) :
    (choice rules).FailsMildly s := by
  induction rules with
  | nil => exact ⟨_, rfl, unexpected_mild s []⟩
  | cons p rest ih =>
    cases rest with
    | nil => exact h p (by simp)
    | cons q rest =>
      obtain ⟨e, he, hmild⟩ := h p (by simp)
      obtain ⟨e', he', hmild'⟩ := ih fun r hr => h r (List.mem_cons_of_mem _ hr)
      exact ⟨_, choice_fail he he', hmild'.max hmild⟩

/-- Of rules that all fail, the one that blames a block is heard. -/
theorem BlamesAt.choice {before after : List (Rule α)} (hbefore : ∀ q ∈ before, q.FailsMildly s)
    (hp : p.BlamesAt s opener) (hafter : ∀ q ∈ after, q.FailsMildly s) :
    (choice (before ++ p :: after)).BlamesAt s opener := by
  induction before with
  | nil =>
    cases after with
    | nil => exact hp
    | cons q after =>
      obtain ⟨e, he, hblames⟩ := hp
      obtain ⟨e', he', hmild⟩ := FailsMildly.choice hafter
      exact ⟨_, choice_fail he he', .max_right hmild hblames⟩
  | cons r before ih =>
    obtain ⟨e, he, hmild⟩ := hbefore r (by simp)
    obtain ⟨e', he', hblames⟩ := ih fun q hq => hbefore q (List.mem_cons_of_mem _ hq)
    refine ⟨e'.max e, ?_, hblames.max_left hmild.reach⟩
    cases before <;> exact choice_fail he he'

end Alternatives

section Ends

theorem unexpected_ends (hs : s.rest = []) (expected : List (Option Char)) :
    (unexpected s expected).Ends s.finish := by
  refine ⟨?_, rfl, ?_, ?_⟩ <;> simp [unexpected, Cursor.finish, hs]

theorem char_ends (hs : s.rest = []) (c : Char) : (char c).EndsAt s := by
  have hone : (one (.oneOf [c])).EndsAt s := by
    refine ⟨unexpected s (CharClass.oneOf [c]).expected, ?_, unexpected_ends hs _⟩
    simp only [one, hs]
  exact hone.bind

theorem text_ends {word : String} (hs : s.rest = []) (hw : word.toList ≠ []) :
    (text word).EndsAt s := by
  unfold Rule.text
  obtain ⟨c, rest, hword⟩ := List.exists_cons_of_ne_nil hw
  rw [hword]
  exact (char_ends hs c).bind

theorem EndsAt.upTo (hr : s.Reads s.rest t) (hmiss : p.Misses s s.rest t) (h : p.EndsAt t) :
    (upTo p).EndsAt s := by
  have main : ∀ rest position, p.Misses ⟨position, rest⟩ rest ⟨position.after rest, []⟩ →
      p.EndsAt ⟨position.after rest, []⟩ → ∃ e, passUntil p position rest = .fail e ∧
        e.Ends (Cursor.finish ⟨position.after rest, []⟩) := by
    intro rest
    induction rest with
    | nil =>
      rintro position - ⟨e, he, hends⟩
      rw [Position.after_nil] at he hends ⊢
      exact ⟨e, by rw [passUntil, he], hends⟩
    | cons c rest ih =>
      intro position hmiss h
      obtain ⟨⟨e, he⟩, hmiss'⟩ := misses_cons.1 hmiss
      rw [Position.after_cons] at hmiss' h ⊢
      obtain ⟨e', he', hends⟩ := ih (position.next c) hmiss' h
      rw [List.append_nil] at he
      exact ⟨e', by rw [passUntil, he, he'], hends⟩
  obtain ⟨position, rest⟩ := s
  obtain rfl : t = ⟨position.after rest, []⟩ := by simpa using hr.eq
  obtain ⟨e, he, hends⟩ := main rest position hmiss h
  exact ⟨e, he, finish_of_reads hr ▸ hends⟩

theorem EndsAt.rawUntil (hr : s.Reads s.rest t) (hmiss : p.Misses s s.rest t) (h : p.EndsAt t) :
    (rawUntil p).EndsAt s := by
  refine EndsAt.bind (EndsAt.upTo hr (fun a b hab hb => fails_ahead.2 (hmiss a b hab hb)) ?_)
  obtain ⟨e, he, hends⟩ := h
  exact ⟨e, by simp only [ahead, he], hends⟩

end Ends

section Repetition

/-- Where what follows a repetition can be read, the repeated rule must fail mildly. -/
theorem Tame.many_bind {next : List α → Rule β} (hp : Tame false p)
    (hnext : ∀ vs, Tame false (next vs))
    (hstop : ∀ vs s w t, (next vs).Yields s w t → p.FailsMildly s) :
    Tame false (Rule.many p >>= next) := by
  intro s
  change (Rule.bind (Rule.many p) next s).Tame false s
  unfold Rule.bind
  cases hm : Rule.many p s with
  | fail e => exact absurd ⟨e, hm⟩ not_fails_many
  | ok vs t older =>
    cases hnt : next vs t with
    | fail e =>
      simp only [hnt]
      exact fun h => nomatch h
    | ok w u newer =>
      have hmild := hstop vs t w u ⟨newer, hnt⟩
      obtain ⟨hfinish, holder⟩ := many_tame hp hm fun e => hmild.mild
      obtain ⟨hu, hnewer⟩ : u.finish = t.finish ∧ ∀ h ∈ newer, h.Mild t.finish := by
        have h := hnext vs t
        rwa [hnt] at h
      simp only [hnt]
      rw [hfinish] at hu hnewer
      exact ⟨hu, Failure.later_mild hnewer holder⟩

theorem YieldsBlaming.many_nil (h : p.BlamesAt s opener) : (many p).YieldsBlaming s [] s opener := by
  obtain ⟨e, he, hblames⟩ := h
  exact ⟨e, by rw [many_eq, he], hblames⟩

theorem YieldsBlaming.many_cons {vs : List α} (hp : p.Yields s v u) (ht : Tame false p)
    (hu : u.rest.length < s.rest.length) (h : (many p).YieldsBlaming u vs t opener) :
    (many p).YieldsBlaming s (v :: vs) t opener := by
  obtain ⟨older, hp⟩ := hp
  obtain ⟨newer, hm, hblames⟩ := h
  have hs := ht s
  rw [hp] at hs
  rw [hs.1] at hblames
  refine ⟨newer.maxHint older, ?_, hblames.maxHint hs.2⟩
  rw [many_eq, hp]
  simp only [beyond, hu, if_true, hm, Failure.later]

theorem YieldsBlaming.bind_later {w : β} (hp : p.Yields s v t) (ht : Tame false p)
    (h : (f v).YieldsBlaming t w u opener) : (p >>= f).YieldsBlaming s w u opener := by
  obtain ⟨older, hp⟩ := hp
  obtain ⟨newer, hf, hblames⟩ := h
  have hs := ht s
  rw [hp] at hs
  rw [hs.1] at hblames
  refine ⟨newer.maxHint older, ?_, hblames.maxHint hs.2⟩
  change Rule.bind p f s = _
  simp only [Rule.bind, hp, hf, Failure.later]

theorem YieldsBlaming.map {w : β} (h : p.YieldsBlaming s v t opener) (hf : f v = pure w) :
    (p >>= f).YieldsBlaming s w t opener := by
  obtain ⟨hint, hp, hblames⟩ := h
  refine ⟨hint, ?_, hblames⟩
  change Rule.bind p f s = _
  simp only [Rule.bind, hp, hf]
  rfl

theorem YieldsBlaming.marked {build : Mark → α → β} (h : p.YieldsBlaming s v t opener) :
    (marked build p).YieldsBlaming s (build ⟨s.position, t.position⟩ v) t opener := by
  obtain ⟨hint, hp, hblames⟩ := h
  exact ⟨hint, by simp only [Rule.marked, hp], hblames⟩

/-- The blame that a success carries along is heard where reading stops behind it. -/
theorem YieldsBlaming.blames (h : p.YieldsBlaming s v t opener) (ht : t.finish = s.finish)
    (hf : (f v).FailsMildly t) : (p >>= f).BlamesAt s opener := by
  obtain ⟨hint, hp, hblames⟩ := h
  obtain ⟨e, he, hmild⟩ := hf
  rw [ht] at hmild
  refine ⟨e.max hint, ?_, .max_right hmild hblames⟩
  change Rule.bind p f s = _
  simp only [Rule.bind, hp, he, Failure.maxHint]

/-- A repetition in front of `next` that the end of the input cuts off: `next` meets the end, or one
of the repeated parts is cut off itself. -/
def ManyStops (p : Rule α) (next : List α → Rule β) (s : Cursor) (here opener : Nat) : Prop :=
  ∃ vs t, t.finish = s.finish ∧
    (opener = here ∧ (many p).Yields s vs t ∧ p.FailsMildly t ∧ (∀ vs, (next vs).EndsAt t) ∨
      (many p).YieldsBlaming s vs t opener ∧ ∀ vs, (next vs).FailsMildly t)

variable {next : List α → Rule β}

theorem ManyStops.nil (hp : p.FailsMildly s) (hnext : ∀ vs, (next vs).EndsAt s) :
    ManyStops p next s here here := by
  refine ⟨[], s, rfl, Or.inl ⟨rfl, Yields.many_nil ?_, hp, hnext⟩⟩
  obtain ⟨e, he, -⟩ := hp
  exact ⟨e, he⟩

theorem ManyStops.inner (hp : p.BlamesAt s opener) (hnext : ∀ vs, (next vs).FailsMildly s) :
    ManyStops p next s here opener :=
  ⟨[], s, rfl, Or.inr ⟨.many_nil hp, hnext⟩⟩

theorem ManyStops.cons (hp : p.Yields s v u) (ht : Tame false p)
    (hu : u.rest.length < s.rest.length) (h : ManyStops p next u here opener) :
    ManyStops p next s here opener := by
  obtain ⟨vs, t, hfinish, h⟩ := h
  rw [ht.finish hp] at hfinish
  refine ⟨v :: vs, t, hfinish, ?_⟩
  rcases h with ⟨rfl, hm, hend, hnext⟩ | ⟨hm, hnext⟩
  · exact Or.inl ⟨rfl, Yields.many_cons hp hu hm, hend, hnext⟩
  · exact Or.inr ⟨.many_cons hp ht hu hm, hnext⟩

theorem ManyStops.bind (ht : Tame false p) (h : ManyStops p next s here opener) :
    (many p >>= next).StopsAt s here opener := by
  obtain ⟨vs, t, hfinish, ⟨rfl, ⟨hint, hm⟩, hend, hnext⟩ | ⟨hm, hnext⟩⟩ := h
  · obtain ⟨e, he, hends⟩ := hnext vs
    have hmild := (many_tame ht hm fun e he => hend.mild he).2
    rw [hfinish] at hends
    refine Or.inr ⟨rfl, e.maxHint hint, ?_, hends.maxHint hmild⟩
    change Rule.bind (many p) next s = _
    simp only [Rule.bind, hm, he]
  · exact Or.inl (hm.blames hfinish (hnext vs))

end Repetition

end SoyTree.Rule
