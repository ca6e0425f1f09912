import SoyTree.Proofs.Expression.Operands
import SoyTree.Proofs.Rule.Relates

/-! # In front of the end of a tag

A text without question marks is read alone, and in front of blanks and the end of a tag. The forms
of operands read the same of it: what they read past the text in the second case only makes them
fail, as they do at the end of the first.
-/

namespace SoyTree.Grammar

open Rule Cursor Concrete

variable {α β γ : Type} {gap : Blanks} {s s' t t' : Cursor} {p p' q q' : Rule α}
  {S : Cursor → Cursor → Prop}

/-- The second cursor stands in the same text as the first, but in front of the end of a tag. -/
structure Inside (gap : Blanks) (s s' : Cursor) : Prop where
  rest : s'.rest = s.rest ++ (gap.chars ++ tagEnd)
  position : s'.position = s.position
  plain : '?' ∉ s.rest

/-- The text is used up, and in the second case the blanks behind it as well. -/
structure Outside (s s' : Cursor) : Prop where
  rest : s.rest = []
  rest' : s'.rest = tagEnd

theorem Inside.unique (h : Inside gap s s') (h' : Inside gap s t') : s' = t' := by
  obtain ⟨position, rest⟩ := s'
  obtain ⟨position', rest'⟩ := t'
  rw [Cursor.mk.injEq]
  exact ⟨h.position.trans h'.position.symm, h.rest.trans h'.rest.symm⟩

def Beside (gap : Blanks) (s s' : Cursor) : Prop :=
  Inside gap s s' ∨ Outside s s'

def Nowhere (_ _ : Cursor) : Prop :=
  False

/-- Both rules read the same of a text, and they do not go on behind it. -/
structure Firm (gap : Blanks) (p q : Rule α) : Prop where
  inside : Relates (Inside gap) (Inside gap) id p q
  outside : Relates Outside Nowhere id p q

section Firm

theorem relates_nowhere : Relates Nowhere S id p q :=
  fun _ _ h => h.elim

theorem Firm.beside (h : Firm gap p q) : Relates (Beside gap) (Inside gap) id p q := by
  rintro s s' (hs | hs)
  · exact h.inside hs
  · exact (h.outside.weaken (fun _ _ h => h) fun _ _ h => h.elim) hs

theorem Firm.bind {f g : α → Rule β} (h : Firm gap p q)
    (hf : ∀ v, Relates (Inside gap) (Inside gap) id (f v) (g v)) : Firm gap (p >>= f) (q >>= g) where
  inside := h.inside.bind hf
  outside := h.outside.bind fun _ => relates_nowhere

/-- A firm rule behind one that may leave the text. -/
theorem Firm.behind {f g : α → Rule β} (h : Relates (Inside gap) (Beside gap) id p q)
    (h' : Relates Outside Outside id p q) (hf : ∀ v, Firm gap (f v) (g v)) :
    Firm gap (p >>= f) (q >>= g) where
  inside := h.bind fun v => (hf v).beside
  outside := h'.bind fun v => (hf v).outside

theorem Firm.void (h : Firm gap p q) : Firm gap (void p) (void q) where
  inside := h.inside.void
  outside := h.outside.void

theorem Firm.check {f : α → Except Rejection β} (h : Firm gap p q) :
    Firm gap (check p f) (check q f) where
  inside := h.inside.check
  outside := h.outside.check

theorem Firm.marked {build : Mark → α → β} (h : Firm gap p q) :
    Firm gap (marked build p) (marked build q) where
  inside := h.inside.marked fun s s' t t' v hs ht => by rw [hs.position, ht.position]; rfl
  outside := h.outside.marked fun s s' t t' v hs ht => ht.elim

theorem Firm.either (h : Firm gap p q) (h' : Firm gap p' q') :
    Firm gap (either p p') (either q q') where
  inside := h.inside.either h'.inside
  outside := h.outside.either h'.outside

theorem firm_choice {ps qs : List (Rule α)} (h : List.Forall₂ (Firm gap) ps qs) :
    Firm gap (choice ps) (choice qs) where
  inside := relates_choice (h.imp fun _ _ h => h.inside)
  outside := relates_choice (h.imp fun _ _ h => h.outside)

theorem firm_of_fails (h : ∀ ⦃s s'⦄, Beside gap s s' → p.Fails s ∧ q.Fails s') : Firm gap p q where
  inside := fun _ _ hs => Or.inl (h (Or.inl hs))
  outside := fun _ _ hs => Or.inl (h (Or.inr hs))

theorem inStep_inside : InStep (Inside gap) := by
  intro s s' t t' hs ht
  simp only [hs.rest, ht.rest, List.length_append]
  omega

/-- Inner uses of a recursive rule never start where the text is used up, nor before the end of the
tag if the outer one starts behind the text. -/
theorem firm_recursive {step step' : Rule α → Rule α}
    (h : ∀ p q, Firm gap p q → Firm gap (step p) (step' q)) :
    Firm gap (recursive step) (recursive step') := by
  have hstart : ∀ {step : Rule α → Rule α} {s t : Cursor}, ¬ t.rest.length < s.rest.length →
      (beyond s (recursive step)).Fails t :=
    fun hlt => fails_iff.2 fun _ _ hy => hlt (yields_beyond.1 hy).1
  have houtside : Relates Outside Nowhere id (recursive step) (recursive step') := by
    intro s s' hs
    have hinner : Firm gap (beyond s (recursive step)) (beyond s' (recursive step')) := by
      apply firm_of_fails
      rintro t t' (ht | ht)
      · refine ⟨hstart (by simp [hs.rest]), hstart ?_⟩
        rw [hs.rest', ht.rest, List.length_append, List.length_append]
        omega
      · exact ⟨hstart (by simp [hs.rest]), hstart (by simp [hs.rest', ht.rest'])⟩
    have hstep := (h _ _ hinner).outside hs
    unfold Agrees Fails Yields at hstep ⊢
    rwa [recursive_eq step s, recursive_eq step' s']
  constructor
  · refine relates_recursive inStep_inside fun s s' hs hinner => ?_
    refine (h _ _ ⟨hinner, fun t t' ht => ?_⟩).inside hs
    rcases houtside ht with ⟨hp, hq⟩ | ⟨_, _, _, _, _, hnowhere⟩
    · exact Or.inl ⟨fails_iff.2 fun _ _ hy => (yields_beyond.1 hy).2.not_fails hp,
        fails_iff.2 fun _ _ hy => (yields_beyond.1 hy).2.not_fails hq⟩
    · exact hnowhere.elim
  · exact houtside

end Firm

section Characters

/-- The class holds no blank and no slash. -/
def StaysWithin (cls : CharClass) : Prop :=
  ∀ c, blank.accepts c = true ∨ c = '/' → cls.accepts c = false

variable {cls : CharClass}

theorem StaysWithin.head (h : StaysWithin cls) (gap : Blanks) :
    ∀ c ∈ (gap.chars ++ tagEnd).head?, cls.accepts c = false := by
  refine forall_head?_append (fun c hc => h c (Or.inl (gap.blank c (List.mem_of_mem_head? hc)))) ?_
  rintro c (_ | _)
  exact h '/' (Or.inr rfl)

theorem Inside.reads {text : List Char} (hs : Inside gap s s') (hr : s.Reads text t) :
    ∃ t', s'.Reads text t' ∧ Inside gap t t' := by
  refine ⟨⟨s'.position.after text, t.rest ++ (gap.chars ++ tagEnd)⟩, ⟨?_, rfl⟩, rfl, ?_, ?_⟩
  · rw [hs.rest, hr.rest, List.append_assoc]
  · rw [hs.position, hr.position]
  · have hplain := hs.plain
    rw [hr.rest] at hplain
    exact fun h => hplain (List.mem_append_right _ h)

theorem firm_one (h : StaysWithin cls) : Firm gap (one cls) (one cls) where
  inside := by
    intro s s' hs
    cases hrest : s.rest with
    | nil =>
      refine Or.inl ⟨fails_one.2 (by simp [hrest]), fails_one.2 ?_⟩
      rw [hs.rest, hrest]
      exact h.head gap
    | cons c rest =>
      cases hc : cls.accepts c with
      | true =>
        have hr : s.Reads [c] ⟨s.position.next c, rest⟩ := ⟨hrest, rfl⟩
        obtain ⟨t', hr', ht⟩ := hs.reads hr
        exact Or.inr ⟨c, _, t', yields_one.2 ⟨hc, hr⟩, yields_one.2 ⟨hc, hr'⟩, ht⟩
      | false =>
        refine Or.inl ⟨fails_one.2 ?_, fails_one.2 ?_⟩
        · rw [hrest]
          rintro d (_ | _)
          exact hc
        · rw [hs.rest, hrest]
          rintro d (_ | _)
          exact hc
  outside := by
    intro s s' hs
    refine Or.inl ⟨fails_one.2 (by simp [hs.rest]), fails_one.2 ?_⟩
    rw [hs.rest']
    rintro d (_ | _)
    exact h '/' (Or.inr rfl)

theorem firm_char {c : Char} (h : StaysWithin (.oneOf [c])) : Firm gap (char c) (char c) :=
  (firm_one h).void

theorem inside_run (h : StaysWithin cls) :
    Relates (Inside gap) (Inside gap) id (run cls) (run cls) := by
  intro s s' hs
  have hr : s.Reads (s.rest.takeWhile cls.accepts)
      ⟨s.position.after (s.rest.takeWhile cls.accepts), s.rest.dropWhile cls.accepts⟩ :=
    ⟨List.takeWhile_append_dropWhile.symm, rfl⟩
  have hall : ∀ c ∈ s.rest.takeWhile cls.accepts, cls.accepts c = true :=
    List.all_eq_true.1 List.all_takeWhile
  obtain ⟨t', hr', ht⟩ := hs.reads hr
  refine Or.inr ⟨_, _, t', yields_run.2 ⟨hr, hall, stop_of_dropWhile _⟩,
    yields_run.2 ⟨hr', hall, ?_⟩, ht⟩
  rw [ht.rest]
  exact forall_head?_append (stop_of_dropWhile _) (h.head gap)

theorem firm_run1 (h : StaysWithin cls) : Firm gap (run1 cls) (run1 cls) where
  inside := by
    intro s s' hs
    cases hrest : s.rest with
    | nil =>
      refine Or.inl ⟨fails_run1.2 (by simp [hrest]), fails_run1.2 ?_⟩
      rw [hs.rest, hrest]
      exact h.head gap
    | cons c rest =>
      have hrest' : s'.rest = c :: (rest ++ (gap.chars ++ tagEnd)) := by
        rw [hs.rest, hrest]
        rfl
      cases hc : cls.accepts c with
      | true =>
        have hrun := inside_run h hs
        unfold Agrees Fails Yields at hrun ⊢
        rwa [run1_eq_run hrest hc, run1_eq_run hrest' hc]
      | false =>
        refine Or.inl ⟨fails_run1.2 ?_, fails_run1.2 ?_⟩
        · rw [hrest]
          rintro d (_ | _)
          exact hc
        · rw [hrest']
          rintro d (_ | _)
          exact hc
  outside := by
    intro s s' hs
    refine Or.inl ⟨fails_run1.2 (by simp [hs.rest]), fails_run1.2 ?_⟩
    rw [hs.rest']
    rintro d (_ | _)
    exact h '/' (Or.inr rfl)

end Characters

section Blanks

theorem outside_blanks : Relates Outside Outside id blanks blanks := by
  intro s s' hs
  have hnone : ∀ {u : Cursor}, (∀ c ∈ u.rest.head?, blank.accepts c = false) →
      blanks.Yields u () u := blanks_none
  refine Or.inr ⟨(), s, s', hnone (by simp [hs.rest]), hnone ?_, hs⟩
  rw [hs.rest']
  rintro c (_ | _)
  decide

theorem inside_blanks : Relates (Inside gap) (Beside gap) id blanks blanks := by
  intro s s' hs
  have hr : s.Reads (s.rest.takeWhile blank.accepts)
      ⟨s.position.after (s.rest.takeWhile blank.accepts), s.rest.dropWhile blank.accepts⟩ :=
    ⟨List.takeWhile_append_dropWhile.symm, rfl⟩
  have hall : ∀ c ∈ s.rest.takeWhile blank.accepts, blank.accepts c = true :=
    List.all_eq_true.1 List.all_takeWhile
  have hy : blanks.Yields s () _ :=
    yields_blanks.2 ⟨⟨_, hall⟩, hr, stop_of_dropWhile (p := blank.accepts) _⟩
  obtain ⟨t', hr', ht⟩ := hs.reads hr
  cases hrest : s.rest.dropWhile blank.accepts with
  | nil =>
    have hgap : t'.Reads gap.chars ⟨t'.position.after gap.chars, tagEnd⟩ := by
      refine ⟨?_, rfl⟩
      rw [ht.rest, hrest]
      rfl
    refine Or.inr ⟨(), _, _, hy, yields_blanks.2 ⟨⟨_ ++ gap.chars, ?_⟩, hr'.trans hgap, ?_⟩,
      Or.inr ⟨hrest, rfl⟩⟩
    · exact fun c hc => (List.mem_append.1 hc).elim (hall c) (gap.blank c)
    · rintro c (_ | _)
      decide
  | cons c rest =>
    refine Or.inr ⟨(), _, t', hy, yields_blanks.2 ⟨⟨_, hall⟩, hr', ?_⟩, Or.inl ht⟩
    have hstop := stop_of_dropWhile (p := blank.accepts) s.rest
    rw [ht.rest]
    simp only [hrest] at hstop ⊢
    rintro d (_ | _)
    exact hstop c rfl

theorem beside_blanks : Relates (Beside gap) (Beside gap) id blanks blanks := by
  rintro s s' (hs | hs)
  · exact inside_blanks hs
  · exact outside_blanks.weaken (fun _ _ h => h) (fun _ _ h => Or.inr h) hs

theorem firm_blanks {f g : Unit → Rule α} (h : Firm gap (f ()) (g ())) :
    Firm gap (blanks >>= f) (blanks >>= g) :=
  Firm.behind inside_blanks outside_blanks fun _ => h

theorem firm_spaced (h : Firm gap p q) : Firm gap (spaced p) (spaced q) :=
  firm_blanks h.void

theorem beside_padded (h : Firm gap p q) :
    Relates (Beside gap) (Beside gap) id (padded p) (padded q) :=
  beside_blanks.bind fun _ => h.beside.bind fun _ => inside_blanks

end Blanks

section Words

theorem staysWithin_oneOf {chars : List Char}
    (h : (chars.all fun c => !blank.accepts c && c != '/') = true) : StaysWithin (.oneOf chars) := by
  intro c hc
  rw [← Bool.not_eq_true]
  intro hmem
  have hfree := List.all_eq_true.1 h c (by simpa [CharClass.oneOf] using hmem)
  simp only [Bool.and_eq_true, Bool.not_eq_true', bne_iff_ne] at hfree
  rcases hc with hc | hc
  · rw [hfree.1] at hc
    cases hc
  · exact hfree.2 hc

theorem staysWithin_of_test {test : Char → Bool}
    (hblank : ∀ c, blank.accepts c = true → test c = false) (hslash : test '/' = false) :
    StaysWithin (.satisfying test) := by
  rintro c (hc | rfl)
  · exact hblank c hc
  · exact hslash

theorem isWordStart_of_blank {c : Char} (h : blank.accepts c = true) : isWordStart c = false := by
  rcases eq_of_blank h with rfl | rfl | rfl | rfl <;> decide

theorem isNumberChar_of_blank {c : Char} (h : blank.accepts c = true) : isNumberChar c = false := by
  rcases eq_of_blank h with rfl | rfl | rfl | rfl <;> decide

theorem firm_identifier : Firm gap identifier identifier :=
  (firm_one (staysWithin_of_test (fun _ => isWordStart_of_blank) (by decide))).bind fun _ =>
    (inside_run (staysWithin_of_test (fun _ => isWordPart_of_blank) (by decide))).bind fun _ =>
      relates_pure rfl

theorem firm_keyword (name : String) : Firm gap (keyword name) (keyword name) :=
  firm_identifier.check

theorem firm_nestedStop : Firm gap nestedStop nestedStop :=
  firm_spaced (firm_one (staysWithin_oneOf (by decide)))

theorem question_fails_of_plain (h : '?' ∉ s.rest) : question.Fails s := by
  refine fails_iff.2 fun d t hy => h ?_
  obtain ⟨b, hr, -⟩ := yields_question.1 hy
  rw [hr.rest]
  simp

theorem plain_tagEnd (gap : Blanks) : '?' ∉ gap.chars ++ tagEnd := by
  refine List.not_mem_append (fun h => ?_) (by decide)
  exact absurd (gap.blank _ h) (by decide)

theorem Beside.plain (hs : Beside gap s s') : '?' ∉ s.rest ∧ '?' ∉ s'.rest := by
  rcases hs with hs | hs
  · rw [hs.rest]
    exact ⟨hs.plain, List.not_mem_append hs.plain (plain_tagEnd gap)⟩
  · rw [hs.rest, hs.rest']
    exact ⟨by simp, by decide⟩

theorem firm_question : Firm gap question question :=
  firm_of_fails fun _ _ hs =>
    ⟨question_fails_of_plain hs.plain.1, question_fails_of_plain hs.plain.2⟩

end Words

section Strings

/-- A string that is read in front of the end of a tag ends within the text. -/
theorem firm_stringLiteral : Firm gap stringLiteral stringLiteral where
  inside := by
    intro s s' hs
    rcases yields_or_fails stringLiteral s with ⟨l, t, hy⟩ | hf
    · obtain ⟨q, hr, rfl⟩ := stringLiteral_spelled hy
      obtain ⟨t', hr', ht⟩ := hs.reads hr
      have hy' := stringLiteral_yields q hr'
      rw [hs.position] at hy'
      exact Or.inr ⟨_, t, t', hy, hy', ht⟩
    · refine Or.inl ⟨hf, fails_iff.2 fun l t' hy => ?_⟩
      obtain ⟨q, hr, -⟩ := stringLiteral_spelled hy
      have hboth : s.rest ++ (gap.chars ++ tagEnd) = q.text ++ t'.rest := by rw [← hs.rest, hr.rest]
      rcases List.append_eq_append_iff.1 hboth with ⟨y, htext, htail⟩ | ⟨y, hrest, -⟩
      · cases y with
        | nil =>
          have hread : s.Reads q.text ⟨s.position.after q.text, []⟩ := ⟨by simp [htext], rfl⟩
          exact (stringLiteral_yields q hread).not_fails hf
        | cons c y =>
          -- the closing quote would stand behind the text
          have hlast : (s.rest ++ c :: y).getLast? = some '\'' := by
            rw [← htext, Quoted.text, List.getLast?_cons]
            simp
          have hquote : '\'' ∈ gap.chars ++ tagEnd := by
            rw [List.getLast?_append_cons] at hlast
            rw [htail]
            exact List.mem_append_left _ (List.mem_of_getLast? hlast)
          rcases List.mem_append.1 hquote with h | h
          · exact absurd (gap.blank _ h) (by decide)
          · exact absurd h (by decide)
      · have hread : s.Reads q.text ⟨s.position.after q.text, y⟩ := ⟨hrest, rfl⟩
        exact (stringLiteral_yields q hread).not_fails hf
  outside := by
    intro s s' hs
    have hfails : ∀ {u : Cursor}, u.rest.head? ≠ some '\'' → stringLiteral.Fails u :=
      fun h => fails_marked.2 (Fails.bind (fails_char.2 h))
    refine Or.inl ⟨hfails (by simp [hs.rest]), hfails ?_⟩
    rw [hs.rest']
    exact fun h => absurd (Option.some.inj h) (by decide)

end Strings

section Captures

/-- The rule does not succeed within blanks and the end of a tag. -/
def Passes (stop : Rule Unit) : Prop :=
  ∀ t, (∀ c ∈ t.rest, blank.accepts c = true ∨ c ∈ tagEnd) → stop.Fails t

theorem passes_nestedStop : Passes nestedStop := by
  intro t ht
  refine fails_iff.2 fun d u hy => ?_
  obtain ⟨b, c, hc, hr⟩ := yields_nestedStop.1 hy
  have hmem := ht c (by rw [hr.rest]; simp)
  simp only [endsNested, Bool.or_eq_true, beq_iff_eq] at hc
  rcases hc with (rfl | rfl) | rfl <;> exact absurd hmem (by decide)

theorem passes_question : Passes question := by
  intro t ht
  exact question_fails_of_plain fun h => absurd (ht '?' h) (by decide)

theorem Passes.either {p q : Rule Unit} (hp : Passes p) (hq : Passes q) : Passes (either p q) :=
  fun t ht => fails_either.2 ⟨hp t ht, hq t ht⟩

variable {stop : Rule Unit}

/-- A capture passes over a text on both sides or on none. -/
theorem Inside.rawUntil_iff {text : List Char} (hs : Inside gap s s') (ht : Inside gap t t')
    (h : Firm gap stop stop) (hr : s.Reads text t) (hr' : s'.Reads text t') :
    (rawUntil stop).Yields s text t ↔ (rawUntil stop).Yields s' text t' := by
  have hinside : ∀ {a b : List Char}, text = a ++ b →
      Inside gap ⟨s.position.after a, b ++ t.rest⟩ ⟨s'.position.after a, b ++ t'.rest⟩ := by
    rintro a b rfl
    refine ⟨by rw [ht.rest, List.append_assoc], by rw [hs.position], fun hmem => hs.plain ?_⟩
    rw [hr.rest, List.append_assoc]
    exact List.mem_append_right a hmem
  have hmisses : stop.Misses s text t ↔ stop.Misses s' text t' := by
    constructor
    · exact fun hmiss a b hab hb => (h.inside.fails (hinside hab)).1 (hmiss a b hab hb)
    · exact fun hmiss a b hab hb => (h.inside.fails (hinside hab)).2 (hmiss a b hab hb)
  rw [yields_rawUntil, yields_rawUntil, ← not_fails_iff, ← not_fails_iff, h.inside.fails ht, hmisses]
  simp only [hr, hr']

theorem firm_rawUntil (h : Firm gap stop stop) (hstop : Passes stop) :
    Firm gap (rawUntil stop) (rawUntil stop) where
  inside := by
    intro s s' hs
    rcases yields_or_fails (rawUntil stop) s with ⟨text, t, hy⟩ | hf
    · have hr := (yields_rawUntil.1 hy).1
      obtain ⟨t', hr', ht⟩ := hs.reads hr
      exact Or.inr ⟨text, t, t', hy, (hs.rawUntil_iff ht h hr hr').1 hy, ht⟩
    · refine Or.inl ⟨hf, fails_iff.2 fun text t' hy => ?_⟩
      obtain ⟨hr', ⟨d, u, hend⟩, -⟩ := yields_rawUntil.1 hy
      have hboth : s.rest ++ (gap.chars ++ tagEnd) = text ++ t'.rest := by rw [← hs.rest, hr'.rest]
      rcases List.append_eq_append_iff.1 hboth with ⟨y, -, htail⟩ | ⟨y, hrest, -⟩
      · -- behind the text nothing stops the capture
        refine hend.not_fails (hstop t' fun c hc => ?_)
        have hmem : c ∈ gap.chars ++ tagEnd := by
          rw [htail]
          exact List.mem_append_right _ hc
        exact (List.mem_append.1 hmem).imp_left (gap.blank c)
      · have hr : s.Reads text ⟨s.position.after text, y⟩ := ⟨hrest, rfl⟩
        obtain ⟨w, hw, ht⟩ := hs.reads hr
        obtain rfl : t' = w := hr'.eq.trans hw.eq.symm
        exact ((hs.rawUntil_iff ht h hr hr').2 hy).not_fails hf
  outside := by
    intro s s' hs
    have hnone : ∀ {u : Cursor}, (∀ c ∈ u.rest, c ∈ tagEnd) → (rawUntil stop).Fails u := by
      intro u hu
      refine fails_iff.2 fun text v hy => ?_
      obtain ⟨hr, ⟨d, w, hend⟩, -⟩ := yields_rawUntil.1 hy
      refine hend.not_fails (hstop v fun c hc => Or.inr (hu c ?_))
      rw [hr.rest]
      exact List.mem_append_right _ hc
    exact Or.inl ⟨hnone (by simp [hs.rest]), hnone (by simp [hs.rest'])⟩

theorem firm_rawCapture (h : Firm gap stop stop) (hstop : Passes stop) :
    Firm gap (rawCapture stop) (rawCapture stop) :=
  (firm_rawUntil h hstop).check

end Captures

section Forms

variable {stop : Rule Unit} {nested nested' again again' : Rule SoyTree.Expr}

theorem firm_bracketed {opening closing : Char} (hopening : StaysWithin (.oneOf [opening]))
    (hclosing : StaysWithin (.oneOf [closing])) (h : Firm gap p q) :
    Firm gap (bracketed opening closing p) (bracketed opening closing q) := by
  have hcomma : Relates (Beside gap) (Beside gap) id (padded (char ',')) (padded (char ',')) :=
    beside_padded (firm_char (staysWithin_oneOf (by decide)))
  have hmore : Relates (Inside gap) (Inside gap) (List.map id)
      (many (padded (char ',') >>= fun _ => p)) (many (padded (char ',') >>= fun _ => q)) :=
    Relates.many inStep_inside ((hcomma.weaken (fun _ _ h => Or.inl h) fun _ _ h => h).bind
      fun _ => h.beside)
  have hsome : Relates (Beside gap) (Beside gap) (List.map id) (sepBy1 p (padded (char ',')))
      (sepBy1 q (padded (char ','))) :=
    h.beside.bind fun _ => hmore.bind fun _ =>
      (relates_pure (by simp)).weaken (fun _ _ h => Or.inl h) fun _ _ h => h
  refine (firm_char hopening).bind fun _ => inside_blanks.bind fun _ => ?_
  refine (hsome.sepBy fun _ _ h => h).bind fun vs => ?_
  rw [List.map_id]
  exact beside_blanks.bind fun _ => (firm_char hclosing).beside.bind fun _ => relates_pure rfl

theorem firm_mapItem (h : Firm gap nested nested') :
    Firm gap (mapItem nested) (mapItem nested') := by
  have hcolon : Relates (Beside gap) (Beside gap) id (padded (char ':')) (padded (char ':')) :=
    beside_padded (firm_char (staysWithin_oneOf (by decide)))
  apply Firm.marked
  refine firm_stringLiteral.bind fun key => ?_
  refine (hcolon.weaken (fun _ _ h => Or.inl h) fun _ _ h => h).bind fun _ => ?_
  exact h.beside.bind fun value => relates_pure rfl

theorem firm_reference : Firm gap reference reference :=
  ((firm_char (staysWithin_oneOf (by decide))).bind fun _ => firm_identifier.inside).marked

theorem firm_boolean : Firm gap boolean boolean :=
  (((firm_keyword _).bind fun _ => relates_pure rfl).either
    ((firm_keyword _).bind fun _ => relates_pure rfl)).marked

theorem firm_number : Firm gap number number := by
  have hsign : Firm gap (one (.oneOf ['+', '-'])) (one (.oneOf ['+', '-'])) :=
    firm_one (staysWithin_oneOf (by decide))
  have hdigits : Firm gap (run1 (.satisfying isNumberChar)) (run1 (.satisfying isNumberChar)) :=
    firm_run1 (staysWithin_of_test (fun _ => isNumberChar_of_blank) (by decide))
  refine (Firm.check ⟨?_, ?_⟩).marked
  · refine (hsign.inside.maybe fun _ _ h => h).bind fun sign => ?_
    rw [Option.map_id, id]
    exact hdigits.inside.bind fun _ => relates_pure rfl
  · refine ((hsign.outside.weaken (fun _ _ h => h) fun _ _ h => h.elim).maybe
      fun _ _ h => h).bind fun sign => ?_
    exact hdigits.outside.bind fun _ => relates_nowhere

theorem firm_forms (h : Firm gap nested nested') :
    Firm gap (choice (forms nested)) (choice (forms nested')) := by
  have hmap : Firm gap (mapLiteral nested) (mapLiteral nested') :=
    (firm_bracketed (staysWithin_oneOf (by decide)) (staysWithin_oneOf (by decide))
      (firm_mapItem h)).marked
  have hcall : Firm gap (functionCall nested) (functionCall nested') := by
    have hargs : Firm gap (bracketed '(' ')' nested) (bracketed '(' ')' nested') :=
      firm_bracketed (staysWithin_oneOf (by decide)) (staysWithin_oneOf (by decide)) h
    apply Firm.marked
    refine firm_identifier.bind fun name => ?_
    exact hargs.inside.bind fun args => relates_pure rfl
  exact firm_choice (.cons firm_reference (.cons firm_stringLiteral.marked (.cons firm_boolean
    (.cons hmap (.cons firm_number (.cons hcall .nil))))))

theorem firm_operand (hstop : Firm gap stop stop) (hpasses : Passes stop)
    (h : Firm gap nested nested') : Firm gap (operand stop nested) (operand stop nested') := by
  apply Firm.either
  · refine (firm_forms h).bind fun e => ?_
    exact hstop.inside.ahead.bind fun _ => relates_pure rfl
  · exact (firm_rawCapture hstop hpasses).marked

/-- No branches are read, for there is no question mark. -/
theorem firm_branches : Firm gap (branches stop nested again) (branches stop nested' again') :=
  firm_of_fails fun _ _ hs => ⟨(question_fails_of_plain hs.plain.1).bind,
    (question_fails_of_plain hs.plain.2).bind⟩

theorem firm_expressionWith (hstop : Firm gap stop stop) (hpasses : Passes stop)
    (h : Firm gap nested nested') :
    Firm gap (expressionWith stop nested) (expressionWith stop nested') := by
  apply firm_recursive
  intro again again' _
  apply Firm.either
  · apply Firm.bind
    · apply Firm.marked
      refine (firm_operand (firm_question.either hstop) (passes_question.either hpasses) h).bind
        fun cond => (firm_branches.inside.maybe fun _ _ h => h).bind fun rest => ?_
      rw [Option.map_id, id]
      exact relates_pure rfl
    · exact fun _ => hstop.inside.ahead.bind fun _ => relates_pure rfl
  · exact (firm_rawCapture hstop hpasses).check.marked

theorem firm_nestedExpression : Firm gap nestedExpression nestedExpression :=
  firm_recursive fun _ _ h => firm_expressionWith firm_nestedStop passes_nestedStop h

end Forms

end SoyTree.Grammar
