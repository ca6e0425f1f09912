import SoyTree.Proofs.Expression.Canonical

/-! # Operands in front of a stop

What stands behind an operand is a space, a comma or a closing bracket, and every rule that ends
operands succeeds only in front of blanks and a mark that canonical raw text does not hold. So the
forms of operands, raw text and lists in brackets are each read up to where they end.
-/

namespace SoyTree.Grammar

open Rule Cursor Concrete

variable {α : Type} {s t u : Cursor} {stop : Rule Unit} {nested : Rule SoyTree.Expr}
  {e : SoyTree.Expr}

section Stops

/-- Blanks and a mark that ends an operand. -/
def AtMark (rest : List Char) : Prop :=
  ∃ (b : Blanks) (c : Char) (tail : List Char), rest = b.chars ++ c :: tail ∧
    (c ∈ ['?', ':', ',', ')', ']'] ∨ c = '/' ∧ tail.head? = some '\x7d')

/-- The rule succeeds only where an operand can end. -/
def StopsAtMarks (stop : Rule Unit) : Prop :=
  stop.Ensures fun s _ _ => AtMark s.rest

theorem stopsAtMarks_question : StopsAtMarks question := by
  intro s d t h
  obtain ⟨b, hr, -⟩ := yields_question.1 h
  exact ⟨b, '?', t.rest, by simpa using hr.rest, by simp⟩

theorem stopsAtMarks_colon : StopsAtMarks colon := by
  intro s d t h
  obtain ⟨b, hr⟩ := yields_colon.1 h
  exact ⟨b, ':', t.rest, by simpa using hr.rest, by simp⟩

theorem stopsAtMarks_contextStop (inside : Bool) : StopsAtMarks (contextStop inside) := by
  intro s d t h
  cases inside with
  | false =>
    obtain ⟨b, hr⟩ := yields_slashClose.1 h
    exact ⟨b, '/', '\x7d' :: t.rest, by simpa using hr.rest, Or.inr ⟨rfl, rfl⟩⟩
  | true =>
    obtain ⟨b, c, hc, hr⟩ := yields_nestedStop.1 h
    refine ⟨b, c, t.rest, by simpa using hr.rest, Or.inl ?_⟩
    simp only [endsNested, Bool.or_eq_true, beq_iff_eq] at hc
    rcases hc with (rfl | rfl) | rfl <;> simp

theorem StopsAtMarks.either {p q : Rule Unit} (hp : StopsAtMarks p) (hq : StopsAtMarks q) :
    StopsAtMarks (either p q) := by
  intro s d t h
  rcases yields_either.1 h with h | ⟨-, h⟩
  · exact hp _ _ _ h
  · exact hq _ _ _ h

/-- The characters that stand right behind an operand. -/
def endsOperand (c : Char) : Bool :=
  c == ' ' || endsNested c

theorem eq_of_endsOperand {c : Char} (h : endsOperand c = true) :
    c = ' ' ∨ c = ',' ∨ c = ')' ∨ c = ']' := by
  simpa [endsOperand, endsNested, or_assoc] using h

/-- An operand that is followed by `stop` may end here. -/
structure Ends (stop : Rule Unit) (t : Cursor) : Prop where
  marks : StopsAtMarks stop
  here : ∃ d u, stop.Yields t d u
  apart : ∃ c, t.rest.head? = some c ∧ endsOperand c = true

namespace Ends

theorem forall_head {P : Char → Prop} (h : Ends stop t) (hP : ∀ c, endsOperand c = true → P c) :
    ∀ c ∈ t.rest.head?, P c := by
  obtain ⟨c, hc, hends⟩ := h.apart
  rw [hc]
  rintro d (_ | _)
  exact hP c hends

theorem not_wordPart (h : Ends stop t) : ∀ c ∈ t.rest.head?, isWordPart c = false :=
  h.forall_head fun c hc => by
    rcases eq_of_endsOperand hc with rfl | rfl | rfl | rfl <;> decide

theorem not_numberChar (h : Ends stop t) : ∀ c ∈ t.rest.head?, isNumberChar c = false :=
  h.forall_head fun c hc => by
    rcases eq_of_endsOperand hc with rfl | rfl | rfl | rfl <;> decide

theorem or_before {p : Rule Unit} (h : Ends stop t) (hp : StopsAtMarks p) :
    Ends (either p stop) t where
  marks := hp.either h.marks
  here := by
    obtain ⟨d, u, hstop⟩ := h.here
    rcases yields_or_fails p t with ⟨d', u', hy⟩ | hf
    · exact ⟨d', u', yields_either.2 (Or.inl hy)⟩
    · exact ⟨d, u, yields_either.2 (Or.inr ⟨hf, hstop⟩)⟩
  apart := h.apart

theorem or_behind {p : Rule Unit} (h : Ends p t) (hstop : StopsAtMarks stop) :
    Ends (either p stop) t where
  marks := h.marks.either hstop
  here := by
    obtain ⟨d, u, hp⟩ := h.here
    exact ⟨d, u, yields_either.2 (Or.inl hp)⟩
  apart := h.apart

end Ends

theorem ends_slashClose {rest : List Char} (h : t.rest = " /\x7d".toList ++ rest) :
    Ends slashClose t where
  marks := stopsAtMarks_contextStop false
  here := ⟨(), ⟨t.position.after " /\x7d".toList, rest⟩,
    yields_slashClose.2 ⟨oneSpace.toBlanks, h, rfl⟩⟩
  apart := ⟨' ', by rw [h]; rfl, by decide⟩

theorem ends_nestedStop {c : Char} (h : t.rest.head? = some c) (hc : endsNested c = true) :
    Ends nestedStop t where
  marks := stopsAtMarks_contextStop true
  here := by
    obtain ⟨rest, hrest⟩ := List.head?_eq_some_iff.1 h
    exact ⟨(), ⟨t.position.next c, rest⟩, yields_nestedStop.2 ⟨noBlanks, c, hc, hrest, rfl⟩⟩
  apart := ⟨c, h, by simp [endsOperand, hc]⟩

theorem question_fails_of_ends {inside : Bool} (h : Ends (contextStop inside) t) :
    question.Fails t := by
  obtain ⟨d, u, hstop⟩ := h.here
  cases inside with
  | false =>
    obtain ⟨b, hr⟩ := yields_slashClose.1 hstop
    exact question_fails b (by decide) (by decide) hr
  | true =>
    obtain ⟨b, c, hc, hr⟩ := yields_nestedStop.1 hstop
    simp only [endsNested, Bool.or_eq_true, beq_iff_eq] at hc
    rcases hc with (rfl | rfl) | rfl <;> exact question_fails b (by decide) (by decide) hr

end Stops

section Raw

variable {text : List Char}

/-- A mark behind blanks stands within the text that starts there, if that text has no blank at its
end. -/
theorem exists_of_blanks_mark {b rest tail : List Char} {c : Char} (gap : Blanks) (hne : b ≠ [])
    (hlast : ∀ c ∈ b.getLast?, blank.accepts c = false)
    (h : b ++ rest = gap.chars ++ c :: tail) :
    ∃ x, b = gap.chars ++ c :: x ∧ tail = x ++ rest := by
  have hvisible : ¬ ∀ c ∈ b, blank.accepts c = true := fun hall => by
    have hmem := List.getLast_mem hne
    have hc := hlast _ (List.getLast?_eq_some_getLast hne)
    rw [hall _ hmem] at hc
    cases hc
  rcases List.append_eq_append_iff.1 h with ⟨x, hgap, -⟩ | ⟨x, rfl, hx⟩
  · exact absurd (fun c hc => gap.blank c (by rw [hgap]; exact List.mem_append_left x hc)) hvisible
  · cases x with
    | nil => exact absurd (fun c hc => gap.blank c (by simpa using hc)) hvisible
    | cons c' x =>
      obtain ⟨rfl, rfl⟩ : c = c' ∧ tail = x ++ rest := by simpa using hx
      exact ⟨x, rfl, rfl⟩

/-- No rule that ends operands succeeds within canonical raw text. -/
theorem misses_canonicalRaw (h : CanonicalRaw text) (hend : Ends stop t) :
    stop.Misses s text t := by
  rintro a b rfl hb
  refine fails_iff.2 fun d v hy => ?_
  obtain ⟨gap, c, tail, hrest, hc⟩ := hend.marks _ _ _ hy
  have hlast : ∀ c ∈ b.getLast?, blank.accepts c = false := fun c hc =>
    h.last c (by rwa [List.getLast?_append_of_ne_nil a hb])
  obtain ⟨x, rfl, rfl⟩ := exists_of_blanks_mark gap hb hlast hrest
  rcases hc with hc | ⟨rfl, htail⟩
  · refine h.free c (by simp) ?_
    simp only [reservedChars, List.mem_cons, List.not_mem_nil, or_false] at hc ⊢
    rcases hc with rfl | rfl | rfl | rfl | rfl <;> simp
  · cases x with
    | nil =>
      have hbrace := hend.forall_head (P := fun c => c ≠ '\x7d')
        (fun c hc => by rcases eq_of_endsOperand hc with rfl | rfl | rfl | rfl <;> decide)
      exact hbrace '\x7d' htail rfl
    | cons c' x =>
      obtain rfl : c' = '\x7d' := by simpa using htail
      exact h.inTag ⟨a ++ gap.chars, x, by simp [tagEnd]⟩

/-- A form of operand that is read at the start of raw text, and that the stop follows, reaches
at least to the end of that text. -/
theorem covers_of_misses {x : List Char} {d : Unit} {v : Cursor} (hmiss : stop.Misses s text t)
    (hr : s.Reads text t) (hx : s.Reads x u) (hstop : stop.Yields u d v) :
    ∃ y, x = text ++ y ∧ t.rest = y ++ u.rest := by
  have hboth : x ++ u.rest = text ++ t.rest := by rw [← hx.rest, ← hr.rest]
  rcases List.append_eq_append_iff.1 hboth with ⟨y, rfl, hy⟩ | ⟨y, rfl, hy⟩
  · cases y with
    | nil => exact ⟨[], by simp, by simpa using hy.symm⟩
    | cons c y =>
      have hf := hmiss x (c :: y) rfl (by simp)
      have hu : u = ⟨s.position.after x, c :: y ++ t.rest⟩ := by
        rw [hx.eq, hr.rest, List.append_assoc, List.drop_left]
      rw [← hu] at hf
      exact absurd hf hstop.not_fails
  · exact ⟨y, rfl, hy⟩

theorem eq_of_covers {x y : List Char} (hend : Ends stop t) (hx : x = text ++ y)
    (hy : t.rest = y ++ u.rest) (hfree : ∀ c ∈ x, endsOperand c = false) : x = text := by
  cases y with
  | nil => simpa using hx
  | cons c y =>
    have hc := hend.forall_head (P := fun c => endsOperand c = true) (fun _ h => h) c
      (by rw [hy]; rfl)
    rw [hfree c (by simp [hx])] at hc
    cases hc

theorem endsOperand_of_isWordPart {c : Char} (h : isWordPart c = true) : endsOperand c = false := by
  rw [← Bool.not_eq_true]
  intro hc
  rcases eq_of_endsOperand hc with rfl | rfl | rfl | rfl <;> exact absurd h (by decide)

theorem endsOperand_of_isNumberChar {c : Char} (h : isNumberChar c = true) :
    endsOperand c = false := by
  rw [← Bool.not_eq_true]
  intro hc
  rcases eq_of_endsOperand hc with rfl | rfl | rfl | rfl <;> exact absurd h (by decide)

end Raw

section Forms

theorem string_fails (h : s.rest.head? ≠ some '\'') :
    (marked (fun _ literal => SoyTree.Expr.string literal) stringLiteral).Fails s :=
  fails_marked.2 (fails_marked.2 (Fails.bind (fails_char.2 h)))

theorem boolean_fails (htrue : leadWord s.rest ≠ "true".toList)
    (hfalse : leadWord s.rest ≠ "false".toList) : boolean.Fails s :=
  fails_marked.2 (fails_either.2 ⟨Fails.bind (fails_keyword htrue), Fails.bind (fails_keyword hfalse)⟩)

theorem mapLiteral_fails (h : s.rest.head? ≠ some '[') : (mapLiteral nested).Fails s :=
  fails_marked.2 (Fails.bind (fails_char.2 h))

theorem boolean_fails_of_head (h : ∀ c ∈ s.rest.head?, isWordStart c = false) :
    boolean.Fails s := by
  have hword : leadWord s.rest = [] := by
    cases hs : s.rest with
    | nil => rfl
    | cons c rest => simp [leadWord, h c (by rw [hs]; rfl)]
  exact boolean_fails (by rw [hword]; decide) (by rw [hword]; decide)

theorem number_fails (h : ∀ c ∈ s.rest.head?, startsNumber c = false) : number.Fails s := by
  refine fails_iff.2 fun e t hy => ?_
  obtain ⟨n, hr, -⟩ := number_read hy
  obtain ⟨c, rest, htext, hc⟩ := n.head
  rw [h c (by rw [hr.rest, htext]; rfl)] at hc
  cases hc

theorem boolean_yields (value : Bool)
    (hr : s.Reads (if value then "true" else "false").toList t)
    (hstop : ∀ c ∈ t.rest.head?, isWordPart c = false) :
    boolean.Yields s (.boolean (markAt s.position (if value then "true" else "false").toList) value)
      t := by
  refine Yields.markedAt SoyTree.Expr.boolean (v := value) ?_ hr
  cases value with
  | true =>
    exact yields_either.2 (Or.inl ((keyword_yields (by decide) hr hstop).bind
      (yields_pure.2 ⟨rfl, rfl⟩)))
  | false =>
    have htrue : (keyword "true").Fails s := fails_keyword (by
      rw [hr.rest, leadWord_append (by decide) hstop]
      decide)
    exact yields_either.2 (Or.inr ⟨Fails.bind htrue,
      (keyword_yields (by decide) hr hstop).bind (yields_pure.2 ⟨rfl, rfl⟩)⟩)

theorem number_yields (n : Numeral) (hr : s.Reads n.text t)
    (hstop : ∀ c ∈ t.rest.head?, isNumberChar c = false) :
    number.Yields s (.number (markAt s.position n.text) n.value) t := by
  obtain ⟨u, hsign, hdigits⟩ := Reads.split (a := n.sign.toList) hr
  have hmaybe : (maybe (one (.oneOf ['+', '-']))).Yields s n.sign u := by
    cases hn : n.sign with
    | some c =>
      rw [hn] at hsign
      have haccepts : (CharClass.oneOf ['+', '-']).accepts c = true := by
        rcases n.signed c hn with rfl | rfl <;> decide
      exact yields_maybe.2 (Or.inl ⟨c, rfl, yields_one.2 ⟨haccepts, hsign⟩⟩)
    | none =>
      rw [hn] at hsign
      obtain rfl := hsign.eq_of_nil
      refine yields_maybe.2 (Or.inr ⟨rfl, rfl, fails_one.2 ?_⟩)
      refine hdigits.forall_of_ne_nil n.nonempty fun c hc => ?_
      have hnum := n.numeric c (List.mem_of_mem_head? hc)
      rw [← Bool.not_eq_true]
      intro hs
      have hs' : c = '+' ∨ c = '-' := by simpa [CharClass.oneOf] using hs
      rcases hs' with rfl | rfl <;> exact absurd hnum (by decide)
  refine Yields.markedAt SoyTree.Expr.number (v := n.value) (yields_check.2 ⟨n.text, ?_, ?_⟩) hr
  · exact hmaybe.bind ((yields_run1.2 ⟨n.nonempty, hdigits, n.numeric, hstop⟩).bind
      (yields_pure.2 ⟨rfl, rfl⟩))
  · rw [Numeral.text, n.reads]

end Forms

section RawOperands

variable {text : List Char}

/-- Canonical raw text holds no bracket, and no name goes on behind it. -/
theorem functionCall_fails_of_raw (h : CanonicalRaw text) (hend : Ends stop t)
    (hr : s.Reads text t) : (functionCall nested).Fails s := by
  refine fails_iff.2 fun e u hy => ?_
  simp only [functionCall, bracketed, yields_marked, yields_bind, yields_identifier, yields_char,
    yields_pure] at hy
  obtain ⟨-, ⟨-, u₁, ⟨w, hw, -, -⟩, -, -, ⟨-, u₂, hparen, -⟩, -⟩, -⟩ := hy
  have hboth : text ++ t.rest = w.chars ++ '(' :: u₂.rest := by
    rw [← hr.rest, hw.rest, hparen.rest]
    rfl
  have hends := hend.forall_head (P := fun c => endsOperand c = true) fun _ h => h
  rcases List.append_eq_append_iff.1 hboth with ⟨y, hy, hrest⟩ | ⟨y, rfl, hrest⟩
  · rw [hrest] at hends
    cases y with
    | nil => exact absurd (hends '(' rfl) (by decide)
    | cons c y =>
      have hc := hends c rfl
      rw [endsOperand_of_isWordPart (w.isWordPart c (by simp [hy]))] at hc
      cases hc
  · cases y with
    | nil =>
      rw [List.nil_append] at hrest
      rw [← hrest] at hends
      exact absurd (hends '(' rfl) (by decide)
    | cons c y =>
      obtain ⟨rfl, -⟩ : '(' = c ∧ _ := by simpa using hrest
      exact h.free '(' (by simp) (by decide)

/-- No other form of operand reaches from the start of canonical raw text to a stop. -/
theorem forms_fail_of_raw (h : CanonicalRaw text) (hend : Ends stop t) (hr : s.Reads text t)
    {d : Unit} {v : Cursor} {p : Rule SoyTree.Expr}
    (hp : p ∈ forms nested)
    (hy : p.Yields s e u) (hstop : stop.Yields u d v) : False := by
  have hmiss : stop.Misses s text t := misses_canonicalRaw h hend
  obtain ⟨c, rest, htext, -⟩ := h.exists_cons
  have hhead : ∀ c' ∈ reservedChars, s.rest.head? ≠ some c' := fun c' hc' hs => by
    rw [hr.rest, htext] at hs
    obtain rfl : c = c' := by simpa using hs
    exact h.free c (by simp [htext]) hc'
  cases form_of_mem hp with
  | reference =>
    simp only [reference, yields_marked, yields_bind, yields_char, yields_identifier] at hy
    obtain ⟨-, ⟨-, u', hd, w, hw, -, -⟩, -⟩ := hy
    obtain ⟨y, hx, hy⟩ := covers_of_misses hmiss hr (hd.trans hw) hstop
    obtain rfl := eq_of_covers hend hx hy fun c hc => by
      rcases List.mem_cons.1 hc with rfl | hc
      · decide
      · exact endsOperand_of_isWordPart (w.isWordPart c hc)
    exact absurd w.isWord (Bool.eq_false_iff.1 (h.notReference rfl))
  | string => exact hy.not_fails (string_fails (hhead '\'' (by decide)))
  | boolean =>
    obtain ⟨value, hx, -⟩ := boolean_read hy
    obtain ⟨y, hx, hy⟩ := covers_of_misses hmiss hr hx hstop
    refine h.notBoolean value (eq_of_covers hend hx hy fun c hc => ?_).symm
    have hword : isWord (if value then "true" else "false").toList = true := by
      cases value <;> decide
    exact endsOperand_of_isWordPart (Word.isWordPart ⟨_, hword⟩ c hc)
  | map => exact hy.not_fails (mapLiteral_fails (hhead '[' (by decide)))
  | number =>
    obtain ⟨n, hx, -⟩ := number_read hy
    obtain ⟨y, hx, hy⟩ := covers_of_misses hmiss hr hx hstop
    have htext := eq_of_covers hend hx hy fun c hc => ?_
    · have hread := h.notNumber
      rw [← htext, Numeral.text, n.reads] at hread
      cases hread
    · rcases List.mem_append.1 hc with hc | hc
      · rcases n.signed c (by simpa using hc) with rfl | rfl <;> decide
      · exact endsOperand_of_isNumberChar (n.numeric c hc)
  | call => exact hy.not_fails (functionCall_fails_of_raw h hend hr)

theorem raw_yields (h : CanonicalRaw text) (hend : Ends stop t) (hr : s.Reads text t) :
    (operand stop nested).Yields s (.raw (markAt s.position text) (String.ofList text)) t := by
  refine yields_either.2 (Or.inr ⟨fails_iff.2 fun e v hy => ?_, ?_⟩)
  · simp only [yields_bind, yields_ahead, yields_pure] at hy
    obtain ⟨e', u, he, d, _, ⟨rfl, w, hstop⟩, -, -⟩ := hy
    obtain ⟨p, hp, hy⟩ := he.of_choice
    exact forms_fail_of_raw h hend hr hp hy hstop
  · have hmap : looksLikeMap text = false := by
      obtain ⟨c, rest, rfl, -⟩ := h.exists_cons
      have hc : c ≠ '[' := by
        rintro rfl
        exact h.free '[' (by simp) (by decide)
      unfold looksLikeMap
      split
      · next heq => exact absurd (List.cons.inj heq).1 hc
      · rfl
    refine Yields.markedAt SoyTree.Expr.raw (v := String.ofList text) (yields_check.2 ⟨text, ?_, ?_⟩) hr
    · exact yields_rawUntil.2 ⟨hr, hend.here, misses_canonicalRaw h hend⟩
    · simp [h.visible, hmap]

end RawOperands

section Brackets

theorem not_blank_of_endsNested {c : Char} (h : endsNested c = true) : blank.accepts c = false := by
  simp only [endsNested, Bool.or_eq_true, beq_iff_eq] at h
  rcases h with (rfl | rfl) | rfl <;> decide

theorem blanks_none (h : ∀ c ∈ s.rest.head?, blank.accepts c = false) : blanks.Yields s () s :=
  blanks_yields noBlanks (.refl s) h

theorem padded_yields {c : Char} (hc : blank.accepts c = false) (hr : s.Reads [c, ' '] t)
    (hstop : ∀ d ∈ t.rest.head?, blank.accepts d = false) : (padded (char c)).Yields s () t := by
  obtain ⟨u, hmark, hspace⟩ := hr.split_cons
  exact (blanks_none (hmark.forall_cons hc)).bind ((char_yields hmark).bind
    (blanks_yields oneSpace.toBlanks hspace hstop))

variable {item : Rule α} {source : α → List Char} {unmark : α → α} {xs : List α} {n : Nat}

/-- The items of a comma list, each of which is read back in front of a comma or closing bracket
if less than `n` characters are left. -/
structure ReadsItems (item : Rule α) (source : α → List Char) (unmark : α → α) (n : Nat)
    (xs : List α) : Prop where
  head : ∀ x ∈ xs, ∃ c rest, source x = c :: rest ∧ blank.accepts c = false
  reads : ∀ x ∈ xs, ∀ (u v : Cursor) (c : Char), u.rest.length < n → u.Reads (source x) v →
    v.rest.head? = some c → endsNested c = true → ∃ y, item.Yields u y v ∧ unmark y = unmark x

theorem ReadsItems.tail {x : α} (h : ReadsItems item source unmark n (x :: xs)) :
    ReadsItems item source unmark n xs where
  head := fun y hy => h.head y (List.mem_cons_of_mem x hy)
  reads := fun y hy => h.reads y (List.mem_cons_of_mem x hy)

theorem ReadsItems.not_blank {x : α} (h : ReadsItems item source unmark n (x :: xs))
    (rest : List Char) (hr : s.Reads (source x ++ rest) t) :
    ∀ c ∈ s.rest.head?, blank.accepts c = false := by
  obtain ⟨c, tail, hsource, hc⟩ := h.head x (by simp)
  rw [hsource] at hr
  exact hr.forall_cons hc

theorem moreItems_yields {closing : Char} (hclosing : endsNested closing = true)
    (hcomma : closing ≠ ',') (h : ReadsItems item source unmark n xs) (hn : s.rest.length ≤ n)
    (hr : s.Reads (xs.flatMap fun x => ',' :: ' ' :: source x) t)
    (hclose : t.rest.head? = some closing) :
    ∃ ys, (many (padded (char ',') >>= fun _ => item)).Yields s ys t ∧
      ys.map unmark = xs.map unmark := by
  induction xs generalizing s with
  | nil =>
    obtain rfl := hr.eq_of_nil
    refine ⟨[], Yields.many_nil (Fails.bind (Fails.bind_later (blanks_none ?_) (Fails.bind
      (fails_char.2 ?_)))), rfl⟩
    · rw [hclose]
      rintro c (_ | _)
      exact not_blank_of_endsNested hclosing
    · rw [hclose]
      exact fun h => hcomma (Option.some.inj h)
  | cons x xs ih =>
    obtain ⟨v, hitem, hrest⟩ := Reads.split (a := ',' :: ' ' :: source x) hr
    obtain ⟨u, hsep, hx⟩ := Reads.split (a := [',', ' ']) hitem
    have hnext : ∃ c, v.rest.head? = some c ∧ endsNested c = true := by
      rw [hrest.head?]
      cases xs with
      | nil => exact ⟨closing, hclose, hclosing⟩
      | cons x' xs => exact ⟨',', rfl, by decide⟩
    obtain ⟨c, hc, hends⟩ := hnext
    obtain ⟨y, hy, hunmark⟩ := h.reads x (by simp) u v c
      (Nat.lt_of_lt_of_le (hsep.lt (by simp)) hn) hx hc hends
    obtain ⟨ys, hys, hmap⟩ := ih h.tail (Nat.le_trans hitem.le hn) hrest
    have hblank := h.not_blank [] (by simpa using hx)
    refine ⟨y :: ys, Yields.many_cons ((padded_yields (by decide) hsep hblank).bind hy)
      (hitem.lt (by simp)) hys, ?_⟩
    rw [List.map_cons, hunmark, hmap, List.map_cons]

theorem bracketed_yields {opening closing : Char} (hclosing : endsNested closing = true)
    (hcomma : closing ≠ ',') (h : ReadsItems item source unmark n xs) (hn : s.rest.length ≤ n)
    (hnone : ∀ u : Cursor, u.rest.length < n → u.rest.head? = some closing → item.Fails u)
    (hr : s.Reads (opening :: (commaText (xs.map source) ++ [closing])) t) :
    ∃ ys, (bracketed opening closing item).Yields s ys t ∧ ys.map unmark = xs.map unmark := by
  obtain ⟨u₁, hopen, hrest⟩ := hr.split_cons
  obtain ⟨u₂, hitems, hclose⟩ := hrest.split
  have hlt : u₁.rest.length < n := Nat.lt_of_lt_of_le (hopen.lt (by simp)) hn
  have hend : blanks.Yields u₂ () u₂ :=
    blanks_none (hclose.forall_cons (not_blank_of_endsNested hclosing))
  -- what is left to show once the items are read
  have hlist : ∀ ys, blanks.Yields u₁ () u₁ →
      (sepBy item (padded (char ','))).Yields u₁ ys u₂ →
      (bracketed opening closing item).Yields s ys t := fun ys hstart hys =>
    (char_yields hopen).bind (hstart.bind (hys.bind (hend.bind
      ((char_yields hclose).bind (yields_pure.2 ⟨rfl, rfl⟩)))))
  cases xs with
  | nil =>
    obtain rfl := hitems.eq_of_nil
    have hfails : (sepBy1 item (padded (char ','))).Fails u₂ :=
      Fails.bind (hnone u₂ hlt hclose.head_cons)
    exact ⟨[], hlist [] hend (yields_sepBy.2 (Or.inr ⟨hfails, rfl, rfl⟩)), rfl⟩
  | cons x xs =>
    obtain ⟨v, hx, hmore⟩ := Reads.split (a := source x) hitems
    rw [List.flatMap_map] at hmore
    have hnext : ∃ c, v.rest.head? = some c ∧ endsNested c = true := by
      rw [hmore.head?]
      cases xs with
      | nil => exact ⟨closing, hclose.head_cons, hclosing⟩
      | cons x' xs => exact ⟨',', rfl, by decide⟩
    obtain ⟨c, hc, hends⟩ := hnext
    obtain ⟨y, hy, hunmark⟩ := h.reads x (by simp) u₁ v c hlt hx hc hends
    obtain ⟨ys, hys, hmap⟩ := moreItems_yields hclosing hcomma h.tail
      (Nat.le_trans hx.le (Nat.le_of_lt hlt)) hmore hclose.head_cons
    refine ⟨y :: ys, hlist _ (blanks_none (h.not_blank _ hitems)) (yields_sepBy.2 (Or.inl
      (yields_sepBy1.2 ⟨y, v, ys, hy, hys, rfl⟩))), ?_⟩
    rw [List.map_cons, hunmark, hmap, List.map_cons]

end Brackets

end SoyTree.Grammar
