import Mathlib.Data.List.DropRight
import SoyTree.Proofs.Coverage
import SoyTree.Proofs.Expression.TagEnd

/-! # The fallback to raw text

An inline value without question marks and without the end of a tag is read in full: as the form of
operand that it is, or else as raw text. Only blank text is refused, and brackets that look like a
map but are none.
-/

namespace SoyTree

/-- An opening bracket, with a colon behind it before any comma or closing bracket. -/
def StartsLikeMap (text : List Char) : Prop :=
  ∃ key rest, text = '[' :: (key ++ ':' :: rest) ∧ ∀ c ∈ key, c ≠ ':' ∧ c ≠ ',' ∧ c ≠ ']'

namespace Grammar

open Rule Cursor Concrete

variable {s t w : Cursor} {p : Position} {text : List Char} {gap : Blanks} {stop : Rule Unit}
  {nested : Rule SoyTree.Expr} {e : SoyTree.Expr}

theorem looksLikeMap_iff : looksLikeMap text = true ↔ StartsLikeMap text := by
  have hfind : ∀ rest : List Char,
      (rest.find? (fun c => c == ':' || c == ',' || c == ']') == some ':') = true ↔
        ∃ key more, rest = key ++ ':' :: more ∧ ∀ c ∈ key, c ≠ ':' ∧ c ≠ ',' ∧ c ≠ ']' := by
    intro rest
    rw [beq_iff_eq, List.find?_eq_some_iff_append]
    simp [and_assoc]
  cases text with
  | nil => simp [looksLikeMap, StartsLikeMap]
  | cons c rest =>
    by_cases hc : c = '['
    · subst hc
      simp [looksLikeMap, hfind, StartsLikeMap]
    · simp [looksLikeMap, StartsLikeMap, hc]

instance (text : List Char) : Decidable (StartsLikeMap text) :=
  decidable_of_iff _ looksLikeMap_iff

/-- The first form of operand that reads anything at the start of the text reads all of it. -/
def ReadsWhole (p : Position) (text : List Char) (e : SoyTree.Expr) : Prop :=
  (choice (forms nestedExpression)).Yields ⟨p, text⟩ e ⟨p.after text, []⟩

section Forms

theorem functionCall_fails (h : ∀ c ∈ s.rest.head?, isWordStart c = false) :
    (functionCall nested).Fails s :=
  fails_marked.2 (Fails.bind (Fails.bind (fails_one.2 h)))

/-- Behind an opening bracket no other form of operand is read than a map. -/
theorem forms_at_bracket (h : s.rest.head? = some '[') :
    (choice (forms nested)).Yields s e t ↔ (mapLiteral nested).Yields s e t := by
  have hhead : ∀ {P : Char → Prop}, P '[' → ∀ c ∈ s.rest.head?, P c := by
    rw [h]
    rintro P hP c (_ | _)
    exact hP
  have hreference : reference.Fails s := reference_fails (by simp [h])
  have hstring : (marked (fun _ literal => SoyTree.Expr.string literal) stringLiteral).Fails s :=
    string_fails (by simp [h])
  have hboolean : boolean.Fails s := boolean_fails_of_head (hhead (by decide))
  constructor
  · intro hy
    obtain ⟨p, hp, hy⟩ := hy.of_choice
    cases form_of_mem hp with
    | reference => exact absurd hreference hy.not_fails
    | string => exact absurd hstring hy.not_fails
    | boolean => exact absurd hboolean hy.not_fails
    | map => exact hy
    | number => exact absurd (number_fails (hhead (by decide))) hy.not_fails
    | call => exact absurd (functionCall_fails (hhead (by decide))) hy.not_fails
  · intro hy
    have hbefore : ∀ q ∈ [reference, marked (fun _ literal => .string literal) stringLiteral,
        boolean], q.Fails s := by
      simp [hreference, hstring, hboolean]
    exact Yields.choice hbefore hy

theorem isWordStart_of_isBlank {c : Char} (h : Text.isBlank c = true) : isWordStart c = false := by
  rw [← Bool.not_eq_true]
  intro hc
  simp only [isWordStart, Bool.or_eq_true, beq_iff_eq] at hc
  rcases hc with hc | rfl
  · have hrange := toNat_of_isAlpha hc
    simp only [Text.isBlank, decide_eq_true_eq] at h
    omega
  · exact absurd h (by decide)

theorem startsNumber_of_isBlank {c : Char} (h : Text.isBlank c = true) : startsNumber c = false := by
  rw [← Bool.not_eq_true]
  intro hc
  simp only [startsNumber, isNumberChar, Bool.or_eq_true, beq_iff_eq] at hc
  rcases hc with ((hc | rfl) | rfl) | rfl
  · have hrange := toNat_of_isDigit hc
    simp only [Text.isBlank, decide_eq_true_eq] at h
    omega
  all_goals exact absurd h (by decide)

theorem forms_fail_of_isAllBlank (h : Text.isAllBlank s.rest = true) :
    (choice (forms nested)).Fails s := by
  have hblank : ∀ c ∈ s.rest.head?, Text.isBlank c = true := fun c hc =>
    List.all_eq_true.1 h c (List.mem_of_mem_head? hc)
  have hne : ∀ {c : Char}, Text.isBlank c = false → s.rest.head? ≠ some c := by
    intro c hc hs
    rw [hblank c hs] at hc
    cases hc
  have hword : ∀ c ∈ s.rest.head?, isWordStart c = false := fun c hc =>
    isWordStart_of_isBlank (hblank c hc)
  apply Fails.choice
  intro p hp
  cases form_of_mem hp with
  | reference => exact reference_fails (hne (by decide))
  | string => exact string_fails (hne (by decide))
  | boolean => exact boolean_fails_of_head hword
  | map => exact mapLiteral_fails (hne (by decide))
  | number => exact number_fails fun c hc => startsNumber_of_isBlank (hblank c hc)
  | call => exact functionCall_fails hword

end Forms

section Stops

/-- The rule succeeds at the second cursor, and nowhere in the text in front of it. -/
structure StopsBehind (stop : Rule Unit) (s : Cursor) (text : List Char) (t : Cursor) : Prop where
  reads : s.Reads text t
  here : ∃ d u, stop.Yields t d u
  misses : stop.Misses s text t

theorem StopsBehind.rawUntil {x : List Char} (h : StopsBehind stop s text t) :
    (rawUntil stop).Yields s x w ↔ x = text ∧ w = t := by
  have hy : (Rule.rawUntil stop).Yields s text t := yields_rawUntil.2 ⟨h.reads, h.here, h.misses⟩
  constructor
  · exact fun hx => hx.unique hy
  · rintro ⟨rfl, rfl⟩
    exact hy

theorem StopsBehind.rawCapture {x : String} (h : StopsBehind stop s text t) :
    (rawCapture stop).Yields s x w ↔
      (Text.isAllBlank text = false ∧ ¬ StartsLikeMap text) ∧ x = String.ofList text ∧ w = t := by
  rw [← looksLikeMap_iff, Bool.not_eq_true]
  simp only [Grammar.rawCapture, yields_check, h.rawUntil]
  constructor
  · rintro ⟨_, ⟨rfl, rfl⟩, hok⟩
    split at hok
    · cases hok
    split at hok
    · cases hok
    cases hok
    simp_all
  · rintro ⟨⟨hblank, hmap⟩, rfl, rfl⟩
    exact ⟨text, ⟨rfl, rfl⟩, by simp [hblank, hmap]⟩

theorem misses_slashClose (htag : ¬ tagEnd <:+: text)
    (hlast : ∀ c ∈ text.getLast?, blank.accepts c = false) (ht : t.rest.head? ≠ some '\x7d') :
    slashClose.Misses s text t := by
  rintro a b rfl hb
  refine fails_iff.2 fun d v hy => ?_
  obtain ⟨gap, hr⟩ := yields_slashClose.1 hy
  have hlast' : ∀ c ∈ b.getLast?, blank.accepts c = false := fun c hc =>
    hlast c (by rwa [List.getLast?_append_of_ne_nil a hb])
  obtain ⟨x, rfl, hx⟩ := exists_of_blanks_mark gap hb hlast'
    (show b ++ t.rest = gap.chars ++ '/' :: '\x7d' :: v.rest by simpa using hr.rest)
  cases x with
  | nil => exact ht (by rw [← List.nil_append t.rest, ← hx]; rfl)
  | cons c x =>
    obtain rfl : c = '\x7d' := (List.cons.inj hx).1.symm
    exact htag ⟨a ++ gap.chars, x, by simp [tagEnd]⟩

theorem misses_question (h : '?' ∉ text ++ t.rest) : question.Misses s text t := by
  rintro a b rfl -
  apply question_fails_of_plain
  exact fun hmem => h (by rw [List.append_assoc]; exact List.mem_append_right a hmem)

end Stops

/-- A text that holds no question mark and no end of a tag, and that does not end in a blank. -/
structure PlainValue (text : List Char) : Prop where
  plain : '?' ∉ text
  inTag : ¬ tagEnd <:+: text
  last : ∀ c ∈ text.getLast?, blank.accepts c = false

section Values

def valueStart (p : Position) (text : List Char) (gap : Blanks) : Cursor :=
  ⟨p, text ++ (gap.chars ++ tagEnd)⟩

def valueEnd (p : Position) (text : List Char) (gap : Blanks) : Cursor :=
  ⟨p.after text, gap.chars ++ tagEnd⟩

theorem PlainValue.inside (h : PlainValue text) (p : Position) (gap : Blanks) :
    Inside gap ⟨p, text⟩ (valueStart p text gap) :=
  ⟨rfl, rfl, h.plain⟩

theorem inside_valueEnd (p : Position) (text : List Char) (gap : Blanks) :
    Inside gap ⟨p.after text, []⟩ (valueEnd p text gap) :=
  ⟨rfl, rfl, by simp⟩

theorem PlainValue.stops (h : PlainValue text) (p : Position) (gap : Blanks) :
    StopsBehind slashClose (valueStart p text gap) text (valueEnd p text gap) where
  reads := ⟨rfl, rfl⟩
  here := ⟨(), ⟨(p.after text).after (gap.chars ++ tagEnd), []⟩,
    yields_slashClose.2 ⟨gap, by simp [valueEnd, tagEnd], rfl⟩⟩
  misses := by
    have hbrace : ∀ c ∈ (gap.chars ++ tagEnd).head?, c ≠ '\x7d' := by
      apply forall_head?_append
      · rintro c hc rfl
        exact absurd (gap.blank _ (List.mem_of_mem_head? hc)) (by decide)
      · rintro c (_ | _)
        decide
    exact misses_slashClose h.inTag h.last fun hhead => hbrace _ hhead rfl

theorem PlainValue.stops_condition (h : PlainValue text) (p : Position) (gap : Blanks) :
    StopsBehind (either question slashClose) (valueStart p text gap) text (valueEnd p text gap) where
  reads := ⟨rfl, rfl⟩
  here := by
    obtain ⟨d, u, hend⟩ := (h.stops p gap).here
    exact ⟨d, u, yields_either.2 (Or.inr ⟨question_fails_of_plain (plain_tagEnd gap), hend⟩)⟩
  misses := by
    intro a b hab hb
    apply fails_either.2
    constructor
    · exact misses_question (List.not_mem_append h.plain (plain_tagEnd gap)) a b hab hb
    · exact (h.stops p gap).misses a b hab hb

/-- Which expression a text is read as, if it is read at all. -/
def IsValue (p : Position) (text : List Char) (e : SoyTree.Expr) : Prop :=
  ReadsWhole p text e ∨ (¬ ∃ e', ReadsWhole p text e') ∧
    e = .raw (markAt p text) (String.ofList text)

/-- Where the rule succeeds the whole value has been read. -/
theorem PlainValue.read_all {x : List Char} {d : Unit} {v : Cursor} (h : PlainValue text)
    (hstop : StopsBehind stop (valueStart p text gap) text (valueEnd p text gap))
    (hr : Reads ⟨p, text⟩ x t) (ht : Inside gap t w) (hd : stop.Yields w d v) :
    t = ⟨p.after text, []⟩ := by
  obtain ⟨w', hr', ht'⟩ := (h.inside p gap).reads hr
  obtain rfl := ht.unique ht'
  obtain ⟨y, rfl, -⟩ := covers_of_misses hstop.misses hstop.reads hr' hd
  have hrest : text = text ++ y ++ t.rest := hr.rest
  obtain ⟨rfl, hnil⟩ : y = [] ∧ t.rest = [] := by simpa [List.append_assoc] using hrest
  simpa using hr.eq

/-- The first form of operand that is read is followed by the end of the value exactly if it is all
of the value. -/
theorem PlainValue.form_iff (h : PlainValue text)
    (hstop : StopsBehind stop (valueStart p text gap) text (valueEnd p text gap)) :
    (choice (forms nestedExpression) >>= fun e => ahead stop >>= fun _ => pure e).Yields
      (valueStart p text gap) e w ↔ ReadsWhole p text e ∧ w = valueEnd p text gap := by
  have hfirm := (firm_forms firm_nestedExpression).inside (h.inside p gap)
  simp only [yields_bind, yields_ahead, yields_pure]
  constructor
  · rintro ⟨_, u, he, d, _, ⟨rfl, v, hd⟩, rfl, rfl⟩
    rcases hfirm with ⟨-, hf⟩ | ⟨e', t, t', hs, hs', ht⟩
    · exact absurd hf he.not_fails
    obtain ⟨rfl, rfl⟩ := he.unique hs'
    obtain ⟨form, hform, hy⟩ := hs.of_choice
    have hspelled : ReadsExpr false form := form_spelled nestedExpression_spelled hform
    obtain ⟨c, hr, -⟩ := hspelled _ _ _ hy
    obtain rfl := h.read_all hstop hr ht hd
    exact ⟨hs, ht.unique (inside_valueEnd p text gap)⟩
  · rintro ⟨hwhole, rfl⟩
    obtain ⟨d, u, hd⟩ := hstop.here
    rcases hfirm with ⟨hf, -⟩ | ⟨e', t, t', hs, hs', ht⟩
    · exact absurd hf (Yields.not_fails hwhole)
    obtain ⟨rfl, rfl⟩ := Yields.unique hwhole hs
    obtain rfl := ht.unique (inside_valueEnd p text gap)
    exact ⟨e, _, hs', d, _, ⟨rfl, u, hd⟩, rfl, rfl⟩

theorem PlainValue.operand_iff (h : PlainValue text)
    (hstop : StopsBehind stop (valueStart p text gap) text (valueEnd p text gap)) :
    (operand stop nestedExpression).Yields (valueStart p text gap) e w ↔
      IsValue p text e ∧ ((∃ e', ReadsWhole p text e') ∨
        Text.isAllBlank text = false ∧ ¬ StartsLikeMap text) ∧ w = valueEnd p text gap := by
  have hraw : (otherExpression stop).Yields (valueStart p text gap) e w ↔
      (Text.isAllBlank text = false ∧ ¬ StartsLikeMap text) ∧
        e = .raw (markAt p text) (String.ofList text) ∧ w = valueEnd p text gap := by
    simp only [otherExpression, yields_marked, hstop.rawCapture]
    constructor
    · rintro ⟨_, ⟨hok, rfl, rfl⟩, rfl⟩
      exact ⟨hok, rfl, rfl⟩
    · rintro ⟨hok, rfl, rfl⟩
      exact ⟨_, ⟨hok, rfl, rfl⟩, rfl⟩
  rw [operand, yields_either, hraw]
  constructor
  · rintro (hy | ⟨hf, hok, rfl, rfl⟩)
    · obtain ⟨hwhole, rfl⟩ := (h.form_iff hstop).1 hy
      exact ⟨Or.inl hwhole, Or.inl ⟨e, hwhole⟩, rfl⟩
    · have hnone : ¬ ∃ e', ReadsWhole p text e' := by
        rintro ⟨e', hwhole⟩
        exact ((h.form_iff hstop).2 ⟨hwhole, rfl⟩).not_fails hf
      exact ⟨Or.inr ⟨hnone, rfl⟩, Or.inr hok, rfl⟩
  · rintro ⟨hwhole | ⟨hnone, rfl⟩, hok, rfl⟩
    · exact Or.inl ((h.form_iff hstop).2 ⟨hwhole, rfl⟩)
    · refine Or.inr ⟨fails_iff.2 fun e' w' hy => ?_, hok.resolve_left hnone, rfl, rfl⟩
      exact hnone ⟨e', ((h.form_iff hstop).1 hy).1⟩

/-- The value is no ternary, and a second attempt at raw text does not help where the first one
failed. -/
theorem PlainValue.expression_iff (h : PlainValue text) :
    (expression slashClose).Yields (valueStart p text gap) e w ↔
      (operand (either question slashClose) nestedExpression).Yields
        (valueStart p text gap) e w := by
  have hquestion : question.Fails (valueEnd p text gap) :=
    question_fails_of_plain (plain_tagEnd gap)
  have hend := (h.stops p gap).here
  have hoperand : ∀ {e w}, (operand (either question slashClose) nestedExpression).Yields
      (valueStart p text gap) e w → (expression slashClose).Yields (valueStart p text gap) e w := by
    intro e w hy
    obtain ⟨-, -, rfl⟩ := (h.operand_iff (h.stops_condition p gap)).1 hy
    exact expressionWith_yields hy hquestion hend
  constructor
  · intro hy
    rcases yields_or_fails (operand (either question slashClose) nestedExpression)
      (valueStart p text gap) with ⟨e', w', hy'⟩ | hf
    · obtain ⟨rfl, rfl⟩ := (hoperand hy').unique hy
      exact hy'
    · exfalso
      unfold Yields at hy
      rw [expression, expressionWith, recursive_eq] at hy
      rcases yields_either.1 hy with hy | ⟨-, hy⟩
      · obtain ⟨_, _, hy, -⟩ := yields_bind.1 hy
        obtain ⟨_, hy, -⟩ := yields_marked.1 hy
        obtain ⟨_, _, hy, -⟩ := yields_bind.1 hy
        exact hy.not_fails hf
      · obtain ⟨_, hy, -⟩ := yields_marked.1 hy
        obtain ⟨x, hy, -⟩ := yields_check.1 hy
        obtain ⟨hok, rfl, rfl⟩ := (h.stops p gap).rawCapture.1 hy
        have hraw := (h.stops_condition p gap).rawCapture.2 ⟨hok, rfl, rfl⟩
        exact hraw.not_fails (fails_marked.1 (fails_either.1 hf).2)
  · exact hoperand

/-- A value is refused exactly if no form of operand is all of it, and it is blank or starts like a
map. -/
theorem PlainValue.fails_iff (h : PlainValue text) :
    (expression slashClose).Fails (valueStart p text gap) ↔ (¬ ∃ e, ReadsWhole p text e) ∧
      (Text.isAllBlank text = true ∨ StartsLikeMap text) := by
  rw [Rule.fails_iff]
  simp only [h.expression_iff, h.operand_iff (h.stops_condition p gap)]
  constructor
  · intro hnone
    have hform : ¬ ∃ e, ReadsWhole p text e := by
      rintro ⟨e, hwhole⟩
      exact hnone e _ ⟨Or.inl hwhole, Or.inl ⟨e, hwhole⟩, rfl⟩
    refine ⟨hform, ?_⟩
    by_contra hok
    rw [not_or, Bool.not_eq_true] at hok
    exact hnone _ _ ⟨Or.inr ⟨hform, rfl⟩, Or.inr hok, rfl⟩
  · rintro ⟨hform, hrefused⟩ e w ⟨-, hwhole | ⟨hvisible, hmap⟩, -⟩
    · exact hform hwhole
    · rcases hrefused with hblank | hlike
      · rw [hblank] at hvisible
        cases hvisible
      · exact hmap hlike

theorem not_readsWhole_of_isAllBlank (h : Text.isAllBlank text = true) :
    ¬ ∃ e, ReadsWhole p text e := by
  rintro ⟨e, hwhole⟩
  exact Yields.not_fails hwhole (forms_fail_of_isAllBlank h)

theorem readsWhole_iff_of_bracket (h : text.head? = some '[') :
    ReadsWhole p text e ↔ (mapLiteral nestedExpression).Yields ⟨p, text⟩ e ⟨p.after text, []⟩ :=
  forms_at_bracket h

theorem ReadsWhole.mark (h : ReadsWhole p text e) : e.mark = markAt p text := by
  obtain ⟨form, hform, hy⟩ := Yields.of_choice h
  have hspelled : ReadsExpr false form := form_spelled nestedExpression_spelled hform
  obtain ⟨c, hr, rfl⟩ := hspelled _ _ _ hy
  have htext : text = c.text := by simpa using hr.rest
  rw [Expr.mark_tree, htext]

theorem IsValue.mark (h : IsValue p text e) : e.mark = markAt p text := by
  rcases h with h | ⟨-, rfl⟩
  · exact h.mark
  · rfl

end Values

theorem plainValue_rdropWhile (hquestion : '?' ∉ text) (htag : ¬ tagEnd <:+: text) :
    PlainValue (text.rdropWhile blank.accepts) where
  plain := fun h => hquestion ((List.rdropWhile_prefix _ _).subset h)
  inTag := fun h => htag (h.trans (List.rdropWhile_prefix _ _).isInfix)
  last := by
    intro c hc
    have hne : text.rdropWhile blank.accepts ≠ [] := by
      intro hnil
      rw [hnil] at hc
      cases hc
    rw [List.getLast?_eq_some_getLast hne] at hc
    obtain rfl := Option.some.inj hc
    exact Bool.eq_false_iff.2 (List.rdropWhile_last_not _ _ hne)

def blanksBehind (text : List Char) : Blanks :=
  ⟨text.rtakeWhile blank.accepts, fun _ => List.mem_rtakeWhile_imp⟩

/-- A text without question marks and without the end of a tag, in front of the end of its tag. What
is left of it without the blanks at its end is refused only if it is blank, or if it looks like a
map and is no map. Else it is read in full: the first form of operand that reads a part of it at its
start gives the expression if it reads all of it, and the expression is raw text if not. -/
theorem expression_reads_plain {p : Position} {input text : List Char} (hquestion : '?' ∉ input)
    (htag : ¬ tagEnd <:+: input) (htext : input.rdropWhile blank.accepts = text) :
    ((expression slashClose).Fails ⟨p, input ++ tagEnd⟩ ↔
      Text.isAllBlank text = true ∨ StartsLikeMap text ∧
        ¬ ∃ e, (mapLiteral nestedExpression).Yields ⟨p, text⟩ e ⟨p.after text, []⟩) ∧
    ∀ e t, (expression slashClose).Yields ⟨p, input ++ tagEnd⟩ e t →
      t = ⟨p.after text, input.drop text.length ++ tagEnd⟩ ∧ e.mark = markAt p text ∧
      (ReadsWhole p text e ∨
        (¬ ∃ e', ReadsWhole p text e') ∧ e = .raw (markAt p text) (String.ofList text)) := by
  have h : PlainValue text := htext ▸ plainValue_rdropWhile hquestion htag
  have hinput : input = text ++ (blanksBehind input).chars := by
    rw [← htext]
    exact List.rdropWhile_append_rtakeWhile.symm
  have hstart : (⟨p, input ++ tagEnd⟩ : Cursor) = valueStart p text (blanksBehind input) := by
    rw [valueStart, ← List.append_assoc, ← hinput]
  have hdrop : input.drop text.length = (blanksBehind input).chars := by
    conv_lhs => rw [hinput, List.drop_left]
  rw [hstart, h.fails_iff]
  constructor
  · constructor
    · rintro ⟨hform, hblank | hlike⟩
      · exact Or.inl hblank
      · right
        obtain ⟨key, rest, rfl, -⟩ := id hlike
        exact ⟨hlike, fun ⟨e, hmap⟩ => hform ⟨e, (readsWhole_iff_of_bracket rfl).2 hmap⟩⟩
    · rintro (hblank | ⟨hlike, hmap⟩)
      · exact ⟨not_readsWhole_of_isAllBlank hblank, Or.inl hblank⟩
      · obtain ⟨key, rest, rfl, -⟩ := id hlike
        exact ⟨fun ⟨e, hwhole⟩ => hmap ⟨e, (readsWhole_iff_of_bracket rfl).1 hwhole⟩, Or.inr hlike⟩
  · intro e t hy
    obtain ⟨hvalue, -, rfl⟩ := (h.operand_iff (h.stops_condition p _)).1 (h.expression_iff.1 hy)
    rw [hdrop]
    exact ⟨rfl, hvalue.mark, hvalue⟩

theorem callSample_read : '?' ∉ "f($a) ".toList ∧ ¬ tagEnd <:+: "f($a) ".toList ∧
    "f($a) ".toList.rdropWhile blank.accepts = "f($a)".toList ∧
    ∃ e, (expression slashClose).Yields ⟨.origin, "f($a) ".toList ++ tagEnd⟩ e
        ⟨Position.origin.after "f($a)".toList, " ".toList ++ tagEnd⟩ ∧
      e.mark = markAt .origin "f($a)".toList := by
  have hquestion : '?' ∉ "f($a) ".toList := by decide
  have htag : ¬ tagEnd <:+: "f($a) ".toList := by decide
  have htext : "f($a) ".toList.rdropWhile blank.accepts = "f($a)".toList := by decide
  obtain ⟨hfails, hreads⟩ := expression_reads_plain (p := .origin) hquestion htag htext
  refine ⟨hquestion, htag, htext, ?_⟩
  rcases yields_or_fails (expression slashClose) ⟨.origin, "f($a) ".toList ++ tagEnd⟩ with
    ⟨e, t, hy⟩ | hf
  · obtain ⟨rfl, hmark, -⟩ := hreads e t hy
    exact ⟨e, hy, hmark⟩
  · rcases hfails.1 hf with hblank | ⟨hlike, -⟩
    · exact absurd hblank (by decide)
    · exact absurd hlike (by decide)

end Grammar

end SoyTree
