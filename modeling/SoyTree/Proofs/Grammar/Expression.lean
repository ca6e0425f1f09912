import SoyTree.Proofs.Concrete.Expr
import SoyTree.Proofs.Grammar.Lexical

/-! # What the rules for expressions read

Every success of an expression rule moves over the text of a written expression and gives its
tree. Marks of operands and of the expressions around them all come from that text.
-/

namespace SoyTree.Grammar

open Rule Cursor Concrete

variable {s t : Cursor} {d : Unit} {inside : Bool} {stop : Rule Unit} {nested : Rule SoyTree.Expr}

/-- The rule reads written expressions only. -/
def ReadsExpr (inside : Bool) (p : Rule SoyTree.Expr) : Prop :=
  p.Ensures (Spells (fun e : Concrete.Expr inside => e.text) (fun e p => e.tree p))

section Stops

theorem yields_slashClose : slashClose.Yields s d t ↔
    ∃ b : Blanks, s.Reads (b.chars ++ ['/', '\x7d']) t := by
  simp only [slashClose, yields_spaced, yields_text]
  constructor
  · rintro ⟨b, u, -, hb, -, hr⟩
    exact ⟨b, hb.trans hr⟩
  · rintro ⟨b, hr⟩
    obtain ⟨u, hb, hr⟩ := hr.split
    refine ⟨b, u, (), hb, fun c hc => ?_, hr⟩
    rw [hr.head?] at hc
    obtain rfl : '/' = c := by simpa using hc
    decide

/-- The characters that make an operator of their own with the question mark before them. -/
def joinsQuestion (c : Char) : Bool :=
  c == ':' || c == '?' || c == '.'

theorem yields_question : question.Yields s d t ↔ ∃ b : Blanks, s.Reads (b.chars ++ ['?']) t ∧
    ∃ c, t.rest.head? = some c ∧ joinsQuestion c = false := by
  simp only [question, yields_spaced, yields_bind, yields_char, yields_ahead]
  constructor
  · rintro ⟨b, u, c, hb, -, -, v, hq, rfl, w, hc⟩
    obtain ⟨hc, hr⟩ := yields_one.1 hc
    refine ⟨b, hb.trans hq, c, hr.head_cons, ?_⟩
    simpa [CharClass.noneOf, joinsQuestion, and_assoc] using hc
  · rintro ⟨b, hr, c, hc, hjoins⟩
    obtain ⟨u, hb, hq⟩ := hr.split
    obtain ⟨rest, hrest⟩ : ∃ rest, t.rest = c :: rest := by
      cases ht : t.rest with
      | nil => simp [ht] at hc
      | cons c' rest => exact ⟨rest, by simpa [ht] using hc⟩
    refine ⟨b, u, c, hb, hq.forall_cons (by decide), (), t, hq, rfl,
      ⟨t.position.next c, rest⟩, yields_one.2 ⟨?_, hrest, rfl⟩⟩
    simpa [CharClass.noneOf, joinsQuestion, and_assoc] using hjoins

theorem yields_colon : colon.Yields s d t ↔ ∃ b : Blanks, s.Reads (b.chars ++ [':']) t := by
  simp only [colon, yields_spaced, yields_char]
  constructor
  · rintro ⟨b, u, -, hb, -, hc⟩
    exact ⟨b, hb.trans hc⟩
  · rintro ⟨b, hr⟩
    obtain ⟨u, hb, hc⟩ := hr.split
    exact ⟨b, u, (), hb, hc.forall_cons (by decide), hc⟩

/-- Inside brackets the rule succeeds in front of every comma and closing bracket. -/
def StopsInside (inside : Bool) (stop : Rule Unit) : Prop :=
  inside = true → ∀ u : Cursor, ∀ c ∈ u.rest.head?, c = ',' ∨ c = ')' ∨ c = ']' → ¬ stop.Fails u

theorem stopsInside_either {p : Rule Unit} (h : StopsInside inside stop) :
    StopsInside inside (either p stop) := by
  intro hi u c hc hcase hf
  exact h hi u c hc hcase (fails_either.1 hf).2

theorem stopsInside_nestedStop : StopsInside inside nestedStop := by
  intro _ u c hc hcase
  refine not_fails_iff.2 ⟨(), ⟨u.position.next c, u.rest.tail⟩, yields_spaced.2 ?_⟩
  refine ⟨⟨[], by simp⟩, u, c, .refl u, fun c' hc' => ?_, yields_one.2 ⟨?_, ?_, rfl⟩⟩
  · obtain rfl : c = c' := Option.some.inj (hc.symm.trans hc')
    rcases hcase with rfl | rfl | rfl <;> decide
  · rcases hcase with rfl | rfl | rfl <;> decide
  · cases hu : u.rest with
    | nil => simp [hu] at hc
    | cons c' rest =>
      obtain rfl : c' = c := by simpa [hu] using hc
      rfl

end Stops

section Literals

theorem reference_spelled : ReadsExpr inside reference := by
  intro s e t h
  simp only [reference, yields_marked, yields_bind, yields_char, yields_identifier] at h
  obtain ⟨-, ⟨-, u, hd, w, hw, rfl, -⟩, rfl⟩ := h
  have hr := hd.trans hw
  refine ⟨.reference w, hr, ?_⟩
  rw [hr.position]
  rfl

theorem stringChar_spelled {c : Char} (h : stringChar.Yields s c t) :
    Spells StringChar.text (fun c _ => c.value) s c t := by
  simp only [stringChar, yields_either, yields_bind, yields_one, yields_char, yields_anyChar,
    yields_pure] at h
  rcases h with ⟨ha, hr⟩ | ⟨-, -, u, hb, c', u', hc, rfl, rfl⟩
  · have hc : c ≠ '\\' ∧ c ≠ '\'' := by simpa [CharClass.noneOf] using ha
    exact ⟨.plain c hc, hr, rfl⟩
  · exact ⟨.escaped c', hb.trans hc, rfl⟩

theorem stringChars_spelled {cs : List Char} (h : (many stringChar).Yields s cs t) :
    Spells (fun l : List StringChar => l.flatMap StringChar.text)
      (fun l _ => l.map StringChar.value) s cs t := by
  refine h.many_induction (fun s => ⟨[], .refl s, rfl⟩) ?_
  rintro s c u cs t hc ⟨l, hl, rfl⟩
  obtain ⟨x, hx, rfl⟩ := stringChar_spelled hc
  exact ⟨x :: l, hx.trans hl, rfl⟩

theorem stringLiteral_spelled {l : Literal} (h : stringLiteral.Yields s l t) :
    Spells Quoted.text Quoted.tree s l t := by
  simp only [stringLiteral, yields_marked, yields_bind, yields_char, yields_pure] at h
  obtain ⟨_, ⟨-, u₁, hq, value, u₂, hm, -, u₃, hq', rfl, rfl⟩, rfl⟩ := h
  obtain ⟨cs, hcs, rfl⟩ := stringChars_spelled hm
  have hr := hq.trans (hcs.trans hq')
  refine ⟨⟨cs⟩, hr, ?_⟩
  rw [hr.position]
  rfl

theorem string_spelled :
    ReadsExpr inside (marked (fun _ literal => .string literal) stringLiteral) := by
  intro s e t h
  obtain ⟨l, hl, rfl⟩ := yields_marked.1 h
  obtain ⟨q, hq, rfl⟩ := stringLiteral_spelled hl
  exact ⟨.string q, hq, rfl⟩

theorem boolean_read {e : SoyTree.Expr} (h : boolean.Yields s e t) :
    ∃ value : Bool, s.Reads (if value then "true" else "false").toList t ∧
      e = .boolean ⟨s.position, t.position⟩ value := by
  simp only [boolean, yields_marked, yields_either, yields_bind, yields_keyword, yields_pure] at h
  obtain ⟨value, hv, rfl⟩ := h
  refine ⟨value, ?_, rfl⟩
  rcases hv with ⟨-, u, ⟨-, hr, -⟩, rfl, rfl⟩ | ⟨-, -, u, ⟨-, hr, -⟩, rfl, rfl⟩
  · exact hr
  · exact hr

theorem boolean_spelled : ReadsExpr inside boolean := by
  intro s e t h
  obtain ⟨value, hr, rfl⟩ := boolean_read h
  refine ⟨.boolean value, hr, ?_⟩
  rw [hr.position]
  rfl

theorem number_read {e : SoyTree.Expr} (h : number.Yields s e t) :
    ∃ n : Numeral, s.Reads n.text t ∧ e = .number ⟨s.position, t.position⟩ n.value := by
  simp only [number, yields_marked, yields_check, yields_bind, yields_maybe, yields_one,
    yields_run1, yields_pure, CharClass.satisfying] at h
  obtain ⟨value, ⟨-, ⟨sign, u, hsign, digits, u', ⟨hne, hd, hnum, -⟩, rfl, rfl⟩, hread⟩, rfl⟩ := h
  have hs : (∀ c ∈ sign, c = '+' ∨ c = '-') ∧ s.Reads sign.toList u := by
    rcases hsign with ⟨c, rfl, hc, hr⟩ | ⟨rfl, rfl, -⟩
    · refine ⟨fun c' hc' => ?_, hr⟩
      obtain rfl : c = c' := by simpa using hc'
      simpa [CharClass.oneOf] using hc
    · exact ⟨by simp, .refl u⟩
  have hv : Number.Binary64.read? (sign.toList ++ digits) = some value := by
    split at hread
    · cases hread
      assumption
    · cases hread
  exact ⟨⟨sign, hs.1, digits, hne, hnum, value, hv⟩, hs.2.trans hd, rfl⟩

theorem number_spelled : ReadsExpr inside number := by
  intro s e t h
  obtain ⟨n, hr, rfl⟩ := number_read h
  refine ⟨.number n, hr, ?_⟩
  rw [hr.position]
  rfl

end Literals

section Raw

/-- Raw text goes up to the first place where `stop` succeeds. It is not blank, and like no map. -/
theorem rawCapture_reads {text : String} (h : (rawCapture stop).Yields s text t) :
    ∃ cs : List Char, text = String.ofList cs ∧ s.Reads cs t ∧ (∃ d u, stop.Yields t d u) ∧
      stop.Misses s cs t ∧ Text.isAllBlank cs = false ∧ looksLikeMap cs = false := by
  simp only [rawCapture, yields_check, yields_rawUntil] at h
  obtain ⟨cs, ⟨hr, hhere, hmiss⟩, hok⟩ := h
  split at hok
  · cases hok
  split at hok
  · cases hok
  rename_i hblank hmap
  cases hok
  exact ⟨cs, rfl, hr, hhere, hmiss, by simpa using hblank, by simpa using hmap⟩

theorem rawExpression_reads {e : SoyTree.Expr} (h : (rawExpression stop).Yields s e t) :
    ∃ text : String, (rawCapture stop).Yields s text t ∧ hasBareQuestion text.toList = false ∧
      e = .raw ⟨s.position, t.position⟩ text := by
  simp only [rawExpression, yields_marked, yields_check] at h
  obtain ⟨_, ⟨text, htext, hok⟩, rfl⟩ := h
  split at hok
  · cases hok
  rename_i hbare
  cases hok
  exact ⟨_, htext, by simpa using hbare, rfl⟩

theorem rawCapture_spelled {text : String} (h : (rawCapture stop).Yields s text t)
    (hstop : StopsInside inside stop) :
    Spells (fun r : Raw inside => r.chars) (fun r _ => String.ofList r.chars) s text t := by
  obtain ⟨cs, rfl, hr, -, hmiss, hblank, -⟩ := rawCapture_reads h
  refine ⟨⟨cs, hblank, fun hi c hc => ?_⟩, hr, rfl⟩
  -- a comma or closing bracket within the text would have stopped the capture
  obtain ⟨a, b, rfl⟩ := List.append_of_mem hc
  have hf := hmiss a (c :: b) rfl (by simp)
  refine ⟨?_, ?_, ?_⟩ <;> rintro rfl
  · exact hstop hi _ ',' rfl (by simp) hf
  · exact hstop hi _ ')' rfl (by simp) hf
  · exact hstop hi _ ']' rfl (by simp) hf

theorem otherExpression_spelled (hstop : StopsInside inside stop) :
    ReadsExpr inside (otherExpression stop) := by
  intro s e t h
  obtain ⟨text, ht, rfl⟩ := yields_marked.1 h
  obtain ⟨r, hr, rfl⟩ := rawCapture_spelled ht hstop
  refine ⟨.raw r, hr, ?_⟩
  rw [hr.position]
  rfl

theorem rawExpression_spelled (hstop : StopsInside inside stop) :
    ReadsExpr inside (rawExpression stop) := by
  intro s e t h
  obtain ⟨text, ht, -, rfl⟩ := rawExpression_reads h
  obtain ⟨r, hr, rfl⟩ := rawCapture_spelled ht hstop
  refine ⟨.raw r, hr, ?_⟩
  rw [hr.position]
  rfl

end Raw

section Brackets

theorem separator_spelled (h : (padded (char ',')).Yields s d t) :
    ∃ sep : Separator, s.Reads sep.chars t := by
  obtain ⟨b, b', hr⟩ := yields_padded_char h
  refine ⟨⟨b.chars ++ ',' :: b'.chars, fun c hc => ?_⟩, hr⟩
  rcases List.mem_append.1 hc with hc | hc
  · exact Or.inr (b.blank c hc)
  · rcases List.mem_cons.1 hc with rfl | hc
    · exact Or.inl rfl
    · exact Or.inr (b'.blank c hc)

/-- A comma list in brackets, from what a single item with a separator in front adds to the rest
of the list. -/
theorem bracketed_spelled {α γ : Type} {opening closing : Char} {item : Rule α} {vs : List α}
    {text : γ → List Char} {trees : γ → Position → List α}
    (cons : ∀ (sep : Separator) (s s' u t : Cursor) v vs, s.Reads sep.chars s' →
      item.Yields s' v u → Spells text trees u vs t → Spells text trees s (v :: vs) t)
    (nil : γ) (hnil : text nil = []) (hnil' : ∀ p, trees nil p = [])
    (h : (bracketed opening closing item).Yields s vs t) :
    ∃ (before behind : Blanks) (c : γ),
      s.Reads (opening :: (before.chars ++ (text c ++ (behind.chars ++ [closing])))) t ∧
        vs = trees c (s.position.after (opening :: before.chars)) := by
  have hnone : ∀ u : Cursor, Spells text trees u [] u := fun u =>
    ⟨nil, by rw [hnil]; exact .refl u, (hnil' _).symm⟩
  simp only [bracketed, yields_bind, yields_char, yields_blanks, yields_pure] at h
  obtain ⟨-, u₁, ho, -, u₂, ⟨before, hb, -⟩, items, u₃, hi, -, u₄, ⟨behind, hb', -⟩, -, u₅, hc, rfl,
    rfl⟩ := h
  have hitems : Spells text trees u₂ vs u₃ := by
    rcases yields_sepBy.1 hi with hi | ⟨-, rfl, rfl⟩
    · obtain ⟨v, u, ws, hv, hm, rfl⟩ := yields_sepBy1.1 hi
      refine cons ⟨[], by simp⟩ _ _ u u₃ v ws (.refl u₂) hv ?_
      refine hm.many_induction hnone ?_
      rintro s v u vs t hsv hvs
      obtain ⟨_, s', hs, hv⟩ := yields_bind.1 hsv
      obtain ⟨sep, hsep⟩ := separator_spelled hs
      exact cons sep s s' u t v vs hsep hv hvs
    · exact hnone u₃
  obtain ⟨c, hr, rfl⟩ := hitems
  refine ⟨before, behind, c, ho.trans (hb.trans (hr.trans (hb'.trans hc))), ?_⟩
  rw [(ho.trans hb).position]
  rfl

theorem mapItem_spelled (hn : ReadsExpr true nested) (sep : Separator) (s s' u t : Cursor)
    (item : SoyTree.MapItem) (items : List SoyTree.MapItem) (hs : s.Reads sep.chars s')
    (h : (mapItem nested).Yields s' item u)
    (hrest : Spells Items.text (fun c p => c.trees p) u items t) :
    Spells Items.text (fun c p => c.trees p) s (item :: items) t := by
  obtain ⟨rest, hrest, rfl⟩ := hrest
  simp only [mapItem, yields_marked, yields_bind, yields_pure] at h
  obtain ⟨_, ⟨key, u₁, hk, _, u₂, hp, value, u₃, hv, rfl, rfl⟩, rfl⟩ := h
  obtain ⟨q, hq, rfl⟩ := stringLiteral_spelled hk
  obtain ⟨b, b', hb⟩ := yields_padded_char hp
  obtain ⟨e, he, rfl⟩ := hn _ _ _ hv
  have hitem : s'.Reads (q.text ++ (b.chars ++ (':' :: (b'.chars ++ e.text)))) u := by
    have := hq.trans (hb.trans he)
    rwa [List.append_assoc, List.cons_append] at this
  refine ⟨.cons sep q b b' e rest, hs.trans (hitem.trans hrest), ?_⟩
  rw [hitem.position, hb.position, hq.position, hs.position]
  rfl

theorem mapLiteral_spelled (hn : ReadsExpr true nested) : ReadsExpr inside (mapLiteral nested) := by
  intro s e t h
  obtain ⟨items, hi, rfl⟩ := yields_marked.1 h
  obtain ⟨before, behind, c, hr, rfl⟩ := bracketed_spelled (mapItem_spelled hn) .nil rfl
    (fun _ => rfl) hi
  refine ⟨.map before c behind, hr, ?_⟩
  rw [hr.position]
  rfl

theorem arg_spelled (hn : ReadsExpr true nested) (sep : Separator) (s s' u t : Cursor)
    (arg : SoyTree.Expr) (args : List SoyTree.Expr) (hs : s.Reads sep.chars s')
    (h : nested.Yields s' arg u) (hrest : Spells Args.text (fun c p => c.trees p) u args t) :
    Spells Args.text (fun c p => c.trees p) s (arg :: args) t := by
  obtain ⟨rest, hrest, rfl⟩ := hrest
  obtain ⟨e, he, rfl⟩ := hn _ _ _ h
  refine ⟨.cons sep e rest, hs.trans (he.trans hrest), ?_⟩
  rw [he.position, hs.position]
  rfl

theorem functionCall_spelled (hn : ReadsExpr true nested) :
    ReadsExpr inside (functionCall nested) := by
  intro s e t h
  simp only [functionCall, yields_marked, yields_bind, yields_pure] at h
  obtain ⟨_, ⟨name, u₁, hname, args, u₂, ha, rfl, rfl⟩, rfl⟩ := h
  obtain ⟨w, hw, rfl, -⟩ := yields_identifier.1 hname
  obtain ⟨before, behind, c, hr, rfl⟩ := bracketed_spelled (arg_spelled hn) .nil rfl
    (fun _ => rfl) ha
  refine ⟨.call w before c behind, hw.trans hr, ?_⟩
  rw [(hw.trans hr).position, hw.position, ← Position.after_append]
  rfl

end Brackets

section Operands

/-- The forms of operands, in the order in which they are tried. -/
def forms (nested : Rule SoyTree.Expr) : List (Rule SoyTree.Expr) :=
  [reference, marked (fun _ literal => .string literal) stringLiteral, boolean, mapLiteral nested,
    number, functionCall nested]

inductive Form (nested : Rule SoyTree.Expr) : Rule SoyTree.Expr → Prop where
  | reference : Form nested reference
  | string : Form nested (marked (fun _ literal => .string literal) stringLiteral)
  | boolean : Form nested boolean
  | map : Form nested (mapLiteral nested)
  | number : Form nested number
  | call : Form nested (functionCall nested)

theorem form_of_mem {p : Rule SoyTree.Expr} (hp : p ∈ forms nested) : Form nested p := by
  simp only [forms, List.mem_cons, List.not_mem_nil, or_false] at hp
  rcases hp with rfl | rfl | rfl | rfl | rfl | rfl
  · exact .reference
  · exact .string
  · exact .boolean
  · exact .map
  · exact .number
  · exact .call

theorem form_spelled {p : Rule SoyTree.Expr} (hn : ReadsExpr true nested) (hp : p ∈ forms nested) :
    ReadsExpr inside p := by
  cases form_of_mem hp with
  | reference => exact reference_spelled
  | string => exact string_spelled
  | boolean => exact boolean_spelled
  | map => exact mapLiteral_spelled hn
  | number => exact number_spelled
  | call => exact functionCall_spelled hn

theorem operand_reads {e : SoyTree.Expr} (h : (operand stop nested).Yields s e t) :
    (choice (forms nested)).Yields s e t ∨ (otherExpression stop).Yields s e t := by
  rcases yields_either.1 h with h | ⟨-, h⟩
  · simp only [yields_bind, yields_ahead, yields_pure] at h
    obtain ⟨e, u, he, -, _, ⟨rfl, -⟩, rfl, rfl⟩ := h
    exact Or.inl he
  · exact Or.inr h

theorem operand_spelled (hn : ReadsExpr true nested) (hstop : StopsInside inside stop) :
    ReadsExpr inside (operand stop nested) := by
  intro s e t h
  rcases operand_reads h with h | h
  · obtain ⟨p, hp, hy⟩ := h.of_choice
    exact form_spelled hn hp _ _ _ hy
  · exact otherExpression_spelled hstop _ _ _ h

end Operands

section Ternaries

/-- The branches of a ternary: an operand behind a question mark that nothing joins, and an
expression behind a colon. -/
theorem branches_parts {again : Rule SoyTree.Expr} {left right : SoyTree.Expr}
    (h : (branches stop nested again).Yields s (left, right) t) :
    ∃ (gap₁ gap₂ gap₃ gap₄ : Blanks) (u v w : Cursor),
      s.Reads (gap₁.chars ++ '?' :: gap₂.chars) u ∧
      (∀ c ∈ (gap₂.chars ++ u.rest).head?, joinsQuestion c = false) ∧
      (operand (either colon stop) nested).Yields u left v ∧
      v.Reads (gap₃.chars ++ ':' :: gap₄.chars) w ∧ again.Yields w right t := by
  simp only [branches, yields_bind, yields_question, yields_blanks, yields_colon, yields_pure,
    Prod.mk.injEq] at h
  obtain ⟨-, u₁, ⟨gap₁, hq, c, hc, hjoins⟩, -, u, ⟨gap₂, hgap₂, -⟩, _, v, hleft, -, u₂,
    ⟨gap₃, hcolon⟩, -, w, ⟨gap₄, hgap₄, -⟩, _, _, hright, ⟨rfl, rfl⟩, rfl⟩ := h
  refine ⟨gap₁, gap₂, gap₃, gap₄, u, v, w, ?_, fun c' hc' => ?_, hleft, ?_, hright⟩
  · simpa only [List.append_assoc, List.singleton_append] using hq.trans hgap₂
  · rw [← hgap₂.rest, hc] at hc'
    exact Option.some.inj hc' ▸ hjoins
  · simpa only [List.append_assoc, List.singleton_append] using hcolon.trans hgap₄

/-- An expression, its second branches read by `again`. -/
def expressionStep (stop : Rule Unit) (nested again : Rule SoyTree.Expr) : Rule SoyTree.Expr :=
  either
    (do
      let e ← marked
        (fun mark (cond, rest) =>
          match rest with
          | some (left, right) => .ternary mark cond left right
          | none => cond)
        (do
          let cond ← operand (either question stop) nested
          let rest ← maybe (branches stop nested again)
          pure (cond, rest))
      ahead stop
      pure e)
    (rawExpression stop)

theorem expressionWith_eq_recursive (stop : Rule Unit) (nested : Rule SoyTree.Expr) :
    expressionWith stop nested = recursive (expressionStep stop nested) := rfl

/-- How an expression is read: an operand alone or with the branches that make it a ternary, in front
of the stop, or else raw text. -/
inductive ExpressionRead (stop : Rule Unit) (nested again : Rule SoyTree.Expr) (s : Cursor) :
    SoyTree.Expr → Cursor → Prop where
  | operand {e : SoyTree.Expr} {t u : Cursor} {d : Unit}
      (alone : (operand (either question stop) nested).Yields s e t) (ends : stop.Yields t d u) :
      ExpressionRead stop nested again s e t
  | ternary {cond left right : SoyTree.Expr} {t u v : Cursor} {d : Unit}
      (condition : (operand (either question stop) nested).Yields s cond u)
      (both : (branches stop nested again).Yields u (left, right) t) (ends : stop.Yields t d v) :
      ExpressionRead stop nested again s (.ternary ⟨s.position, t.position⟩ cond left right) t
  | raw {e : SoyTree.Expr} {t : Cursor} (text : (rawExpression stop).Yields s e t) :
      ExpressionRead stop nested again s e t

theorem expressionStep_reads {again : Rule SoyTree.Expr} {e : SoyTree.Expr}
    (h : (expressionStep stop nested again).Yields s e t) :
    ExpressionRead stop nested again s e t := by
  rcases yields_either.1 h with h | ⟨-, h⟩
  · simp only [yields_bind, yields_marked, yields_ahead, yields_pure] at h
    obtain ⟨_, u, ⟨_, ⟨cond, u₁, hcond, rest, u₂, hrest, rfl, rfl⟩, rfl⟩, d, _, ⟨rfl, v, hstop⟩, rfl,
      rfl⟩ := h
    rcases yields_maybe.1 hrest with ⟨⟨left, right⟩, rfl, hboth⟩ | ⟨rfl, rfl, -⟩
    · exact .ternary hcond hboth hstop
    · exact .operand hcond hstop
  · exact .raw h

theorem expressionWith_spelled (hn : ReadsExpr true nested) (hstop : StopsInside inside stop) :
    ReadsExpr inside (expressionWith stop nested) := by
  rw [expressionWith_eq_recursive]
  refine Ensures.recursive fun again hagain s e t h => ?_
  cases expressionStep_reads h with
  | operand alone ends => exact operand_spelled hn (stopsInside_either hstop) _ _ _ alone
  | ternary condition both ends =>
    obtain ⟨bq, b, bc, b', v₂, v₃, v₅, hqb, -, hleft, hcb, hright⟩ := branches_parts both
    obtain ⟨c, hcond, rfl⟩ := operand_spelled hn (stopsInside_either hstop) _ _ _ condition
    obtain ⟨l, hl, rfl⟩ := operand_spelled hn (stopsInside_either hstop) _ _ _ hleft
    obtain ⟨r, hr, rfl⟩ := hagain _ _ _ hright
    have hall := hcond.trans (hqb.trans (hl.trans (hcb.trans hr)))
    simp only [List.append_assoc, List.cons_append] at hall
    refine ⟨.ternary c bq b l bc b' r, hall, ?_⟩
    rw [hall.position, hcb.position, hl.position, hqb.position, hcond.position]
    rfl
  | raw text => exact rawExpression_spelled hstop _ _ _ text

theorem nestedExpression_spelled : ReadsExpr true nestedExpression :=
  Ensures.recursive fun _ hn => expressionWith_spelled hn stopsInside_nestedStop

theorem expression_spelled : ReadsExpr false (expression stop) :=
  expressionWith_spelled nestedExpression_spelled fun h => nomatch h

end Ternaries

end SoyTree.Grammar
