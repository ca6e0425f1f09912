import SoyTree.Proofs.Expression.RawText

/-! # Where ternaries are split

The question mark of every ternary in a program, seen in the text of that ternary. Nothing joins
it from behind; it stands outside quotes and apart from other question marks if the raw text in
the condition keeps to that.
-/

namespace SoyTree

open Concrete Grammar

section Texts

/-- The text leaves no quote open and does not end in a question mark. -/
structure Settled (text : List Char) : Prop where
  closed : ClosesQuotes text
  last : text.getLast? ≠ some '?'

instance (text : List Char) : Decidable (Settled text) :=
  decidable_of_iff (ClosesQuotes text ∧ text.getLast? ≠ some '?')
    ⟨fun h => ⟨h.1, h.2⟩, fun h => ⟨h.closed, h.last⟩⟩

theorem settled_of_plain {text : List Char} (h : ∀ c ∈ text, c ≠ '\'' ∧ c ≠ '?') :
    Settled text where
  closed := closesQuotes_of_unquoted fun hc => (h _ hc).1 rfl
  last := fun hlast => (h _ (List.mem_of_getLast? hlast)).2 rfl

namespace Settled

variable {a b : List Char}

theorem append (ha : Settled a) (hb : Settled b) : Settled (a ++ b) where
  closed := ha.closed.append hb.closed
  last := by
    rw [List.getLast?_append]
    have hlast := hb.last
    cases h : b.getLast? with
    | none => exact ha.last
    | some c => simpa [h] using hlast

/-- Where something follows, only the quotes of the text before it matter. -/
theorem behind (hb : Settled b) (hne : b ≠ []) (ha : ClosesQuotes a) : Settled (a ++ b) where
  closed := ha.append hb.closed
  last := by
    rw [List.getLast?_append_of_ne_nil a hne]
    exact hb.last

end Settled

theorem quoteAfter_blanks {state : QuoteState} (b : Blanks) :
    quoteAfter state b.chars = .outside ↔ state = .outside := by
  obtain ⟨chars, blank⟩ := b
  induction chars generalizing state with
  | nil => rfl
  | cons c chars ih =>
    have hstep : quoteStep state c = .outside ↔ state = .outside := by
      rcases eq_of_blank (blank c (by simp)) with rfl | rfl | rfl | rfl <;> cases state <;> decide
    rw [quoteAfter_cons, ih fun d hd => blank d (List.mem_cons_of_mem c hd), hstep]

theorem closesQuotes_append_blanks {text : List Char} (b : Blanks) :
    ClosesQuotes (text ++ b.chars) ↔ ClosesQuotes text := by
  rw [ClosesQuotes, quoteAfter_append, quoteAfter_blanks, ClosesQuotes]

theorem closesQuotes_blanks (b : Blanks) : ClosesQuotes b.chars :=
  (quoteAfter_blanks b).2 rfl

end Texts

namespace Concrete

theorem Quoted.closesQuotes (q : Quoted) : ClosesQuotes q.text := by
  obtain ⟨chars⟩ := q
  have hinner : quoteAfter .inside (chars.flatMap StringChar.text) = .inside := by
    induction chars with
    | nil => rfl
    | cons c chars ih =>
      rw [List.flatMap_cons, quoteAfter_append]
      cases c with
      | plain c free => simp [StringChar.text, quoteStep, free, ih]
      | escaped c => simp [StringChar.text, quoteStep, ih]
  rw [ClosesQuotes, Quoted.text, quoteAfter_cons, quoteAfter_append]
  exact congrArg (quoteAfter · ['\'']) hinner

theorem Separator.closesQuotes (sep : Separator) : ClosesQuotes sep.chars := by
  refine closesQuotes_of_unquoted fun hc => ?_
  rcases sep.plain _ hc with h | h
  · exact absurd h (by decide)
  · exact absurd h (by decide)

theorem Word.plain (w : Word) : ∀ c ∈ w.chars, c ≠ '\'' ∧ c ≠ '?' := by
  intro c hc
  have hpart := w.isWordPart c hc
  constructor <;> rintro rfl <;> cases hpart

theorem Numeral.plain (n : Numeral) : ∀ c ∈ n.text, c ≠ '\'' ∧ c ≠ '?' := by
  intro c hc
  rcases List.mem_append.1 hc with hc | hc
  · rcases n.signed c (by simpa using hc) with rfl | rfl <;> decide
  · have hnumeric := n.numeric c hc
    constructor <;> rintro rfl <;> cases hnumeric

end Concrete

/-- Raw text that settles, or another expression. -/
def Occurrence.Settled (x : Occurrence) : Prop :=
  ∀ text ∈ x.expr.rawText?, SoyTree.Settled text.toList

instance (x : Occurrence) : Decidable x.Settled :=
  inferInstanceAs (Decidable (∀ text ∈ x.expr.rawText?, SoyTree.Settled text.toList))

namespace Concrete

mutual

theorem Expr.settled {inside : Bool} (place : Place) (p : Position) (e : Expr inside)
    (h : ∀ x ∈ (e.tree p).occurrences inside place, x.Settled) : SoyTree.Settled e.text := by
  match e with
  | .reference name =>
    refine settled_of_plain fun c hc => ?_
    rcases List.mem_cons.1 hc with rfl | hc
    · decide
    · exact name.plain c hc
  | .string literal =>
    refine ⟨literal.closesQuotes, ?_⟩
    simp [Expr.text, Quoted.text, List.getLast?_cons]
  | .boolean value =>
    have hplain : ∀ c ∈ (if value then "true" else "false").toList, c ≠ '\'' ∧ c ≠ '?' := by
      cases value with
      | false => simp
      | true => simp
    exact settled_of_plain hplain
  | .number numeral => exact settled_of_plain numeral.plain
  | .map before items behind =>
    have hitems := items.closesQuotes _ fun x hx => h x (List.mem_cons_of_mem _ hx)
    have hopen : ClosesQuotes ['['] := by decide
    have hclose : SoyTree.Settled [']'] := settled_of_plain (by simp)
    have hall := hclose.behind (by simp) (hopen.append ((closesQuotes_blanks before).append
      (hitems.append (closesQuotes_blanks behind))))
    simpa [Expr.text] using hall
  | .call name before args behind =>
    have hargs := args.closesQuotes _ fun x hx => h x (List.mem_cons_of_mem _ hx)
    have hopen : ClosesQuotes ['('] := by decide
    have hclose : SoyTree.Settled [')'] := settled_of_plain (by simp)
    have hall := hclose.behind (by simp) ((settled_of_plain name.plain).closed.append
      (hopen.append ((closesQuotes_blanks before).append
        (hargs.append (closesQuotes_blanks behind)))))
    simpa [Expr.text] using hall
  | .ternary cond gap₁ gap₂ left gap₃ gap₄ right =>
    simp only [Expr.tree, Expr.occurrences, SoyTree.Expr.inner, List.mem_cons, List.mem_append] at h
    have hcond := cond.settled .condition _ fun x hx =>
      h x (Or.inr (Or.inl (List.mem_cons.1 hx)))
    have hleft := left.settled .branch _ fun x hx =>
      h x (Or.inr (Or.inr (Or.inl (List.mem_cons.1 hx))))
    have hright := right.settled .whole _ fun x hx =>
      h x (Or.inr (Or.inr (Or.inr (List.mem_cons.1 hx))))
    have hquestion : ClosesQuotes ['?'] := by decide
    have hcolon : SoyTree.Settled (':' :: gap₄.chars) := settled_of_plain fun c hc => by
      rcases List.mem_cons.1 hc with rfl | hc
      · decide
      · rcases eq_of_blank (gap₄.blank c hc) with rfl | rfl | rfl | rfl <;> decide
    have hfront := hcond.closed.append ((closesQuotes_blanks gap₁).append (hquestion.append
      ((closesQuotes_blanks gap₂).append (hleft.closed.append (closesQuotes_blanks gap₃)))))
    have hall := (hcolon.append hright).behind (by simp) hfront
    simpa [Expr.text] using hall
  | .raw text =>
    have hraw := h _ List.mem_cons_self _ rfl
    rwa [String.toList_ofList] at hraw

theorem Args.closesQuotes (p : Position) (args : Args)
    (h : ∀ x ∈ SoyTree.Expr.argsInner (args.trees p), x.Settled) : ClosesQuotes args.text := by
  match args with
  | .nil => rfl
  | .cons separator value rest =>
    simp only [Args.trees, SoyTree.Expr.argsInner, List.mem_append] at h
    have hvalue := value.settled .whole _ fun x hx => h x (Or.inl hx)
    have hrest := rest.closesQuotes _ fun x hx => h x (Or.inr hx)
    exact separator.closesQuotes.append (hvalue.closed.append hrest)

theorem Items.closesQuotes (p : Position) (items : Items)
    (h : ∀ x ∈ SoyTree.Expr.itemsInner (items.trees p), x.Settled) : ClosesQuotes items.text := by
  match items with
  | .nil => rfl
  | .cons separator key gap₁ gap₂ value rest =>
    simp only [Items.trees, SoyTree.Expr.itemsInner, List.mem_append] at h
    have hvalue := value.settled .whole _ fun x hx => h x (Or.inl hx)
    have hrest := rest.closesQuotes _ fun x hx => h x (Or.inr hx)
    have hcolon : ClosesQuotes [':'] := by decide
    exact separator.closesQuotes.append ((key.closesQuotes.append
      ((closesQuotes_blanks gap₁).append (hcolon.append
        ((closesQuotes_blanks gap₂).append hvalue.closed)))).append hrest)

end

end Concrete

section Split

/-- The text of a ternary split at the question mark between its condition and its first branch,
with blanks around the mark. -/
structure SplitsAt (source : List Char) (ternary cond left : Mark) (before after : List Char) :
    Prop where
  slice : ternary.sliceChars source = before ++ '?' :: after
  cond : ∃ gap : Blanks, before = cond.sliceChars source ++ gap.chars
  left : ∃ (gap : Blanks) (rest : List Char),
    after = gap.chars ++ (left.sliceChars source ++ rest)

variable {source : String} {options : Options} {program : Program} {inside : Bool} {place : Place}
  {mark : Mark} {cond left right : Expr}

/-- The question mark of a ternary is never joined by the character behind it. It stands outside
quotes exactly if the condition leaves no quote open, and it may stand behind another question
mark. Neither goes wrong where the raw text of the condition settles. -/
theorem ternary_question (h : parseWith source options = .ok program)
    (hx : ⟨inside, place, .ternary mark cond left right⟩ ∈ program.occurrences) :
    ∃ before after, SplitsAt source.toList mark cond.mark left.mark before after ∧
      (∀ c ∈ after.head?, joinsQuestion c = false) ∧
      (IsBareQuestion before after ↔
        ClosesQuotes (cond.mark.sliceChars source.toList) ∧ before.getLast? ≠ some '?') ∧
      ((∀ x ∈ cond.occurrences inside .condition, x.Settled) → IsBareQuestion before after) := by
  obtain ⟨u, t, hu, hternary⟩ : ∃ u t, (Cursor.ofChars source.toList).Reaches u ∧
      TernaryRead inside u (.ternary mark cond left right) t := parse_places h _ hx
  obtain ⟨c, gap₁, gap₂, l, gap₃, gap₄, r, hread, htree, hjoins⟩ := hternary
  obtain ⟨rfl, rfl, rfl, rfl⟩ := Expr.ternary.inj htree
  have hstands := hread.stands hu
  have hslice := hstands.slice
  have hcond : (c.tree u.position).mark.sliceChars source.toList = c.text := by
    rw [Expr.mark_tree]
    exact hstands.left.slice
  have hleft : (l.tree ((u.position.after c.text).after (gap₁.chars ++ '?' :: gap₂.chars))
      ).mark.sliceChars source.toList = l.text := by
    have hbehind : Stands source.toList ((u.position.after c.text).after
        (gap₁.chars ++ '?' :: gap₂.chars)) (l.text ++ (gap₃.chars ++ (':' :: (gap₄.chars ++ r.text)))) :=
      Stands.behind (b := '?' :: gap₂.chars) hstands.right
    rw [Expr.mark_tree]
    exact hbehind.left.slice
  have hclosed : ClosesQuotes (c.text ++ gap₁.chars) ↔ ClosesQuotes c.text :=
    closesQuotes_append_blanks gap₁
  refine ⟨c.text ++ gap₁.chars, _, ⟨?_, ⟨gap₁, by rw [hcond]⟩, gap₂, _, by rw [hleft]⟩, hjoins,
    ?_, fun hsettled => ?_⟩
  · rw [hslice]
    simp [Concrete.Expr.text]
  · rw [hcond, ← hclosed]
    exact ⟨fun hbare => ⟨hbare.unquoted, hbare.first⟩, fun ⟨hquotes, hlast⟩ => ⟨hquotes, hlast, hjoins⟩⟩
  · have hc := c.settled .condition u.position hsettled
    have hgap : Settled gap₁.chars := settled_of_plain fun d hd => by
      rcases eq_of_blank (gap₁.blank d hd) with rfl | rfl | rfl | rfl <;> decide
    have hbefore := hc.append hgap
    exact ⟨hbefore.closed, hbefore.last, hjoins⟩

def Occurrence.isTernary (inside : Bool) (place : Place) (p : Mark → Expr → Bool)
    (x : Occurrence) : Bool :=
  match x.expr with
  | .ternary mark cond _ _ => x.inside == inside && x.place == place && p mark cond
  | _ => false

theorem exists_ternary (source : String) (inside : Bool) (place : Place) (p : Mark → Expr → Bool)
    (h : holdsOccurrence source (Occurrence.isTernary inside place p) = true) :
    ∃ program mark cond left right, parseWith source {} = .ok program ∧
      ⟨inside, place, .ternary mark cond left right⟩ ∈ program.occurrences ∧
      p mark cond = true := by
  obtain ⟨program, hp, ⟨inside', place', e⟩, hx, hternary⟩ := exists_occurrence h
  unfold Occurrence.isTernary at hternary
  split at hternary
  · rename_i mark cond left right he
    simp only [Bool.and_eq_true, beq_iff_eq] at hternary
    obtain ⟨⟨rfl, rfl⟩, hcond⟩ := hternary
    obtain rfl : e = .ternary mark cond left right := he
    exact ⟨program, mark, cond, left, right, hp, hx, hcond⟩
  · cases hternary

theorem quotedTernary_question : ∃ program mark cond left right,
    parseWith (inlineSource "f('a?', $c) ? 1 : 2") {} = .ok program ∧
    ⟨false, .whole, .ternary mark cond left right⟩ ∈ program.occurrences ∧
    (∀ x ∈ cond.occurrences false .condition, x.Settled) ∧
    ∃ before after, SplitsAt (inlineSource "f('a?', $c) ? 1 : 2").toList mark cond.mark left.mark
      before after ∧ IsBareQuestion before after := by
  obtain ⟨program, mark, cond, left, right, h, hx, hcond⟩ := exists_ternary
    (inlineSource "f('a?', $c) ? 1 : 2") false .whole
    (fun _ cond => decide (∀ x ∈ cond.occurrences false .condition, x.Settled)) (by decide +kernel)
  have hsettled := of_decide_eq_true hcond
  obtain ⟨before, after, hsplit, -, -, hbare⟩ := ternary_question h hx
  exact ⟨program, mark, cond, left, right, h, hx, hsettled, before, after, hsplit, hbare hsettled⟩

/-- The second of two question marks splits a ternary: its condition is `$a ?`. -/
theorem doubleQuestion_splits : ∃ program mark cond left right,
    parseWith (inlineSource "$a ?? $b ? 1 : 2") {} = .ok program ∧
    ⟨false, .whole, .ternary mark cond left right⟩ ∈ program.occurrences ∧
    ∀ before after, SplitsAt (inlineSource "$a ?? $b ? 1 : 2").toList mark cond.mark left.mark
      before after → ¬ IsBareQuestion before after := by
  obtain ⟨program, mark, cond, left, right, h, hx, hmarks⟩ := exists_ternary
    (inlineSource "$a ?? $b ? 1 : 2") false .whole
    (fun mark cond =>
      mark.sliceChars (inlineSource "$a ?? $b ? 1 : 2").toList == "$a ?? $b ? 1 : 2".toList &&
      cond.mark.sliceChars (inlineSource "$a ?? $b ? 1 : 2").toList == "$a ?".toList)
    (by decide +kernel)
  simp only [Bool.and_eq_true, beq_iff_eq] at hmarks
  refine ⟨program, mark, cond, left, right, h, hx, ?_⟩
  rintro before after ⟨hslice, ⟨⟨gap, blank⟩, rfl⟩, -⟩ hbare
  rw [hmarks.1, hmarks.2] at hslice
  cases gap with
  | nil => exact hbare.first (by simp [hmarks.2])
  | cons c gap =>
    obtain ⟨rfl, -⟩ : '?' = c ∧ _ := by simpa using hslice
    exact absurd (blank '?' (by simp)) (by decide)

end Split

end SoyTree
