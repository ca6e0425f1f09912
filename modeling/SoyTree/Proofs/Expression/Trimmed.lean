import SoyTree.Proofs.Grammar.Values

/-! # Blanks around raw text

Raw text has no blanks at its ends. Blanks in front of an expression are read before the expression
starts, and every rule that ends one begins by reading blanks, so that it would have succeeded
earlier.
-/

namespace SoyTree

structure Unpadded (text : List Char) : Prop where
  first : ∀ c ∈ text.head?, Grammar.blank.accepts c = false
  last : ∀ c ∈ text.getLast?, Grammar.blank.accepts c = false

mutual

/-- No raw text within an expression has blanks at its ends. -/
def Expr.Trimmed : Expr → Prop
  | .reference _ _ => True
  | .string _ => True
  | .boolean _ _ => True
  | .number _ _ => True
  | .map _ items => Expr.ItemsTrimmed items
  | .call _ _ args => Expr.ArgsTrimmed args
  | .ternary _ cond left right => cond.Trimmed ∧ left.Trimmed ∧ right.Trimmed
  | .raw _ text => Unpadded text.toList

def Expr.ArgsTrimmed : List Expr → Prop
  | [] => True
  | e :: rest => e.Trimmed ∧ Expr.ArgsTrimmed rest

def Expr.ItemsTrimmed : List MapItem → Prop
  | [] => True
  | .mk _ _ value :: rest => value.Trimmed ∧ Expr.ItemsTrimmed rest

end

theorem Expr.argsTrimmed_iff {args : List Expr} :
    Expr.ArgsTrimmed args ↔ ∀ e ∈ args, e.Trimmed := by
  induction args with
  | nil => simp [Expr.ArgsTrimmed]
  | cons e rest ih => simp [Expr.ArgsTrimmed, ih]

theorem Expr.itemsTrimmed_iff {items : List MapItem} :
    Expr.ItemsTrimmed items ↔ ∀ i ∈ items, i.value.Trimmed := by
  induction items with
  | nil => simp [Expr.ItemsTrimmed]
  | cons i rest ih =>
    obtain ⟨mark, key, value⟩ := i
    simp [Expr.ItemsTrimmed, ih, MapItem.value]

namespace Grammar

open Rule Cursor Concrete

variable {α : Type} {s t : Cursor} {stop : Rule Unit} {nested again : Rule SoyTree.Expr}
  {e : SoyTree.Expr}

section Stops

/-- Where the rule succeeds behind a blank, it succeeds in front of that blank as well. -/
def PassesBlanks (stop : Rule Unit) : Prop :=
  ∀ s t c, blank.accepts c = true → s.Reads [c] t → ¬ stop.Fails t → ¬ stop.Fails s

theorem passesBlanks_spaced (p : Rule α) : PassesBlanks (spaced p) := by
  intro s t c hc hr h
  obtain ⟨d, u, hy⟩ := not_fails_iff.1 h
  obtain ⟨b, w, v, hb, hstop, hp⟩ := yields_spaced.1 hy
  have hblank : ∀ d ∈ c :: b.chars, blank.accepts d = true := by
    rintro d (_ | ⟨_, hd⟩)
    · exact hc
    · exact b.blank d hd
  exact not_fails_iff.2 ⟨(), u, yields_spaced.2 ⟨⟨c :: b.chars, hblank⟩, w, v, hr.trans hb, hstop, hp⟩⟩

theorem passesBlanks_either {p q : Rule Unit} (hp : PassesBlanks p) (hq : PassesBlanks q) :
    PassesBlanks (either p q) := by
  intro s t c hc hr h hf
  obtain ⟨hfp, hfq⟩ := fails_either.1 hf
  refine h (fails_either.2 ⟨?_, ?_⟩)
  · by_contra hn
    exact hp s t c hc hr hn hfp
  · by_contra hn
    exact hq s t c hc hr hn hfq

/-- A capture that starts at no blank has no blanks at its ends. -/
theorem unpadded_of_misses {text : List Char} {w : Unit} {u : Cursor} (hvisible : Visible s)
    (hblanks : PassesBlanks stop) (hr : s.Reads text t) (hstop : stop.Yields t w u)
    (hmiss : stop.Misses s text t) : Unpadded text := by
  constructor
  · intro c hc
    refine hvisible c ?_
    rw [hr.rest, List.head?_append, Option.mem_def.1 hc]
    rfl
  · intro c hc
    rw [← Bool.not_eq_true]
    intro hblank
    obtain ⟨before, rfl⟩ := List.getLast?_eq_some_iff.1 hc
    obtain ⟨v, hv, hlast⟩ := hr.split
    have hfails := hmiss before [c] rfl (by simp)
    rw [← hv.position, ← hlast.rest] at hfails
    exact hblanks v t c hblank hlast hstop.not_fails hfails

end Stops

section Expressions

/-- What the rule reads behind all blanks is trimmed. -/
def ReadsTrimmed (p : Rule SoyTree.Expr) : Prop :=
  p.Ensures fun s e _ => Visible s → e.Trimmed

theorem rawCapture_trimmed {text : String} (hblanks : PassesBlanks stop) (hvisible : Visible s)
    (h : (rawCapture stop).Yields s text t) : Unpadded text.toList := by
  obtain ⟨chars, rfl, hr, ⟨w, u, hstop⟩, hmiss, -⟩ := rawCapture_reads h
  rw [String.toList_ofList]
  exact unpadded_of_misses hvisible hblanks hr hstop hmiss

theorem bracketed_visible {item : Rule α} {P : α → Prop} {opening closing : Char} {vs : List α}
    (hitem : item.Ensures fun s v _ => Visible s → P v)
    (h : (bracketed opening closing item).Yields s vs t) : ∀ v ∈ vs, P v := by
  simp only [bracketed, yields_bind, yields_char, yields_pure] at h
  obtain ⟨-, u₁, -, _, u₂, hblanks, items, u₃, hi, -, -, -, -, -, -, rfl, -⟩ := h
  obtain ⟨before, -, hvisible⟩ := yields_blanks.1 hblanks
  rcases yields_sepBy.1 hi with hi | ⟨-, rfl, -⟩
  · obtain ⟨v, u, ws, hv, hm, rfl⟩ := yields_sepBy1.1 hi
    have hmore : ∀ w ∈ ws, P w := by
      refine hm.many_induction (P := fun _ ws _ => ∀ w ∈ ws, P w) (by simp) ?_
      intro s' v' u' vs' t' hp ih
      obtain ⟨_, m, hsep, hv'⟩ := yields_bind.1 hp
      simp only [padded, yields_bind] at hsep
      obtain ⟨-, -, -, -, _, -, hblanks'⟩ := hsep
      obtain ⟨gap, -, hvisible'⟩ := yields_blanks.1 hblanks'
      rintro w (_ | ⟨_, hw⟩)
      · exact hitem _ _ _ hv' hvisible'
      · exact ih w hw
    rintro w (_ | ⟨_, hw⟩)
    · exact hitem _ _ _ hv hvisible
    · exact hmore w hw
  · simp

theorem mapItem_trimmed (hn : ReadsTrimmed nested) :
    (mapItem nested).Ensures fun s i _ => Visible s → i.value.Trimmed := by
  intro s i t h _
  simp only [mapItem, padded, yields_marked, yields_bind, yields_pure] at h
  obtain ⟨_, ⟨key, u₁, -, _, u₂, ⟨-, -, -, -, _, -, hblanks⟩, value, u₃, hv, rfl, rfl⟩, rfl⟩ := h
  obtain ⟨gap, -, hvisible⟩ := yields_blanks.1 hblanks
  exact hn _ _ _ hv hvisible

theorem operand_trimmed (hblanks : PassesBlanks stop) (hn : ReadsTrimmed nested) :
    ReadsTrimmed (operand stop nested) := by
  intro s e t h hvisible
  rcases operand_reads h with h | h
  · obtain ⟨p, hp, hy⟩ := h.of_choice
    cases form_of_mem hp with
    | map =>
      obtain ⟨items, hitems, rfl⟩ := yields_marked.1 hy
      exact Expr.itemsTrimmed_iff.2 (bracketed_visible (mapItem_trimmed hn) hitems)
    | call =>
      obtain ⟨v, hv, rfl⟩ := yields_marked.1 hy
      simp only [yields_bind, yields_pure] at hv
      obtain ⟨name, u, -, args, _, hargs, rfl, -⟩ := hv
      exact Expr.argsTrimmed_iff.2 (bracketed_visible hn hargs)
    | _ =>
      obtain ⟨v, -, rfl⟩ := yields_marked.1 hy
      trivial
  · obtain ⟨text, htext, rfl⟩ := yields_marked.1 h
    exact rawCapture_trimmed hblanks hvisible htext

theorem branches_trimmed {x : SoyTree.Expr × SoyTree.Expr} (hblanks : PassesBlanks stop)
    (hn : ReadsTrimmed nested) (hagain : ReadsTrimmed again)
    (h : (branches stop nested again).Yields s x t) : x.1.Trimmed ∧ x.2.Trimmed := by
  simp only [branches, yields_bind, yields_pure] at h
  obtain ⟨-, u₁, -, _, u₂, hgap, left, u₃, hleft, -, u₄, -, _, u₅, hgap', right, u₆, hright, rfl,
    -⟩ := h
  obtain ⟨gap, -, hvisible⟩ := yields_blanks.1 hgap
  obtain ⟨gap', -, hvisible'⟩ := yields_blanks.1 hgap'
  have hcolon : PassesBlanks colon := passesBlanks_spaced _
  exact ⟨operand_trimmed (passesBlanks_either hcolon hblanks) hn _ _ _ hleft hvisible,
    hagain _ _ _ hright hvisible'⟩

theorem expressionWith_trimmed (hblanks : PassesBlanks stop) (hn : ReadsTrimmed nested) :
    ReadsTrimmed (expressionWith stop nested) := by
  have hquestion : PassesBlanks question := passesBlanks_spaced _
  rw [expressionWith_eq_recursive]
  refine Ensures.recursive fun again hagain s e t h hvisible => ?_
  have hoperand : ReadsTrimmed (operand (either question stop) nested) :=
    operand_trimmed (passesBlanks_either hquestion hblanks) hn
  cases expressionStep_reads h with
  | operand alone ends => exact hoperand _ _ _ alone hvisible
  | ternary condition both ends =>
    exact ⟨hoperand _ _ _ condition hvisible, branches_trimmed hblanks hn hagain both⟩
  | raw text =>
    obtain ⟨text, htext, -, rfl⟩ := rawExpression_reads text
    exact rawCapture_trimmed hblanks hvisible htext

theorem nestedExpression_trimmed : ReadsTrimmed nestedExpression :=
  Ensures.recursive fun _ hn => expressionWith_trimmed (passesBlanks_spaced _) hn

/-- The inline values of a parsed source are trimmed. -/
theorem parse_trimmed {source : String} {options : Options} {program : Program}
    (h : parseWith source options = .ok program) : ∀ e ∈ program.values, e.Trimmed := by
  intro e he
  obtain ⟨u, t, -, hvisible, hy⟩ := parse_values h e he
  exact expressionWith_trimmed (passesBlanks_spaced _) nestedExpression_trimmed u e t hy hvisible

end Expressions

end Grammar

end SoyTree
