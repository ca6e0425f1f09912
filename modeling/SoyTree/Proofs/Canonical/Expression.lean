import SoyTree.Proofs.Canonical.Lexical
import SoyTree.Proofs.Grammar.Expression

/-! # Reading simple values back

References and string literals in front of the end of their tag are read as such and never as raw
text.
-/

namespace SoyTree

/-- A value that is a reference or a string literal. -/
def Concrete.Expr.Simple {inside : Bool} : Concrete.Expr inside → Prop
  | .reference _ => True
  | .string _ => True
  | _ => False

namespace Grammar

open Rule Cursor Concrete

variable {s t u : Cursor} {e : SoyTree.Expr} {stop : Rule Unit} {nested : Rule SoyTree.Expr}

section Strings

theorem stringChar_yields (c : StringChar) (hr : s.Reads c.text t) :
    stringChar.Yields s c.value t := by
  cases c with
  | plain c free =>
    have haccepts : (CharClass.noneOf ['\\', '\'']).accepts c = true := by
      simp [CharClass.noneOf, free.1, free.2]
    exact yields_either.2 (Or.inl (yields_one.2 ⟨haccepts, hr⟩))
  | escaped c =>
    obtain ⟨u, hslash, hc⟩ := hr.split_cons
    have hplain : (one (.noneOf ['\\', '\''])).Fails s :=
      fails_one.2 (hslash.forall_cons (by decide))
    refine yields_either.2 (Or.inr ⟨hplain, (char_yields hslash).bind ?_⟩)
    exact (yields_anyChar.2 hc).bind (yields_pure.2 ⟨rfl, rfl⟩)

theorem stringChars_yields (cs : List StringChar) (hr : s.Reads (cs.flatMap StringChar.text) t)
    (hstop : t.rest.head? = some '\'') :
    (many stringChar).Yields s (cs.map StringChar.value) t := by
  induction cs generalizing s with
  | nil =>
    obtain rfl := hr.eq_of_nil
    refine Yields.many_nil (fails_either.2 ⟨fails_one.2 ?_, Fails.bind (fails_char.2 ?_)⟩)
    · rw [hstop]
      rintro c (_ | _)
      decide
    · rw [hstop]
      decide
  | cons c cs ih =>
    obtain ⟨u, hc, hrest⟩ := Reads.split (a := c.text) hr
    have hne : c.text ≠ [] := by cases c <;> simp [StringChar.text]
    exact Yields.many_cons (stringChar_yields c hc) (hc.lt hne) (ih hrest)

theorem stringLiteral_yields (q : Quoted) (hr : s.Reads q.text t) :
    stringLiteral.Yields s (q.tree s.position) t := by
  obtain ⟨u, hopen, hrest⟩ := hr.split_cons
  obtain ⟨v, hchars, hclose⟩ := hrest.split
  refine Yields.markedAt (fun mark value => (⟨mark, String.ofList value⟩ : Literal))
    (v := q.chars.map StringChar.value) ?_ hr
  refine (char_yields hopen).bind ((stringChars_yields q.chars hchars hclose.head_cons).bind ?_)
  exact (char_yields hclose).bind (yields_pure.2 ⟨rfl, rfl⟩)

end Strings

section Operands

theorem reference_yields (w : Word) (hr : s.Reads ('$' :: w.chars) t)
    (hstop : ∀ c ∈ t.rest.head?, isWordPart c = false) :
    reference.Yields s (.reference (markAt s.position ('$' :: w.chars)) (String.ofList w.chars)) t := by
  obtain ⟨u, hdollar, hname⟩ := Reads.split_cons hr
  refine Yields.markedAt SoyTree.Expr.reference (v := String.ofList w.chars) ?_ hr
  exact (char_yields hdollar).bind (identifier_yields w hname hstop)

theorem reference_fails (h : s.rest.head? ≠ some '$') : reference.Fails s :=
  fails_marked.2 (Fails.bind (fails_char.2 h))

/-- A form of operand that is told apart by its first characters and reaches up to the stop. -/
theorem operand_yields (before : List (Rule SoyTree.Expr)) {after : List (Rule SoyTree.Expr)}
    {form : Rule SoyTree.Expr}
    (hsplit : forms nested = before ++ form :: after)
    (hbefore : ∀ q ∈ before, q.Fails s) (hform : form.Yields s e t)
    (hstop : ∃ d u, stop.Yields t d u) : (operand stop nested).Yields s e t := by
  obtain ⟨d, u, hstop⟩ := hstop
  have hchoice : (choice (forms nested)).Yields s e t := hsplit ▸ Yields.choice hbefore hform
  exact yields_either.2 (Or.inl (hchoice.bind
    ((yields_ahead.2 ⟨rfl, u, hstop⟩).bind (yields_pure.2 ⟨rfl, rfl⟩))))

theorem expressionWith_yields
    (hoperand : (operand (either question stop) nested).Yields s e t)
    (hquestion : question.Fails t) (hstop : ∃ d u, stop.Yields t d u) :
    (expressionWith stop nested).Yields s e t := by
  obtain ⟨d, u, hstop⟩ := hstop
  unfold Yields
  rw [expressionWith, recursive_eq]
  refine yields_either.2 (Or.inl (Yields.bind (v := e) (t := t)
    (yields_marked.2 ⟨(e, none), ?_, rfl⟩) ?_))
  · exact hoperand.bind ((yields_maybe.2 (Or.inr ⟨rfl, rfl, Fails.bind hquestion⟩)).bind
      (yields_pure.2 ⟨rfl, rfl⟩))
  · exact (yields_ahead.2 ⟨rfl, u, hstop⟩).bind (yields_pure.2 ⟨rfl, rfl⟩)

end Operands

section Values

theorem question_fails (b : Blanks) {c : Char} {rest : List Char} (hblank : blank.accepts c = false)
    (hc : c ≠ '?') (hr : s.Reads (b.chars ++ c :: rest) t) : question.Fails s := by
  obtain ⟨u, hb, hrest⟩ := hr.split
  refine Fails.bind_later (blanks_yields b hb (hrest.forall_cons hblank)) ?_
  refine fails_void.2 (Fails.bind (fails_char.2 ?_))
  rw [hrest.head_cons]
  exact fun h => hc (Option.some.inj h)

/-- A simple value in front of the end of its tag is read as it is written. -/
theorem expression_yields (value : Concrete.Expr false) (hsimple : value.Simple) (gap : Blanks)
    (hr : s.Reads value.text t) (hend : t.Reads (gap.chars ++ ['/', '\x7d']) u) :
    (expression slashClose).Yields s (value.tree s.position) t := by
  have hquestion : question.Fails t := question_fails gap (by decide) (by decide) hend
  have hclose : ∃ d u, slashClose.Yields t d u := ⟨(), u, yields_slashClose.2 ⟨gap, hend⟩⟩
  have hstop : ∃ d u, (either question slashClose).Yields t d u := by
    obtain ⟨d, u, hclose⟩ := hclose
    exact ⟨d, u, yields_either.2 (Or.inr ⟨hquestion, hclose⟩)⟩
  refine expressionWith_yields ?_ hquestion hclose
  match value, hsimple with
  | .reference name, _ =>
    have hapart : ∀ c ∈ t.rest.head?, isWordPart c = false := by
      obtain ⟨w, hgap, hslash⟩ := hend.split
      exact hgap.forall_head gap.apart (hslash.forall_cons (by decide))
    exact operand_yields [] rfl (by simp) (reference_yields name hr hapart) hstop
  | .string literal, _ =>
    have hreference : reference.Fails s := reference_fails (by
      rw [Reads.head_cons (c := '\'') hr]
      decide)
    refine operand_yields [reference] rfl (by simpa using hreference) ?_ hstop
    exact yields_marked.2 ⟨_, stringLiteral_yields literal hr, rfl⟩

end Values

end Grammar

end SoyTree
