import SoyTree.Proofs.Grammar.Lexical

/-! # Reading words and tags back

Names, attributes and tags that stand in front of a fitting character are read as they are
written, and rules for other tags fail there.
-/

namespace SoyTree

/-- What stands behind a name that is read as far as it goes: it goes on neither with the last
segment nor with one more segment. -/
structure NameEnds (rest : List Char) : Prop where
  word : ∀ c ∈ rest.head?, isWordPart c = false
  segment : ∀ c tail, rest = '.' :: c :: tail → isWordStart c = false

namespace Grammar

open Rule Cursor Concrete

variable {s t u : Cursor}

theorem Yields.markedAt {α β : Type} {p : Rule α} {v : α} {text : List Char}
    (build : Mark → α → β) (hp : p.Yields s v t) (hr : s.Reads text t) :
    (marked build p).Yields s (build (markAt s.position text) v) t := by
  refine yields_marked.2 ⟨v, hp, ?_⟩
  rw [hr.position]
  rfl

theorem char_yields {c : Char} (hr : s.Reads [c] t) : (char c).Yields s () t :=
  yields_char.2 hr

section Stops

theorem blanks_yields (b : Blanks) (hr : s.Reads b.chars t)
    (hstop : ∀ c ∈ t.rest.head?, blank.accepts c = false) : blanks.Yields s () t :=
  yields_blanks.2 ⟨b, hr, hstop⟩

theorem blanks1_yields (g : Gap) (hr : s.Reads g.chars t)
    (hstop : ∀ c ∈ t.rest.head?, blank.accepts c = false) : blanks1.Yields s () t :=
  yields_blanks1.2 ⟨g, hr, hstop⟩

theorem blank_of_isWordPart {c : Char} (h : isWordPart c = true) : blank.accepts c = false := by
  rw [← Bool.not_eq_true]
  intro hb
  rw [isWordPart_of_blank hb] at h
  cases h

/-- A word starts with a character for which a property of all words' first characters holds. -/
theorem word_head {P : Char → Prop} (w : Word) (hr : s.Reads w.chars t)
    (h : ∀ c, isWordStart c = true → P c) : ∀ c ∈ s.rest.head?, P c :=
  hr.forall_of_ne_nil w.ne_nil fun c hc => h c (w.head c hc)

theorem word_not_blank (w : Word) (hr : s.Reads w.chars t) :
    ∀ c ∈ s.rest.head?, blank.accepts c = false :=
  word_head w hr fun _ hc => blank_of_isWordPart (isWordPart_of_isWordStart hc)

end Stops

section Names

theorem identifier_yields (w : Word) (hr : s.Reads w.chars t)
    (hstop : ∀ c ∈ t.rest.head?, isWordPart c = false) :
    identifier.Yields s (String.ofList w.chars) t :=
  yields_identifier.2 ⟨w, hr, rfl, hstop⟩

theorem keyword_yields {name : String} (hw : isWord name.toList = true)
    (hr : s.Reads name.toList t) (hstop : ∀ c ∈ t.rest.head?, isWordPart c = false) :
    (keyword name).Yields s () t :=
  yields_keyword.2 ⟨hw, hr, hstop⟩

theorem closeTag_yields {name : String} (hw : isWord name.toList = true) (close : Blanks)
    (hr : s.Reads (closeText name close) t) : (closeTag name).Yields s () t :=
  (yields_closeTag hw).2 ⟨close, hr⟩

theorem command_yields {α : Type} {word : String} {rule : Rule α} {v : α}
    (hw : isWord word.toList = true) (gap : Gap)
    (hr : s.Reads ('\x7b' :: (word.toList ++ gap.chars)) u)
    (hstop : ∀ c ∈ u.rest.head?, blank.accepts c = false) (h : rule.Yields u v t) :
    (char '\x7b' >>= fun _ => keyword word >>= fun _ => blanks1 >>= fun _ => rule).Yields s v t := by
  obtain ⟨u₁, hopen, hr'⟩ := hr.split_cons
  obtain ⟨u₂, hword, hgap⟩ := hr'.split
  have hapart : ∀ c ∈ u₂.rest.head?, isWordPart c = false := by
    rw [hgap.rest]
    exact gap.forall_head _ fun c => isWordPart_of_blank
  exact (char_yields hopen).bind ((keyword_yields hw hword hapart).bind
    ((blanks1_yields gap hgap hstop).bind h))

/-- A character that neither continues a name nor adds a segment to it. -/
def endsName (c : Char) : Prop :=
  isWordPart c = false ∧ c ≠ '.'

theorem endsName_of_blank {c : Char} (h : blank.accepts c = true) : endsName c :=
  ⟨isWordPart_of_blank h, by rintro rfl; exact absurd h (by decide)⟩

theorem nameEnds_of_endsName {rest : List Char} (h : ∀ c ∈ rest.head?, endsName c) :
    NameEnds rest := by
  constructor
  · exact fun c hc => (h c hc).1
  · rintro c tail rfl
    exact absurd rfl (h '.' rfl).2

/-- Behind a template name there is neither a character of its last segment nor one more segment. -/
theorem templateName_ends {name : String} (h : templateName.Yields s name t) : NameEnds t.rest := by
  simp only [templateName, yields_bind, yields_sepBy1, yields_pure] at h
  obtain ⟨dot, u₁, -, _, u₂, ⟨first, u₃, more, hfirst, hmore, rfl⟩, rfl, rfl⟩ := h
  obtain ⟨w, -, -, hstop⟩ := yields_identifier.1 hfirst
  constructor
  · refine hmore.many_induction (P := fun s _ t => (∀ c ∈ s.rest.head?, isWordPart c = false) →
      ∀ c ∈ t.rest.head?, isWordPart c = false) (fun s hs => hs) ?_ hstop
    intro s name u names t hn ih _
    obtain ⟨_, u', -, hi⟩ := yields_bind.1 hn
    obtain ⟨w, -, -, hstop⟩ := yields_identifier.1 hi
    exact ih hstop
  · intro c tail hrest
    have hfails : (char '.' >>= fun _ => identifier).Fails t := by
      refine hmore.many_stop fun s name t hn => ?_
      obtain ⟨_, u', hc, hi⟩ := yields_bind.1 hn
      obtain ⟨w, hw, -, -⟩ := yields_identifier.1 hi
      exact ((yields_char.1 hc).trans hw).lt (by simp)
    have hdot : (char '.').Yields t () ⟨t.position.next '.', c :: tail⟩ :=
      yields_char.2 ⟨hrest, rfl⟩
    rcases fails_bind.1 hfails with hf | ⟨_, v, hy, hf⟩
    · exact absurd hf hdot.not_fails
    · obtain ⟨-, rfl⟩ := hdot.unique hy
      rw [← Bool.not_eq_true]
      intro hstart
      obtain ⟨word, v, hy⟩ : ∃ word v, identifier.Yields ⟨t.position.next '.', c :: tail⟩ word v := by
        have hrun : ∃ cs v, (run (.satisfying isWordPart)).Yields
            ⟨(t.position.next '.').next c, tail⟩ cs v := ⟨_, _, _, rfl⟩
        obtain ⟨cs, v, hrun⟩ := hrun
        have hone : (one (.satisfying isWordStart)).Yields ⟨t.position.next '.', c :: tail⟩ c
            ⟨(t.position.next '.').next c, tail⟩ := yields_one.2 ⟨hstart, rfl, rfl⟩
        exact ⟨_, v, hone.bind (hrun.bind (yields_pure.2 ⟨rfl, rfl⟩))⟩
      exact hy.not_fails hf

theorem NameEnds.of_append {rest tail : List Char} (h : NameEnds (rest ++ tail)) : NameEnds rest := by
  constructor
  · intro c hc
    refine h.word c ?_
    rw [List.head?_append, Option.mem_def.1 hc]
    rfl
  · rintro c tail' rfl
    exact h.segment c (tail' ++ tail) rfl

theorem NameEnds.append {a b : List Char} (ha : NameEnds a) (hb : ∀ c ∈ b.head?, endsName c) :
    NameEnds (a ++ b) := by
  refine ⟨forall_head?_append ha.word fun c hc => (hb c hc).1, fun c tail htail => ?_⟩
  match a with
  | [] => exact absurd rfl (hb '.' (by rw [show b = _ from htail]; rfl)).2
  | [d] =>
    have hb' : b = c :: tail := (List.cons.inj htail).2
    rw [← Bool.not_eq_true]
    intro hstart
    have hpart := (hb c (by rw [hb']; rfl)).1
    rw [isWordPart_of_isWordStart hstart] at hpart
    cases hpart
  | d :: e :: a =>
    obtain ⟨rfl, hrest⟩ := List.cons.inj htail
    obtain ⟨rfl, -⟩ := List.cons.inj hrest
    exact ha.segment e a rfl

theorem segment_fails (h : NameEnds s.rest) : (char '.' >>= fun _ => identifier).Fails s := by
  refine fails_iff.2 fun name t hy => ?_
  obtain ⟨_, u, hdot, hword⟩ := yields_bind.1 hy
  obtain ⟨w, hw, -, -⟩ := yields_identifier.1 hword
  obtain ⟨c, rest, hchars⟩ := List.exists_cons_of_ne_nil w.ne_nil
  have hs : s.rest = '.' :: c :: (rest ++ t.rest) := by
    rw [(yields_char.1 hdot).rest, hw.rest, hchars]
    rfl
  have hstart := w.head c (by simp [hchars])
  rw [h.segment c _ hs] at hstart
  cases hstart

theorem dottedRest_yields (ws : List Word)
    (hr : s.Reads (ws.flatMap fun w => '.' :: w.chars) t) (hstop : NameEnds t.rest) :
    (many (char '.' >>= fun _ => identifier)).Yields s
      (ws.map fun w => String.ofList w.chars) t := by
  induction ws generalizing s with
  | nil =>
    obtain rfl := hr.eq_of_nil
    exact Yields.many_nil (segment_fails hstop)
  | cons w ws ih =>
    obtain ⟨u, hw, hrest⟩ := hr.split
    obtain ⟨v, hdot, hword⟩ := hw.split_cons
    have hend : ∀ c ∈ u.rest.head?, isWordPart c = false := by
      refine hrest.forall_head ?_ hstop.word
      cases ws with
      | nil => simp
      | cons w' ws =>
        rintro c (_ | _)
        decide
    refine Yields.many_cons ?_ (hw.lt (by simp)) (ih hrest)
    exact (char_yields hdot).bind (identifier_yields w hword hend)

theorem templateName_yields (n : Name) (hr : s.Reads n.text t)
    (hstop : NameEnds t.rest) : templateName.Yields s n.value t := by
  obtain ⟨u, hdot, hr⟩ := hr.split
  obtain ⟨v, hfirst, hmore⟩ := hr.split
  have hend : ∀ c ∈ v.rest.head?, isWordPart c = false := by
    refine hmore.forall_head ?_ hstop.word
    cases n.more with
    | nil => simp
    | cons w ws =>
      rintro c (_ | _)
      decide
  have hlead : ∃ o, (maybe (char '.')).Yields s o u ∧ o.isSome = n.relative := by
    cases hn : n.relative with
    | false =>
      simp only [hn] at hdot
      obtain rfl := hdot.eq_of_nil
      refine ⟨none, yields_maybe.2 (Or.inr ⟨rfl, rfl, fails_char.2 fun h => ?_⟩), rfl⟩
      exact word_head (P := fun c => c ≠ '.') n.first hfirst
        (fun c hc h => by rw [h] at hc; exact absurd hc (by decide)) '.' h rfl
    | true =>
      simp only [hn] at hdot
      exact ⟨some (), yields_maybe.2 (Or.inl ⟨(), rfl, yields_char.2 hdot⟩), rfl⟩
  obtain ⟨o, ho, hsome⟩ := hlead
  simp only [templateName, yields_bind, yields_sepBy1, yields_pure]
  refine ⟨o, u, ho, _, t, ⟨_, v, _, identifier_yields n.first hfirst hend,
    dottedRest_yields n.more hmore hstop, rfl⟩, ?_, rfl⟩
  rw [hsome]
  exact (name_value n).symm

theorem name_not_blank (n : Name) (hr : s.Reads n.text t) :
    ∀ c ∈ s.rest.head?, blank.accepts c = false := by
  obtain ⟨u, hdot, hr⟩ := hr.split
  obtain ⟨v, hfirst, -⟩ := hr.split
  refine hdot.forall_head ?_ (word_not_blank n.first hfirst)
  cases n.relative with
  | false => simp
  | true =>
    rintro c (_ | _)
    decide

end Names

section Attributes

theorem attributePair_yields (a : Pair) (hr : s.Reads a.text t) :
    attributePair.Yields s (a.tree s.position) t := by
  obtain ⟨u₁, hn, hrest⟩ := hr.split
  obtain ⟨u₂, he, hrest'⟩ := hrest.split_cons
  obtain ⟨u₃, hq, hv⟩ := hrest'.split_cons
  refine Yields.markedAt (fun mark (x : List Char × List Char) =>
    (⟨mark, String.ofList x.1, String.ofList x.2⟩ : Attribute)) (v := (a.name, a.value)) ?_ hr
  simp only [yields_bind, yields_run1, yields_char, yields_rawThrough_char, yields_pure,
    CharClass.satisfying]
  exact ⟨a.name, u₁, ⟨a.nonempty, hn, a.plain, he.forall_cons (by decide)⟩, (), u₂, he, (), u₃, hq,
    a.value, t, ⟨a.closed, hv⟩, rfl, rfl⟩

theorem attrChar_not_blank {c : Char} (h : (c.isAlphanum || c == '_' || c == '-') = true) :
    blank.accepts c = false := by
  rw [← Bool.not_eq_true]
  intro hb
  rcases eq_of_blank hb with rfl | rfl | rfl | rfl <;> exact absurd h (by decide)

theorem pair_head {P : Char → Prop} (a : Pair) (hr : s.Reads a.text t)
    (h : ∀ c, (c.isAlphanum || c == '_' || c == '-') = true → P c) : ∀ c ∈ s.rest.head?, P c := by
  obtain ⟨u, hname, -⟩ := Reads.split (a := a.name) hr
  exact hname.forall_of_ne_nil a.nonempty fun c hc => h c (a.plain c (List.mem_of_mem_head? hc))

theorem attributes_yields (attrs : List Attr) (hr : s.Reads (attrsText attrs) t)
    (hstop : (blanks1 >>= fun _ => attributePair).Fails t) :
    attributes.Yields s (attrsTree attrs s.position) t := by
  induction attrs generalizing s with
  | nil =>
    obtain rfl := hr.eq_of_nil
    exact Yields.many_nil hstop
  | cons a rest ih =>
    obtain ⟨u, ha, hrest⟩ := Reads.split (a := a.text) hr
    obtain ⟨v, hg, hp⟩ := ha.split
    have hnext : ∀ c ∈ v.rest.head?, blank.accepts c = false :=
      pair_head a.pair hp fun _ => attrChar_not_blank
    have htree : a.tree s.position = a.pair.tree v.position := by
      rw [hg.position]
      rfl
    have hne : a.text ≠ [] := by
      simp [Attr.text, a.gap.nonempty]
    rw [attrsTree, htree, ← ha.position]
    exact Yields.many_cons ((blanks1_yields a.gap hg hnext).bind (attributePair_yields a.pair hp))
      (ha.lt hne) (ih hrest)

theorem attributes_stop (b : Blanks) (hr : t.Reads (b.chars ++ ['\x7d']) u) :
    (blanks1 >>= fun _ => attributePair).Fails t := by
  obtain ⟨v, hb, hc⟩ := hr.split
  have hpair : attributePair.Fails v := by
    refine fails_marked.2 (Fails.bind (fails_run1.2 (hc.forall_cons ?_)))
    decide
  by_cases hne : b.chars = []
  · rw [hne] at hb
    obtain rfl := hb.eq_of_nil
    exact Fails.bind (fails_blanks1.2 (hc.forall_cons (by decide)))
  · exact Fails.bind_later (blanks1_yields ⟨b, hne⟩ hb (hc.forall_cons (by decide))) hpair

end Attributes

end Grammar

end SoyTree
