import SoyTree.Proofs.Path
import SoyTree.Proofs.Rule.Repetition

/-! # Outcomes of the rules for words and tags

Each rule is described by the written piece that it moves over and by what may stand behind it.
-/

namespace SoyTree

open Rule Cursor

/-- The value is the tree of a written piece that stands between the cursors. -/
def Concrete.Spells {α γ : Type} (text : γ → List Char) (tree : γ → Position → α) (s : Cursor)
    (v : α) (t : Cursor) : Prop :=
  ∃ c, s.Reads (text c) t ∧ v = tree c s.position

namespace Grammar

open Concrete

variable {s t : Cursor} {d : Unit} {α : Type}

section Blanks

theorem yields_blanks : blanks.Yields s d t ↔
    ∃ b : Blanks, s.Reads b.chars t ∧ ∀ c ∈ t.rest.head?, blank.accepts c = false := by
  rw [blanks, yields_void]
  simp only [yields_run]
  constructor
  · rintro ⟨cs, hr, hb, hstop⟩
    exact ⟨⟨cs, hb⟩, hr, hstop⟩
  · rintro ⟨b, hr, hstop⟩
    exact ⟨b.chars, hr, b.blank, hstop⟩

theorem yields_blanks1 : blanks1.Yields s d t ↔
    ∃ g : Gap, s.Reads g.chars t ∧ ∀ c ∈ t.rest.head?, blank.accepts c = false := by
  rw [blanks1, yields_void]
  simp only [yields_run1]
  constructor
  · rintro ⟨cs, hne, hr, hb, hstop⟩
    exact ⟨⟨⟨cs, hb⟩, hne⟩, hr, hstop⟩
  · rintro ⟨g, hr, hstop⟩
    exact ⟨g.chars, g.nonempty, hr, g.blank, hstop⟩

theorem fails_blanks1 : blanks1.Fails s ↔ ∀ c ∈ s.rest.head?, blank.accepts c = false := by
  rw [blanks1, fails_void, fails_run1]

theorem yields_spaced {p : Rule α} : (spaced p).Yields s d t ↔
    ∃ (b : Blanks) (u : Cursor) (v : α), s.Reads b.chars u ∧
      (∀ c ∈ u.rest.head?, blank.accepts c = false) ∧ p.Yields u v t := by
  simp only [spaced, yields_bind, yields_void, yields_blanks]
  constructor
  · rintro ⟨-, u, ⟨b, hr, hstop⟩, v, hp⟩
    exact ⟨b, u, v, hr, hstop, hp⟩
  · rintro ⟨b, u, v, hr, hstop, hp⟩
    exact ⟨(), u, ⟨b, hr, hstop⟩, v, hp⟩

theorem yields_padded_char {c : Char} (h : (padded (char c)).Yields s d t) :
    ∃ b b' : Blanks, s.Reads (b.chars ++ c :: b'.chars) t := by
  simp only [padded, yields_bind, yields_blanks, yields_char] at h
  obtain ⟨-, u, ⟨b, hb, -⟩, -, u', hc, b', hb', -⟩ := h
  exact ⟨b, b', hb.trans (hc.trans hb')⟩

end Blanks

section Words

/-- The longest identifier at the start of a text, empty if there is none. -/
def leadWord : List Char → List Char
  | [] => []
  | c :: rest => if isWordStart c then c :: rest.takeWhile isWordPart else []

theorem leadWord_append {w rest : List Char} (hw : isWord w = true)
    (hr : ∀ c ∈ rest.head?, isWordPart c = false) : leadWord (w ++ rest) = w := by
  cases w with
  | nil => cases hw
  | cons c w =>
    simp only [isWord, Bool.and_eq_true, List.all_eq_true] at hw
    simp only [List.cons_append, leadWord, hw.1, if_true, takeWhile_of_stop hw.2 hr]

theorem yields_identifier {name : String} : identifier.Yields s name t ↔
    ∃ w : Word, s.Reads w.chars t ∧ name = String.ofList w.chars ∧
      ∀ c ∈ t.rest.head?, isWordPart c = false := by
  simp only [identifier, yields_bind, yields_one, yields_run, yields_pure, CharClass.satisfying]
  constructor
  · rintro ⟨c, u, ⟨hc, hr⟩, cs, u', ⟨hr', hcs, hstop⟩, rfl, rfl⟩
    refine ⟨⟨c :: cs, ?_⟩, hr.trans hr', rfl, hstop⟩
    simp only [isWord, hc, Bool.true_and, List.all_eq_true]
    exact hcs
  · rintro ⟨⟨w, hw⟩, hr, rfl, hstop⟩
    cases w with
    | nil => cases hw
    | cons c cs =>
      simp only [isWord, Bool.and_eq_true, List.all_eq_true] at hw
      exact ⟨c, ⟨s.position.next c, cs ++ t.rest⟩, ⟨hw.1, hr.rest, rfl⟩, cs, t,
        ⟨⟨rfl, hr.position⟩, hw.2, hstop⟩, rfl, rfl⟩

theorem yields_keyword {name : String} : (keyword name).Yields s d t ↔
    isWord name.toList = true ∧ s.Reads name.toList t ∧
      ∀ c ∈ t.rest.head?, isWordPart c = false := by
  simp only [keyword, yields_check, yields_identifier]
  constructor
  · rintro ⟨-, ⟨w, hr, rfl, hstop⟩, h⟩
    split at h
    · subst name
      rw [String.toList_ofList]
      exact ⟨w.isWord, hr, hstop⟩
    · cases h
  · rintro ⟨hw, hr, hstop⟩
    exact ⟨name, ⟨⟨name.toList, hw⟩, hr, by simp, hstop⟩, by simp⟩

theorem fails_keyword {name : String} (h : leadWord s.rest ≠ name.toList) :
    (keyword name).Fails s := by
  refine fails_iff.2 fun d t hy => h ?_
  obtain ⟨hw, hr, hstop⟩ := yields_keyword.1 hy
  rw [hr.rest, leadWord_append hw hstop]

theorem yields_commandWord {names : List String} : (commandWord names).Yields s d t ↔
    ∃ w ∈ names, (keyword w).Yields s d t := by
  simp only [commandWord, keyword, yields_check]
  constructor
  · rintro ⟨w, hw, h⟩
    split at h
    · exact ⟨w, ‹_›, w, hw, by simp⟩
    · cases h
  · rintro ⟨w, hw, w', hw', h⟩
    split at h
    · subst w
      exact ⟨w', hw', by simp [hw]⟩
    · cases h

end Words

section Tags

theorem yields_openTag {names : List String} : (openTag names).Yields s d t ↔
    ∃ w ∈ names, isWord w.toList = true ∧
      ∃ args : TagArgs, s.Reads (tagText w args.chars) t := by
  simp only [openTag, yields_bind, yields_char, yields_commandWord, yields_keyword, yields_void,
    yields_rawThrough_char]
  constructor
  · rintro ⟨-, u₁, hb, -, u₂, ⟨w, hw, hword, hr, hstop⟩, args, hne, hr'⟩
    refine ⟨w, hw, hword, ⟨⟨args, hne⟩, fun c hc => hstop c ?_⟩, hb.trans (hr.trans hr')⟩
    rw [hr'.rest]
    cases args with
    | nil => cases hc
    | cons c' args => exact hc
  · rintro ⟨w, hw, hword, args, hr⟩
    obtain ⟨u₁, hb, hr⟩ := hr.split_cons
    obtain ⟨u₂, hr, hr'⟩ := hr.split
    refine ⟨(), u₁, hb, (), u₂, ⟨w, hw, hword, hr, fun c hc => ?_⟩, args.chars, args.open_, hr'⟩
    rw [hr'.head?, List.append_assoc] at hc
    exact forall_head?_append args.apart (by simp; decide) c hc

theorem yields_closeTag {name : String} (hw : isWord name.toList = true) :
    (closeTag name).Yields s d t ↔ ∃ b : Blanks, s.Reads (closeText name b) t := by
  simp only [closeTag, yields_bind, yields_text, yields_keyword, yields_blanks, yields_char]
  constructor
  · rintro ⟨-, u₁, hb, -, u₂, ⟨-, hr, -⟩, -, u₃, ⟨b, hb', -⟩, hc⟩
    exact ⟨b, hb.trans (hr.trans (hb'.trans hc))⟩
  · rintro ⟨b, hr⟩
    obtain ⟨u₁, hb, hr⟩ := Reads.split (a := "\x7b/".toList) hr
    obtain ⟨u₂, hn, hr⟩ := hr.split
    obtain ⟨u₃, hb', hc⟩ := hr.split
    refine ⟨(), u₁, hb, (), u₂, ⟨hw, hn, fun c h => ?_⟩, (), u₃, ⟨b, hb', fun c h => ?_⟩, hc⟩
    · rw [hr.head?, List.append_assoc] at h
      exact forall_head?_append b.apart (by simp; decide) c h
    · rw [hc.head?] at h
      obtain rfl : '\x7d' = c := by simpa using h
      decide

end Tags

section Names

theorem name_value (n : Name) :
    (if n.relative then "." else "") ++
        Path.join (n.segments.map fun w => String.ofList w.chars) = n.value := by
  obtain ⟨relative, first, more⟩ := n
  rw [Name.segments, List.map_cons, Path.join_eq, Name.value, Name.text]
  apply String.toList_injective
  cases relative <;> simp [List.flatMap_map]

theorem dottedRest_spelled {names : List String}
    (h : (many (char '.' >>= fun _ => identifier)).Yields s names t) :
    Spells (fun ws : List Word => ws.flatMap fun w => '.' :: w.chars)
      (fun ws _ => ws.map fun w => String.ofList w.chars) s names t := by
  refine h.many_induction (fun s => ⟨[], .refl s, rfl⟩) ?_
  rintro s name u names t hn ⟨ws, hr, rfl⟩
  obtain ⟨_, u', hc, hi⟩ := yields_bind.1 hn
  obtain ⟨w, hw, rfl, -⟩ := yields_identifier.1 hi
  exact ⟨w :: ws, ((yields_char.1 hc).trans hw).trans hr, rfl⟩

theorem templateName_spelled {name : String} (h : templateName.Yields s name t) :
    Spells Name.text (fun n _ => n.value) s name t := by
  simp only [templateName, yields_bind, yields_maybe, yields_char, yields_sepBy1, yields_pure] at h
  obtain ⟨dot, u₁, hdot, -, u₂, ⟨first, u₃, more, hfirst, hmore, rfl⟩, rfl, rfl⟩ := h
  obtain ⟨w, hw, rfl, -⟩ := yields_identifier.1 hfirst
  obtain ⟨ws, hws, rfl⟩ := dottedRest_spelled hmore
  refine ⟨⟨dot.isSome, w, ws⟩, ?_, name_value ⟨dot.isSome, w, ws⟩⟩
  rcases hdot with ⟨-, rfl, hd⟩ | ⟨rfl, rfl, -⟩
  · exact hd.trans (hw.trans hws)
  · exact hw.trans hws

end Names

section Attributes

theorem attributePair_spelled {a : Attribute} (h : attributePair.Yields s a t) :
    Spells Pair.text Pair.tree s a t := by
  simp only [attributePair, yields_marked, yields_bind, yields_run1, yields_char, yields_pure,
    yields_rawThrough_char, CharClass.satisfying] at h
  obtain ⟨-, ⟨name, u₁, ⟨hne, hn, hplain, -⟩, -, u₂, he, -, u₃, hq, value, u₄, ⟨hv, hr⟩, rfl, rfl⟩,
    rfl⟩ := h
  have hr := hn.trans (he.trans (hq.trans hr))
  refine ⟨⟨name, hne, hplain, value, hv⟩, hr, ?_⟩
  rw [hr.position]
  rfl

theorem attributes_spelled {as : List Attribute} (h : attributes.Yields s as t) :
    Spells attrsText attrsTree s as t := by
  refine h.many_induction (fun s => ⟨[], .refl s, rfl⟩) ?_
  rintro s a u as t ha ⟨attrs, hr, rfl⟩
  obtain ⟨_, u', hg, hp⟩ := yields_bind.1 ha
  obtain ⟨gap, hg, -⟩ := yields_blanks1.1 hg
  obtain ⟨pair, hpair, rfl⟩ := attributePair_spelled hp
  refine ⟨⟨gap, pair⟩ :: attrs, (hg.trans hpair).trans hr, ?_⟩
  rw [(hg.trans hpair).position, hg.position]
  rfl

end Attributes

end Grammar

end SoyTree
