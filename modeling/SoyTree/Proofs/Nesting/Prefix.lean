import SoyTree.Proofs.Nesting.Bound

/-! # The nesting of a cut-off text

A text that is cut off outside of tags goes no deeper than the whole. The scan of the prefix agrees
with the scan of the whole up to a literal block, which the cut may leave without its end.
-/

namespace SoyTree.Nesting

open Concrete

/-- A text in which no tag has been opened and not ended, though a literal block may have been. -/
inductive EndsOutside : List Char → Prop where
  | nil : EndsOutside []
  | literal (gap : Blanks) (content : LiteralText) {x : List Char} (h : x <+: content.chars) :
      EndsOutside (literalHead gap ++ x)
  | plain {y z : List Char} (hy : '\x7b' ∉ y) (h : EndsOutside z) : EndsOutside (y ++ z)
  | tag {a z : List Char} (ha : a.getLast? = some '\x7d') (h : EndsOutside z) : EndsOutside (a ++ z)

variable {a b x y z text content rest : List Char} {n limit : Nat}

section Search

theorem exists_of_indexOf? {needle : List Char} (h : indexOf? needle text = some n) :
    ∃ a b, text = a ++ (needle ++ b) ∧ a.length = n := by
  induction text generalizing n with
  | nil => cases h
  | cons c text ih =>
    rw [indexOf?] at h
    split at h
    · rename_i hp
      cases h
      obtain ⟨b, hb⟩ := List.isPrefixOf_iff_prefix.1 hp
      exact ⟨[], b, hb.symm, rfl⟩
    · obtain ⟨m, hm, rfl⟩ := Option.map_eq_some_iff.1 h
      obtain ⟨a, b, rfl, ha⟩ := ih hm
      exact ⟨c :: a, b, rfl, by simp [ha]⟩

theorem indexOf?_append_of_some {needle : List Char} (h : indexOf? needle text = some n)
    (rest : List Char) : indexOf? needle (text ++ rest) = some n := by
  induction text generalizing n with
  | nil => cases h
  | cons c text ih =>
    rw [List.cons_append, indexOf?]
    rw [indexOf?] at h
    split at h
    · rename_i hp
      have hp' : needle.isPrefixOf (c :: (text ++ rest)) = true :=
        List.isPrefixOf_iff_prefix.2 ((List.isPrefixOf_iff_prefix.1 hp).trans ⟨rest, rfl⟩)
      rw [if_pos hp']
      exact h
    · rename_i hp
      obtain ⟨m, hm, rfl⟩ := Option.map_eq_some_iff.1 h
      have hlong : needle.length ≤ text.length := by
        obtain ⟨x, y, rfl, -⟩ := exists_of_indexOf? hm
        simp only [List.length_append]
        omega
      have hp' : ¬ needle.isPrefixOf (c :: (text ++ rest)) = true := by
        intro hp'
        refine hp (List.isPrefixOf_iff_prefix.2 ?_)
        exact List.prefix_of_prefix_length_le (List.isPrefixOf_iff_prefix.1 hp')
          (List.prefix_append (c :: text) rest) (Nat.le_succ_of_le hlong)
      rw [if_neg hp', ih hm]
      rfl

/-- Where the end of a literal block stands, it stands behind what has no opening brace. -/
theorem infix_of_plain (hy : '\x7b' ∉ y) (h : literalClose <:+: y ++ z) : literalClose <:+: z := by
  obtain ⟨a, b, h⟩ := h
  rw [List.append_assoc] at h
  rcases List.append_eq_append_iff.1 h with ⟨w, hw, hz⟩ | ⟨w, -, hz⟩
  · cases w with
    | nil => exact ⟨[], b, by simpa using hz⟩
    | cons c w =>
      obtain rfl : '\x7b' = c := Option.some.inj (congrArg List.head? hz)
      exact absurd (by simp [hw]) hy
  · exact ⟨w, b, by rw [List.append_assoc]; exact hz.symm⟩

end Search

section Steps

def Tag.length : Tag → Nat
  | .closing _ length => length
  | .opening _ _ length => length

def Tag.depth (d : Nat) : Tag → Nat
  | .closing block _ => if block then d - 1 else d
  | .opening deeper _ _ => if deeper then d + 1 else d

def Tag.levels (offset d : Nat) : Tag → List TagLevel
  | .closing _ _ => []
  | .opening _ reach _ => [⟨offset, d + reach⟩]

theorem levelsFrom_tag {tag : Tag} (h : readTag rest = tag) (offset d : Nat) :
    levelsFrom offset d 0 ('\x7b' :: rest) =
      tag.levels offset d ++ levelsFrom (offset + 1) (tag.depth d) tag.length rest := by
  cases tag with
  | closing block length => exact levelsFrom_closing h offset d
  | opening deeper reach length => exact levelsFrom_opening h offset d

theorem levelsFrom_passed {offset d pass : Nat} (h : text.length ≤ pass) :
    levelsFrom offset d pass text = [] := by
  induction text generalizing offset pass with
  | nil => rfl
  | cons c text ih =>
    obtain ⟨pass, rfl⟩ : ∃ p, pass = p + 1 := ⟨pass - 1, by simp only [List.length_cons] at h; omega⟩
    exact ih (by simpa using h)

structure OpensLiteral (content : List Char) : Prop where
  head : content.head? ≠ some '/'
  last : content.getLast? ≠ some '/'
  word : tagWord content = "literal"

theorem readTag_alone (hopen : '\x7d' ∉ content) (h : ¬ OpensLiteral content) :
    ∃ tag : Tag, tag.length = content.length + 1 ∧
      ∀ rest, readTag (content ++ '\x7d' :: rest) = tag := by
  by_cases hhead : content.head? = some '/'
  · obtain ⟨content, rfl⟩ : ∃ c, content = '/' :: c := by
      cases content with
      | nil => cases hhead
      | cons c content => exact ⟨content, by simpa using hhead⟩
    exact ⟨_, by simp [Tag.length], fun rest =>
      readTag_closing fun hc => hopen (List.mem_cons_of_mem _ hc)⟩
  · refine ⟨_, rfl, fun rest => readTag_opening hopen hhead fun hblock hword => h ⟨hhead, ?_, hword⟩⟩
    simp only [opensBlock, Bool.and_eq_true, Bool.not_eq_true', beq_eq_false_iff_ne] at hblock
    exact hblock.2

/-- A literal block reaches the same level, whether its end is found or not. -/
theorem readTag_opensLiteral (hopen : '\x7d' ∉ content) (h : OpensLiteral content) (rest : List Char) :
    readTag (content ++ '\x7d' :: rest) = .opening false (bracketDepth content + 1)
      (match indexOf? literalClose ('\x7d' :: rest) with
        | some n => content.length + n + literalClose.length
        | none => (content ++ '\x7d' :: rest).length) := by
  cases hn : indexOf? literalClose ('\x7d' :: rest) with
  | some n => exact readTag_literal hopen h.head h.last h.word hn
  | none =>
    have hslash : (content ++ '\x7d' :: rest).head? ≠ some '/' := by
      cases content with
      | nil => simp
      | cons c content => exact h.head
    have hblock : blockWords.contains "literal" = true := by decide
    have hopened : (content.getLast? == some '/') = false := by simpa using h.last
    simp only [readTag, hslash, if_false, tag_word, tag_content hopen, tag_behind hopen, h.word,
      hblock, hopened, hn, List.isEmpty_cons, Bool.not_false, Bool.and_self, Bool.and_false, if_true,
      beq_self_eq_true]

end Steps

section Ends

/-- What stands behind the last tag, from a literal block on whose end is missing: it holds no end of
such a block, and the levels that are met in it are met first if more text follows. -/
structure Tail (z : List Char) : Prop where
  unended : ¬ literalClose <:+: z
  levels : ∀ offset d rest, levelsFrom offset d 0 z <+: levelsFrom offset d 0 (z ++ rest)

theorem tail_nil : Tail [] where
  unended h := by
    have hne : literalClose ≠ [] := by decide
    exact hne (List.eq_nil_of_infix_nil h)
  levels _ _ _ := List.nil_prefix

theorem Tail.plain (hy : '\x7b' ∉ y) (hz : Tail z) : Tail (y ++ z) where
  unended h := hz.unended (infix_of_plain hy h)
  levels offset d rest := by
    rw [List.append_assoc, levelsFrom_plain hy, levelsFrom_plain hy]
    exact hz.levels _ d rest

theorem literal_unended (content : LiteralText) (h : x <+: content.chars) :
    ¬ literalClose <:+: x := by
  intro hx
  obtain ⟨a, b, hab⟩ := hx.trans h.isInfix
  refine content.open_ a noBlanks b ?_
  rw [closeText_literal rfl]
  exact hab.symm

theorem tail_literal (gap : Blanks) (content : LiteralText) (h : x <+: content.chars) :
    Tail (literalHead gap ++ x) := by
  obtain ⟨⟨hopen, hlast⟩, hword⟩ := literalTag gap
  have hliteral : OpensLiteral ("literal".toList ++ gap.chars) :=
    ⟨blockWord_head (by decide) gap.chars, hlast, hword⟩
  have htext : ∀ y, literalHead gap ++ y =
      '\x7b' :: ("literal".toList ++ gap.chars ++ '\x7d' :: y) := by
    simp [literalHead]
  have hx : ¬ literalClose <:+: '\x7d' :: x := fun hx =>
    literal_unended content h (infix_of_plain (y := ['\x7d']) (by decide) hx)
  constructor
  · rw [htext]
    intro hclose
    rcases List.infix_cons_iff.1 hclose with hclose | hclose
    · obtain ⟨rest, hrest⟩ := hclose
      have hslash : '/' = 'l' := (List.cons.inj (List.cons.inj hrest).2).1
      exact absurd hslash (by decide)
    · refine hx (infix_of_plain ?_ hclose)
      rw [List.mem_append]
      rintro (hc | hc)
      · exact absurd hc (by decide)
      · exact absurd (gap.blank _ hc) (by decide)
  · intro offset d rest
    have hn : indexOf? literalClose ('\x7d' :: x) = none := by
      by_contra hn
      obtain ⟨n, hn⟩ := Option.ne_none_iff_exists'.1 hn
      obtain ⟨a, b, hab, -⟩ := exists_of_indexOf? hn
      exact hx ⟨a, b, by rw [hab, List.append_assoc]⟩
    rw [List.append_assoc, htext, htext, levelsFrom_tag (readTag_opensLiteral hopen hliteral x),
      levelsFrom_tag (readTag_opensLiteral hopen hliteral (x ++ rest)), hn]
    simp only [Tag.length, levelsFrom_passed (Nat.le_refl _), List.append_nil]
    exact List.prefix_append _ _

theorem EndsOutside.split (h : EndsOutside text) :
    ∃ a z, text = a ++ z ∧ (∀ c ∈ a.getLast?, c = '\x7d') ∧ Tail z := by
  induction h with
  | nil => exact ⟨[], [], rfl, by simp, tail_nil⟩
  | literal gap content h => exact ⟨[], _, rfl, by simp, tail_literal gap content h⟩
  | @plain y z hy _ ih =>
    obtain ⟨a, z, rfl, ha, hz⟩ := ih
    cases a with
    | nil => exact ⟨[], y ++ z, rfl, by simp, hz.plain hy⟩
    | cons c a =>
      refine ⟨y ++ c :: a, z, by simp, ?_, hz⟩
      rwa [List.getLast?_append_of_ne_nil _ (by simp)]
  | @tag b z hb _ ih =>
    obtain ⟨a, z, rfl, ha, hz⟩ := ih
    refine ⟨b ++ a, z, by simp, ?_, hz⟩
    rw [List.getLast?_append]
    cases hlast : a.getLast? with
    | none => simp [hb]
    | some c => simpa [hlast] using ha c hlast

end Ends

section Prefixes

theorem indexOf?_le (ha : a.getLast? = some '\x7d') (hz : Tail z)
    (h : indexOf? literalClose (a ++ z) = some n) : n + literalClose.length ≤ a.length := by
  obtain ⟨x, y, hxy, rfl⟩ := exists_of_indexOf? h
  rcases List.append_eq_append_iff.1 hxy with ⟨w, -, hw⟩ | ⟨w, rfl, hw⟩
  · exact absurd ⟨w, y, by rw [hw, List.append_assoc]⟩ hz.unended
  rcases List.append_eq_append_iff.1 hw with ⟨v, rfl, -⟩ | ⟨v, hv, hz'⟩
  · simp only [List.length_append]
    omega
  · -- the tag would end within the end of the block, in front of its last character
    cases w with
    | nil => exact absurd ⟨[], y, by rw [hz', hv]; rfl⟩ hz.unended
    | cons c w =>
      cases v with
      | nil => simp [hv]
      | cons e v =>
        rw [List.getLast?_append_of_ne_nil _ (by simp)] at ha
        have hmem : '\x7d' ∈ literalClose.dropLast := by
          rw [hv, List.dropLast_append_of_ne_nil (by simp)]
          exact List.mem_append_left _ (List.mem_of_getLast? ha)
        exact absurd hmem (by decide)

theorem levelsFrom_tag_begins (hopen : '\x7d' ∉ content)
    (hb : ('\x7d' :: b).getLast? = some '\x7d') (hz : Tail z)
    (hrest : ∀ offset d pass, pass ≤ (content ++ '\x7d' :: b).length →
      levelsFrom offset d pass (content ++ '\x7d' :: (b ++ z)) <+:
        levelsFrom offset d pass (content ++ '\x7d' :: (b ++ (z ++ rest)))) (offset d : Nat) :
    levelsFrom offset d 0 ('\x7b' :: (content ++ '\x7d' :: (b ++ z))) <+:
      levelsFrom offset d 0 ('\x7b' :: (content ++ '\x7d' :: (b ++ (z ++ rest)))) := by
  by_cases hliteral : OpensLiteral content
  · rw [levelsFrom_tag (readTag_opensLiteral hopen hliteral _),
      levelsFrom_tag (readTag_opensLiteral hopen hliteral _)]
    cases hn : indexOf? literalClose ('\x7d' :: (b ++ z)) with
    | none =>
      simp only [Tag.length, levelsFrom_passed (Nat.le_refl _), List.append_nil]
      exact List.prefix_append _ _
    | some n =>
      have hn' := indexOf?_append_of_some hn rest
      rw [List.cons_append, List.append_assoc] at hn'
      rw [hn']
      have hle := indexOf?_le hb hz hn
      refine (List.prefix_append_right_inj _).2 (hrest _ _ _ ?_)
      simp only [Tag.length, List.length_append]
      omega
  · obtain ⟨tag, hlength, htag⟩ := readTag_alone hopen hliteral
    rw [levelsFrom_tag (htag _), levelsFrom_tag (htag _)]
    refine (List.prefix_append_right_inj _).2 (hrest _ _ _ ?_)
    simp only [hlength, List.length_append, List.length_cons]
    omega

theorem closes_of_cons {c : Char} (ha : ∀ e ∈ (c :: a).getLast?, e = '\x7d') :
    ∀ e ∈ a.getLast?, e = '\x7d' := by
  intro e he
  refine ha e ?_
  rw [List.getLast?_cons, Option.mem_def.1 he]
  rfl

theorem exists_close_of_open (ha : ∀ e ∈ ('\x7b' :: a).getLast?, e = '\x7d') :
    ∃ content b, a = content ++ '\x7d' :: b ∧ '\x7d' ∉ content ∧
      ('\x7d' :: b).getLast? = some '\x7d' := by
  have hlast : a.getLast? = some '\x7d' := by
    cases hlast : a.getLast? with
    | none => exact absurd (ha '\x7b' (by simp [List.getLast?_cons, hlast])) (by decide)
    | some e => rw [closes_of_cons ha e hlast]
  obtain ⟨content, b, rfl, hopen⟩ := List.eq_append_cons_of_mem (List.mem_of_getLast? hlast)
  refine ⟨content, b, rfl, hopen, ?_⟩
  rwa [List.getLast?_append_of_ne_nil _ (by simp)] at hlast

/-- From a place on that does not lie behind the tags, the scan of a prefix meets the levels that the
scan of the whole meets first. -/
theorem levelsFrom_begins {offset d pass : Nat} (ha : ∀ c ∈ a.getLast?, c = '\x7d') (hz : Tail z)
    (hpass : pass ≤ a.length) (rest : List Char) :
    levelsFrom offset d pass (a ++ z) <+: levelsFrom offset d pass (a ++ (z ++ rest)) := by
  induction a generalizing offset d pass with
  | nil =>
    obtain rfl : pass = 0 := Nat.le_zero.1 hpass
    exact hz.levels offset d rest
  | cons c a ih =>
    have ha' := closes_of_cons ha
    cases pass with
    | succ pass => exact ih ha' (Nat.le_of_succ_le_succ hpass)
    | zero =>
      by_cases hc : c = '\x7b'
      · subst hc
        obtain ⟨content, b, rfl, hopen, hb⟩ := exists_close_of_open ha
        have hrest : ∀ offset d pass, pass ≤ (content ++ '\x7d' :: b).length →
            levelsFrom offset d pass (content ++ '\x7d' :: (b ++ z)) <+:
              levelsFrom offset d pass (content ++ '\x7d' :: (b ++ (z ++ rest))) := by
          intro offset d pass hpass
          simpa using @ih offset d pass ha' hpass
        simpa using levelsFrom_tag_begins hopen hb hz hrest offset d
      · simp only [List.cons_append, levelsFrom, if_neg hc]
        exact ih ha' (Nat.zero_le _)

/-- A prefix that ends outside of tags goes no deeper than the whole text. -/
theorem EndsOutside.deepest_le (h : EndsOutside text) (hp : text <+: rest) :
    deepest text ≤ deepest rest := by
  obtain ⟨rest, rfl⟩ := hp
  obtain ⟨a, z, rfl, ha, hz⟩ := h.split
  refine deepest_le_iff.2 fun tag htag => le_deepest_of_mem ?_
  rw [levels, List.append_assoc]
  exact (levelsFrom_begins ha hz (Nat.zero_le _) rest).subset htag

end Prefixes

end SoyTree.Nesting
