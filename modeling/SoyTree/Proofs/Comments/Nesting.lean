import SoyTree.Proofs.Nesting.Prefix

/-! # The nesting around inserted text

Text without an opening brace that is put behind the end of a tag changes no level that the scan
meets. The scan either is outside of tags there or passes over a literal block.
-/

namespace SoyTree.Nesting

variable {a b y z text content : List Char} {offset offset' d pass n : Nat}

/-- The levels that the scan meets, wherever the tags stand. -/
def reaches (tags : List TagLevel) : List Nat :=
  tags.map (·.level)

theorem reaches_levelsFrom (offset offset' d pass : Nat) (text : List Char) :
    reaches (levelsFrom offset d pass text) = reaches (levelsFrom offset' d pass text) := by
  induction text generalizing offset offset' d pass with
  | nil => rfl
  | cons c text ih =>
    cases pass with
    | succ pass => exact ih ..
    | zero =>
      rw [levelsFrom, levelsFrom]
      split
      · cases readTag text with
        | closing block length => exact ih ..
        | opening deeper reach length => exact congrArg (_ :: ·) (ih ..)
      · exact ih ..

theorem deepest_of_reaches {text text' : List Char}
    (h : reaches (levels text) = reaches (levels text')) : deepest text = deepest text' := by
  have hfold : ∀ text, deepest text = (reaches (levels text)).foldl max 0 := fun text => by
    rw [deepest, reaches, List.foldl_map]
  rw [hfold, hfold, h]

section Search

theorem not_infix_of_indexOf? {needle : List Char} (hn : needle ≠ [])
    (h : indexOf? needle text = none) : ¬ needle <:+: text := by
  induction text with
  | nil => exact fun hi => hn (List.eq_nil_of_infix_nil hi)
  | cons c text ih =>
    rw [indexOf?] at h
    split at h
    · cases h
    · rename_i hp
      rw [List.infix_cons_iff, ← List.isPrefixOf_iff_prefix]
      exact not_or.2 ⟨hp, ih (Option.map_eq_none_iff.1 h)⟩

theorem indexOf?_skip {needle : List Char} (h : ∀ x w, a = x ++ w → w ≠ [] → ¬ needle <+: w ++ z) :
    indexOf? needle (a ++ z) = (indexOf? needle z).map (a.length + ·) := by
  induction a with
  | nil => simp
  | cons c a ih =>
    have hp : needle.isPrefixOf (c :: (a ++ z)) = false := by
      rw [← Bool.not_eq_true, List.isPrefixOf_iff_prefix]
      exact h [] (c :: a) rfl (by simp)
    have hrest := ih fun x w hxw hw => h (c :: x) w (by rw [hxw]; rfl) hw
    rw [List.cons_append, indexOf?, hp, if_neg (by simp), hrest, Option.map_map]
    refine congrArg (Option.map · _) (funext fun m => ?_)
    simp only [Function.comp_apply, List.length_cons]
    omega

theorem indexOf?_plain (hy : '\x7b' ∉ y) :
    indexOf? literalClose (y ++ z) = (indexOf? literalClose z).map (y.length + ·) := by
  refine indexOf?_skip fun x w hxw hw => ?_
  rintro ⟨rest, hrest⟩
  obtain ⟨c, w, rfl⟩ := List.exists_cons_of_ne_nil hw
  obtain rfl : '\x7b' = c := (List.cons.inj hrest).1
  exact hy (by simp [hxw])

/-- Behind the end of a tag the end of a literal block does not start within the tag. -/
theorem indexOf?_behind (hb : b.getLast? = some '\x7d') (h : indexOf? literalClose b = none) :
    indexOf? literalClose (b ++ z) = (indexOf? literalClose z).map (b.length + ·) := by
  refine indexOf?_skip fun x w hxw hw => ?_
  rintro ⟨rest, hrest⟩
  rcases List.append_eq_append_iff.1 hrest with ⟨v, rfl, -⟩ | ⟨v, hv, -⟩
  · exact not_infix_of_indexOf? (by decide) h ⟨x, v, by rw [hxw, List.append_assoc]⟩
  · cases v with
    | nil => exact not_infix_of_indexOf? (by decide) h ⟨x, [], by rw [hxw, hv]; simp⟩
    | cons e v =>
      -- the tag would end within the end of the block, in front of its last character
      have hmem : '\x7d' ∈ literalClose.dropLast := by
        rw [hv, List.dropLast_append_of_ne_nil (by simp)]
        refine List.mem_append_left _ (List.mem_of_getLast? ?_)
        rwa [hxw, List.getLast?_append_of_ne_nil _ hw] at hb
      exact absurd hmem (by decide)

end Search

section Inserted

theorem levelsFrom_found (h : indexOf? literalClose z = some n) :
    levelsFrom offset d (a.length + n + literalClose.length) (a ++ z) =
      levelsFrom (offset + (a.length + n + literalClose.length)) d 0
        (z.drop (n + literalClose.length)) := by
  obtain ⟨x, rest, rfl, rfl⟩ := exists_of_indexOf? h
  have hdrop : (x ++ (literalClose ++ rest)).drop (x.length + literalClose.length) = rest := by
    rw [← List.append_assoc, ← List.length_append, List.drop_left]
  rw [hdrop]
  refine levelsFrom_pass (a := a ++ (x ++ literalClose)) (by simp) ?_ ?_ d
  all_goals
    simp only [List.length_append]
    omega

/-- A literal block whose end stands behind the place goes on to the same rest. -/
theorem reaches_literal (hopen : '\x7d' ∉ content) (hliteral : OpensLiteral content)
    (hb : ('\x7d' :: b).getLast? = some '\x7d') (hy : '\x7b' ∉ y)
    (hrest : ∀ offset offset' d pass, pass ≤ (content ++ '\x7d' :: b).length →
      reaches (levelsFrom offset d pass (content ++ '\x7d' :: b ++ (y ++ z))) =
        reaches (levelsFrom offset' d pass (content ++ '\x7d' :: b ++ z))) (offset offset' d : Nat) :
    reaches (levelsFrom offset d 0 ('\x7b' :: (content ++ '\x7d' :: b ++ (y ++ z)))) =
      reaches (levelsFrom offset' d 0 ('\x7b' :: (content ++ '\x7d' :: b ++ z))) := by
  have htag : ∀ w, content ++ '\x7d' :: b ++ w = content ++ '\x7d' :: (b ++ w) := by simp
  rw [htag, htag, levelsFrom_tag (readTag_opensLiteral hopen hliteral _),
    levelsFrom_tag (readTag_opensLiteral hopen hliteral _), ← htag, ← htag, reaches, List.map_append,
    reaches, List.map_append]
  refine congrArg₂ _ rfl ?_
  cases hn : indexOf? literalClose ('\x7d' :: b) with
  | some n =>
    obtain ⟨p, q, hpq, rfl⟩ := exists_of_indexOf? hn
    have hlength := congrArg List.length hpq
    have hfound := fun w => indexOf?_append_of_some hn w
    simp only [List.cons_append] at hfound
    rw [hfound, hfound]
    refine hrest _ _ _ _ ?_
    simp only [Tag.length, List.length_append] at hlength ⊢
    omega
  | none =>
    have hbehind := fun w => indexOf?_behind (z := w) hb hn
    simp only [List.cons_append] at hbehind
    rw [hbehind, hbehind, indexOf?_plain hy]
    cases hz : indexOf? literalClose z with
    | none =>
      simp only [Option.map_none, Tag.length]
      rw [levelsFrom_passed (Nat.le_refl _), levelsFrom_passed (Nat.le_refl _)]
    | some n =>
      -- behind the end of the block both scans have the same text left
      have hlong : content.length + (('\x7d' :: b).length + (y.length + n)) + literalClose.length =
          (content ++ '\x7d' :: b ++ y).length + n + literalClose.length := by
        simp only [List.length_append]
        omega
      have hshort : content.length + (('\x7d' :: b).length + n) + literalClose.length =
          (content ++ '\x7d' :: b).length + n + literalClose.length := by
        simp only [List.length_append]
        omega
      simp only [Option.map_some, Tag.length]
      rw [hlong, hshort, ← List.append_assoc, levelsFrom_found hz, levelsFrom_found hz]
      exact reaches_levelsFrom ..

/-- Text without an opening brace that is put behind the end of a tag changes no level. -/
theorem reaches_inserted (ha : ∀ c ∈ a.getLast?, c = '\x7d') (hy : '\x7b' ∉ y)
    (hpass : pass ≤ a.length) :
    reaches (levelsFrom offset d pass (a ++ (y ++ z))) =
      reaches (levelsFrom offset' d pass (a ++ z)) := by
  induction a generalizing offset offset' d pass with
  | nil =>
    obtain rfl : pass = 0 := Nat.le_zero.1 hpass
    rw [List.nil_append, levelsFrom_plain hy, List.nil_append]
    exact reaches_levelsFrom ..
  | cons c a ih =>
    have ha' := closes_of_cons ha
    cases pass with
    | succ pass => exact ih ha' (Nat.le_of_succ_le_succ hpass)
    | zero =>
      by_cases hc : c = '\x7b'
      · subst hc
        obtain ⟨content, b, rfl, hopen, hb⟩ := exists_close_of_open ha
        by_cases hliteral : OpensLiteral content
        · exact reaches_literal hopen hliteral hb hy
            (fun _ _ _ _ hpass => ih ha' hpass) offset offset' d
        · obtain ⟨tag, hlength, htag⟩ := readTag_alone hopen hliteral
          have htext : ∀ w, content ++ '\x7d' :: b ++ w = content ++ '\x7d' :: (b ++ w) := by simp
          have hle : tag.length ≤ (content ++ '\x7d' :: b).length := by
            simp only [hlength, List.length_append, List.length_cons]
            omega
          rw [List.cons_append, List.cons_append, levelsFrom_tag (htext _ ▸ htag _),
            levelsFrom_tag (htext _ ▸ htag _), reaches, List.map_append, reaches, List.map_append]
          exact congrArg₂ _ (by cases tag <;> rfl) (ih ha' hle)
      · simp only [List.cons_append, levelsFrom, if_neg hc]
        exact ih ha' (Nat.zero_le _)

end Inserted

end SoyTree.Nesting
