import SoyTree.Proofs.Concrete.Lexical

/-! # Dotted paths and their identifiers

A text is a dotted path if it is a list of identifiers with dots between them, and splitting such a
path gives the identifiers back.
-/

namespace SoyTree.Path

open Concrete

section Words

theorem exists_words {path : List Char} (fresh : Bool) (h : accepts fresh path = true) :
    ∃ (part : List Char) (ws : List Word), path = part ++ ws.flatMap (fun w => '.' :: w.chars) ∧
      (∀ c ∈ part, isWordPart c = true) ∧ (fresh = true → isWord part = true) := by
  induction path generalizing fresh with
  | nil =>
    cases fresh with
    | true => cases h
    | false => exact ⟨[], [], rfl, by simp, by simp⟩
  | cons c path ih =>
    cases fresh with
    | true =>
      simp only [accepts, Bool.and_eq_true] at h
      obtain ⟨part, ws, rfl, hpart, -⟩ := ih false h.2
      refine ⟨c :: part, ws, rfl, ?_, fun _ => ?_⟩
      · rintro d (_ | ⟨_, hd⟩)
        · exact isWordPart_of_isWordStart h.1
        · exact hpart d hd
      · simpa [isWord, h.1] using hpart
    | false =>
      by_cases hdot : c = '.'
      · simp only [accepts, hdot, if_true] at h
        obtain ⟨part, ws, rfl, -, hword⟩ := ih true h
        exact ⟨[], ⟨part, hword rfl⟩ :: ws, by simp [hdot], by simp, by simp⟩
      · simp only [accepts, hdot, if_false, Bool.and_eq_true] at h
        obtain ⟨part, ws, rfl, hpart, -⟩ := ih false h.2
        refine ⟨c :: part, ws, rfl, ?_, by simp⟩
        rintro d (_ | ⟨_, hd⟩)
        · exact h.1
        · exact hpart d hd

theorem chars_of_dotted {path : String} (h : isDotted path = true) :
    ∀ c ∈ path.toList, isWordPart c = true ∨ c = '.' := by
  obtain ⟨part, ws, hpath, hpart, -⟩ := exists_words true h
  intro c hc
  rw [hpath, List.mem_append, List.mem_flatMap] at hc
  rcases hc with hc | ⟨w, -, _ | ⟨_, hc⟩⟩
  · exact Or.inl (hpart c hc)
  · exact Or.inr rfl
  · exact Or.inl (w.isWordPart c hc)

theorem exists_name {name : String} (h : isDotted name = true) :
    ∃ n : Name, n.text = name.toList := by
  obtain ⟨part, ws, hname, -, hword⟩ := exists_words true h
  exact ⟨⟨false, ⟨part, hword rfl⟩, ws⟩, hname.symm⟩

theorem resolve_dotted {name : String} (h : isDotted name = true) (home : List String) :
    resolve name home = name := by
  unfold isDotted at h
  unfold resolve
  split
  · next rest hname =>
    rw [hname] at h
    cases h
  · rfl

end Words

section Joined

theorem intercalate_cons_eq (c : Char) (first : List Char) (more : List (List Char)) :
    [c].intercalate (first :: more) = first ++ more.flatMap (c :: ·) := by
  induction more generalizing first with
  | nil => simp
  | cons second more ih => simp [List.intercalate_cons_cons, ih]

theorem toList_join (segments : List String) :
    (join segments).toList = ['.'].intercalate (segments.map String.toList) :=
  String.toList_intercalate

theorem join_eq (w : String) (ws : List String) :
    join (w :: ws) = String.ofList (w.toList ++ ws.flatMap fun v => '.' :: v.toList) := by
  apply String.toList_injective
  rw [toList_join, List.map_cons, intercalate_cons_eq, String.toList_ofList, List.flatMap_map]

theorem accepts_wordPart {part rest : List Char} (h : ∀ c ∈ part, isWordPart c = true) :
    accepts false (part ++ rest) = accepts false rest := by
  induction part with
  | nil => rfl
  | cons c part ih =>
    have hc := h c (by simp)
    have hdot : c ≠ '.' := by
      rintro rfl
      exact absurd hc (by decide)
    simp only [List.cons_append, accepts, hdot, if_false, hc, Bool.true_and]
    exact ih fun d hd => h d (by simp [hd])

theorem accepts_word {word rest : List Char} (h : isWord word = true) :
    accepts true (word ++ rest) = accepts false rest := by
  cases word with
  | nil => cases h
  | cons c word =>
    simp only [isWord, Bool.and_eq_true, List.all_eq_true] at h
    simp only [List.cons_append, accepts, h.1, Bool.true_and]
    exact accepts_wordPart h.2

theorem isDotted_join (w : String) (ws : List String) (h : ∀ v ∈ w :: ws, isWord v.toList = true) :
    isDotted (join (w :: ws)) = true := by
  rw [join_eq, isDotted, String.toList_ofList]
  induction ws generalizing w with
  | nil =>
    rw [accepts_word (h w (by simp))]
    rfl
  | cons v ws ih =>
    rw [accepts_word (h w (by simp))]
    exact ih v fun x hx => h x (List.mem_cons_of_mem _ hx)

theorem not_mem_of_mem_splitOn {c : Char} {text piece : List Char} (h : piece ∈ text.splitOn c) :
    c ∉ piece := by
  induction text generalizing piece with
  | nil =>
    obtain rfl : piece = [] := by simpa using h
    simp
  | cons d text ih =>
    obtain ⟨first, more, hsplit⟩ := List.exists_cons_of_ne_nil (List.splitOn_ne_nil c text)
    rw [List.splitOn_cons_eq_if_modifyHead, hsplit] at h
    rw [hsplit] at ih
    split at h
    · rcases List.mem_cons.1 h with rfl | h
      · simp
      · exact ih h
    · rename_i hd
      rcases List.mem_cons.1 h with rfl | h
      · exact List.not_mem_cons_of_ne_of_not_mem (fun hc => hd (by simp [hc])) (ih (by simp))
      · exact ih (List.mem_cons_of_mem _ h)

theorem modifyHead_nil_append (pieces : List (List Char)) :
    pieces.modifyHead (([] : List Char) ++ ·) = pieces := by
  cases pieces <;> rfl

/-- The pieces between the dots; the first of them goes on from `piece`. -/
theorem piecesFrom_eq (piece path : List Char) :
    piecesFrom piece path = (path.splitOn '.').modifyHead (piece.reverse ++ ·) := by
  induction path generalizing piece with
  | nil => simp [piecesFrom]
  | cons c path ih =>
    rw [piecesFrom, List.splitOn_cons_eq_if_modifyHead, ih, ih, List.reverse_nil,
      modifyHead_nil_append]
    by_cases hc : c = '.'
    · simp [hc]
    · simp [hc, List.modifyHead_modifyHead, Function.comp_def]

theorem split_eq (path : String) :
    split path = ((path.toList.splitOn '.').filter (!·.isEmpty)).map String.ofList := by
  rw [split, piecesFrom_eq, List.reverse_nil, modifyHead_nil_append]

/-- Segments without dots are found again if none of them is empty. -/
theorem split_join_of_dotFree {segments : List String}
    (h : ∀ w ∈ segments, w ≠ "" ∧ '.' ∉ w.toList) : split (join segments) = segments := by
  have hpieces : ((segments.map String.toList).filter (!·.isEmpty)).map String.ofList = segments := by
    rw [List.filter_eq_self.2, List.map_map]
    · simp [Function.comp_def]
    · intro piece hp
      obtain ⟨w, hw, rfl⟩ := List.mem_map.1 hp
      simpa using (h w hw).1
  cases segments with
  | nil => rfl
  | cons w ws =>
    rw [split_eq, toList_join, List.splitOn_intercalate, hpieces]
    · intro piece hp
      obtain ⟨v, hv, rfl⟩ := List.mem_map.1 hp
      exact (h v hv).2
    · simp

theorem split_join (w : String) (ws : List String) (h : ∀ v ∈ w :: ws, isWord v.toList = true) :
    split (join (w :: ws)) = w :: ws := by
  refine split_join_of_dotFree fun v hv => ⟨?_, fun hdot => ?_⟩
  · rintro rfl
    cases h "" hv
  · exact absurd (Word.isWordPart ⟨_, h v hv⟩ _ hdot) (by decide)

theorem accepts_dot {a : List Char} {fresh : Bool} (h : accepts fresh a = true) (b : List Char) :
    accepts fresh (a ++ '.' :: b) = accepts true b := by
  induction a generalizing fresh with
  | nil =>
    cases fresh with
    | true => cases h
    | false => simp [accepts]
  | cons c a ih =>
    cases fresh with
    | true =>
      simp only [accepts, Bool.and_eq_true] at h
      simp only [List.cons_append, accepts, h.1, Bool.true_and]
      exact ih h.2
    | false =>
      by_cases hdot : c = '.'
      · simp only [accepts, hdot, if_true] at h
        simp only [List.cons_append, accepts, hdot, if_true]
        exact ih h
      · simp only [accepts, hdot, if_false, Bool.and_eq_true] at h
        simp only [List.cons_append, accepts, hdot, if_false, h.1, Bool.true_and]
        exact ih h.2

theorem isDotted_append {a b : String} (ha : isDotted a = true) (hb : isDotted b = true) :
    isDotted (a ++ "." ++ b) = true := by
  have htext : (a ++ "." ++ b).toList = a.toList ++ '.' :: b.toList := by
    simp
  rw [isDotted, htext, accepts_dot ha]
  exact hb

theorem split_dotted {path : String} (h : isDotted path = true) :
    split path ≠ [] ∧ ∀ w ∈ split path, isWord w.toList = true := by
  obtain ⟨part, ws, hpath, -, hword⟩ := exists_words true h
  have hwords : ∀ v ∈ String.ofList part :: ws.map (fun w => String.ofList w.chars),
      isWord v.toList = true := by
    intro v hv
    rcases List.mem_cons.1 hv with rfl | hv
    · rw [String.toList_ofList]
      exact hword rfl
    · obtain ⟨w, -, rfl⟩ := List.mem_map.1 hv
      rw [String.toList_ofList]
      exact w.isWord
  have hjoin : path = join (String.ofList part :: ws.map fun w => String.ofList w.chars) := by
    apply String.toList_injective
    rw [join_eq, hpath]
    simp [List.flatMap_map]
  rw [hjoin, split_join _ _ hwords]
  exact ⟨List.cons_ne_nil _ _, hwords⟩

end Joined

end SoyTree.Path
