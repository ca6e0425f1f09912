import SoyTree.Proofs.Path

/-! # Laws of dotted paths

Dotted paths are the texts that split into identifiers. Splitting undoes joining, while joining undoes
splitting only where no segment is empty. Names are resolved to dotted paths, once and for all.
-/

namespace SoyTree.Path

open Concrete

section Splitting

theorem dotFree_of_isWord {w : List Char} (h : isWord w = true) : '.' ∉ w :=
  fun hdot => absurd (Word.isWordPart ⟨w, h⟩ _ hdot) (by decide)

theorem isDotted_iff (path : String) :
    isDotted path = true ↔ ∀ w ∈ path.toList.splitOn '.', isWord w = true := by
  constructor
  · intro h
    obtain ⟨part, ws, hpath, -, hword⟩ := exists_words true h
    have hwords : ∀ w ∈ part :: ws.map Word.chars, isWord w = true := by
      rintro w (_ | ⟨_, hw⟩)
      · exact hword rfl
      · obtain ⟨v, -, rfl⟩ := List.mem_map.1 hw
        exact v.isWord
    have hjoined : path.toList = ['.'].intercalate (part :: ws.map Word.chars) := by
      rw [hpath, intercalate_cons_eq, List.flatMap_map]
    rw [hjoined, List.splitOn_intercalate '.' (fun w hw => dotFree_of_isWord (hwords w hw)) (by simp)]
    exact hwords
  · intro h
    obtain ⟨first, more, hsplit⟩ := List.exists_cons_of_ne_nil (List.splitOn_ne_nil '.' path.toList)
    rw [hsplit] at h
    have hjoined : path = join (String.ofList first :: more.map String.ofList) := by
      apply String.toList_injective
      rw [toList_join, ← List.map_cons, List.map_map, ← hsplit]
      simp [Function.comp_def]
    rw [hjoined]
    refine isDotted_join _ _ fun v hv => ?_
    rw [← List.map_cons] at hv
    obtain ⟨w, hw, rfl⟩ := List.mem_map.1 hv
    rw [String.toList_ofList]
    exact h w hw

theorem head_splitOn (path : List Char) : (path.splitOn '.').head? = some [] ↔
    path = [] ∨ path.head? = some '.' := by
  cases path with
  | nil => simp
  | cons c path =>
    obtain ⟨first, more, hsplit⟩ := List.exists_cons_of_ne_nil (List.splitOn_ne_nil '.' path)
    rw [List.splitOn_cons_eq_if_modifyHead, hsplit]
    by_cases hc : c = '.' <;> simp [hc]

/-- Behind the first piece there is an empty one if the text ends in a dot or has two in a row. -/
theorem nil_mem_tail_splitOn (path : List Char) : [] ∈ (path.splitOn '.').tail ↔
    path.getLast? = some '.' ∨ ['.', '.'] <:+: path := by
  induction path with
  | nil => simp
  | cons c path ih =>
    have hhead := head_splitOn path
    obtain ⟨first, more, hsplit⟩ := List.exists_cons_of_ne_nil (List.splitOn_ne_nil '.' path)
    rw [hsplit] at ih hhead
    rw [List.splitOn_cons_eq_if_modifyHead, hsplit, List.infix_cons_iff, List.cons_prefix_cons]
    simp only [List.tail_cons, List.head?_cons, Option.some.injEq] at ih hhead
    by_cases hc : c = '.'
    · subst hc
      have hlast : ('.' :: path).getLast? = some '.' ↔ path = [] ∨ path.getLast? = some '.' := by
        cases path <;> simp [List.getLast?_cons]
      have hnext : ['.'] <+: path ↔ path.head? = some '.' := by
        cases path <;> simp [eq_comm]
      simp only [beq_self_eq_true, if_true, List.tail_cons, List.mem_cons, eq_comm (a := []), hhead,
        ih, hlast, hnext, true_and]
      exact or_or_or_comm
    · have hlast : (c :: path).getLast? = some '.' ↔ path.getLast? = some '.' := by
        cases path <;> simp [List.getLast?_cons, hc]
      simp [hc, eq_comm (a := '.'), ih, hlast]

theorem nil_mem_splitOn (path : List Char) : [] ∈ path.splitOn '.' ↔
    path = [] ∨ path.head? = some '.' ∨ path.getLast? = some '.' ∨ ['.', '.'] <:+: path := by
  have hhead := head_splitOn path
  have htail := nil_mem_tail_splitOn path
  obtain ⟨first, more, hsplit⟩ := List.exists_cons_of_ne_nil (List.splitOn_ne_nil '.' path)
  rw [hsplit] at hhead htail ⊢
  simp only [List.head?_cons, Option.some.injEq, List.tail_cons] at hhead htail
  rw [List.mem_cons, eq_comm, hhead, htail, or_assoc]

theorem mem_split {path w : String} (h : w ∈ split path) : w ≠ "" ∧ '.' ∉ w.toList := by
  rw [split_eq] at h
  obtain ⟨piece, hp, rfl⟩ := List.mem_map.1 h
  obtain ⟨hp, hne⟩ := List.mem_filter.1 hp
  rw [String.toList_ofList]
  exact ⟨by simpa using hne, not_mem_of_mem_splitOn hp⟩

/-- Joining undoes splitting where no segment was dropped. -/
theorem join_split_iff (path : String) :
    join (split path) = path ↔ path = "" ∨ [] ∉ path.toList.splitOn '.' := by
  constructor
  · intro h
    by_cases hnil : split path = []
    · left
      rw [← h, hnil]
      rfl
    · right
      have hpieces : path.toList.splitOn '.' = (split path).map String.toList := by
        conv => lhs; rw [← h, toList_join]
        refine List.splitOn_intercalate '.' (fun piece hp => ?_) (by simpa using hnil)
        obtain ⟨w, hw, rfl⟩ := List.mem_map.1 hp
        exact (mem_split hw).2
      rw [hpieces]
      intro hmem
      obtain ⟨w, hw, hempty⟩ := List.mem_map.1 hmem
      exact (mem_split hw).1 (by simpa using hempty)
  · rintro (rfl | h)
    · rfl
    · have hall : ∀ piece ∈ path.toList.splitOn '.', (!piece.isEmpty) = true := by
        rintro (_ | ⟨c, piece⟩) hp
        · exact absurd hp h
        · rfl
      apply String.toList_injective
      rw [split_eq, List.filter_eq_self.2 hall, toList_join, List.map_map]
      simp [Function.comp_def]

end Splitting

section Resolving

variable {name : String} {home : List String}

theorem isRelative_iff : isRelative name = true ↔ ∃ rest, name = "." ++ rest := by
  rw [isRelative, beq_iff_eq]
  constructor
  · intro h
    obtain ⟨rest, hrest⟩ := List.head?_eq_some_iff.1 h
    refine ⟨String.ofList rest, String.toList_injective ?_⟩
    rw [hrest]
    simp
  · rintro ⟨rest, rfl⟩
    simp

theorem resolve_relative (rest : String) (home : List String) :
    resolve ("." ++ rest) home = if home.isEmpty then rest else join home ++ "." ++ rest := by
  have hname : ("." ++ rest).toList = '.' :: rest.toList := by simp
  simp [resolve, hname]

theorem resolve_absolute (h : isRelative name = false) (home : List String) :
    resolve name home = name := by
  unfold resolve
  split
  · next rest hname => simp [isRelative, hname] at h
  · rfl

theorem not_isRelative_append (h : isDotted name = true) (rest : String) :
    isRelative (name ++ rest) = false := by
  rw [← Bool.not_eq_true, isRelative, beq_iff_eq, String.toList_append]
  unfold isDotted at h
  cases hname : name.toList with
  | nil =>
    rw [hname] at h
    cases h
  | cons c chars =>
    rw [hname, accepts, Bool.and_eq_true] at h
    rintro ⟨⟩
    exact absurd h.1 (by decide)

theorem not_isEmpty_of_dotted (h : isDotted (join home) = true) : home.isEmpty = false := by
  cases home with
  | nil => cases h
  | cons w ws => rfl

theorem resolve_resolve (h : isDotted (join home) = true) (name : String) (home' : List String) :
    resolve (resolve name home) home' = resolve name home := by
  apply resolve_absolute
  cases hname : isRelative name with
  | false => rwa [resolve_absolute hname]
  | true =>
    obtain ⟨rest, rfl⟩ := isRelative_iff.1 hname
    rw [resolve_relative, not_isEmpty_of_dotted h, if_neg (by simp), String.append_assoc]
    exact not_isRelative_append h _

theorem resolve_injective {m n : String} (hm : isRelative m = true) (hn : isRelative n = true)
    (h : resolve m home = resolve n home) : m = n := by
  obtain ⟨a, rfl⟩ := isRelative_iff.1 hm
  obtain ⟨b, rfl⟩ := isRelative_iff.1 hn
  rw [resolve_relative, resolve_relative] at h
  split at h
  · rw [h]
  · rw [(String.append_right_inj _).1 h]

end Resolving

/-- The dotted paths are the texts with identifiers between their dots. Joining undoes splitting for
texts without empty segments, and splitting undoes joining for segments that have no dots and are not
empty. Below a dotted namespace, dotted names are resolved to dotted paths, a resolved name stays as it
is, and relative names stay apart. -/
theorem dotted_paths_agree :
    (∀ path, isDotted path = true ↔ ∀ w ∈ path.toList.splitOn '.', isWord w = true) ∧
    (∀ path, join (split path) = path ↔ path = "" ∨ path.toList.head? ≠ some '.' ∧
      path.toList.getLast? ≠ some '.' ∧ ¬ ['.', '.'] <:+: path.toList) ∧
    (∀ segments : List String, (∀ w ∈ segments, w ≠ "" ∧ '.' ∉ w.toList) →
      split (join segments) = segments) ∧
    ∀ home, isDotted (join home) = true →
      (∀ name, isDotted name = true →
        isDotted (resolve name home) = true ∧ isDotted (resolve ("." ++ name) home) = true) ∧
      (∀ name home', resolve (resolve name home) home' = resolve name home) ∧
      ∀ m n, isRelative m = true → isRelative n = true → m ≠ n →
        resolve m home ≠ resolve n home := by
  refine ⟨isDotted_iff, fun path => ?_, fun _ => split_join_of_dotFree, fun home hhome => ⟨?_, ?_, ?_⟩⟩
  · rw [join_split_iff, nil_mem_splitOn, String.toList_eq_nil_iff, not_or, not_or, not_or, or_and_left]
    exact and_iff_right (Decidable.em _)
  · intro name hname
    rw [resolve_dotted hname, resolve_relative, not_isEmpty_of_dotted hhome]
    exact ⟨hname, isDotted_append hhome hname⟩
  · exact resolve_resolve hhome
  · intro m n hm hn hne h
    exact hne (resolve_injective hm hn h)

theorem dottedHome_agrees :
    split (join ["x", "9", "é"]) = ["x", "9", "é"] ∧
    isDotted (join ["a.b", "c"]) = true ∧ isDotted "t.u" = true ∧
    isDotted (resolve ".t.u" ["a.b", "c"]) = true ∧
    resolve (resolve ".t.u" ["a.b", "c"]) ["d"] = resolve ".t.u" ["a.b", "c"] ∧
    resolve ".t" ["a.b", "c"] ≠ resolve "..t" ["a.b", "c"] := by
  obtain ⟨-, -, hsegments, hhome⟩ := dotted_paths_agree
  obtain ⟨hdotted, hagain, happart⟩ := hhome ["a.b", "c"] (by decide)
  exact ⟨hsegments _ (by decide), by decide, by decide, (hdotted "t.u" (by decide)).2,
    hagain _ _, happart _ _ (by decide) (by decide) (by decide)⟩

end SoyTree.Path
