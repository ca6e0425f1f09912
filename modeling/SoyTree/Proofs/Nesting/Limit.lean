import SoyTree.Parse
import SoyTree.Proofs.Nesting.Indexed
import SoyTree.Proofs.Nesting.Scan

/-! # The limit of the nesting

The limit decides only whether a source is refused. The levels of its tags do not depend on it, so
there is one depth from which on every limit is enough, and whatever else a source is refused for
does not change with the limit.
-/

namespace SoyTree.Nesting

variable {text : List Char} {tag other : TagLevel} {offset d pass m n : Nat}

section Offsets

theorem levelsFrom_brace (h : tag ∈ levelsFrom offset d pass text) :
    ∃ i, tag.offset = offset + i ∧ text[i]? = some '\x7b' := by
  induction text generalizing offset d pass with
  | nil => cases h
  | cons c text ih =>
    have hrest : ∀ {d pass}, tag ∈ levelsFrom (offset + 1) d pass text →
        ∃ i, tag.offset = offset + i ∧ (c :: text)[i]? = some '\x7b' := by
      intro d pass h
      obtain ⟨i, hi, htext⟩ := ih h
      exact ⟨i + 1, by omega, htext⟩
    cases pass with
    | succ pass => exact hrest h
    | zero =>
      rw [levelsFrom] at h
      split at h
      · rename_i hc
        split at h
        · exact hrest h
        · rcases List.mem_cons.1 h with rfl | h
          · exact ⟨0, rfl, by simp [hc]⟩
          · exact hrest h
      · exact hrest h

theorem levelsFrom_increasing (offset d pass : Nat) (text : List Char) :
    (levelsFrom offset d pass text).Pairwise (·.offset < ·.offset) := by
  induction text generalizing offset d pass with
  | nil => exact List.Pairwise.nil
  | cons c text ih =>
    cases pass with
    | succ pass => exact ih _ _ _
    | zero =>
      rw [levelsFrom]
      split
      · split
        · exact ih _ _ _
        · refine List.pairwise_cons.2 ⟨fun tag htag => ?_, ih _ _ _⟩
          obtain ⟨i, hi, -⟩ := levelsFrom_brace htag
          simp only
          omega
      · exact ih _ _ _

theorem offset_lt_length (h : tag ∈ levels text) : tag.offset < text.length := by
  obtain ⟨i, hi, hbrace⟩ := levelsFrom_brace h
  obtain ⟨hlt, -⟩ := List.getElem?_eq_some_iff.1 hbrace
  omega

end Offsets

section Checks

/-- A tag that goes beyond the limit, and stands in front of all others that do. -/
structure FirstBeyond (tags : List TagLevel) (limit : Nat) (tag : TagLevel) : Prop where
  mem : tag ∈ tags
  beyond : limit < tag.level
  first : ∀ other ∈ tags, limit < other.level → tag.offset ≤ other.offset

theorem firstBeyond_of_find {tags : List TagLevel} (hsorted : tags.Pairwise (·.offset < ·.offset))
    (h : tags.find? (fun tag => m < tag.level) = some tag) : FirstBeyond tags m tag := by
  obtain ⟨hlevel, before, behind, rfl, hbefore⟩ := List.find?_eq_some_iff_append.1 h
  constructor
  · simp
  · simpa using hlevel
  · intro other hother hbeyond
    rcases List.mem_append.1 hother with hother | hother
    · have := hbefore other hother
      simp only [Bool.not_eq_true', decide_eq_false_iff_not] at this
      exact absurd hbeyond this
    · rcases List.mem_cons.1 hother with rfl | hother
      · exact Nat.le_refl _
      · have htail := (List.pairwise_append.1 hsorted).2.1
        exact Nat.le_of_lt ((List.pairwise_cons.1 htail).1 other hother)

/-- The higher the limit, the further behind is the first tag that goes beyond it. -/
theorem FirstBeyond.mono {tags : List TagLevel} (h : FirstBeyond tags m tag)
    (h' : FirstBeyond tags n other) (hmn : m ≤ n) : tag.offset ≤ other.offset :=
  h.first other h'.mem (Nat.lt_of_le_of_lt hmn h'.beyond)

theorem check_of_le (h : deepest text ≤ m) : check text m = .ok (deepest text) := by
  have hnone : (levels text).find? (fun tag => m < tag.level) = none := by
    refine List.find?_eq_none.2 fun tag htag => ?_
    have := deepest_le_iff.1 h tag htag
    simpa using this
  rw [check, hnone]

theorem check_of_lt (h : m < deepest text) :
    ∃ tag, FirstBeyond (levels text) m tag ∧ check text m = .error tag.offset := by
  cases hfind : (levels text).find? (fun tag => m < tag.level) with
  | some tag =>
    exact ⟨tag, firstBeyond_of_find (levelsFrom_increasing 0 0 0 text) hfind, by rw [check, hfind]⟩
  | none =>
    have hle : deepest text ≤ m := deepest_le_iff.2 fun tag htag => by
      simpa using List.find?_eq_none.1 hfind tag htag
    omega

end Checks

section Parsing

/-- What a text is parsed to, whatever the limit is. -/
def parseUnlimited (text : List Char) : Except ParseError Program :=
  match Grammar.fileHeader.parse text with
  | .error e => .error (.ofFailure text (.ofChars text) e)
  | .ok home =>
    match (Grammar.file home).parse text with
    | .error e => .error (.ofFailure text (.ofChars text) e)
    | .ok program => .ok program

theorem parseChars_of_le (h : deepest text ≤ m) : parseChars text ⟨m⟩ = parseUnlimited text := by
  rw [parseChars, check_of_le h]
  rfl

theorem parseChars_of_lt (h : m < deepest text) :
    ∃ tag e, FirstBeyond (levels text) m tag ∧ check text m = .error tag.offset ∧
      parseChars text ⟨m⟩ = .error e ∧ e.cause = .tooDeep m ∧ e.offset = tag.offset := by
  obtain ⟨tag, htag, hcheck⟩ := check_of_lt h
  refine ⟨tag, .locate (.ofChars text) tag.offset (.tooDeep m), htag, hcheck, ?_, rfl, ?_⟩
  · rw [parseChars, hcheck]
  · have hin := offset_lt_length htag.mem
    simp only [ParseError.locate, Lines.position, Lines.ofChars]
    omega

/-- A parse that does not fail for its depth does not change where the limit is raised. -/
theorem parseChars_mono (hmn : m ≤ n) (h : ∀ e, parseChars text ⟨m⟩ = .error e →
    ∀ limit, e.cause ≠ .tooDeep limit) : parseChars text ⟨n⟩ = parseChars text ⟨m⟩ := by
  rcases Nat.lt_or_ge m (deepest text) with hlt | hle
  · obtain ⟨-, e, -, -, he, hcause, -⟩ := parseChars_of_lt hlt
    exact absurd hcause (h e he m)
  · rw [parseChars_of_le hle, parseChars_of_le (Nat.le_trans hle hmn)]

/-- The limit only filters: there is one depth that every limit from it on admits, and no smaller
limit does. A smaller one is exceeded at the first tag that goes beyond it, which is the further
behind the higher the limit is. A parse that passes, or fails otherwise, comes out the same under
every higher limit. The scan by index never leaves the text, and finds the same. -/
theorem limit_only_filters (source : String) :
    ∃ d,
      (∀ m, d ≤ m → check source.toList m = .ok d) ∧
      (∀ m < d, ∃ tag e, FirstBeyond (levels source.toList) m tag ∧
        check source.toList m = .error tag.offset ∧
        parseWith source ⟨m⟩ = .error e ∧ e.cause = .tooDeep m ∧ e.offset = tag.offset) ∧
      (∀ m n tag other, m ≤ n → FirstBeyond (levels source.toList) m tag →
        FirstBeyond (levels source.toList) n other → tag.offset ≤ other.offset) ∧
      (∀ m n, m ≤ n → ∀ program, parseWith source ⟨m⟩ = .ok program →
        parseWith source ⟨n⟩ = .ok program) ∧
      (∀ m n, m ≤ n → ∀ e, parseWith source ⟨m⟩ = .error e →
        (∀ limit, e.cause ≠ .tooDeep limit) → parseWith source ⟨n⟩ = .error e) ∧
      ∀ m, Indexed.scan source.toList m ⟨0, 0, 0⟩ = some (check source.toList m) := by
  refine ⟨deepest source.toList, fun m => check_of_le, fun m => parseChars_of_lt,
    fun m n tag other hmn h h' => h.mono h' hmn, ?_, ?_, Indexed.scan_check _⟩
  · intro m n hmn program h
    refine (parseChars_mono hmn fun e he => ?_).trans h
    rw [parseWith, he] at h
    cases h
  · intro m n hmn e h hcause
    refine (parseChars_mono hmn fun e' he' => ?_).trans h
    obtain rfl : e = e' := Except.error.inj (h.symm.trans he')
    exact hcause

end Parsing

end SoyTree.Nesting
