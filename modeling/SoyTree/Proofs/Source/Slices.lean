import Mathlib.Order.Interval.Set.LinearOrder
import SoyTree.Proofs.Source.Lines

/-! # Slices of a source

A mark counts characters, while a text is cut at bytes. The bytes at which a marked text starts and
stops are found by two walks over the source; they are in order, and no character stands across one
of them.
-/

namespace SoyTree

namespace Mark

variable {source : String} {m : Mark} {i n : Nat}

section Bytes

/-- The bytes at which the characters of a text start, if the text itself starts at the byte `o`. -/
def charStarts (o : Nat) : List Char → List Nat
  | [] => []
  | c :: rest => o :: charStarts (o + c.utf8Size) rest

/-- The byte at which the character with the index `i` starts; for indices past the end, the end. -/
def byteOffset (source : String) (i : Nat) : Nat :=
  ((charStarts 0 source.toList)[i]?).getD source.utf8ByteSize

/-- The marked text, cut out at bytes. It is missing if these are not in order, not within the source
or not between characters. -/
def slice? (m : Mark) (source : String) : Option String := do
  let start := byteOffset source m.start.index
  let stop := if m.isEmpty then start else byteOffset source m.stop.index
  let start ← source.pos? ⟨start⟩
  let stop ← source.pos? ⟨stop⟩
  let part ← source.slice? start stop
  pure part.copy

theorem getElem?_charStarts (o i : Nat) (text : List Char) :
    ((charStarts o text)[i]?).getD (o + (String.ofList text).utf8ByteSize) =
      o + (String.ofList (text.take i)).utf8ByteSize := by
  induction text generalizing o i with
  | nil => simp [charStarts]
  | cons c text ih =>
    cases i with
    | zero => simp [charStarts]
    | succ i => simpa [charStarts, String.ofList_cons, Nat.add_assoc] using ih (o + c.utf8Size) i

theorem byteOffset_eq (source : String) (i : Nat) :
    byteOffset source i = (String.ofList (source.toList.take i)).utf8ByteSize := by
  simpa [byteOffset] using getElem?_charStarts 0 i source.toList

theorem exists_pos (source : String) (i : Nat) : ∃ p, source.pos? ⟨byteOffset source i⟩ = some p ∧
    p.Splits (String.ofList (source.toList.take i)) (String.ofList (source.toList.drop i)) := by
  have hvalid : String.Pos.Raw.IsValid source ⟨byteOffset source i⟩ :=
    String.Pos.Raw.isValid_iff_exists_take_toList.2 ⟨i, byteOffset_eq source i⟩
  refine ⟨source.pos _ hvalid, ?_, ?_, ?_⟩
  · rw [String.pos?, String.Slice.pos?, dif_pos (by simpa using hvalid)]
    rfl
  · rw [← String.ofList_append, List.take_append_drop, String.ofList_toList]
  · rw [String.offset_pos, byteOffset_eq]
    rfl

/-- What stands between two places of a text. -/
theorem copy_slice_of_splits {p q : source.Pos} {a b c : String} (hp : p.Splits a (b ++ c))
    (hq : q.Splits (a ++ b) c) : ∃ part, source.slice? p q = some part ∧ part.copy = b := by
  have hle : p ≤ q := (hp.le_iff_exists_eq_append hq).2 ⟨b, rfl, rfl⟩
  refine ⟨source.slice p q hle, dif_pos hle, ?_⟩
  have hbytes : (a ++ (source.slice p q hle).copy).toByteArray = (a ++ b).toByteArray := by
    rw [String.toByteArray_append, String.toByteArray_copy_slice, hp.toByteArray_eq_left,
      hq.toByteArray_eq_left]
    exact (ByteArray.extract_eq_extract_append_extract _ (Nat.zero_le _) hle).symm
  exact (String.append_right_inj a).1 (String.toByteArray_inj.1 hbytes)

theorem slice?_of_splits {p q : source.Pos}
    (hp : p.Splits (String.ofList (source.toList.take i)) (String.ofList (source.toList.drop i)))
    (hq : q.Splits (String.ofList (source.toList.take (i + n)))
      (String.ofList (source.toList.drop (i + n)))) :
    ∃ part, source.slice? p q = some part ∧
      part.copy = String.ofList ((source.toList.drop i).take n) := by
  refine copy_slice_of_splits (c := String.ofList (source.toList.drop (i + n))) (hp.of_eq rfl ?_)
    (hq.of_eq ?_ rfl)
  · rw [← String.ofList_append, ← List.drop_drop, List.take_append_drop]
  · rw [← String.ofList_append, ← List.take_add]

/-- An empty mark is cut at its start, any other one where as many characters as it covers end. -/
theorem byteOffset_stop (m : Mark) (source : String) :
    (if m.isEmpty then byteOffset source m.start.index else byteOffset source m.stop.index) =
      byteOffset source (m.start.index + m.length) := by
  by_cases hempty : m.length = 0
  · simp [isEmpty, hempty]
  · have hstop : m.start.index + m.length = m.stop.index := by
      unfold length at hempty ⊢
      omega
    simp [isEmpty, hempty, hstop]

theorem slice?_eq (m : Mark) (source : String) : m.slice? source = some (m.slice source) := by
  obtain ⟨p, hp, hsplit⟩ := exists_pos source m.start.index
  obtain ⟨q, hq, hsplit'⟩ := exists_pos source (m.start.index + m.length)
  obtain ⟨part, hpart, hcopy⟩ := slice?_of_splits hsplit hsplit'
  simp only [slice?, byteOffset_stop, hp, hq, hpart, hcopy, Option.bind_eq_bind, Option.bind_some]
  rfl

end Bytes

section Characters

theorem toList_slice (m : Mark) (source : String) :
    (m.slice source).toList = source.toList.extract m.start.index m.stop.index := by
  rw [slice, String.toList_ofList, sliceChars, length, List.extract_eq_take_drop]

theorem slice_eq_empty (h : m.stop.index ≤ m.start.index) : m.slice source = "" := by
  rw [← String.toList_inj, toList_slice, List.extract_eq_take_drop, Nat.sub_eq_zero_of_le h]
  rfl

theorem slice_infix (m : Mark) (source : String) :
    ∃ before behind, source = before ++ m.slice source ++ behind ∧
      before.length = min m.start.index source.length := by
  refine ⟨String.ofList (source.toList.take m.start.index),
    String.ofList (source.toList.drop (m.start.index + m.length)), ?_, ?_⟩
  · rw [slice, sliceChars, ← String.ofList_append, ← String.ofList_append, ← List.take_add,
      List.take_append_drop, String.ofList_toList]
  · rw [String.length_ofList, List.length_take, String.length_toList]

end Characters

end Mark

namespace Lines

variable {source : String} {text : List Char} {a b c d : Nat}

section Ranges

theorem mark_start_index : ((ofChars text).mark a b).start.index = min a text.length := rfl

theorem mark_stop_index : ((ofChars text).mark a b).stop.index = min (max b a) text.length := rfl

theorem mark_slice (source : String) (a b : Nat) : ((ofString source).mark a b).slice source =
    String.ofList (source.toList.extract (min a source.length) (min (max a b) source.length)) := by
  rw [← String.toList_inj, Mark.toList_slice, String.toList_ofList, ofString, mark_start_index,
    mark_stop_index, String.length_toList, Nat.max_comm]

theorem length_mark_slice (source : String) (a b : Nat) :
    (((ofString source).mark a b).slice source).length = ((ofString source).mark a b).length := by
  rw [mark_slice, String.length_ofList, Mark.length, ofString, mark_start_index, mark_stop_index,
    List.extract_eq_take_drop, List.length_take, List.length_drop, String.length_toList]
  omega

theorem extract_append_extract (text : List Char) {i j k : Nat} (hij : i ≤ j) (hjk : j ≤ k) :
    text.extract i j ++ text.extract j k = text.extract i k := by
  have hj : i + (j - i) = j := by omega
  have hk : j - i + (k - j) = k - i := by omega
  have hdrop : text.drop j = (text.drop i).drop (j - i) := by rw [List.drop_drop, hj]
  rw [List.extract_eq_take_drop, List.extract_eq_take_drop, List.extract_eq_take_drop, hdrop,
    ← List.take_add, hk]

theorem mark_slice_append (hab : a ≤ b) (hbc : b ≤ c) :
    ((ofString source).mark a b).slice source ++ ((ofString source).mark b c).slice source =
      ((ofString source).mark a c).slice source := by
  rw [mark_slice, mark_slice, mark_slice, Nat.max_eq_right hab, Nat.max_eq_right hbc,
    Nat.max_eq_right (hab.trans hbc), ← String.ofList_append, extract_append_extract] <;> omega

theorem encloses_mark_iff (hab : a < b) (hb : b ≤ source.length) (hcd : c < d)
    (hd : d ≤ source.length) :
    ((ofString source).mark a b).encloses ((ofString source).mark c d) = true ↔
      Set.Ico c d ⊆ Set.Ico a b := by
  rw [Set.Ico_subset_Ico_iff hcd, Mark.encloses, decide_eq_true_iff]
  simp only [ofString, mark_start_index, mark_stop_index, String.length_toList]
  omega

/-- What a mark cuts out of a source is what its range of characters says. -/
theorem range_slices (source : String) :
    (∀ a b,
      ((ofString source).mark a b).slice source =
        String.ofList (source.toList.extract (min a source.length) (min (max a b) source.length)) ∧
      (((ofString source).mark a b).slice source).length = ((ofString source).mark a b).length) ∧
    (∀ a b c, a ≤ b → b ≤ c →
      ((ofString source).mark a b).slice source ++ ((ofString source).mark b c).slice source =
        ((ofString source).mark a c).slice source) ∧
    (∀ m : Mark, m.slice? source = some (m.slice source) ∧
      (∃ before behind, source = before ++ m.slice source ++ behind ∧
        before.length = min m.start.index source.length) ∧
      (m.stop.index ≤ m.start.index → m.slice source = "")) ∧
    ∀ a b c d, a < b → b ≤ source.length → c < d → d ≤ source.length →
      (((ofString source).mark a b).encloses ((ofString source).mark c d) = true ↔
        Set.Ico c d ⊆ Set.Ico a b) :=
  ⟨fun a b => ⟨mark_slice source a b, length_mark_slice source a b⟩,
    fun _ _ _ => mark_slice_append,
    fun m => ⟨m.slice?_eq source, m.slice_infix source, Mark.slice_eq_empty⟩,
    fun _ _ _ _ => encloses_mark_iff⟩

theorem accentedSample_slices :
    ((ofString "hé\n€𝄞x").mark 0 2).slice "hé\n€𝄞x" ++
        ((ofString "hé\n€𝄞x").mark 2 5).slice "hé\n€𝄞x" =
      ((ofString "hé\n€𝄞x").mark 0 5).slice "hé\n€𝄞x" ∧
    (⟨⟨1, 1, 4⟩, ⟨0, 1, 1⟩⟩ : Mark).slice "hé\n€𝄞x" = "" ∧
    (((ofString "hé\n€𝄞x").mark 0 5).encloses ((ofString "hé\n€𝄞x").mark 1 3) = true ↔
      Set.Ico 1 3 ⊆ Set.Ico 0 5) :=
  ⟨(range_slices "hé\n€𝄞x").2.1 0 2 5 (by decide) (by decide),
    ((range_slices "hé\n€𝄞x").2.2.1 ⟨⟨1, 1, 4⟩, ⟨0, 1, 1⟩⟩).2.2 (by decide),
    (range_slices "hé\n€𝄞x").2.2.2 0 5 1 3 (by decide) (by decide) (by decide) (by decide)⟩

end Ranges

end Lines

end SoyTree
