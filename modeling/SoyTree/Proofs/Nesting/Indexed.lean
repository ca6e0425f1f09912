import Mathlib.Data.List.TakeWhile
import SoyTree.Nesting

/-! # The nesting scan by index

The scan as a loop with an index into the characters, which jumps from tag to tag and stops at the
first tag that goes beyond the limit. An access outside of the characters would leave it without a
result. It always has one, and it is that of the scan over the characters one by one.
-/

namespace SoyTree.Nesting.Indexed

/-- The first of the `n` indices from `i` on that passes a test, where the test can be made. -/
def search (test : Nat → Option Bool) : (i n : Nat) → Option (Option Nat)
  | _, 0 => some none
  | i, n + 1 => do
    if ← test i then some (some i) else search test (i + 1) n

section Definitions

variable (chars : List Char)

/-- The characters from `i` up to `j`, if both lie within the characters in this order. -/
def slice? (i j : Nat) : Option (List Char) :=
  if i ≤ j ∧ j ≤ chars.length then some ((chars.drop i).take (j - i)) else none

def tagEnd (start : Nat) : Option Nat := do
  let found ← search (fun i => chars[i]?.map (· == '\x7d')) start (chars.length - start)
  return found.getD chars.length

def literalEnd (start : Nat) : Option Nat := do
  let found ← search (fun i => (slice? chars i chars.length).map (literalClose.isPrefixOf ·))
    start (chars.length - start)
  return (found.map (· + literalClose.length)).getD chars.length

structure State where
  index : Nat
  depth : Nat
  deepest : Nat

inductive Turn where
  /-- The tag at the offset goes beyond the limit. -/
  | beyond (offset : Nat)
  | next (s : State)

def wordAt (start : Nat) : String :=
  String.ofList ((chars.drop start).takeWhile Grammar.isCommandChar)

def closingTurn (s : State) : Option Turn := do
  let stop ← tagEnd chars (s.index + 2)
  let block := blockWords.contains (wordAt chars (s.index + 2))
  return .next ⟨stop + 1, if block then s.depth - 1 else s.depth, s.deepest⟩

/-- Whether there is a slash in front of the closing brace of the tag. -/
def closedAtOnce (stop : Nat) : Option Bool :=
  if stop < chars.length ∧ 0 < stop then chars[stop - 1]?.map (· == '/') else some false

def openingTurn (limit : Nat) (s : State) : Option Turn := do
  let stop ← tagEnd chars (s.index + 1)
  let word := wordAt chars (s.index + 1)
  let opens := blockWords.contains word && !(← closedAtOnce chars stop)
  let tag ← slice? chars s.index stop
  let level := s.depth + (if opens then 1 else 0) + bracketDepth tag
  if limit < level then
    some (.beyond s.index)
  else if opens && word == "literal" then
    (literalEnd chars stop).map fun behind => .next ⟨behind, s.depth, max s.deepest level⟩
  else
    some (.next ⟨stop + 1, if opens then s.depth + 1 else s.depth, max s.deepest level⟩)

/-- One turn of the loop, at an index within the characters. -/
def turn (limit : Nat) (s : State) : Option Turn := do
  let c ← chars[s.index]?
  if c ≠ '\x7b' then
    some (.next ⟨s.index + 1, s.depth, s.deepest⟩)
  else if chars[s.index + 1]? == some '/' then
    closingTurn chars s
  else
    openingTurn chars limit s

end Definitions

variable {chars rest needle : List Char} {limit index i : Nat} {s : State} {c : Char}

section Accesses

theorem getElem?_of_drop (h : chars.drop index = c :: rest) : chars[index]? = some c := by
  rw [← List.head?_drop, h, List.head?_cons]

theorem drop_succ (h : chars.drop index = c :: rest) : chars.drop (index + 1) = rest := by
  rw [← List.drop_drop, h, List.drop_one, List.tail_cons]

theorem length_of_drop (h : chars.drop index = c :: rest) :
    chars.length = index + 1 + rest.length := by
  have := congrArg List.length h
  simp only [List.length_drop, List.length_cons] at this
  omega

theorem slice?_to_end (h : i ≤ chars.length) : slice? chars i chars.length = some (chars.drop i) := by
  rw [slice?, if_pos ⟨h, Nat.le_refl _⟩, List.take_of_length_le (by simp)]

theorem slice?_of_drop {content : List Char} (h : chars.drop i = c :: (content ++ rest)) :
    slice? chars i (i + 1 + content.length) = some (c :: content) := by
  have hlength := length_of_drop h
  simp only [List.length_append] at hlength
  rw [slice?, if_pos (by omega), h, Nat.add_assoc, Nat.add_sub_cancel_left, Nat.add_comm,
    List.take_succ_cons, List.take_left]

end Accesses

section Searches

theorem search_brace {n : Nat} (h : chars.length = i + n) :
    search (fun i => chars[i]?.map (· == '\x7d')) i n =
      some (if '\x7d' ∈ chars.drop i then some (i + ((chars.drop i).takeWhile (· ≠ '\x7d')).length)
        else none) := by
  induction n generalizing i with
  | zero =>
    have hnil : chars.drop i = [] := List.drop_eq_nil_of_le (by omega)
    simp [search, hnil]
  | succ n ih =>
    obtain ⟨c, rest, hdrop⟩ : ∃ c rest, chars.drop i = c :: rest :=
      List.exists_cons_of_ne_nil fun hnil => by simp [List.drop_eq_nil_iff] at hnil; omega
    rw [search, getElem?_of_drop hdrop, ih (by omega), drop_succ hdrop, hdrop]
    by_cases hc : c = '\x7d'
    · simp [hc]
    · have hc' : ¬ '\x7d' = c := fun h => hc h.symm
      by_cases hmem : '\x7d' ∈ rest
      · simp [hc, hmem]
        omega
      · simp [hc, hc', hmem]

theorem tagEnd_eq (h : i ≤ chars.length) :
    tagEnd chars i = some (i + ((chars.drop i).takeWhile (· ≠ '\x7d')).length) := by
  rw [tagEnd, search_brace (by omega)]
  by_cases hmem : '\x7d' ∈ chars.drop i
  · simp [hmem]
  · have hall : (chars.drop i).takeWhile (· ≠ '\x7d') = chars.drop i :=
      List.takeWhile_eq_self_iff.2 fun c hc => decide_eq_true fun h => hmem (h ▸ hc)
    rw [if_neg hmem, hall]
    simp only [List.length_drop]
    simp
    omega

theorem search_needle {n : Nat} (h : chars.length = i + n) :
    search (fun i => (slice? chars i chars.length).map (needle.isPrefixOf ·)) i n =
      some ((indexOf? needle (chars.drop i)).map (i + ·)) := by
  induction n generalizing i with
  | zero =>
    have hnil : chars.drop i = [] := List.drop_eq_nil_of_le (by omega)
    simp [search, hnil, indexOf?]
  | succ n ih =>
    obtain ⟨c, rest, hdrop⟩ : ∃ c rest, chars.drop i = c :: rest :=
      List.exists_cons_of_ne_nil fun hnil => by simp [List.drop_eq_nil_iff] at hnil; omega
    rw [search, slice?_to_end (by omega), ih (by omega), drop_succ hdrop, hdrop, indexOf?]
    by_cases hp : needle.isPrefixOf (c :: rest) = true
    · simp [hp]
    · have hshift : ∀ n, i + 1 + n = i + (n + 1) := fun n => by omega
      simp [hp, Function.comp_def, hshift]

theorem literalEnd_eq (h : i ≤ chars.length) :
    literalEnd chars i = some (match indexOf? literalClose (chars.drop i) with
      | some n => i + n + literalClose.length
      | none => chars.length) := by
  rw [literalEnd, search_needle (by omega)]
  cases indexOf? literalClose (chars.drop i) with
  | none => rfl
  | some n => rfl

end Searches

section Turns

theorem turn_plain (h : chars.drop s.index = c :: rest) (hc : c ≠ '\x7b') :
    turn chars limit s = some (.next ⟨s.index + 1, s.depth, s.deepest⟩) := by
  simp [turn, getElem?_of_drop h, hc]

def Tag.turn (limit : Nat) (s : State) : Tag → Turn
  | .closing block length =>
    .next ⟨s.index + 1 + length, if block then s.depth - 1 else s.depth, s.deepest⟩
  | .opening deeper reach length =>
    if limit < s.depth + reach then .beyond s.index
    else .next ⟨s.index + 1 + length, if deeper then s.depth + 1 else s.depth,
      max s.deepest (s.depth + reach)⟩

theorem turn_closing (h : chars.drop s.index = '\x7b' :: '/' :: rest) :
    turn chars limit s = some (Tag.turn limit s (readTag ('/' :: rest))) := by
  have hslash := drop_succ h
  have hrest := drop_succ hslash
  have hlength := length_of_drop hslash
  have hstart : s.index + 2 ≤ chars.length := by omega
  have hstop := tagEnd_eq hstart
  rw [hrest] at hstop
  have hword : wordAt chars (s.index + 2) =
      String.ofList (rest.takeWhile Grammar.isCommandChar) := by
    rw [wordAt, hrest]
  simp only [turn, getElem?_of_drop h, getElem?_of_drop hslash, closingTurn, hstop, hword]
  simp [readTag, Tag.turn]
  omega

theorem closedAtOnce_eq {content behind : List Char}
    (h : chars.drop index = '\x7b' :: (content ++ behind)) :
    closedAtOnce chars (index + 1 + content.length) =
      some (!behind.isEmpty && content.getLast? == some '/') := by
  have hlength := length_of_drop h
  simp only [List.length_append] at hlength
  cases behind with
  | nil =>
    rw [closedAtOnce, if_neg (by simp only [List.length_nil] at hlength; omega)]
    rfl
  | cons c behind =>
    have hlast : chars[index + content.length]? = ('\x7b' :: content).getLast? := by
      rw [List.getLast?_eq_getElem?, ← List.getElem?_drop, h, ← List.cons_append,
        List.getElem?_append_left (by simp)]
      rfl
    rw [closedAtOnce, if_pos (by simp only [List.length_cons] at hlength; omega),
      Nat.add_right_comm, Nat.add_sub_cancel, hlast, List.getLast?_cons]
    cases content.getLast? with
    | none => rfl
    | some e => simp

theorem literalEnd_behind {content behind : List Char}
    (h : chars.drop index = '\x7b' :: (content ++ behind)) :
    literalEnd chars (index + 1 + content.length) =
      some (match indexOf? literalClose behind with
        | some n => index + 1 + (content.length + n + literalClose.length)
        | none => index + 1 + (content ++ behind).length) := by
  have hlength := length_of_drop h
  have hbehind : chars.drop (index + 1 + content.length) = behind := by
    rw [← List.drop_drop, drop_succ h, List.drop_left]
  rw [literalEnd_eq (by simp only [List.length_append] at hlength; omega), hbehind, hlength]
  cases indexOf? literalClose behind with
  | none => rfl
  | some n => simp only [Nat.add_assoc]

theorem turn_opening (h : chars.drop s.index = '\x7b' :: rest) (hslash : rest.head? ≠ some '/') :
    turn chars limit s = some (Tag.turn limit s (readTag rest)) := by
  have hrest := drop_succ h
  have hlength := length_of_drop h
  have hclosing : (chars[s.index + 1]? == some '/') = false := by
    rw [← List.head?_drop, hrest]
    simpa using hslash
  have hword : wordAt chars (s.index + 1) =
      String.ofList (rest.takeWhile Grammar.isCommandChar) := by
    rw [wordAt, hrest]
  obtain ⟨content, hcontent⟩ : ∃ content, rest.takeWhile (· ≠ '\x7d') = content := ⟨_, rfl⟩
  obtain ⟨behind, hbehind⟩ : ∃ behind, rest.dropWhile (· ≠ '\x7d') = behind := ⟨_, rfl⟩
  have hsplit : rest = content ++ behind := by
    rw [← hcontent, ← hbehind, List.takeWhile_append_dropWhile]
  have hdrop : chars.drop s.index = '\x7b' :: (content ++ behind) := by
    rw [h, hsplit]
  have hstop : tagEnd chars (s.index + 1) = some (s.index + 1 + content.length) := by
    rw [tagEnd_eq (by omega), hrest, hcontent]
  have hend := literalEnd_behind hdrop
  rw [← hsplit] at hend
  have hbracket : bracketDepth ('\x7b' :: content) = bracketDepth content := rfl
  generalize hw : String.ofList (rest.takeWhile Grammar.isCommandChar) = word at hword
  generalize hopens : (blockWords.contains word &&
    !(!behind.isEmpty && content.getLast? == some '/')) = opens
  have hlevel : ∀ n : Nat, s.depth + n + bracketDepth content = s.depth + (bracketDepth content + n) :=
    fun n => by omega
  simp only [turn, getElem?_of_drop h, hclosing, openingTurn, hstop, hword, slice?_of_drop hdrop,
    closedAtOnce_eq hdrop, Option.bind_eq_bind, Option.bind_some, readTag, hslash, if_false, hcontent,
    hbehind, hbracket, hw, hopens, hlevel, ne_eq, not_true_eq_false, Bool.false_eq_true]
  by_cases hlimit : limit < s.depth + (bracketDepth content + if opens then 1 else 0)
  · rw [if_pos hlimit]
    split
    · split <;> rw [Tag.turn, if_pos hlimit]
    · rw [Tag.turn, if_pos hlimit]
  · rw [if_neg hlimit]
    by_cases hliteral : (opens && word == "literal") = true
    · rw [if_pos hliteral, if_pos hliteral, hend]
      cases indexOf? literalClose behind with
      | none => exact congrArg some (if_neg hlimit).symm
      | some n => exact congrArg some (if_neg hlimit).symm
    · rw [if_neg hliteral, if_neg hliteral, Tag.turn, if_neg hlimit, Nat.add_assoc]

theorem turn_tag (h : chars.drop s.index = '\x7b' :: rest) :
    turn chars limit s = some (Tag.turn limit s (readTag rest)) := by
  by_cases hslash : rest.head? = some '/'
  · obtain ⟨rest, rfl⟩ : ∃ tail, rest = '/' :: tail := by
      cases rest with
      | nil => cases hslash
      | cons c rest => exact ⟨rest, by simpa using hslash⟩
    exact turn_closing h
  · exact turn_opening h hslash

/-- Where a turn does not end the scan, it moves it on. -/
theorem turn_moves {s' : State} (h : turn chars limit s = some (.next s')) :
    s.index < s'.index ∧ s.index < chars.length := by
  cases hdrop : chars.drop s.index with
  | nil =>
    have hnone : chars[s.index]? = none := by
      rw [← List.head?_drop, hdrop, List.head?_nil]
    simp [turn, hnone] at h
  | cons c rest =>
    have hlength := length_of_drop hdrop
    refine ⟨?_, by omega⟩
    by_cases hc : c = '\x7b'
    · rw [turn_tag (hc ▸ hdrop)] at h
      cases htag : readTag rest with
      | closing block length =>
        rw [htag] at h
        cases h
        simp only
        omega
      | opening deeper reach length =>
        rw [htag, Tag.turn] at h
        split at h
        · cases h
        · cases h
          simp only
          omega
    · rw [turn_plain hdrop hc] at h
      cases h
      exact Nat.lt_succ_self _

end Turns

section Loop

/-- The scan from a state on: the deepest level, or the offset of the tag where it stops. -/
def scan (chars : List Char) (limit : Nat) (s : State) : Option (Except Nat Nat) :=
  if s.index < chars.length then
    match _h : turn chars limit s with
    | none => none
    | some (.beyond offset) => some (.error offset)
    | some (.next s') => scan chars limit s'
  else some (.ok s.deepest)
termination_by chars.length - s.index
decreasing_by
  have := turn_moves _h
  omega

def outcome (limit deepest : Nat) (tags : List TagLevel) : Except Nat Nat :=
  match tags.find? (fun tag => limit < tag.level) with
  | some tag => .error tag.offset
  | none => .ok (tags.foldl (fun d tag => max d tag.level) deepest)

theorem scan_stop (h : chars.drop s.index = []) : scan chars limit s = some (.ok s.deepest) := by
  rw [scan, if_neg (Nat.not_lt.2 (List.drop_eq_nil_iff.1 h))]

theorem scan_beyond {offset : Nat} (hin : s.index < chars.length)
    (h : turn chars limit s = some (.beyond offset)) : scan chars limit s = some (.error offset) := by
  rw [scan, if_pos hin]
  split
  · simp_all
  · simp_all
  · simp_all

theorem scan_next {s' : State} (hin : s.index < chars.length)
    (h : turn chars limit s = some (.next s')) : scan chars limit s = scan chars limit s' := by
  rw [scan, if_pos hin]
  split
  · simp_all
  · simp_all
  · simp_all

/-- Passing over a tag is a jump behind it, possibly beyond the end. -/
theorem levelsFrom_jump (offset d length : Nat) (rest : List Char) :
    levelsFrom offset d length rest = levelsFrom (offset + length) d 0 (rest.drop length) := by
  induction length generalizing offset rest with
  | zero => rfl
  | succ length ih =>
    cases rest with
    | nil => rfl
    | cons c rest => rw [levelsFrom, ih, List.drop_succ_cons, Nat.add_right_comm, Nat.add_assoc]

theorem levelsFrom_behind {length : Nat} (h : chars.drop index = c :: rest) (d : Nat) :
    levelsFrom (index + 1) d length rest =
      levelsFrom (index + 1 + length) d 0 (chars.drop (index + 1 + length)) := by
  rw [levelsFrom_jump, ← drop_succ h, List.drop_drop]

/-- Every turn leaves what the whole scan comes to as it is. -/
theorem scan_eq (chars : List Char) (limit : Nat) (s : State) :
    scan chars limit s =
      some (outcome limit s.deepest (levelsFrom s.index s.depth 0 (chars.drop s.index))) := by
  induction hn : chars.length - s.index using Nat.strongRecOn generalizing s with
  | ind n ih =>
    cases hdrop : chars.drop s.index with
    | nil => exact scan_stop hdrop
    | cons c rest =>
      have hin := length_of_drop hdrop
      by_cases hc : c = '\x7b'
      · subst hc
        have hturn : turn chars limit s = _ := turn_tag hdrop
        rw [levelsFrom, if_pos rfl]
        cases htag : readTag rest with
        | closing block length =>
          rw [htag] at hturn
          rw [scan_next (by omega) hturn, ih _ (by simp only; omega) _ rfl]
          simp only [levelsFrom_behind hdrop]
        | opening deeper reach length =>
          rw [htag, Tag.turn] at hturn
          by_cases hlimit : limit < s.depth + reach
          · rw [if_pos hlimit] at hturn
            rw [scan_beyond (by omega) hturn]
            simp [outcome, hlimit]
          · rw [if_neg hlimit] at hturn
            rw [scan_next (by omega) hturn, ih _ (by simp only; omega) _ rfl]
            simp only [levelsFrom_behind hdrop]
            simp [outcome, hlimit]
      · rw [scan_next (by omega) (turn_plain hdrop hc), ih _ (by simp only; omega) _ rfl,
          drop_succ hdrop, levelsFrom, if_neg hc]

/-- The scan by index never leaves the text, and comes to what the check comes to. -/
theorem scan_check (chars : List Char) (limit : Nat) :
    scan chars limit ⟨0, 0, 0⟩ = some (check chars limit) :=
  scan_eq chars limit ⟨0, 0, 0⟩

end Loop

end SoyTree.Nesting.Indexed
