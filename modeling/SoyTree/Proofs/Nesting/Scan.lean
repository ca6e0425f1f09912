import SoyTree.Nesting
import SoyTree.Proofs.Concrete.Item
import SoyTree.Proofs.Rule.Reading

/-! # The nesting scan, piece by piece

A scan over a text is a scan over its pieces one after the other. A piece that is a tag, a run
without braces or a literal block is passed in one step, which changes the number of open blocks
and reaches a certain level.
-/

namespace SoyTree.Nesting

open Concrete

section Brackets

variable {a b : List Char} {m n : Nat}

def bracketLevel (current : Nat) : List Char → Nat
  | [] => current
  | c :: rest =>
    if c = '(' ∨ c = '[' then bracketLevel (current + 1) rest
    else if c = ')' ∨ c = ']' then bracketLevel (current - 1) rest
    else bracketLevel current rest

theorem bracketDepthFrom_append (n : Nat) (a b : List Char) :
    bracketDepthFrom n (a ++ b) = max (bracketDepthFrom n a) (bracketDepthFrom (bracketLevel n a) b) := by
  induction a generalizing n with
  | nil => simp [bracketDepthFrom, bracketLevel]
  | cons c a ih =>
    simp only [List.cons_append, bracketDepthFrom, bracketLevel]
    split
    · rw [ih, Nat.max_assoc]
    · split
      · exact ih _
      · exact ih _

theorem bracketDepthFrom_mono (h : m ≤ n) : bracketDepthFrom m a ≤ bracketDepthFrom n a := by
  induction a generalizing m n with
  | nil => exact Nat.le_refl _
  | cons c a ih =>
    simp only [bracketDepthFrom]
    split
    · have := @ih (m + 1) (n + 1) (by omega)
      omega
    · split
      · exact ih (by omega)
      · exact ih h

theorem bracketLevel_append (n : Nat) (a b : List Char) :
    bracketLevel n (a ++ b) = bracketLevel (bracketLevel n a) b := by
  induction a generalizing n with
  | nil => rfl
  | cons c a ih =>
    simp only [List.cons_append, bracketLevel]
    split
    · exact ih _
    · split
      · exact ih _
      · exact ih _

theorem bracketLevel_mono (h : m ≤ n) : bracketLevel m a ≤ bracketLevel n a := by
  induction a generalizing m n with
  | nil => exact h
  | cons c a ih =>
    simp only [bracketLevel]
    split
    · exact ih (by omega)
    · split
      · exact ih (by omega)
      · exact ih h

def Unclosed (text : List Char) : Prop :=
  ∀ c ∈ text, c ≠ ')' ∧ c ≠ ']'

theorem le_bracketLevel (h : Unclosed a) : n ≤ bracketLevel n a := by
  induction a generalizing n with
  | nil => exact Nat.le_refl _
  | cons c a ih =>
    have hc := h c (by simp)
    have hrest : Unclosed a := fun d hd => h d (List.mem_cons_of_mem _ hd)
    simp only [bracketLevel, hc.1, hc.2, or_self, if_false]
    split
    · exact Nat.le_trans (Nat.le_succ n) (ih hrest)
    · exact ih hrest

theorem Unclosed.append (ha : Unclosed a) (hb : Unclosed b) : Unclosed (a ++ b) := by
  intro c hc
  rcases List.mem_append.1 hc with hc | hc
  · exact ha c hc
  · exact hb c hc

/-- From any level on the text reaches `k` levels higher, if `k` is not zero, and does not end
below the level it started from. -/
def Lifts (k : Nat) (text : List Char) : Prop :=
  ∀ n, n + k ≤ max n (bracketDepthFrom n text) ∧ n ≤ bracketLevel n text

theorem Unclosed.lifts (h : Unclosed a) : Lifts 0 a :=
  fun _ => ⟨Nat.le_max_left _ _, le_bracketLevel h⟩

theorem Lifts.append {j k : Nat} (ha : Lifts j a) (hb : Lifts k b) : Lifts (max j k) (a ++ b) := by
  intro n
  obtain ⟨hj, hlevel⟩ := ha n
  obtain ⟨hk, hlevel'⟩ := hb n
  rw [bracketDepthFrom_append, bracketLevel_append]
  have hmono := bracketDepthFrom_mono (a := b) hlevel
  have hmono' := bracketLevel_mono (a := b) hlevel
  omega

theorem Lifts.bracketed {k : Nat} {opening closing : Char} (h : Lifts k a)
    (ho : opening = '(' ∨ opening = '[') (hc : closing = ')' ∨ closing = ']') :
    Lifts (k + 1) (opening :: (a ++ [closing])) := by
  have hc' : ¬ (closing = '(' ∨ closing = '[') := by
    rcases hc with rfl | rfl <;> decide
  intro n
  obtain ⟨hk, hlevel⟩ := h (n + 1)
  simp only [bracketDepthFrom, bracketLevel, ho, if_true, bracketDepthFrom_append,
    bracketLevel_append, hc, hc', if_false]
  omega

/-- The part of a text that lifts the level tells how deep its brackets go. -/
theorem Lifts.le_bracketDepth {k : Nat} (h : Lifts k a) : k ≤ bracketDepth a := by
  have := (h 0).1
  rw [bracketDepth]
  omega

theorem le_bracketDepth_append (a b c : List Char) : bracketDepth b ≤ bracketDepth (a ++ (b ++ c)) := by
  simp only [bracketDepth, bracketDepthFrom_append]
  have := bracketDepthFrom_mono (a := b) (Nat.zero_le (bracketLevel 0 a))
  omega

end Brackets

section Steps

variable {content rest : List Char}

/-- The command word that the scan reads off a tag. -/
def tagWord (content : List Char) : String :=
  String.ofList (content.takeWhile Grammar.isCommandChar)

/-- Whether the scan takes a tag for the start of a block. -/
def opensBlock (content : List Char) : Bool :=
  blockWords.contains (tagWord content) && !(content.getLast? == some '/')

theorem tag_word :
    String.ofList ((content ++ '\x7d' :: rest).takeWhile Grammar.isCommandChar) = tagWord content := by
  rw [takeWhile_append_stop (by decide), tagWord]

theorem tag_content (hopen : '\x7d' ∉ content) :
    (content ++ '\x7d' :: rest).takeWhile (fun c => decide (c ≠ '\x7d')) = content := by
  refine takeWhile_of_stop (fun c hc => decide_eq_true fun h => hopen (h ▸ hc)) ?_
  simp

theorem tag_behind (hopen : '\x7d' ∉ content) :
    (content ++ '\x7d' :: rest).dropWhile (fun c => decide (c ≠ '\x7d')) = '\x7d' :: rest := by
  refine dropWhile_of_stop (fun c hc => decide_eq_true fun h => hopen (h ▸ hc)) ?_
  simp

theorem readTag_opening (hopen : '\x7d' ∉ content) (hhead : content.head? ≠ some '/')
    (hlit : opensBlock content = true → tagWord content ≠ "literal") :
    readTag (content ++ '\x7d' :: rest) = .opening (opensBlock content)
      (bracketDepth content + if opensBlock content then 1 else 0) (content.length + 1) := by
  have hslash : (content ++ '\x7d' :: rest).head? ≠ some '/' := by
    cases content with
    | nil => simp
    | cons c content => exact hhead
  simp only [readTag, hslash, if_false, tag_word, tag_content hopen, tag_behind hopen]
  have hb : (blockWords.contains (tagWord content) &&
      !(!('\x7d' :: rest).isEmpty && content.getLast? == some '/')) = opensBlock content := by
    simp [opensBlock]
  rw [hb]
  cases hblock : opensBlock content with
  | false => simp
  | true => simp [hlit hblock]

theorem readTag_literal {n : Nat} (hopen : '\x7d' ∉ content) (hhead : content.head? ≠ some '/')
    (hlast : content.getLast? ≠ some '/') (hword : tagWord content = "literal")
    (hn : indexOf? literalClose ('\x7d' :: rest) = some n) :
    readTag (content ++ '\x7d' :: rest) =
      .opening false (bracketDepth content + 1) (content.length + n + literalClose.length) := by
  have hslash : (content ++ '\x7d' :: rest).head? ≠ some '/' := by
    cases content with
    | nil => simp
    | cons c content => exact hhead
  have hblock : blockWords.contains "literal" = true := by decide
  have hopened : (content.getLast? == some '/') = false := by simpa using hlast
  simp only [readTag, hslash, if_false, tag_word, tag_content hopen, tag_behind hopen, hword, hblock,
    hopened, hn, List.isEmpty_cons, Bool.not_false, Bool.and_self, Bool.and_false, if_true, beq_self_eq_true]

theorem readTag_closing (hopen : '\x7d' ∉ content) :
    readTag ('/' :: (content ++ '\x7d' :: rest)) =
      .closing (blockWords.contains (tagWord content)) (content.length + 2) := by
  simp only [readTag, List.head?_cons, if_true, List.drop_succ_cons, List.drop_zero,
    tag_word, tag_content hopen]

end Steps

section Words

theorem not_command_of_blanks (b : Blanks) : ∀ c ∈ b.chars.head?, Grammar.isCommandChar c = false :=
  fun c hc => isCommandChar_of_blank (b.blank c (List.mem_of_mem_head? hc))

theorem isCommandChar_of_mem {word : String} (hw : word ∈ blockWords) :
    ∀ c ∈ word.toList, Grammar.isCommandChar c = true := by
  have h : ∀ w ∈ blockWords, w.toList.all Grammar.isCommandChar = true := by decide +kernel
  exact List.all_eq_true.1 (h word hw)

theorem tagWord_append {word : String} {args : List Char}
    (hw : ∀ c ∈ word.toList, Grammar.isCommandChar c = true)
    (hargs : ∀ c ∈ args.head?, Grammar.isCommandChar c = false) :
    tagWord (word.toList ++ args) = word := by
  rw [tagWord, takeWhile_of_stop hw hargs, String.ofList_toList]

end Words

section Pieces

variable {a b text content : List Char} {d d' d'' n m : Nat}

/-- The rest of a tag that was read is passed over. -/
theorem levelsFrom_pass {offset offset' length : Nat} {a rest text : List Char}
    (htext : text = a ++ rest) (hlength : length = a.length) (hoffset : offset' = offset + a.length)
    (d : Nat) : levelsFrom offset d length text = levelsFrom offset' d 0 rest := by
  subst htext hlength hoffset
  induction a generalizing offset with
  | nil => rfl
  | cons c a ih =>
    rw [List.length_cons, List.cons_append, levelsFrom, ih]
    congr 1
    omega

/-- The scan passes the text, which takes it from `d` open blocks to `d'`, and on the way it meets
opening tags at these levels. -/
def Passes (text : List Char) (d d' : Nat) (found : List Nat) : Prop :=
  ∀ offset rest, ∃ tags : List TagLevel, tags.map (·.level) = found ∧
    levelsFrom offset d 0 (text ++ rest) = tags ++ levelsFrom (offset + text.length) d' 0 rest

theorem passes_nil (d : Nat) : Passes [] d d [] :=
  fun _ _ => ⟨[], rfl, rfl⟩

theorem Passes.append {found found' : List Nat} (ha : Passes a d d' found)
    (hb : Passes b d' d'' found') : Passes (a ++ b) d d'' (found ++ found') := by
  intro offset rest
  obtain ⟨tags, hlevels, heq⟩ := ha offset (b ++ rest)
  obtain ⟨tags', hlevels', heq'⟩ := hb (offset + a.length) rest
  refine ⟨tags ++ tags', by rw [List.map_append, hlevels, hlevels'], ?_⟩
  rw [List.append_assoc, heq, heq', List.append_assoc, List.length_append, Nat.add_assoc]

/-- The scan passes the text, which takes it from `d` open blocks to `d'`, and on the way it meets a
level that is `n` above `d`, if `n` is not zero. -/
def Scans (text : List Char) (d d' n : Nat) : Prop :=
  ∀ offset rest, ∃ found, levelsFrom offset d 0 (text ++ rest) =
    found ++ levelsFrom (offset + text.length) d' 0 rest ∧
      (n = 0 ∨ ∃ tag ∈ found, d + n ≤ tag.level)

theorem Passes.scans {found : List Nat} (h : Passes text d d' found)
    (hn : n = 0 ∨ ∃ level ∈ found, d + n ≤ level) : Scans text d d' n := by
  intro offset rest
  obtain ⟨tags, rfl, heq⟩ := h offset rest
  refine ⟨tags, heq, hn.imp_right ?_⟩
  rintro ⟨level, hlevel, hle⟩
  obtain ⟨tag, htag, rfl⟩ := List.mem_map.1 hlevel
  exact ⟨tag, htag, hle⟩

theorem scans_nil (d : Nat) : Scans [] d d 0 :=
  (passes_nil d).scans (Or.inl rfl)

theorem Scans.weaken (h : Scans text d d' n) (hm : m ≤ n) : Scans text d d' m := by
  intro offset rest
  obtain ⟨found, heq, hlevel⟩ := h offset rest
  refine ⟨found, heq, ?_⟩
  rcases hlevel with rfl | ⟨tag, htag, hle⟩
  · exact Or.inl (by omega)
  · exact Or.inr ⟨tag, htag, by omega⟩

theorem Scans.found (ha : Scans a d d' n) (hb : Scans b d' d'' m) (offset : Nat)
    (rest : List Char) : ∃ found found', levelsFrom offset d 0 (a ++ b ++ rest) =
      (found ++ found') ++ levelsFrom (offset + (a ++ b).length) d'' 0 rest ∧
        (n = 0 ∨ ∃ tag ∈ found, d + n ≤ tag.level) ∧
          (m = 0 ∨ ∃ tag ∈ found', d' + m ≤ tag.level) := by
  obtain ⟨found, heq, hn⟩ := ha offset (b ++ rest)
  obtain ⟨found', heq', hm⟩ := hb (offset + a.length) rest
  refine ⟨found, found', ?_, hn, hm⟩
  rw [List.append_assoc, heq, heq', List.append_assoc, List.length_append, Nat.add_assoc]

theorem Scans.append (ha : Scans a d d n) (hb : Scans b d d m) : Scans (a ++ b) d d (max n m) := by
  intro offset rest
  obtain ⟨found, found', heq, hn, hm⟩ := ha.found hb offset rest
  refine ⟨found ++ found', heq, ?_⟩
  rcases Nat.le_total m n with h | h
  · rw [Nat.max_eq_left h]
    refine hn.imp_right fun ⟨tag, htag, hle⟩ => ⟨tag, List.mem_append_left _ htag, hle⟩
  · rw [Nat.max_eq_right h]
    refine hm.imp_right fun ⟨tag, htag, hle⟩ => ⟨tag, List.mem_append_right _ htag, hle⟩

/-- An opening tag, a body one block deeper, and a closing tag. -/
theorem Scans.block {opening body close : List Char} (ho : Scans opening d (d + 1) 1)
    (hb : Scans body (d + 1) (d + 1) n) (hc : Scans close (d + 1) d 0) :
    Scans (opening ++ (body ++ close)) d d (n + 1) := by
  intro offset rest
  obtain ⟨found, heq, h₁⟩ := ho offset (body ++ close ++ rest)
  obtain ⟨found', found'', heq', hn, -⟩ := hb.found hc (offset + opening.length) rest
  refine ⟨found ++ (found' ++ found''), ?_, Or.inr ?_⟩
  · have hlength : offset + opening.length + (body ++ close).length =
        offset + (opening ++ (body ++ close)).length := by
      simp only [List.length_append]
      omega
    rw [List.append_assoc, heq, heq', hlength, List.append_assoc found]
  · rcases hn with rfl | ⟨tag, htag, hle⟩
    · obtain ⟨tag, htag, hle⟩ := h₁.resolve_left (by decide)
      exact ⟨tag, by simp [htag], by omega⟩
    · exact ⟨tag, by simp [htag], by omega⟩

theorem levelsFrom_plain (h : '\x7b' ∉ text) (offset d : Nat) (rest : List Char) :
    levelsFrom offset d 0 (text ++ rest) = levelsFrom (offset + text.length) d 0 rest := by
  induction text generalizing offset with
  | nil => rfl
  | cons c text ih =>
    have hc : c ≠ '\x7b' := fun hc => h (by simp [hc])
    rw [List.cons_append, levelsFrom, if_neg hc, ih (fun ht => h (List.mem_cons_of_mem _ ht))]
    simp only [List.length_cons]
    congr 1
    omega

theorem passes_plain (h : '\x7b' ∉ text) (d : Nat) : Passes text d d [] :=
  fun offset rest => ⟨[], rfl, levelsFrom_plain h offset d rest⟩

theorem scans_plain (h : '\x7b' ∉ text) (d : Nat) : Scans text d d 0 :=
  (passes_plain h d).scans (Or.inl rfl)

theorem levelsFrom_opening {deeper : Bool} {reach length : Nat} {rest : List Char}
    (h : readTag rest = .opening deeper reach length) (offset d : Nat) :
    levelsFrom offset d 0 ('\x7b' :: rest) =
      ⟨offset, d + reach⟩ :: levelsFrom (offset + 1) (if deeper then d + 1 else d) length rest := by
  rw [levelsFrom, if_pos rfl, h]

theorem levelsFrom_closing {block : Bool} {length : Nat} {rest : List Char}
    (h : readTag rest = .closing block length) (offset d : Nat) :
    levelsFrom offset d 0 ('\x7b' :: rest) =
      levelsFrom (offset + 1) (if block then d - 1 else d) length rest := by
  rw [levelsFrom, if_pos rfl, h]

def tagOf (content : List Char) : List Char :=
  '\x7b' :: (content ++ ['\x7d'])

theorem literalHead_eq (gap : Blanks) : literalHead gap = tagOf ("literal".toList ++ gap.chars) := by
  rw [literalHead, tagOf, List.append_assoc]

theorem closeText_literal {close : Blanks} (h : close.chars = []) :
    closeText "literal" close = literalClose := by
  rw [closeText, h]
  decide

theorem passes_opening (hopen : '\x7d' ∉ content) (hhead : content.head? ≠ some '/')
    (hlit : opensBlock content = true → tagWord content ≠ "literal") (d : Nat) :
    Passes (tagOf content) d (if opensBlock content then d + 1 else d)
      [d + (bracketDepth content + if opensBlock content then 1 else 0)] := by
  intro offset rest
  refine ⟨[⟨offset, d + (bracketDepth content + if opensBlock content then 1 else 0)⟩], rfl, ?_⟩
  have hlength : (tagOf content).length = content.length + 2 := by
    simp [tagOf]
  have htext : tagOf content ++ rest = '\x7b' :: (content ++ '\x7d' :: rest) := by
    simp [tagOf]
  rw [htext, hlength, levelsFrom_opening (readTag_opening hopen hhead hlit)]
  refine congrArg _ (levelsFrom_pass (a := content ++ ['\x7d']) (by simp) (by simp) ?_ _)
  simp only [List.length_append, List.length_singleton]
  omega

theorem passes_tag (hopen : '\x7d' ∉ content) (hhead : content.head? ≠ some '/')
    (hblock : opensBlock content = false) (d : Nat) :
    Passes (tagOf content) d d [d + bracketDepth content] := by
  have h := passes_opening hopen hhead (by simp [hblock]) d
  simpa [hblock] using h

theorem scans_tag (hopen : '\x7d' ∉ content) (hhead : content.head? ≠ some '/')
    (hblock : opensBlock content = false) (d : Nat) :
    Scans (tagOf content) d d (bracketDepth content) :=
  (passes_tag hopen hhead hblock d).scans (Or.inr ⟨_, List.mem_singleton_self _, Nat.le_refl _⟩)

theorem passes_blockTag (hopen : '\x7d' ∉ content) (hhead : content.head? ≠ some '/')
    (hblock : opensBlock content = true) (hlit : tagWord content ≠ "literal") (d : Nat) :
    Passes (tagOf content) d (d + 1) [d + (bracketDepth content + 1)] := by
  have h := passes_opening hopen hhead (fun _ => hlit) d
  simpa only [hblock, if_true] using h

theorem passes_closeTag {word : String} (hw : word ∈ blockWords) (gap : Blanks) (d : Nat) :
    Passes (closeText word gap) (d + 1) d [] := by
  intro offset rest
  have hopen : '\x7d' ∉ word.toList ++ gap.chars := by
    rw [List.mem_append]
    rintro (hc | hc)
    · exact absurd (isCommandChar_of_mem hw _ hc) (by decide)
    · exact absurd (gap.blank _ hc) (by decide)
  have htag : readTag ('/' :: (word.toList ++ gap.chars ++ '\x7d' :: rest)) =
      .closing true ((word.toList ++ gap.chars).length + 2) := by
    rw [readTag_closing hopen, tagWord_append (isCommandChar_of_mem hw) (not_command_of_blanks gap),
      List.contains_iff_mem.2 hw]
  have htext : closeText word gap ++ rest =
      '\x7b' :: '/' :: (word.toList ++ gap.chars ++ '\x7d' :: rest) := by
    simp [closeText]
  have hlength : (closeText word gap).length = (word.toList ++ gap.chars).length + 3 := by
    simp only [closeText, List.length_append, List.length_cons, List.length_nil]
    omega
  refine ⟨[], rfl, ?_⟩
  rw [htext, hlength, levelsFrom_closing htag]
  refine levelsFrom_pass (a := '/' :: (word.toList ++ gap.chars ++ ['\x7d'])) (by simp) ?_ ?_ d
  · simp only [List.length_cons, List.length_append, List.length_nil]
  · simp only [List.length_cons, List.length_append, List.length_nil]
    omega

theorem scans_closeTag {word : String} (hw : word ∈ blockWords) (gap : Blanks) (d : Nat) :
    Scans (closeText word gap) (d + 1) d 0 :=
  (passes_closeTag hw gap d).scans (Or.inl rfl)

/-- The first place where the needle stands, if it does not overlap itself. -/
theorem indexOf?_append {needle : List Char} {a rest : List Char} (hn : needle ≠ [])
    (h : ∀ x y, a = x ++ y → y ≠ [] → ¬ needle <+: y ++ (needle ++ rest)) :
    indexOf? needle (a ++ (needle ++ rest)) = some a.length := by
  induction a with
  | nil =>
    obtain ⟨c, needle', rfl⟩ := List.exists_cons_of_ne_nil hn
    have hp : (c :: needle').isPrefixOf (c :: (needle' ++ rest)) = true :=
      List.isPrefixOf_iff_prefix.2 ⟨rest, rfl⟩
    simp only [List.nil_append, List.cons_append, indexOf?, hp, if_true, List.length_nil]
  | cons c a ih =>
    have hp : needle.isPrefixOf (c :: (a ++ (needle ++ rest))) = false := by
      rw [← Bool.not_eq_true, List.isPrefixOf_iff_prefix]
      exact h [] (c :: a) rfl (by simp)
    have hrest := ih fun x y hxy hy => h (c :: x) y (by rw [hxy]; rfl) hy
    simp [indexOf?, hp, hrest]

theorem indexOf?_literalClose (content : LiteralText) (rest : List Char) :
    indexOf? literalClose ('\x7d' :: (content.chars ++ (literalClose ++ rest))) =
      some (content.chars.length + 1) := by
  refine indexOf?_append (a := '\x7d' :: content.chars) (by decide) ?_
  intro x y hxy hy hp
  cases x with
  | nil =>
    obtain ⟨z, hz⟩ := hp
    rw [List.nil_append] at hxy
    rw [← hxy] at hz
    have hhead : some '\x7b' = some '\x7d' := congrArg List.head? hz
    exact absurd hhead (by decide)
  | cons c x =>
    obtain ⟨rfl, hcontent⟩ : '\x7d' = c ∧ content.chars = x ++ y := by simpa using hxy
    obtain ⟨z, hz⟩ := hp
    rcases List.append_eq_append_iff.1 hz with ⟨w, rfl, -⟩ | ⟨w, hw, hz⟩
    · -- a closing tag within the content
      exact content.open_ x ⟨[], by simp⟩ w (by rw [hcontent, List.append_assoc]; rfl)
    · -- a closing tag that runs into the one at the end
      obtain ⟨e, y, rfl⟩ := List.exists_cons_of_ne_nil hy
      cases w with
      | nil =>
        rw [List.append_nil] at hw
        exact content.open_ x ⟨[], by simp⟩ [] (by rw [hcontent, List.append_nil, ← hw]; rfl)
      | cons f w =>
        obtain rfl : '\x7b' = f := Option.some.inj (congrArg List.head? hz)
        have hmem : '\x7b' ∈ literalClose.tail := by
          rw [hw]
          simp
        exact absurd hmem (by decide)

/-- A literal block is passed as a whole. -/
theorem passes_literal {head : List Char} (hopen : '\x7d' ∉ head) (hhead : head.head? ≠ some '/')
    (hlast : head.getLast? ≠ some '/') (hword : tagWord head = "literal") (content : LiteralText)
    (d : Nat) : Passes (tagOf head ++ (content.chars ++ literalClose)) d d
      [d + (bracketDepth head + 1)] := by
  intro offset rest
  have htag := readTag_literal hopen hhead hlast hword (indexOf?_literalClose content rest)
  have htext : tagOf head ++ (content.chars ++ literalClose) ++ rest =
      '\x7b' :: (head ++ '\x7d' :: (content.chars ++ (literalClose ++ rest))) := by
    simp [tagOf]
  refine ⟨[⟨offset, d + (bracketDepth head + 1)⟩], rfl, ?_⟩
  rw [htext, levelsFrom_opening htag]
  refine congrArg _ (levelsFrom_pass (a := head ++ '\x7d' :: (content.chars ++ literalClose))
    (by simp) ?_ ?_ d)
  · simp only [List.length_append, List.length_cons]
    omega
  · simp only [tagOf, List.length_append, List.length_cons, List.length_nil]
    omega

theorem scans_literal {head : List Char} (hopen : '\x7d' ∉ head) (hhead : head.head? ≠ some '/')
    (hlast : head.getLast? ≠ some '/') (hword : tagWord head = "literal") (content : LiteralText)
    (d : Nat) : Scans (tagOf head ++ (content.chars ++ literalClose)) d d 1 :=
  (passes_literal hopen hhead hlast hword content d).scans
    (Or.inr ⟨_, List.mem_singleton_self _, by omega⟩)

end Pieces

section Limits

theorem le_deepest_of_mem {text : List Char} {tag : TagLevel} (h : tag ∈ levels text) :
    tag.level ≤ deepest text := by
  have hfold : ∀ (tags : List TagLevel) (n : Nat),
      n ≤ tags.foldl (fun d tag => max d tag.level) n ∧
        ∀ tag ∈ tags, tag.level ≤ tags.foldl (fun d tag => max d tag.level) n := by
    intro tags
    induction tags with
    | nil => simp
    | cons t tags ih =>
      intro n
      obtain ⟨hn, htags⟩ := ih (max n t.level)
      refine ⟨by simp only [List.foldl_cons]; omega, ?_⟩
      rintro u (_ | ⟨_, hu⟩)
      · simp only [List.foldl_cons]
        omega
      · exact htags u hu
  exact (hfold (levels text) 0).2 tag h

theorem deepest_le_iff {text : List Char} {limit : Nat} :
    deepest text ≤ limit ↔ ∀ tag ∈ levels text, tag.level ≤ limit := by
  constructor
  · intro h tag htag
    exact Nat.le_trans (le_deepest_of_mem htag) h
  · intro h
    have hfold : ∀ (tags : List TagLevel) (n : Nat), n ≤ limit → (∀ tag ∈ tags, tag.level ≤ limit) →
        tags.foldl (fun d tag => max d tag.level) n ≤ limit := by
      intro tags
      induction tags with
      | nil => exact fun n hn _ => hn
      | cons t tags ih =>
        intro n hn htags
        have ht := htags t (by simp)
        exact ih _ (Nat.max_le.2 ⟨hn, ht⟩) fun u hu => htags u (List.mem_cons_of_mem _ hu)
    exact hfold (levels text) 0 (Nat.zero_le _) h

/-- The check passes exactly the texts that go no deeper than the limit. -/
theorem check_ok_iff {text : List Char} {limit : Nat} :
    (∃ depth, check text limit = .ok depth) ↔ deepest text ≤ limit := by
  rw [deepest_le_iff]
  unfold check
  constructor
  · rintro ⟨depth, h⟩
    cases hf : (levels text).find? (fun tag => limit < tag.level) with
    | some tag => simp [hf] at h
    | none =>
      intro tag htag
      simpa using List.find?_eq_none.1 hf tag htag
  · intro h
    have hf : (levels text).find? (fun tag => limit < tag.level) = none := by
      refine List.find?_eq_none.2 fun tag htag => ?_
      have := h tag htag
      simpa using this
    exact ⟨deepest text, by rw [hf]⟩

theorem Scans.le_deepest {text : List Char} {d n : Nat} (h : Scans text 0 d n) (rest : List Char) :
    n ≤ deepest (text ++ rest) := by
  obtain ⟨found, heq, hn⟩ := h 0 rest
  rcases hn with rfl | ⟨tag, htag, hle⟩
  · exact Nat.zero_le _
  · have hmem : tag ∈ levels (text ++ rest) := by
      rw [levels, heq]
      exact List.mem_append_left _ htag
    have := le_deepest_of_mem hmem
    omega

end Limits

end SoyTree.Nesting
