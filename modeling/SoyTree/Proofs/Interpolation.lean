import SoyTree.Parse
import SoyTree.Proofs.Canonical.Body

/-! # Tags that start with a command word

A tag whose first identifier is a command word belongs to that command. Where the command cannot be
read, the tag is taken for an interpolation in one case only: the word is followed by a character
that continues a command word but no identifier.
-/

namespace SoyTree

/-- The command word that a node starts with. -/
def Node.commandWord? : Node → Option String
  | .text _ _ => none
  | .interpolation _ _ => none
  | .call _ _ delegate _ => some (Concrete.callWord delegate)
  | .binding _ _ _ => some "let"
  | .control _ block _ => some block.word

namespace Grammar

open Rule Cursor Concrete

variable {s t u v : Cursor} {home : List String} {item : Rule Node} {node : Node} {word : String}

section Outcomes

theorem commandRule_word {x : String × Rule Node} (hx : x ∈ commandRules home item)
    (hy : x.2.Yields s node t) : node.commandWord? = some x.1 := by
  obtain ⟨word, rule⟩ := x
  cases commandRule_of_mem hx with
  | call delegate => cases callTag_reads hy <;> rfl
  | binding =>
    obtain ⟨gap, name, value, u, -, -, rfl⟩ := letBinding_reads hy
    rfl
  | control block parsed =>
    obtain ⟨args, nodes, u, -, -, rfl⟩ := controlBlock_reads hy
    rfl
  | literal =>
    obtain ⟨gap, content, close, -, rfl⟩ := literal_reads home hy
    rfl

theorem bodyItem_of_brace (hbrace : s.rest.head? = some '\x7b')
    (hy : (bodyItem home).Yields s node t) :
    (∃ x ∈ commandRules home (beyond s (bodyItem home)), x.2.Yields s node t) ∨
      interpolation.Yields s node t := by
  obtain ⟨p, hp, hy⟩ := (yields_bodyItem.1 hy).of_choice
  rcases List.mem_cons.1 hp with rfl | hp
  · exact absurd (textRun_fails hbrace) hy.not_fails
  rcases List.mem_append.1 hp with hp | hp
  · obtain ⟨x, hx, rfl⟩ := List.mem_map.1 hp
    exact Or.inl ⟨x, hx, hy⟩
  · exact Or.inr (List.mem_singleton.1 hp ▸ hy)

/-- Where a brace and a word stand, an item is a node of the command with that word, or else an
interpolation. -/
theorem bodyItem_cases (hopens : Opens s word.toList) (hy : (bodyItem home).Yields s node t) :
    node.commandWord? = some word ∨ interpolation.Yields s node t := by
  rcases bodyItem_of_brace hopens.brace hy with ⟨x, hx, hy⟩ | hy
  · by_cases hw : word = x.1
    · exact Or.inl (hw ▸ commandRule_word hx hy)
    · have hf := commandRule_fails hx hopens fun h => hw (String.toList_injective h)
      exact absurd hf hy.not_fails
  · exact Or.inr hy

theorem interpolation_fails (h : (bodyItem home).Fails s) : interpolation.Fails s :=
  (fails_bodyItem.1 h).of_choice interpolation (by simp)

theorem yields_interpolation : interpolation.Yields s node t ↔
    ∃ raw : Inserted, s.Reads ('\x7b' :: (raw.chars ++ ['\x7d'])) t ∧
      node = .interpolation ⟨s.position, t.position⟩ (String.ofList raw.chars) := by
  refine ⟨interpolation_reads, ?_⟩
  rintro ⟨raw, hr, rfl⟩
  have h := interpolation_yields raw hr
  rwa [markAt_of_reads hr] at h

end Outcomes

section Words

theorem isWordPart_of_reserved {w : String} (hw : w ∈ reservedWords) :
    ∀ c ∈ w.toList.tail, isWordPart c = true := by
  have h : ∀ w ∈ reservedWords, w.toList.tail.all isWordPart = true := by decide +kernel
  exact List.all_eq_true.1 (h w hw)

theorem itemWord_chars (hword : word ∈ itemWords) :
    word ∈ reservedWords ∧ (∀ c ∈ word.toList, isCommandChar c = true) ∧
      ∃ c rest, word.toList = c :: rest ∧ Text.isBlank c = false ∧ c ≠ '/' := by
  have h : ∀ w ∈ itemWords, w ∈ reservedWords ∧ w.toList.all isCommandChar = true ∧
      (w.toList.head?.any fun c => !Text.isBlank c && c != '/') = true := by decide +kernel
  obtain ⟨hreserved, hall, hhead⟩ := h word hword
  refine ⟨hreserved, List.all_eq_true.1 hall, ?_⟩
  cases hchars : word.toList with
  | nil => simp [hchars] at hhead
  | cons c rest => exact ⟨c, rest, rfl, by simpa [hchars] using hhead⟩

/-- The text of a tag that starts with an item word counts as a command unless a command character
follows the word. -/
theorem isCommand_itemWord {behind : List Char} (hword : word ∈ itemWords)
    (happart : ∀ c ∈ behind.head?, isWordPart c = false) :
    isCommand (word.toList ++ behind) = true ↔ ∀ c ∈ behind.head?, isCommandChar c = false := by
  obtain ⟨hreserved, hchars, c, rest, hcons, hblank, hslash⟩ := itemWord_chars hword
  have htrim : Text.trimStart (word.toList ++ behind) = word.toList ++ behind := by
    simp [Text.trimStart, hcons, hblank]
  have hhead : (word.toList ++ behind).head? ≠ some '/' := by
    simpa [hcons] using hslash
  have htake : (word.toList ++ behind).takeWhile isCommandChar =
      word.toList ++ behind.takeWhile isCommandChar :=
    List.takeWhile_append_of_pos hchars
  simp only [isCommand, htrim, htake, Bool.or_eq_true, beq_iff_eq, hhead, false_or,
    List.contains_iff_mem]
  cases behind with
  | nil => simp [hreserved]
  | cons d behind =>
    cases hd : isCommandChar d with
    | false => simp [hd, hreserved]
    | true =>
      -- the longer word holds a character that no reserved word holds behind its start
      simp only [List.takeWhile_cons_of_pos hd, List.head?_cons, Option.mem_def,
        Option.some.injEq, forall_eq', hd, reduceCtorEq, iff_false]
      intro hmem
      have hpart := isWordPart_of_reserved hmem d (by simp [hcons])
      rw [happart d rfl] at hpart
      cases hpart

end Words

section Tags

theorem opens_of_identifier (hopen : s.Reads ['\x7b'] u) (hid : identifier.Yields u word v) :
    Opens s word.toList ∧ u.Reads word.toList v ∧ ∀ c ∈ v.rest.head?, isWordPart c = false := by
  obtain ⟨w, hr, rfl, hstop⟩ := yields_identifier.1 hid
  rw [String.toList_ofList]
  refine ⟨⟨u.rest, hopen.rest, ?_⟩, hr, hstop⟩
  rw [hr.rest]
  exact leadWord_append w.isWord hstop

theorem exists_behind {word raw rest rest' : List Char} (hw : '\x7d' ∉ word)
    (h : word ++ rest = raw ++ '\x7d' :: rest') :
    ∃ behind, raw = word ++ behind ∧ rest = behind ++ '\x7d' :: rest' := by
  rcases List.append_eq_append_iff.1 h with ⟨x, rfl, hx⟩ | ⟨x, rfl, hx⟩
  · exact ⟨x, rfl, hx⟩
  · cases x with
    | nil => exact ⟨[], by simp, by simpa using hx.symm⟩
    | cons c x =>
      obtain rfl : '\x7d' = c := (List.cons.inj hx).1
      exact absurd (by simp) hw

theorem interpolation_at_word (hword : word ∈ itemWords) (hopen : s.Reads ['\x7b'] u)
    (hid : identifier.Yields u word v) :
    (∃ node t, interpolation.Yields s node t) ↔
      '\x7d' ∈ v.rest ∧ ∃ c ∈ v.rest.head?, isCommandChar c = true := by
  obtain ⟨-, hread, hstop⟩ := opens_of_identifier hopen hid
  have hclosed : '\x7d' ∉ word.toList := by
    intro hc
    exact absurd ((itemWord_chars hword).2.1 _ hc) (by decide)
  constructor
  · rintro ⟨node, t, hy⟩
    obtain ⟨raw, hr, -⟩ := yields_interpolation.1 hy
    have htexts : word.toList ++ v.rest = raw.chars ++ '\x7d' :: t.rest := by
      have := (hopen.trans hread).rest.symm.trans hr.rest
      simpa using this
    obtain ⟨behind, hraw, hrest⟩ := exists_behind hclosed htexts
    have hstop' : ∀ c ∈ behind.head?, isWordPart c = false := by
      intro c hc
      refine hstop c ?_
      rw [hrest, List.head?_append, Option.mem_def.1 hc]
      rfl
    have hfree := raw.free
    rw [hraw, ← Bool.not_eq_true, isCommand_itemWord hword hstop'] at hfree
    refine ⟨by simp [hrest], ?_⟩
    obtain ⟨c, hc, hcommand⟩ : ∃ c ∈ behind.head?, isCommandChar c = true := by
      simpa using hfree
    exact ⟨c, by rw [hrest, List.head?_append, Option.mem_def.1 hc]; rfl, hcommand⟩
  · rintro ⟨hend, c, hc, hcommand⟩
    obtain ⟨behind, rest, hrest, hopen'⟩ := List.eq_append_cons_of_mem hend
    have hhead : behind.head? = some c := by
      cases behind with
      | nil =>
        obtain rfl : '\x7d' = c := by simpa [hrest] using hc
        exact absurd hcommand (by decide)
      | cons d behind => simpa [hrest] using hc
    have hfree : isCommand (word.toList ++ behind) = false := by
      rw [← Bool.not_eq_true, isCommand_itemWord hword]
      · intro h
        rw [h c hhead] at hcommand
        cases hcommand
      · intro d hd
        refine hstop d ?_
        rw [hrest, List.head?_append, Option.mem_def.1 hd]
        rfl
    let raw : Inserted := ⟨word.toList ++ behind, by simp [hclosed, hopen'], hfree⟩
    let t : Cursor := ⟨v.position.after (behind ++ ['\x7d']), rest⟩
    have htag : v.Reads (behind ++ ['\x7d']) t := ⟨by simp [t, hrest], rfl⟩
    have hr : s.Reads ('\x7b' :: (raw.chars ++ ['\x7d'])) t := by
      simpa [raw] using hopen.trans (hread.trans htag)
    exact ⟨_, t, yields_interpolation.2 ⟨raw, hr, rfl⟩⟩

/-- Where a tag starts with an item word, an item is a node of that command or an interpolation. It
is an interpolation exactly if no node of the command is read there, the tag ends, and the character
behind the word continues a command word, though it continues no identifier. -/
theorem bodyItem_at_word (home : List String) (hword : word ∈ itemWords)
    (hopen : s.Reads ['\x7b'] u) (hid : identifier.Yields u word v) :
    (∀ node t, (bodyItem home).Yields s node t →
      node.commandWord? = some word ∨ ∃ mark raw, node = .interpolation mark raw) ∧
    ((∃ mark raw t, (bodyItem home).Yields s (.interpolation mark raw) t) ↔
      (∀ node t, node.commandWord? = some word → ¬ (bodyItem home).Yields s node t) ∧
        '\x7d' ∈ v.rest ∧ ∃ c ∈ v.rest.head?, isCommandChar c = true) := by
  have hopens := (opens_of_identifier hopen hid).1
  rw [← interpolation_at_word hword hopen hid]
  refine ⟨fun node t hy => ?_, ⟨?_, ?_⟩⟩
  · rcases bodyItem_cases hopens hy with hnode | hy
    · exact Or.inl hnode
    · obtain ⟨raw, -, rfl⟩ := yields_interpolation.1 hy
      exact Or.inr ⟨_, _, rfl⟩
  · rintro ⟨mark, raw, t, hy⟩
    refine ⟨fun node t' hnode hy' => ?_, ?_⟩
    · obtain ⟨rfl, -⟩ := hy.unique hy'
      cases hnode
    · rcases bodyItem_cases hopens hy with hnode | hy
      · cases hnode
      · exact ⟨_, t, hy⟩
  · rintro ⟨hnone, hinterpolation⟩
    rcases yields_or_fails (bodyItem home) s with ⟨node, t, hy⟩ | hf
    · rcases bodyItem_cases hopens hy with hnode | hy'
      · exact absurd hy (hnone node t hnode)
      · obtain ⟨raw, -, rfl⟩ := yields_interpolation.1 hy'
        exact ⟨_, _, t, hy⟩
    · exact absurd (interpolation_fails hf) (not_fails_iff.2 hinterpolation)

theorem brokenBlock_at_word :
    let s := Cursor.ofChars "\x7bif $x\x7dy\x7b/template\x7d".toList
    "if" ∈ itemWords ∧ s.Reads ['\x7b'] (s.skip 1) ∧
      identifier.Yields (s.skip 1) "if" (s.skip 3) ∧
      ∀ mark raw t, ¬ (bodyItem ["a"]).Yields s (.interpolation mark raw) t := by
  intro s
  have hopen : s.Reads ['\x7b'] (s.skip 1) := ⟨by decide, by decide⟩
  have hblank : (s.skip 3).Reads [' '] (s.skip 4) := ⟨by decide, by decide⟩
  have hid : identifier.Yields (s.skip 1) "if" (s.skip 3) :=
    identifier_yields ⟨"if".toList, by decide⟩ ⟨by decide, by decide⟩
      (hblank.forall_cons (by decide))
  refine ⟨by decide, hopen, hid, fun mark raw t hy => ?_⟩
  obtain ⟨-, -, c, hc, hcommand⟩ :=
    (bodyItem_at_word ["a"] (by decide) hopen hid).2.1 ⟨mark, raw, t, hy⟩
  obtain rfl : ' ' = c := by simpa [s, Cursor.skip, Cursor.ofChars] using hc
  exact absurd hcommand (by decide)

def interpolates (home : List String) (s : Cursor) (text : String) : Bool :=
  match bodyItem home s with
  | .ok (.interpolation _ raw) _ _ => raw == text
  | _ => false

theorem exists_interpolation {text : String} (h : interpolates home s text = true) :
    ∃ mark t, (bodyItem home).Yields s (.interpolation mark text) t := by
  unfold interpolates at h
  split at h
  · rename_i mark raw t hint hy
    obtain rfl : raw = text := by simpa using h
    exact ⟨mark, t, hint, hy⟩
  · cases h

/-- With a command character behind its word, the tag of a block without closing tag is read as an
interpolation, and the source is accepted. -/
theorem joinedWord_interpolated :
    let source := "\x7bnamespace a\x7d\x7btemplate .t\x7d\x7bif@x\x7dy\x7b/template\x7d"
    let s := (Cursor.ofChars source.toList).skip 26
    "if" ∈ itemWords ∧ s.Reads ['\x7b'] (s.skip 1) ∧
      identifier.Yields (s.skip 1) "if" (s.skip 3) ∧
      (∃ mark t, (bodyItem ["a"]).Yields s (.interpolation mark "if@x") t) ∧
      (parse source).isOk = true := by
  intro source s
  have hat : (s.skip 3).Reads ['@'] (s.skip 4) := ⟨by decide +kernel, by decide +kernel⟩
  refine ⟨by decide, ⟨by decide +kernel, by decide +kernel⟩, ?_,
    exists_interpolation (by decide +kernel), by decide +kernel⟩
  exact identifier_yields ⟨"if".toList, by decide⟩ ⟨by decide +kernel, by decide +kernel⟩
    (hat.forall_cons (by decide))

end Tags

end Grammar

end SoyTree
