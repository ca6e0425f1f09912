import SoyTree.Proofs.Canonical.Lexical
import SoyTree.Proofs.Concrete.Item

/-! # Telling commands apart

Each rule of a body but two starts with a command word of its own, so at an opening brace the word
behind it decides which of them can succeed.
-/

namespace SoyTree.Grammar

open Rule Cursor Concrete

variable {s t : Cursor} {w : List Char} {home : List String} {item : Rule Node} {node : Node}

/-- An opening brace with this word behind it, or with no word if `w` is empty. -/
def Opens (s : Cursor) (w : List Char) : Prop :=
  ∃ rest, s.rest = '\x7b' :: rest ∧ leadWord rest = w

theorem Opens.brace (h : Opens s w) : s.rest.head? = some '\x7b' := by
  obtain ⟨rest, hs, -⟩ := h
  rw [hs]
  rfl

theorem opens_of_reads {word : String} {rest : List Char} (hw : isWord word.toList = true)
    (hrest : ∀ c ∈ (rest ++ t.rest).head?, isWordPart c = false)
    (hr : s.Reads ('\x7b' :: (word.toList ++ rest)) t) : Opens s word.toList := by
  refine ⟨word.toList ++ (rest ++ t.rest), ?_, leadWord_append hw hrest⟩
  rw [hr.rest, List.cons_append, List.append_assoc]

theorem opens_gap {word : String} {rest : List Char} (hw : isWord word.toList = true) (g : Gap)
    (hr : s.Reads ('\x7b' :: (word.toList ++ (g.chars ++ rest))) t) : Opens s word.toList := by
  refine opens_of_reads hw ?_ hr
  rw [List.append_assoc]
  exact g.forall_head _ fun c => isWordPart_of_blank

theorem opens_tag {word : String} (hw : isWord word.toList = true) (args : TagArgs)
    (hr : s.Reads (tagText word args.chars) t) : Opens s word.toList := by
  refine opens_of_reads hw ?_ hr
  rw [List.append_assoc]
  refine forall_head?_append args.apart ?_
  rintro c (_ | _)
  decide

theorem opens_close {name : String} {close : Blanks} (hr : s.Reads (closeText name close) t) :
    Opens s [] :=
  ⟨_, hr.rest, rfl⟩

section Failures

theorem command_fails {α : Type} {name : String} {f : Unit → Rule α} (h : Opens s w)
    (hw : w ≠ name.toList) : (char '\x7b' >>= fun _ => keyword name >>= f).Fails s := by
  obtain ⟨rest, hs, rfl⟩ := h
  have hc : (char '\x7b').Yields s () ⟨s.position.next '\x7b', rest⟩ := char_yields ⟨hs, rfl⟩
  exact Fails.bind_later hc (Fails.bind (fails_keyword hw))

theorem openTag_fails {names : List String} (h : Opens s w) (hw : ∀ n ∈ names, w ≠ n.toList) :
    (openTag names).Fails s := by
  obtain ⟨rest, hs, rfl⟩ := h
  have hc : (char '\x7b').Yields s () ⟨s.position.next '\x7b', rest⟩ := char_yields ⟨hs, rfl⟩
  refine Fails.bind_later hc (Fails.bind (fails_iff.2 fun d t hy => ?_))
  obtain ⟨n, hn, hk⟩ := yields_commandWord.1 hy
  exact hk.not_fails (fails_keyword (hw n hn))

theorem openTag_fails_of_text {names : List String} (h : s.rest.head? ≠ some '\x7b') :
    (openTag names).Fails s :=
  Fails.bind (fails_char.2 h)

theorem textRun_fails (h : s.rest.head? = some '\x7b') : textRun.Fails s := by
  refine fails_marked.2 (fails_run1.2 fun c hc => ?_)
  obtain rfl : '\x7b' = c := Option.some.inj (h.symm.trans hc)
  decide

/-- The rules of a body that start with a command word, and that word. -/
def commandRules (home : List String) (item : Rule Node) : List (String × Rule Node) :=
  [("call", call home false item), ("delcall", call home true item), ("let", letBinding item),
    ("if", controlBlock .cond item), ("foreach", controlBlock .foreach item),
    ("for", controlBlock .loop item), ("msg", controlBlock .message item),
    ("switch", controlBlock .switch item), ("plural", controlBlock .plural item),
    ("select", controlBlock .select item), ("literal", literal)]

/-- A rule of a body with the command word that it starts with. -/
inductive CommandRule (home : List String) (item : Rule Node) : String → Rule Node → Prop where
  | call (delegate : Bool) : CommandRule home item (callWord delegate) (call home delegate item)
  | binding : CommandRule home item "let" (letBinding item)
  | control (block : Control) (parsed : block ≠ .literal) :
      CommandRule home item block.word (controlBlock block item)
  | literal : CommandRule home item "literal" literal

theorem commandRule_of_mem {word : String} {rule : Rule Node}
    (h : (word, rule) ∈ commandRules home item) : CommandRule home item word rule := by
  simp only [commandRules, List.mem_cons, Prod.mk.injEq, List.not_mem_nil, or_false] at h
  rcases h with ⟨rfl, rfl⟩ | ⟨rfl, rfl⟩ | ⟨rfl, rfl⟩ | ⟨rfl, rfl⟩ | ⟨rfl, rfl⟩ | ⟨rfl, rfl⟩ |
    ⟨rfl, rfl⟩ | ⟨rfl, rfl⟩ | ⟨rfl, rfl⟩ | ⟨rfl, rfl⟩ | ⟨rfl, rfl⟩
  · exact .call false
  · exact .call true
  · exact .binding
  · exact .control .cond (by decide)
  · exact .control .foreach (by decide)
  · exact .control .loop (by decide)
  · exact .control .message (by decide)
  · exact .control .switch (by decide)
  · exact .control .plural (by decide)
  · exact .control .select (by decide)
  · exact .literal

theorem bodyRule_cases {p : Rule Node}
    (h : p ∈ textRun :: ((commandRules home item).map Prod.snd ++ [interpolation])) :
    p = textRun ∨ (∃ word, CommandRule home item word p) ∨ p = interpolation := by
  rcases List.mem_cons.1 h with h | h
  · exact Or.inl h
  rcases List.mem_append.1 h with h | h
  · obtain ⟨⟨word, rule⟩, hx, rfl⟩ := List.mem_map.1 h
    exact Or.inr (Or.inl ⟨word, commandRule_of_mem hx⟩)
  · exact Or.inr (Or.inr (List.mem_singleton.1 h))

theorem isWord_callWord (delegate : Bool) : isWord (callWord delegate).toList = true := by
  cases delegate <;> decide

theorem isWord_control (block : Control) : isWord block.word.toList = true := by
  cases block <;> decide

def itemWords : List String :=
  ["call", "delcall", "let", "if", "foreach", "for", "msg", "switch", "plural", "select", "literal"]

theorem commandRules_words : (commandRules home item).map Prod.fst = itemWords :=
  rfl

theorem controlBlock_fails {block : Control} (h : Opens s w) (hw : w ≠ block.word.toList) :
    (controlBlock block item).Fails s := by
  refine fails_closed.2 (fails_marked.2 (Fails.bind (openTag_fails h ?_)))
  rintro n (_ | ⟨_, hn⟩)
  · exact hw
  · cases hn

theorem commandRule_fails {x : String × Rule Node} (hx : x ∈ commandRules home item)
    (h : Opens s w) (hw : w ≠ x.1.toList) : x.2.Fails s := by
  obtain ⟨word, rule⟩ := x
  cases commandRule_of_mem hx with
  | call delegate => exact fails_closed.2 (fails_marked.2 (command_fails h hw))
  | binding => exact fails_closed.2 (fails_marked.2 (command_fails h hw))
  | control block parsed => exact controlBlock_fails h hw
  | literal => exact fails_closed.2 (fails_marked.2 (command_fails h hw))

end Failures

section Items

theorem bodyItem_eq (home : List String) (s : Cursor) : bodyItem home s =
    choice (textRun :: ((commandRules home (beyond s (bodyItem home))).map Prod.snd ++
      [interpolation])) s :=
  recursive_eq _ s

theorem yields_bodyItem : (bodyItem home).Yields s node t ↔
    (choice (textRun :: ((commandRules home (beyond s (bodyItem home))).map Prod.snd ++
      [interpolation]))).Yields s node t := by
  unfold Yields
  rw [bodyItem_eq]

theorem fails_bodyItem : (bodyItem home).Fails s ↔
    (choice (textRun :: ((commandRules home (beyond s (bodyItem home))).map Prod.snd ++
      [interpolation]))).Fails s := by
  simp only [fails_iff, yields_bodyItem]

theorem bodyItem_textRun (h : textRun.Yields s node t) : (bodyItem home).Yields s node t := by
  rw [yields_bodyItem, ← List.nil_append (textRun :: _)]
  exact Yields.choice (by simp) h

/-- The words of the rules are all different, so that the rule for the word at hand is reached. -/
theorem bodyItem_command {word : String} {rule : Rule Node}
    (hx : (word, rule) ∈ commandRules home (beyond s (bodyItem home)))
    (h : Opens s word.toList) (hy : rule.Yields s node t) : (bodyItem home).Yields s node t := by
  have hnodup : ((commandRules home (beyond s (bodyItem home))).map Prod.fst).Nodup := by
    rw [commandRules_words]
    decide
  obtain ⟨before, after, hsplit⟩ := List.append_of_mem hx
  have hbrace : s.rest.head? = some '\x7b' := by
    obtain ⟨rest, hs, -⟩ := h
    rw [hs]
    rfl
  rw [yields_bodyItem, hsplit, List.map_append, List.map_cons, List.append_assoc, List.cons_append,
    ← List.cons_append]
  refine Yields.choice (fun q hq => ?_) hy
  rcases List.mem_cons.1 hq with rfl | hq
  · exact textRun_fails hbrace
  · obtain ⟨x, hx, rfl⟩ := List.mem_map.1 hq
    have hmem : x ∈ commandRules home (beyond s (bodyItem home)) := by
      rw [hsplit]
      exact List.mem_append_left _ hx
    refine commandRule_fails hmem h fun hw => ?_
    rw [hsplit, List.map_append, List.nodup_append] at hnodup
    exact hnodup.2.2 x.1 (List.mem_map_of_mem hx) word (by simp) (String.toList_injective hw).symm

theorem commandRules_reserved {x : String × Rule Node} (hx : x ∈ commandRules home item) :
    x.1 ∈ reservedWords := by
  have hreserved : ∀ w ∈ itemWords, w ∈ reservedWords := by decide
  exact hreserved x.1 (commandRules_words ▸ List.mem_map_of_mem hx)

/-- No item starts at a closing tag. -/
theorem bodyItem_fails {rest : List Char} (h : s.rest = '\x7b' :: '/' :: rest) :
    (bodyItem home).Fails s := by
  have hopens : Opens s [] := ⟨'/' :: rest, h, rfl⟩
  refine fails_bodyItem.2 (Fails.choice fun q hq => ?_)
  rcases List.mem_cons.1 hq with rfl | hq
  · exact textRun_fails (by rw [h]; rfl)
  · rcases List.mem_append.1 hq with hq | hq
    · obtain ⟨x, hx, rfl⟩ := List.mem_map.1 hq
      refine commandRule_fails hx hopens fun hw => ?_
      have hreserved := commandRules_reserved hx
      rw [String.toList_injective (show x.1.toList = "".toList from hw.symm)] at hreserved
      exact absurd hreserved (by decide)
    · obtain rfl := List.mem_singleton.1 hq
      refine fails_marked.2 (fails_iff.2 fun raw t hy => ?_)
      simp only [yields_check, yields_bind, yields_char, yields_rawThrough_char] at hy
      obtain ⟨raw', ⟨-, u, hb, hopen, hr⟩, hok⟩ := hy
      have hslash : (raw' ++ '\x7d' :: t.rest).head? = some '/' := by
        have hs := (hb.trans hr).rest
        rw [h] at hs
        simp only [List.cons_append, List.nil_append, List.append_assoc, List.cons.injEq,
          true_and] at hs
        rw [← hs]
        rfl
      have hcommand : isCommand raw' = true := by
        cases raw' with
        | nil => exact absurd hslash (by simp)
        | cons c raw' =>
          obtain rfl : c = '/' := by simpa using hslash
          rfl
      rw [hcommand] at hok
      cases hok

end Items

end SoyTree.Grammar
