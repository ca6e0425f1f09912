import SoyTree.Proofs.Grammar.Nodes

/-! # Inline values

Every inline value in the tree of a parsed source was read by the rule for expressions, at some
place of that source.
-/

namespace SoyTree

mutual

def Node.values : Node → List Expr
  | .text _ _ => []
  | .interpolation _ _ => []
  | .call _ _ _ params => Node.paramsValues params
  | .binding _ _ value => value.values
  | .control _ _ body => Node.bodyValues body

def Value.values : Value → List Expr
  | .inline e => [e]
  | .block body => Node.bodyValues body

def Node.paramsValues : List Param → List Expr
  | [] => []
  | .mk _ _ value :: rest => value.values ++ Node.paramsValues rest

def Node.bodyValues : List Node → List Expr
  | [] => []
  | n :: rest => n.values ++ Node.bodyValues rest

end

def Program.values (p : Program) : List Expr :=
  p.templates.flatMap fun t => Node.bodyValues t.body

section Own

variable {e : Expr}

def Value.ownValues : Value → List Expr
  | .inline e => [e]
  | .block _ => []

/-- The inline values within a node that stand in no node below it. -/
def Node.ownValues : Node → List Expr
  | .text _ _ => []
  | .interpolation _ _ => []
  | .call _ _ _ params => params.flatMap fun q => q.value.ownValues
  | .binding _ _ value => value.ownValues
  | .control _ _ _ => []

mutual

/-- An inline value within a node stands in the node itself or in a node below it. -/
theorem Node.exists_own (n : Node) (h : e ∈ n.values) :
    e ∈ n.ownValues ∨ ∃ m ∈ n.within, e ∈ m.ownValues := by
  match n with
  | .text _ _ => exact absurd h List.not_mem_nil
  | .interpolation _ _ => exact absurd h List.not_mem_nil
  | .call _ _ _ params => exact Node.exists_own_of_params params h
  | .binding _ _ value => exact value.exists_own h
  | .control _ _ body => exact Or.inr (Node.exists_own_of_body body h)

theorem Value.exists_own (v : Value) (h : e ∈ v.values) :
    e ∈ v.ownValues ∨ ∃ m ∈ v.nodes, e ∈ m.ownValues := by
  match v with
  | .inline _ => exact Or.inl h
  | .block body => exact Or.inr (Node.exists_own_of_body body h)

theorem Node.exists_own_of_params (params : List Param) (h : e ∈ Node.paramsValues params) :
    (e ∈ params.flatMap fun q => q.value.ownValues) ∨
      ∃ m ∈ Node.paramsNodes params, e ∈ m.ownValues := by
  match params with
  | [] => exact absurd h List.not_mem_nil
  | .mk mark name value :: rest =>
    rw [List.flatMap_cons, Node.paramsNodes]
    rcases List.mem_append.1 h with h | h
    · rcases value.exists_own h with h | ⟨m, hm, h⟩
      · exact Or.inl (List.mem_append_left _ h)
      · exact Or.inr ⟨m, List.mem_append_left _ hm, h⟩
    · rcases Node.exists_own_of_params rest h with h | ⟨m, hm, h⟩
      · exact Or.inl (List.mem_append_right _ h)
      · exact Or.inr ⟨m, List.mem_append_right _ hm, h⟩

theorem Node.exists_own_of_body (body : List Node) (h : e ∈ Node.bodyValues body) :
    ∃ m ∈ Node.bodyNodes body, e ∈ m.ownValues := by
  match body with
  | [] => exact absurd h List.not_mem_nil
  | n :: rest =>
    rw [Node.bodyNodes]
    rcases List.mem_append.1 h with h | h
    · rcases n.exists_own h with h | ⟨m, hm, h⟩
      · exact ⟨n, List.mem_cons_self, h⟩
      · exact ⟨m, List.mem_cons_of_mem _ (List.mem_append_left _ hm), h⟩
    · obtain ⟨m, hm, h⟩ := Node.exists_own_of_body rest h
      exact ⟨m, List.mem_cons_of_mem _ (List.mem_append_right _ hm), h⟩

end

end Own

namespace Grammar

open Rule Cursor Concrete

variable {α : Type} {s t u : Cursor} {home : List String} {item : Rule Node}

/-- No blank stands at the cursor. -/
def Visible (s : Cursor) : Prop :=
  ∀ c ∈ s.rest.head?, blank.accepts c = false

/-- All of `es` were read as inline values, at `s` or behind it, and behind all blanks there. -/
def HasValues (s : Cursor) (es : List SoyTree.Expr) : Prop :=
  ∀ e ∈ es, ∃ u t, s.Reaches u ∧ Visible u ∧ (expression slashClose).Yields u e t

namespace HasValues

variable {es es' : List SoyTree.Expr}

theorem nil : HasValues s [] := by
  simp [HasValues]

theorem later (hr : s.Reaches t) (h : HasValues t es) : HasValues s es := by
  intro e he
  obtain ⟨u, v, hu, hy⟩ := h e he
  exact ⟨u, v, hr.trans hu, hy⟩

theorem append (h : HasValues s es) (h' : HasValues s es') : HasValues s (es ++ es') := by
  intro e he
  rcases List.mem_append.1 he with he | he
  · exact h e he
  · exact h' e he

theorem left (h : HasValues s (es ++ es')) : HasValues s es :=
  fun e he => h e (List.mem_append_left _ he)

theorem right (h : HasValues s (es ++ es')) : HasValues s es' :=
  fun e he => h e (List.mem_append_right _ he)

theorem append_iff : HasValues s (es ++ es') ↔ HasValues s es ∧ HasValues s es' :=
  ⟨fun h => ⟨h.left, h.right⟩, fun h => h.1.append h.2⟩

end HasValues

section Bodies

theorem bindingValue_values {word : String} {value : Value}
    (h : (bindingValue word item).Yields s value t) : HasValues s value.ownValues := by
  cases bindingValue_reads h with
  | @inline u v _ e gap₁ gap₂ gap₃ head visible value close =>
    rintro e' (_ | ⟨_, ⟨⟩⟩)
    exact ⟨u, v, head.reaches, visible, value⟩
  | block attrs gap head content => exact HasValues.nil

theorem NodeRead.values {n : Node} (h : NodeRead home s n) : HasValues s n.ownValues := by
  rcases h with ⟨u, t, hr, hy⟩ | ⟨mark, content, rfl, -⟩
  · refine HasValues.later hr ?_
    obtain ⟨item, hi, hrule⟩ := bodyItem_byRule hy
    cases hrule with
    | text h =>
      obtain ⟨mark, content, rfl, -⟩ := textRun_parts h
      exact HasValues.nil
    | call delegate h =>
      obtain ⟨mark, target, params, rfl, hparams⟩ := call_parts hi.spelled h
      intro e he
      obtain ⟨q, hq, he⟩ := List.mem_flatMap.1 he
      obtain ⟨v, v', hv, hparam⟩ := hparams q hq
      obtain ⟨-, w, w', hw, hvalue⟩ := param_parts hparam
      exact (bindingValue_values hvalue).later (hv.trans hw) e he
    | binding h =>
      obtain ⟨mark, name, value, rfl, -, v, v', hv, hvalue⟩ := letBinding_parts h
      exact (bindingValue_values hvalue).later hv
    | control block parsed h =>
      obtain ⟨mark, body, rfl, -⟩ := controlBlock_parts h
      exact HasValues.nil
    | literal h =>
      obtain ⟨mark, body, rfl, -⟩ := literal_parts h
      exact HasValues.nil
    | interpolation h =>
      obtain ⟨mark, raw, rfl, -⟩ := interpolation_parts h
      exact HasValues.nil
  · exact HasValues.nil

/-- Where the nodes of a body were read, so were the inline values within it. -/
theorem HasNodes.values {body : List Node} (h : HasNodes home s (Node.bodyNodes body)) :
    HasValues s (Node.bodyValues body) := by
  intro e he
  obtain ⟨n, hn, he⟩ := Node.exists_own_of_body body he
  exact (h n hn).values e he

end Bodies

section Files

variable {T : Template}

theorem templateItem_values (h : (templateItem home (bodyItem home)).Yields s T t) :
    HasValues s (Node.bodyValues T.body) :=
  (templateItem_nodes h).values

theorem entries_values {templates : List Template}
    (h : (many (trivia >>= fun _ => templateItem home (bodyItem home))).Yields s templates t) :
    HasValues s (templates.flatMap fun T => Node.bodyValues T.body) := by
  intro e he
  obtain ⟨T, hT, he⟩ := List.mem_flatMap.1 he
  obtain ⟨u, v, hr, hentry⟩ := many_reads leads_entry h T hT
  obtain ⟨w, hw, hy⟩ := entry_template hentry
  exact (templateItem_values hy).later (hr.trans hw) e he

/-- Each inline value of a parsed source was read as an expression, at a place of the source. -/
theorem parse_values {source : String} {options : Options} {program : Program}
    (h : parseWith source options = .ok program) :
    HasValues (.ofChars source.toList) program.values := by
  intro e he
  obtain ⟨T, hT, he⟩ := List.mem_flatMap.1 he
  obtain ⟨u, t, hr, hy⟩ := (parse_templates h).2 T hT
  exact (templateItem_values hy).later hr e he

end Files

end Grammar

end SoyTree
