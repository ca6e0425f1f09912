import SoyTree.Proofs.Expression.Question
import SoyTree.Proofs.Grammar.Values

/-! # Places of expressions

Every expression of a program with the place that it takes: inside or outside brackets, as a whole
or as the condition or first branch of a ternary. The place decides where raw text stops, and so
what raw text can hold.
-/

namespace SoyTree

/-- The place of an expression among its neighbours. -/
inductive Place where
  /-- An inline value, an argument, a map value, or the second branch of a ternary. -/
  | whole
  | condition
  /-- The first branch of a ternary. -/
  | branch
  deriving DecidableEq, Repr

/-- An expression and its place; `inside` says whether it stands in the brackets of a call or
map. -/
structure Occurrence where
  inside : Bool
  place : Place
  expr : Expr

mutual

/-- The expressions below an expression, in source order. -/
def Expr.inner : (inside : Bool) → Expr → List Occurrence
  | _, .reference _ _ => []
  | _, .string _ => []
  | _, .boolean _ _ => []
  | _, .number _ _ => []
  | _, .map _ items => Expr.itemsInner items
  | _, .call _ _ args => Expr.argsInner args
  | inside, .ternary _ cond left right =>
    (⟨inside, .condition, cond⟩ :: cond.inner inside) ++
      ((⟨inside, .branch, left⟩ :: left.inner inside) ++
        (⟨inside, .whole, right⟩ :: right.inner inside))
  | _, .raw _ _ => []

def Expr.argsInner : List Expr → List Occurrence
  | [] => []
  | e :: rest => (⟨true, .whole, e⟩ :: e.inner true) ++ Expr.argsInner rest

def Expr.itemsInner : List MapItem → List Occurrence
  | [] => []
  | .mk _ _ value :: rest => (⟨true, .whole, value⟩ :: value.inner true) ++ Expr.itemsInner rest

end

def Expr.occurrences (inside : Bool) (place : Place) (e : Expr) : List Occurrence :=
  ⟨inside, place, e⟩ :: e.inner inside

def Program.occurrences (p : Program) : List Occurrence :=
  p.values.flatMap (Expr.occurrences false .whole)

namespace Grammar

open Rule Cursor Concrete

variable {α : Type} {s t u : Cursor} {inside : Bool} {place : Place} {stop : Rule Unit}
  {nested again : Rule SoyTree.Expr} {e : SoyTree.Expr}

/-- Raw text that was read between two cursors at a certain place. -/
structure RawRead (inside : Bool) (place : Place) (s : Cursor) (text : List Char) (t : Cursor) :
    Prop where
  reads : s.Reads text t
  stops : (contextStop inside).Misses s text t
  whole : place = .whole → hasBareQuestion text = false
  condition : place = .condition → question.Misses s text t ∧
    ∃ (gap : Blanks) (rest : List Char), t.rest = gap.chars ++ '?' :: rest
  branch : place = .branch → colon.Misses s text t

/-- A ternary that was read between two cursors; nothing joins its question mark. -/
def TernaryRead (inside : Bool) (s : Cursor) (e : SoyTree.Expr) (t : Cursor) : Prop :=
  ∃ (cond : Concrete.Expr inside) (gap₁ gap₂ : Blanks) (left : Concrete.Expr inside)
    (gap₃ gap₄ : Blanks) (right : Concrete.Expr inside),
    s.Reads (Concrete.Expr.ternary cond gap₁ gap₂ left gap₃ gap₄ right).text t ∧
    e = (Concrete.Expr.ternary cond gap₁ gap₂ left gap₃ gap₄ right).tree s.position ∧
    ∀ c ∈ (gap₂.chars ++ (left.text ++ (gap₃.chars ++ (':' :: (gap₄.chars ++ right.text))))).head?,
      joinsQuestion c = false

/-- What is known of an occurrence that was read between two cursors. -/
def OccurrenceRead (s : Cursor) (x : Occurrence) (t : Cursor) : Prop :=
  match x.expr with
  | .raw mark text =>
    mark = ⟨s.position, t.position⟩ ∧ RawRead x.inside x.place s text.toList t
  | .ternary mark cond left right => TernaryRead x.inside s (.ternary mark cond left right) t
  | _ => True

/-- All of the occurrences were read at `s` or behind it. -/
def HasPlaces (s : Cursor) (xs : List Occurrence) : Prop :=
  ∀ x ∈ xs, ∃ u t, s.Reaches u ∧ OccurrenceRead u x t

namespace HasPlaces

variable {x : Occurrence} {xs ys : List Occurrence}

theorem nil : HasPlaces s [] := by
  simp [HasPlaces]

theorem later (hr : s.Reaches t) (h : HasPlaces t xs) : HasPlaces s xs := by
  intro x hx
  obtain ⟨u, v, hu, hy⟩ := h x hx
  exact ⟨u, v, hr.trans hu, hy⟩

theorem append (h : HasPlaces s xs) (h' : HasPlaces s ys) : HasPlaces s (xs ++ ys) := by
  intro x hx
  rcases List.mem_append.1 hx with hx | hx
  · exact h x hx
  · exact h' x hx

theorem cons (hx : OccurrenceRead s x t) (h : HasPlaces s xs) : HasPlaces s (x :: xs) := by
  rintro y (_ | ⟨_, hy⟩)
  · exact ⟨s, t, .refl s, hx⟩
  · exact h y hy

end HasPlaces

/-- Whatever the rule reads at this place moves on and is known with all that stands below it. -/
def ReadsPlaces (inside : Bool) (place : Place) (p : Rule SoyTree.Expr) : Prop :=
  p.Ensures fun s e t => s.Reaches t ∧ HasPlaces s (e.occurrences inside place)

section Forms

theorem argsInner_eq (args : List SoyTree.Expr) :
    Expr.argsInner args = args.flatMap (Expr.occurrences true .whole) := by
  induction args with
  | nil => rfl
  | cons e rest ih => simp only [Expr.argsInner, ih, List.flatMap_cons, Expr.occurrences]

theorem itemsInner_eq (items : List SoyTree.MapItem) :
    Expr.itemsInner items = items.flatMap fun i => i.value.occurrences true .whole := by
  induction items with
  | nil => rfl
  | cons i rest ih =>
    obtain ⟨mark, key, value⟩ := i
    simp only [Expr.itemsInner, ih, List.flatMap_cons, Expr.occurrences, MapItem.value]

/-- A form of operand is known if all that stands below it is. -/
theorem form_places {build : Mark → α → SoyTree.Expr} {p : Rule α}
    (hspelled : ReadsExpr inside (marked build p))
    (hread : ∀ mark v s t, OccurrenceRead s ⟨inside, place, build mark v⟩ t)
    (hinner : ∀ mark s v t, p.Yields s v t → HasPlaces s ((build mark v).inner inside)) :
    ReadsPlaces inside place (marked build p) := by
  intro s e t h
  obtain ⟨c, hr, -⟩ := hspelled s e t h
  obtain ⟨v, hv, rfl⟩ := yields_marked.1 h
  exact ⟨hr.reaches, (hinner _ s v t hv).cons (hread _ v s t)⟩

theorem bracketed_items {item : Rule α} {opening closing : Char} {vs : List α}
    (hitem : item.Ensures fun s _ t => s.Reaches t)
    (h : (bracketed opening closing item).Yields s vs t) :
    ∀ v ∈ vs, ∃ u w, s.Reaches u ∧ item.Yields u v w := by
  simp only [bracketed, yields_bind, yields_char, yields_blanks, yields_pure] at h
  obtain ⟨-, u₁, ho, -, u₂, ⟨before, hb, -⟩, items, u₃, hi, -, u₄, -, -, u₅, -, rfl, -⟩ := h
  have hstart := (ho.trans hb).reaches
  rcases yields_sepBy.1 hi with hi | ⟨-, rfl, -⟩
  · obtain ⟨v, u, ws, hv, hm, rfl⟩ := yields_sepBy1.1 hi
    have hmore : ∀ w ∈ ws, ∃ u' w', u.Reaches u' ∧ item.Yields u' w w' := by
      refine hm.many_induction (P := fun u ws _ => ∀ w ∈ ws, ∃ u' w', u.Reaches u' ∧
        item.Yields u' w w') (by simp) ?_
      intro s' v' u' vs' t' hp ih
      obtain ⟨_, m, hsep, hv'⟩ := yields_bind.1 hp
      obtain ⟨sep, hr⟩ := separator_spelled hsep
      rintro w (_ | ⟨_, hw⟩)
      · exact ⟨m, u', hr.reaches, hv'⟩
      · obtain ⟨u'', w', hr', hy⟩ := ih w hw
        exact ⟨u'', w', hr.reaches.trans ((hitem _ _ _ hv').trans hr'), hy⟩
    rintro w (_ | ⟨_, hw⟩)
    · exact ⟨u₂, u, hstart, hv⟩
    · obtain ⟨u', w', hr, hy⟩ := hmore w hw
      exact ⟨u', w', hstart.trans ((hitem _ _ _ hv).trans hr), hy⟩
  · simp

theorem mapItem_value {i : SoyTree.MapItem} (h : (mapItem nested).Yields s i t) :
    ∃ u, s.Reaches u ∧ nested.Yields u i.value t := by
  simp only [mapItem, yields_marked, yields_bind, yields_pure] at h
  obtain ⟨_, ⟨key, u₁, hk, _, u₂, hp, value, u₃, hv, rfl, rfl⟩, rfl⟩ := h
  obtain ⟨q, hq, -⟩ := stringLiteral_spelled hk
  obtain ⟨b, b', hb⟩ := yields_padded_char hp
  exact ⟨u₂, (hq.trans hb).reaches, hv⟩

theorem mapLiteral_places (hs : ReadsExpr true nested) (hn : ReadsPlaces true .whole nested) :
    ReadsPlaces inside place (mapLiteral nested) := by
  refine form_places (mapLiteral_spelled hs) (fun _ _ _ _ => trivial) fun mark s items t h => ?_
  have hreach : (mapItem nested).Ensures fun s _ t => s.Reaches t := by
    intro s i t hi
    obtain ⟨u, hr, hy⟩ := mapItem_value hi
    exact hr.trans (hn _ _ _ hy).1
  rw [Expr.inner, itemsInner_eq]
  intro x hx
  obtain ⟨i, hi, hx⟩ := List.mem_flatMap.1 hx
  obtain ⟨u, w, hr, hy⟩ := bracketed_items hreach h i hi
  obtain ⟨u', hr', hy'⟩ := mapItem_value hy
  exact (hn _ _ _ hy').2.later (hr.trans hr') x hx

theorem functionCall_places (hs : ReadsExpr true nested) (hn : ReadsPlaces true .whole nested) :
    ReadsPlaces inside place (functionCall nested) := by
  refine form_places (functionCall_spelled hs) (fun _ _ _ _ => trivial) fun mark s x t h => ?_
  simp only [yields_bind, yields_identifier, yields_pure] at h
  obtain ⟨_, u, ⟨w, hw, -, -⟩, args, _, ha, rfl, rfl⟩ := h
  rw [Expr.inner, argsInner_eq]
  intro x hx
  obtain ⟨arg, harg, hx⟩ := List.mem_flatMap.1 hx
  obtain ⟨u', w', hr, hy⟩ := bracketed_items (fun s e t hy => (hn s e t hy).1) ha arg harg
  exact (hn _ _ _ hy).2.later (hw.reaches.trans hr) x hx

/-- An operand is a modelled form at any place, or raw text in which the stop does not occur. -/
theorem operand_places (hs : ReadsExpr true nested) (hn : ReadsPlaces true .whole nested)
    (h : (operand stop nested).Yields s e t) :
    (∀ place, HasPlaces s (e.occurrences inside place)) ∨
      ∃ text, e = .raw ⟨s.position, t.position⟩ (String.ofList text) ∧ s.Reads text t ∧
        stop.Misses s text t := by
  rcases operand_reads h with h | h
  · left
    intro place
    obtain ⟨p, hp, hy⟩ := h.of_choice
    have hform : ReadsPlaces inside place p := by
      cases form_of_mem hp with
      | reference =>
        exact form_places reference_spelled (fun _ _ _ _ => trivial) fun _ _ _ _ _ => .nil
      | string => exact form_places string_spelled (fun _ _ _ _ => trivial) fun _ _ _ _ _ => .nil
      | boolean => exact form_places boolean_spelled (fun _ _ _ _ => trivial) fun _ _ _ _ _ => .nil
      | map => exact mapLiteral_places hs hn
      | number => exact form_places number_spelled (fun _ _ _ _ => trivial) fun _ _ _ _ _ => .nil
      | call => exact functionCall_places hs hn
    exact (hform _ _ _ hy).2
  · right
    obtain ⟨_, htext, rfl⟩ := yields_marked.1 h
    obtain ⟨text, rfl, hr, -, hmiss, -⟩ := rawCapture_reads htext
    exact ⟨text, rfl, hr, hmiss⟩

end Forms

section Expressions

/-- Raw text that no ternary question mark stops, in front of the end of its context, holds none. -/
theorem not_hasBareQuestion {text : List Char} {d : Unit} (hmiss : question.Misses s text t)
    (hstop : (contextStop inside).Yields t d u) : hasBareQuestion text = false := by
  rw [← Bool.not_eq_true, hasBareQuestion_iff]
  rintro ⟨before, after, rfl, hbare⟩
  obtain ⟨c, hc, hjoins⟩ := contextStop_head hstop
  have happly : ∀ d ∈ (after ++ t.rest).head?, joinsQuestion d = false := by
    refine forall_head?_append hbare.apart ?_
    rw [hc]
    rintro d (_ | _)
    exact hjoins
  obtain ⟨d, hd⟩ : ∃ d, (after ++ t.rest).head? = some d := by
    cases after with
    | nil => exact ⟨c, hc⟩
    | cons d after => exact ⟨d, rfl⟩
  have htrue := joins_of_misses hmiss rfl d hd
  rw [happly d hd] at htrue
  cases htrue

theorem rawExpression_places : ReadsPlaces inside .whole (rawExpression (contextStop inside)) := by
  intro s e t h
  obtain ⟨_, htext, hbare, rfl⟩ := rawExpression_reads h
  obtain ⟨text, rfl, hr, -, hmiss, -⟩ := rawCapture_reads htext
  have hread : RawRead inside .whole s (String.ofList text).toList t := by
    rw [String.toList_ofList] at *
    exact ⟨hr, hmiss, fun _ => hbare, by simp, by simp⟩
  exact ⟨hr.reaches, HasPlaces.cons (t := t) ⟨rfl, hread⟩ .nil⟩

theorem condition_places (hs : ReadsExpr true nested) (hn : ReadsPlaces true .whole nested)
    (hcond : (operand (either question (contextStop inside)) nested).Yields s e u) (gap : Blanks)
    {rest : List Char} (hq : u.rest = gap.chars ++ '?' :: rest) :
    HasPlaces s (e.occurrences inside .condition) := by
  rcases operand_places hs hn hcond with hform | ⟨text, rfl, hr, hmiss⟩
  · exact hform .condition
  · obtain ⟨hquestion, hcontext⟩ := Misses.of_either hmiss
    have hread : RawRead inside .condition s (String.ofList text).toList u := by
      rw [String.toList_ofList]
      exact ⟨hr, hcontext, by simp, fun _ => ⟨hquestion, gap, rest, hq⟩, by simp⟩
    exact HasPlaces.cons (t := u) ⟨rfl, hread⟩ .nil

theorem branch_places (hs : ReadsExpr true nested) (hn : ReadsPlaces true .whole nested)
    (hleft : (operand (either colon (contextStop inside)) nested).Yields s e u) :
    HasPlaces s (e.occurrences inside .branch) := by
  rcases operand_places hs hn hleft with hform | ⟨text, rfl, hr, hmiss⟩
  · exact hform .branch
  · obtain ⟨hcolon, hcontext⟩ := Misses.of_either hmiss
    have hread : RawRead inside .branch s (String.ofList text).toList u := by
      rw [String.toList_ofList]
      exact ⟨hr, hcontext, by simp, by simp, fun _ => hcolon⟩
    exact HasPlaces.cons (t := u) ⟨rfl, hread⟩ .nil

theorem ternary_places {cond left right : SoyTree.Expr} (hs : ReadsExpr true nested)
    (hn : ReadsPlaces true .whole nested) (hagain : ReadsExpr inside again)
    (hplaces : ReadsPlaces inside .whole again)
    (hcond : (operand (either question (contextStop inside)) nested).Yields s cond u)
    (hbranches : (branches (contextStop inside) nested again).Yields u (left, right) t) :
    s.Reaches t ∧ HasPlaces s
      (Expr.occurrences inside .whole (.ternary ⟨s.position, t.position⟩ cond left right)) := by
  have hstop := stopsInside_either (p := question) (stopsInside_contextStop inside)
  have hstop' := stopsInside_either (p := colon) (stopsInside_contextStop inside)
  obtain ⟨gap₁, gap₂, gap₃, gap₄, u₁, u₂, u₃, hq, hjoins, hleft, hc, hright⟩ :=
    branches_parts hbranches
  obtain ⟨c, hcr, hctree⟩ := operand_spelled hs hstop _ _ _ hcond
  obtain ⟨l, hlr, hltree⟩ := operand_spelled hs hstop' _ _ _ hleft
  obtain ⟨r, hrr, hrtree⟩ := hagain _ _ _ hright
  have hall := hcr.trans (hq.trans (hlr.trans (hc.trans hrr)))
  simp only [List.append_assoc, List.cons_append] at hall
  have hself : TernaryRead inside s (.ternary ⟨s.position, t.position⟩ cond left right) t := by
    refine ⟨c, gap₁, gap₂, l, gap₃, gap₄, r, hall, ?_, fun d hd => hjoins d ?_⟩
    · rw [hctree, hltree, hrtree, hall.position, hc.position, hlr.position, hq.position,
        hcr.position]
      rfl
    · have hrest : u₁.rest = l.text ++ (gap₃.chars ++ (':' :: (gap₄.chars ++ r.text))) ++ t.rest := by
        rw [hlr.rest, hc.rest, hrr.rest]
        simp
      rw [hrest, ← List.append_assoc, List.head?_append, hd]
      rfl
  have hcondPlaces : HasPlaces s (cond.occurrences inside .condition) := by
    have hmark : u.rest = gap₁.chars ++ '?' :: (gap₂.chars ++ u₁.rest) := by
      rw [hq.rest, List.append_assoc]
      rfl
    exact condition_places hs hn hcond gap₁ hmark
  have hleftPlaces : HasPlaces u₁ (left.occurrences inside .branch) := branch_places hs hn hleft
  have hreach₁ : s.Reaches u₁ := (hcr.trans hq).reaches
  have hreach₃ : s.Reaches u₃ := hreach₁.trans (hlr.trans hc).reaches
  refine ⟨hall.reaches, HasPlaces.cons (t := t) hself ?_⟩
  exact hcondPlaces.append ((hleftPlaces.later hreach₁).append
    ((hplaces _ _ _ hright).2.later hreach₃))

theorem expressionWith_places (inside : Bool) (hs : ReadsExpr true nested)
    (hn : ReadsPlaces true .whole nested) :
    ReadsPlaces inside .whole (expressionWith (contextStop inside) nested) := by
  refine Ensures.recursive_of (expressionWith_spelled hs (stopsInside_contextStop inside))
    fun again hagain hplaces s e t h => ?_
  have h : (expressionStep (contextStop inside) nested again).Yields s e t := h
  cases expressionStep_reads h with
  | operand alone ends =>
    obtain ⟨c, hr, -⟩ := operand_spelled hs (stopsInside_either (stopsInside_contextStop inside))
      _ _ _ alone
    refine ⟨hr.reaches, ?_⟩
    rcases operand_places hs hn alone with hform | ⟨text, rfl, hr, hmiss⟩
    · exact hform .whole
    · obtain ⟨hquestion, hcontext⟩ := Misses.of_either hmiss
      have hread : RawRead inside .whole s (String.ofList text).toList t := by
        rw [String.toList_ofList]
        exact ⟨hr, hcontext, fun _ => not_hasBareQuestion hquestion ends, by simp, by simp⟩
      exact HasPlaces.cons (t := t) ⟨rfl, hread⟩ .nil
  | ternary condition both ends => exact ternary_places hs hn hagain hplaces condition both
  | raw text => exact rawExpression_places s e t text

theorem nestedExpression_places : ReadsPlaces true .whole nestedExpression :=
  Ensures.recursive_of nestedExpression_spelled fun _ hs hn =>
    expressionWith_places true hs hn

/-- Every expression of a parsed source was read at its place. -/
theorem parse_places {source : String} {options : Options} {program : Program}
    (h : parseWith source options = .ok program) :
    HasPlaces (.ofChars source.toList) program.occurrences := by
  intro x hx
  obtain ⟨e, he, hx⟩ := List.mem_flatMap.1 hx
  obtain ⟨u, t, hr, -, hy⟩ := parse_values h e he
  have hplaces := expressionWith_places false nestedExpression_spelled
    nestedExpression_places u e t hy
  exact hplaces.2.later hr x hx

end Expressions

end Grammar

end SoyTree
