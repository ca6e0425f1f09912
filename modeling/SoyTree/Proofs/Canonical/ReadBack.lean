import SoyTree.Proofs.Apart.File

/-! # Reading canonical files back

In canonical form nothing runs into its neighbour, and every inline value is read where it stands. A
canonical file is parsed unless it nests too deep, and then the program is the one that it was written
for.
-/

namespace SoyTree

open Rule Cursor

namespace Concrete

open Grammar

variable {s t : Cursor} {interior : List String} {word : String}

section Apart

theorem Item.Canonical.not_word {raw : Inserted} (h : (Item.interpolation raw).Canonical)
    (hw : word ∈ reservedWords) : leadWord raw.chars ≠ word.toList := fun hlead => by
  have hfree : String.ofList (leadWord raw.chars) ∉ reservedWords := h
  rw [hlead, String.ofList_toList] at hfree
  exact hfree hw

theorem control_mem_reservedWords (block : Control) : block.word ∈ reservedWords := by
  cases block <;> decide

theorem Item.Canonical.fits {i : Item} (h : i.Canonical) (hi : Interior interior) (name : String) :
    i.Fits name interior := by
  cases i with
  | interpolation raw =>
    refine ⟨fun w hw => h.not_word (hi.word hw).2.1, fun block hname => ?_⟩
    exact h.not_word (hname ▸ control_mem_reservedWords block)
  | _ => trivial

mutual

theorem Item.Canonical.apart (i : Item) (h : i.Canonical) : i.Apart := by
  match i with
  | .plain _ => trivial
  | .interpolation _ => trivial
  | .closedCall head => exact CallHead.Canonical.apart h
  | .blockCall head open_ params gap close =>
    exact ⟨CallHead.Canonical.apart h.1, Params.Canonical.apart params h.2⟩
  | .binding gap name value => exact Binding.Canonical.apart value h
  | .control block parsed args body close =>
    exact Body.Canonical.apart (fun w hw => ⟨block, hw⟩) body h
  | .literal _ _ _ => trivial

theorem Binding.Canonical.apart {word : String} (b : Binding) (h : b.Canonical) : b.Apart word := by
  match b with
  | .inline _ _ _ _ => trivial
  | .block attrs gap body close =>
    exact Body.Canonical.apart (fun w hw => absurd hw List.not_mem_nil) body h

theorem Params.Canonical.apart (ps : Params) (h : ps.Canonical) : ps.Apart := by
  match ps with
  | .nil => trivial
  | .cons lead gap name value rest =>
    exact ⟨Binding.Canonical.apart value h.1, Params.Canonical.apart rest h.2⟩

theorem Body.Canonical.apart {interior : List String} {name : String} (hi : Interior interior)
    (body : Body interior) (h : body.Canonical) : body.Apart name := by
  match body with
  | .nil => trivial
  | .item first rest =>
    exact ⟨Item.Canonical.apart first h.1, h.1.fits hi name, h.2.1, Body.Canonical.apart hi rest h.2.2⟩
  | .tag word allowed args rest => exact Body.Canonical.apart hi rest h

end

theorem Template.Canonical.apart {T : Template} (h : T.Canonical) : T.Apart where
  doc := by simp [h.1]
  body := Body.Canonical.apart (fun w hw => absurd hw List.not_mem_nil) T.body h.2

end Apart

section Values

theorem Binding.inline_values {gap₁ gap₂ gap₃ : Blanks} {value : Expr false} (home : List String)
    (h : value.Simple) (hr : s.Reads ((Binding.inline gap₁ gap₂ value gap₃).text word) t) :
    HasValues s ((Binding.inline gap₁ gap₂ value gap₃).tree home s.position).values := by
  rw [Binding.text_inline] at hr
  obtain ⟨u₁, hlead, hr⟩ := hr.split
  obtain ⟨u₂, hvalue, hend⟩ := hr.split
  have hvisible : Visible u₁ := by
    rw [Visible, hvalue.rest]
    match value, h with
    | .reference name, _ =>
      rintro c (_ | _)
      decide
    | .string literal, _ =>
      rintro c (_ | _)
      decide
  rw [Binding.tree, ← hlead.position]
  rintro e (_ | ⟨_, ⟨⟩⟩)
  exact ⟨u₁, u₂, hlead.reaches, hvisible, expression_yields value h gap₃ hvalue hend⟩

mutual

theorem Item.Canonical.values (home : List String) (i : Item) (h : i.Canonical) {s t : Cursor}
    (hr : s.Reads i.text t) : HasValues s (i.tree home s.position).values := by
  match i with
  | .plain _ => exact HasValues.nil
  | .interpolation _ => exact HasValues.nil
  | .closedCall head => exact HasValues.nil
  | .blockCall head open_ params gap close =>
    obtain ⟨u, hhead, hrest⟩ := Reads.split (a := head.text ++ ['\x7d'])
      (by simpa [Item.text] using hr)
    obtain ⟨v, hparams, -⟩ := hrest.split
    rw [Item.tree, ← hhead.position]
    exact (Params.Canonical.values home params h.2 hparams).later hhead.reaches
  | .binding gap name value =>
    obtain ⟨u, hhead, hvalue⟩ := Reads.split (a := letHead gap name) hr
    rw [Item.tree, ← hhead.position]
    exact (Binding.Canonical.values home value h hvalue).later hhead.reaches
  | .control block parsed args body close =>
    obtain ⟨u, htag, hrest⟩ := Reads.split (a := tagText block.word args.chars) hr
    obtain ⟨v, hbody, -⟩ := hrest.split
    rw [Item.tree, ← htag.position]
    exact (Body.Canonical.values home body h hbody).later htag.reaches
  | .literal gap content close =>
    rw [Item.tree]
    split <;> exact HasValues.nil

theorem Binding.Canonical.values (home : List String) {word : String} (b : Binding)
    (h : b.Canonical) {s t : Cursor} (hr : s.Reads (b.text word) t) :
    HasValues s (b.tree home s.position).values := by
  match b with
  | .inline gap₁ gap₂ value gap₃ => exact Binding.inline_values home h hr
  | .block attrs gap body close =>
    rw [Binding.text_block] at hr
    obtain ⟨u, hhead, hrest⟩ := hr.split
    obtain ⟨v, hbody, -⟩ := hrest.split
    rw [Binding.tree, ← hhead.position]
    exact (Body.Canonical.values home body h hbody).later hhead.reaches

theorem Params.Canonical.values (home : List String) (ps : Params) (h : ps.Canonical)
    {s t : Cursor} (hr : s.Reads ps.text t) :
    HasValues s (Node.paramsValues (ps.trees home s.position)) := by
  match ps with
  | .nil => exact HasValues.nil
  | .cons lead gap name value rest =>
    obtain ⟨u, hlead, hr'⟩ := Reads.split (a := lead.chars) hr
    obtain ⟨w, hparam, hrest⟩ := hr'.split
    obtain ⟨v, hhead, hvalue⟩ := hparam.split
    rw [Params.trees, ← hlead.position, ← hparam.position, ← hhead.position]
    exact ((Binding.Canonical.values home value h.1 hvalue).later (hlead.trans hhead).reaches).append
      ((Params.Canonical.values home rest h.2 hrest).later (hlead.trans hparam).reaches)

theorem Body.Canonical.values {interior : List String} (home : List String) (body : Body interior)
    (h : body.Canonical) {s t : Cursor} (hr : s.Reads body.text t) :
    HasValues s (Node.bodyValues (body.trees home s.position)) := by
  match body with
  | .nil => exact HasValues.nil
  | .item first rest =>
    obtain ⟨u, hfirst, hrest⟩ := Reads.split (a := first.text) hr
    rw [Body.trees, ← hfirst.position]
    exact (Item.Canonical.values home first h.1 hfirst).append
      ((Body.Canonical.values home rest h.2.2 hrest).later hfirst.reaches)
  | .tag word allowed args rest =>
    obtain ⟨u, htag, hrest⟩ := Reads.split (a := tagText word args.chars) hr
    rw [Body.trees, ← htag.position]
    exact (Body.Canonical.values home rest h hrest).later htag.reaches

end

theorem Template.Canonical.values (home : List String) {T : Template} (h : T.Canonical)
    (hr : s.Reads T.text t) : HasValues s (Node.bodyValues (T.tree home s.position).body) := by
  obtain ⟨u₁, hdoc, hr⟩ := Reads.split (a := T.docText) hr
  obtain ⟨u₂, hhead, hr⟩ := hr.split
  obtain ⟨u₃, hparams, hr⟩ := hr.split
  obtain ⟨u₄, hbody, -⟩ := hr.split
  rw [Template.tree, ← hdoc.position, ← hhead.position, ← hparams.position]
  exact (Body.Canonical.values home T.body h.2 hbody).later
    (hdoc.trans (hhead.trans hparams)).reaches

theorem Entry.Canonical.values (home : List String) {e : Entry} (h : e.Canonical)
    (hr : s.Reads (e.lead.chars ++ e.template.text) t) :
    HasValues s (Node.bodyValues (e.template.tree home (s.position.after e.lead.chars)).body) := by
  obtain ⟨u, hlead, htemplate⟩ := hr.split
  rw [← hlead.position]
  exact (h.2.values home htemplate).later hlead.reaches

theorem entriesValues (home : List String) {es : List Entry} (h : ∀ e ∈ es, e.Canonical)
    (hr : s.Reads (entriesText es) t) :
    HasValues s ((entriesTree home s.position es).flatMap fun T => Node.bodyValues T.body) := by
  induction es generalizing s with
  | nil => exact HasValues.nil
  | cons e es ih =>
    obtain ⟨u, he, hrest⟩ := Reads.split (a := e.lead.chars ++ e.template.text)
      (by simpa [entriesText] using hr)
    rw [entriesTree, List.flatMap_cons, ← Position.after_append, ← he.position]
    exact ((h e (by simp)).values home he).append
      ((ih (fun e' he' => h e' (by simp [he'])) hrest).later he.reaches)

theorem File.Canonical.values {f : File} (h : f.Canonical) :
    HasValues (.ofChars f.text) f.program.values := by
  obtain ⟨u₁, u₂, u₃, hlead, htag, hentries, -⟩ := file_parts f
  have hposition : u₂.position = (Position.origin.after f.lead.chars).after f.tag.text := by
    rw [htag.position, hlead.position]
    rfl
  rw [Program.values, File.program, ← hposition]
  exact (entriesValues _ h.entries hentries).later (hlead.trans htag).reaches

end Values

section Reading

/-- An item in canonical form is read as its tree. A text has to reach up to the next brace, or to the
end of the input. -/
theorem Item.Canonical.yields (home : List String) {i : Item} (h : i.Canonical)
    (hr : s.Reads i.text t) (hnext : i.isPlain = true → ∀ c ∈ t.rest.head?, c = '\x7b') :
    (bodyItem home).Yields s (i.tree home s.position) t := by
  refine Item.Apart.yields home i (Item.Canonical.apart i h) (.refl s) hr
    (Item.Canonical.values home i h hr) hnext ?_
  rintro raw rfl block - hlead
  exact absurd hlead (h.not_word (control_mem_reservedWords block))

theorem Binding.Canonical.yields (home : List String) (hw : isWord word.toList = true) {b : Binding}
    (h : b.Canonical) {item : Rule Node} (hitem : IsItemFrom home item s)
    (hr : s.Reads (b.text word) t) :
    (bindingValue word item).Yields s (b.tree home s.position) t :=
  Binding.Apart.yields home hw b (Binding.Canonical.apart b h) (.refl s) hr
    (Binding.Canonical.values home b h hr) hitem

theorem Entry.Canonical.yields (home : List String) {e : Entry} (h : e.Canonical)
    (hr : s.Reads (e.lead.chars ++ e.template.text) t) :
    (trivia >>= fun _ => templateItem home (bodyItem home)).Yields s
      (e.template.tree home (s.position.after e.lead.chars)) t :=
  entry_yields e h.2.apart (.refl s) hr (h.values home hr)

end Reading

end Concrete

namespace Grammar

/-- A canonical file is parsed unless it nests too deep, and its program is then read back. -/
theorem parse_canonical_iff (f : Concrete.File) (h : f.Canonical) (options : Options) :
    parseWith (String.ofList f.text) options = .ok f.program ↔
      Nesting.deepest f.text ≤ options.maxDepth :=
  (parse_apart_iff f (fun e he => (h.entries e he).2.apart) options).trans (and_iff_left h.values)

end Grammar

end SoyTree
