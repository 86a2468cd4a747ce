import RelAlg.Proofs.Drawing.Chunks

/-!
# Drawings show trees

The text that is drawn for a statement of the algebra shows its tree and nothing else: the brackets of the text can be read in
one way only, and the tree that is read has the shape of the tree of nodes, with the caption of every node as its label
(`drawings_show_trees`). No label can be mistaken for brackets, because no dollar sign stands in it (`IsClear.not_mem_label`).
-/

namespace RelAlg

namespace Node

/-- The drawing has the shape of the tree: no children for a relation, one for a node over one operand, and the left before the
right for a node over two. The label of every node is its caption. -/
inductive DrawnAs : Node → Drawing → Prop where
  | node {n : Node} {label : String} {children : List Drawing} (hc : n.caption = .ok label)
      (hs : List.Forall₂ DrawnAs n.branches children) : DrawnAs n (.node label children)

theorem drawnAs_of_drawing {n : Node} {d : Drawing} (h : n.drawing = .ok d) : n.DrawnAs d := by
  induction n using induction_branches generalizing d with
  | node n ih =>
    obtain ⟨label, children, hl, hs, rfl⟩ := exists_of_drawing h
    exact .node hl (forall₂_of_mem hs fun m hm e he => ih m hm he)

theorem forall₂_of_drawingTexts {ns : List Node} {texts : List String} (h : drawingTexts ns = .ok texts) :
    List.Forall₂ (fun n t => ∃ d, n.drawing = .ok d ∧ t = d.text) ns texts := by
  induction ns generalizing texts with
  | nil =>
    cases h
    exact .nil
  | cons n ns ih =>
    obtain ⟨d, hd, h⟩ := exists_ok_of_bind h
    obtain ⟨rest, hr, h⟩ := exists_ok_of_bind h
    cases h
    exact .cons ⟨d, hd, rfl⟩ (ih hr)

/-- The drawing of a clear node is read back from its brackets, and nothing else is. -/
theorem IsClear.form_iff {n : Node} (h : n.IsClear) {d : Drawing} (hd : n.drawing = .ok d) (e : Drawing) :
    e.Form d.brackets.toList ↔ e = d := by
  have hform := Drawing.form_brackets (h.not_mem_label hd)
  constructor
  · intro he
    rw [← Drawing.ofBrackets?_eq_some_iff] at he hform
    exact Option.some.inj (he.symm.trans hform)
  · rintro rfl
    exact hform

end Node

/-- Every text without quotes that is drawn at any level, over a schema of identifiers, is drawn statement by statement, and the
drawing of a statement of the algebra shows its tree. Behind the word that begins it stands one bracketed string. Reading it up to
its end gives one drawing, which is the only one of this form; it has the shape of the tree of nodes, and the label of every
node is its caption. -/
theorem drawings_show_trees (level : Level) (definition : List (String × List String))
    (hd : ∀ e ∈ definition, ∀ n ∈ e.2, isIdentifier n = true) (text : String) (ht : IsUnquoted text.toList) (texts : List String)
    (h : Dialect.drawings ⟨level, .standard⟩ (.ofDefinition definition) text = .ok texts) :
    ∃ ns, Dialect.forest ⟨level, .standard⟩ (.ofDefinition definition) text = .ok ns ∧
      List.Forall₂ (fun n t => n.isDeclaration = false → ∃ body d, t = "\\Tree" ++ body ∧
        Drawing.ofBrackets? body.toList = some d ∧ (∀ e : Drawing, e.Form body.toList ↔ e = d) ∧ n.DrawnAs d) ns texts := by
  obtain ⟨ns, hf, h⟩ := exists_ok_of_bind h
  have hclear := isClear_of_forest hd ht hf
  refine ⟨ns, hf, Node.forall₂_of_mem (Node.forall₂_of_drawingTexts h) ?_⟩
  rintro n hn t ⟨d, hdrawn, rfl⟩ halgebra
  have hform := (hclear n hn halgebra).form_iff hdrawn
  refine ⟨d.brackets, d, rfl, ?_, hform, Node.drawnAs_of_drawing hdrawn⟩
  exact Drawing.ofBrackets?_eq_some_iff.mpr ((hform d).mpr rfl)

/-- An assignment of a projection of a selection, and a join with what was assigned. -/
def drawnText : String :=
  "q(x_y) := \\project_\x7ba\x7d (\\select_\x7ba < 2 and not b_c = a\x7d r);\n" ++
    "\\rename_\x7bp\x7d (q \\union q) \\theta_join_\x7bx_y = r.a\x7d r;"

theorem drawings_of_drawnText : ∃ texts ns,
    (∀ e ∈ [("r", ["a", "b_c"])], ∀ n ∈ e.2, isIdentifier n = true) ∧ IsUnquoted drawnText.toList ∧ texts.length = 2 ∧
    Dialect.drawings ⟨.extended, .standard⟩ (.ofDefinition [("r", ["a", "b_c"])]) drawnText = .ok texts ∧
    Dialect.forest ⟨.extended, .standard⟩ (.ofDefinition [("r", ["a", "b_c"])]) drawnText = .ok ns ∧
    (∀ n ∈ ns, n.isDeclaration = false) ∧
    List.Forall₂ (fun n t => n.isDeclaration = false → ∃ body d, t = "\\Tree" ++ body ∧
      Drawing.ofBrackets? body.toList = some d ∧ (∀ e : Drawing, e.Form body.toList ↔ e = d) ∧ n.DrawnAs d) ns texts := by
  have hd : ∀ e ∈ [("r", ["a", "b_c"])], ∀ n ∈ e.2, isIdentifier n = true := by decide +kernel
  have hu : IsUnquoted drawnText.toList := isUnquoted_of_all (by decide +kernel)
  obtain ⟨texts, ht, hn⟩ := exists_ok_of_any (p := fun texts => decide (texts.length = 2))
    (x := Dialect.drawings ⟨.extended, .standard⟩ (.ofDefinition [("r", ["a", "b_c"])]) drawnText) (by decide +kernel)
  obtain ⟨ns, hf, hshown⟩ := drawings_show_trees .extended [("r", ["a", "b_c"])] hd drawnText hu texts ht
  obtain ⟨ms, hm, ha⟩ := exists_ok_of_any (p := fun ns => ns.all fun n => !n.isDeclaration)
    (x := Dialect.forest ⟨.extended, .standard⟩ (.ofDefinition [("r", ["a", "b_c"])]) drawnText) (by decide +kernel)
  cases hf.symm.trans hm
  exact ⟨texts, ns, hd, hu, of_decide_eq_true hn, ht, hf, fun n hn => by simpa using List.all_eq_true.mp ha n hn, hshown⟩

end RelAlg
