import RelAlg.Proofs.Heading

/-!
# Regrouping joins

When may `a ⋈ (b ⋈ c)` be read as `(a ⋈ b) ⋈ c`, where the first join has no condition? The second join must not keep rows of
its right operand, and a natural join on either side must find the same names to compare in both groupings. `Join.passes` is
this condition and `Table.join_join` the equation, for tables with any rows.
-/

namespace RelAlg

open AttributeList

variable {α : Type}

/-! ## Joins as sets of pairs -/

/-- An inner join goes over all pairs of rows and keeps what the pairs that meet are glued to. -/
theorem innerRows_eq_bind (meets : Row α → Row α → Bool) (glue : Row α → Row α → Row α) (s t : Multiset (Row α)) :
    innerRows meets glue s t = s.bind fun x => t.bind fun y => if meets x y = true then {glue x y} else 0 := by
  refine Multiset.bind_congr fun x _ => ?_
  rw [← Multiset.bind_singleton, Multiset.bind_filter]

/-- The pairs with rows from two bags are the pairs with the one bag and those with the other. -/
theorem innerRows_add (meets : Row α → Row α → Bool) (glue : Row α → Row α → Row α) (s t u : Multiset (Row α)) :
    innerRows meets glue s (t + u) = innerRows meets glue s t + innerRows meets glue s u := by
  simp only [innerRows, Multiset.filter_add, Multiset.map_add, Multiset.bind_add]

/-- Without rows on the right there are no pairs. -/
theorem innerRows_zero (meets : Row α → Row α → Bool) (glue : Row α → Row α → Row α) (s : Multiset (Row α)) :
    innerRows meets glue s 0 = 0 := Multiset.bind_zero s

/-- A choice between one row and none is made before what is done with the row. -/
theorem ite_singleton_bind {β γ : Type} (p : Prop) [Decidable p] (b : β) (f : β → Multiset γ) :
    (if p then ({b} : Multiset β) else 0).bind f = if p then f b else 0 := by
  split
  · exact Multiset.singleton_bind b f
  · exact Multiset.zero_bind f

theorem bind_ite_zero {β γ : Type} (p : Prop) [Decidable p] (s : Multiset β) (f : β → Multiset γ) :
    (s.bind fun b => if p then f b else 0) = if p then s.bind f else 0 := by
  split
  · rfl
  · exact Multiset.bind_zero s

/-- Two conditions on a bag in a row are one condition. -/
theorem ite_ite_zero {γ : Type} (b c : Bool) (s : Multiset γ) :
    (if b = true then if c = true then s else 0 else 0) = if (b && c) = true then s else 0 := by
  cases b <;> rfl

/-- Two inner joins may be regrouped if the same triples of rows meet and give the same row. -/
theorem innerRows_innerRows {m₁ m₂ n₁ n₂ : Row α → Row α → Bool} {g₁ g₂ k₁ k₂ : Row α → Row α → Row α}
    {s t u : Multiset (Row α)}
    (h : ∀ x ∈ s, ∀ y ∈ t, ∀ z ∈ u, (m₂ y z && m₁ x (g₂ y z)) = (n₁ x y && n₂ (k₁ x y) z)
      ∧ (n₁ x y = true → n₂ (k₁ x y) z = true → g₁ x (g₂ y z) = k₂ (k₁ x y) z)) :
    innerRows m₁ g₁ s (innerRows m₂ g₂ t u) = innerRows n₂ k₂ (innerRows n₁ k₁ s t) u := by
  simp only [innerRows_eq_bind, Multiset.bind_assoc, ite_singleton_bind]
  refine Multiset.bind_congr fun x hx => Multiset.bind_congr fun y hy => ?_
  rw [← bind_ite_zero]
  refine Multiset.bind_congr fun z hz => ?_
  obtain ⟨hm, hg⟩ := h x hx y hy z hz
  rw [ite_ite_zero, ite_ite_zero, hm]
  split
  · rename_i hn
    rw [Bool.and_eq_true] at hn
    rw [hg hn.1 hn.2]
  · rfl

/-- The rows that a left join keeps alone may be joined before or after it. -/
theorem innerRows_loneRows {m₁ m₂ n₁ n₂ : Row α → Row α → Bool} {g₁ k₁ : Row α → Row α → Row α} {s t u : Multiset (Row α)}
    {e : Row α}
    (h : ∀ x ∈ s, ∀ y ∈ t, m₁ x (y ++ e) = n₁ x y ∧ (n₁ x y = true → g₁ x (y ++ e) = k₁ x y ++ e)
      ∧ (n₁ x y = true → ∀ z ∈ u, n₂ (k₁ x y) z = m₂ y z)) :
    innerRows m₁ g₁ s ((loneRows m₂ t u).map (· ++ e)) = (loneRows n₂ (innerRows n₁ k₁ s t) u).map (· ++ e) := by
  have hl : ∀ (m : Row α → Row α → Bool) (s : Multiset (Row α)), (loneRows m s u).map (· ++ e)
      = s.bind fun x => if ∀ y ∈ u, m x y = false then {x ++ e} else 0 := by
    intro m s
    rw [loneRows, ← Multiset.bind_singleton, Multiset.bind_filter]
  simp only [hl, innerRows_eq_bind, Multiset.bind_assoc, ite_singleton_bind]
  refine Multiset.bind_congr fun x hx => Multiset.bind_congr fun y hy => ?_
  obtain ⟨hm, hg, hn⟩ := h x hx y hy
  by_cases hb : n₁ x y = true
  · have hz : (∀ z ∈ u, n₂ (k₁ x y) z = false) ↔ ∀ z ∈ u, m₂ y z = false :=
      forall₂_congr fun z hz => by rw [hn hb z hz]
    simp only [hm, hb, if_true, hg hb, hz]
  · simp only [hm, hb, Bool.false_eq_true, if_false, ite_self]

/-! ## What a join compares -/

variable [DecidableEq α]

namespace Join

/-- The join keeps rows of its left operand that meet no row. -/
def keepsLeft : Join → Bool
  | cross | natural => false
  | conditional kind _ => kind.keepsLeft

/-- The join keeps rows of its right operand that meet no row. -/
def keepsRight : Join → Bool
  | cross | natural => false
  | conditional kind _ => kind.keepsRight

/-- The references of the condition of a join. -/
def references : Join → List String
  | cross | natural => []
  | conditional _ condition => condition.references

/-- The rows meet. -/
def meets (v : Values α) (l r : AttributeList) : Join → Row α → Row α → Bool
  | cross, _, _ => true
  | natural, x, y => agrees l r x y
  | conditional _ condition, x, y => condition.truth v ((l ++ r).look (x ++ y)) = some true

/-- The row of two rows that meet. -/
def glue (l r : AttributeList) : Join → Row α → Row α → Row α
  | natural, x, y => x ++ newCells l r y
  | cross, x, y | conditional _ _, x, y => x ++ y

/-- The attributes of a join. -/
def heading (l r : AttributeList) : Join → AttributeList
  | natural => l ++ r.filter l.isNew
  | cross | conditional _ _ => l ++ r

/-- A join that keeps no rows of its right operand has the pairs that meet, and the lone rows of its left operand if it keeps
these. -/
theorem rows_eq (v : Values α) (l r : AttributeList) {op : Join} (h : op.keepsRight = false) (s t : Multiset (Row α)) :
    op.rows v l r s t = innerRows (op.meets v l r) (op.glue l r) s t
      + if op.keepsLeft then (loneRows (op.meets v l r) s t).map (· ++ blankRow r.length) else 0 := by
  cases op with
  | cross => exact (add_zero _).symm
  | natural => exact (add_zero _).symm
  | conditional kind c =>
    have hk : kind.keepsRight = false := h
    simp only [rows, outerRows, hk, Bool.false_eq_true, if_false, add_zero]
    rfl

end Join

/-! ## Names on both sides -/

namespace Attribute

variable {a b c : Attribute}

/-- Attributes match just if both have a plain name and it is the same. -/
theorem matches_iff : a.matches b = true ↔ a.isList = false ∧ b.isList = false ∧ a.name = b.name := by
  simp [Attribute.matches, and_assoc]

/-- To match is symmetric. -/
theorem matches_symm (h : a.matches b = true) : b.matches a = true := by
  obtain ⟨ha, hb, hn⟩ := matches_iff.mp h
  exact matches_iff.mpr ⟨hb, ha, hn.symm⟩

/-- To match is transitive. -/
theorem matches_trans (h : a.matches b = true) (h' : b.matches c = true) : a.matches c = true := by
  obtain ⟨ha, -, hn⟩ := matches_iff.mp h
  obtain ⟨-, hc, hn'⟩ := matches_iff.mp h'
  exact matches_iff.mpr ⟨ha, hc, hn.trans hn'⟩

end Attribute

namespace AttributeList

variable {l m r : AttributeList}

/-- No attribute of one list has the name of one of the other. -/
def disjoint (l r : AttributeList) : Bool := l.all fun a => r.all fun b => !a.matches b

/-- Lists are disjoint just if no attribute of one matches one of the other. -/
theorem disjoint_iff : l.disjoint r = true ↔ ∀ a ∈ l, ∀ b ∈ r, a.matches b = false := by
  simp [disjoint]

/-- An attribute is new to a list just if none of the list matches it. -/
theorem isNew_iff {a : Attribute} : l.isNew a = true ↔ ∀ b ∈ l, b.matches a = false := by
  have hm : ∀ b : Attribute, b.matches a = false ↔ (a.isList = false → b.isList = false → b.name ≠ a.name) := by
    intro b
    rw [← Bool.not_eq_true, Attribute.matches_iff]
    tauto
  simp only [hm]
  cases ha : a.isList with
  | true => simp [isNew, ha]
  | false =>
    simp only [isNew, ha, textNames, AttributeList.names, Bool.false_or, Bool.not_eq_true', List.contains_eq_mem,
      decide_eq_false_iff_not, List.mem_map, List.mem_filter, Bool.not_eq_true', not_exists, not_and, and_imp, ne_eq,
      forall_const]

/-- An attribute is new to two lists together just if it is new to both. -/
theorem isNew_append {a : Attribute} : (l ++ m).isNew a = (l.isNew a && m.isNew a) := by
  rw [Bool.eq_iff_iff, Bool.and_eq_true, isNew_iff, isNew_iff, isNew_iff]
  simp only [List.mem_append, or_imp, forall_and]

/-- A name is new beside two lists if it is new beside the first and beside what the second adds to it. -/
theorem isNew_append_filter {a : Attribute} : (l ++ m.filter l.isNew).isNew a = (l.isNew a && m.isNew a) := by
  rw [isNew_append, Bool.eq_iff_iff, Bool.and_eq_true, Bool.and_eq_true]
  refine and_congr_right fun hl => ?_
  rw [isNew_iff, isNew_iff]
  refine ⟨fun h b hb => ?_, fun h b hb => h b (List.mem_of_mem_filter hb)⟩
  by_cases hn : l.isNew b = true
  · exact h b (List.mem_filter.mpr ⟨hb, hn⟩)
  · rw [isNew_iff] at hn hl
    push Not at hn
    obtain ⟨c, hc, hcb⟩ := hn
    rw [ne_eq, Bool.not_eq_false] at hcb
    by_contra hba
    rw [Bool.not_eq_false] at hba
    exact absurd (Attribute.matches_trans hcb hba) (by simp [hl c hc])

/-- All attributes of a disjoint list are new. -/
theorem filter_isNew_of_disjoint (h : l.disjoint r = true) : r.filter l.isNew = r := by
  rw [List.filter_eq_self]
  intro b hb
  exact isNew_iff.mpr fun a ha => disjoint_iff.mp h a ha b hb

end AttributeList

/-! ## Cells on both sides -/

/-- Rows agree just if their cells under matching attributes are the same and not missing. -/
theorem agrees_iff {l r : AttributeList} {x y : Row α} : agrees l r x y = true ↔
    ∀ p ∈ l.zip x, ∀ q ∈ r.zip y, p.1.matches q.1 = true → p.2.isSome = true ∧ p.2 = q.2 := by
  simp only [agrees, List.all_eq_true, Bool.or_eq_true, Bool.not_eq_true', Bool.and_eq_true, decide_eq_true_eq]
  refine forall₂_congr fun p _ => forall₂_congr fun q _ => ?_
  cases p.1.matches q.1 <;> simp

/-- Two rows side by side agree with a third just if both do. -/
theorem agrees_append_left {l m r : AttributeList} {x x' y : Row α} (hx : l.length = x.length) :
    agrees (l ++ m) r (x ++ x') y = (agrees l r x y && agrees m r x' y) := by
  rw [agrees, List.zip_append hx, List.all_append]
  rfl

/-- A row agrees with two rows side by side just if it does with both. -/
theorem agrees_append_right {l m r : AttributeList} {x y y' : Row α} (hy : m.length = y.length) :
    agrees l (m ++ r) x (y ++ y') = (agrees l m x y && agrees l r x y') := by
  rw [Bool.eq_iff_iff, Bool.and_eq_true, agrees_iff, agrees_iff, agrees_iff, List.zip_append hy]
  constructor
  · intro h
    exact ⟨fun p hp q hq => h p hp q (List.mem_append_left _ hq), fun p hp q hq => h p hp q (List.mem_append_right _ hq)⟩
  · rintro ⟨h, h'⟩ p hp q hq
    rcases List.mem_append.mp hq with hq | hq
    · exact h p hp q hq
    · exact h' p hp q hq

/-- Under disjoint lists all rows agree. -/
theorem agrees_of_disjoint {l r : AttributeList} (h : l.disjoint r = true) (x y : Row α) : agrees l r x y = true := by
  rw [agrees_iff]
  intro p hp q hq hm
  rw [disjoint_iff.mp h p.1 (List.of_mem_zip hp).1 q.1 (List.of_mem_zip hq).1] at hm
  cases hm

omit [DecidableEq α] in
/-- The new attributes are those of the cells that are new. -/
theorem filter_isNew_eq (l : AttributeList) {r : AttributeList} {y : Row α} (hy : r.length = y.length) :
    r.filter l.isNew = ((r.zip y).filter fun q => l.isNew q.1).map Prod.fst := by
  conv_lhs => rw [← List.map_fst_zip hy.le, List.filter_map]
  rfl

omit [DecidableEq α] in
/-- The new attributes and the new cells belong together. -/
theorem zip_newCells (l : AttributeList) {r : AttributeList} {y : Row α} (hy : r.length = y.length) :
    (r.filter l.isNew).zip (newCells l r y) = (r.zip y).filter fun q => l.isNew q.1 := by
  rw [filter_isNew_eq l hy, newCells, List.zip_map']
  exact List.map_id _

omit [DecidableEq α] in
/-- There are as many new cells as new attributes. -/
theorem length_newCells (l : AttributeList) {r : AttributeList} {y : Row α} (hy : r.length = y.length) :
    (r.filter l.isNew).length = (newCells l r y).length := by
  rw [filter_isNew_eq l hy, newCells, List.length_map, List.length_map]

omit [DecidableEq α] in
/-- The new cells of two rows side by side are those of the first and those of the second. -/
theorem newCells_append (l : AttributeList) {m r : AttributeList} {y z : Row α} (hy : m.length = y.length) :
    newCells l (m ++ r) (y ++ z) = newCells l m y ++ newCells l r z := by
  rw [newCells, List.zip_append hy, List.filter_append, List.map_append]
  rfl

omit [DecidableEq α] in
/-- Under a disjoint list all cells are new. -/
theorem newCells_of_disjoint {l r : AttributeList} (h : l.disjoint r = true) {y : Row α} (hy : r.length = y.length) :
    newCells l r y = y := by
  have hf : (r.zip y).filter (fun q => l.isNew q.1) = r.zip y := by
    rw [List.filter_eq_self]
    intro q hq
    exact isNew_iff.mpr fun a ha => disjoint_iff.mp h a ha q.1 (List.of_mem_zip hq).1
  rw [newCells, hf]
  exact List.map_snd_zip hy.ge

omit [DecidableEq α] in
/-- What is new beside a list and what it adds to another, or beside both one after the other. -/
theorem newCells_newCells (l m : AttributeList) {r : AttributeList} {z : Row α} (hz : r.length = z.length) :
    newCells l (r.filter m.isNew) (newCells m r z) = newCells (l ++ m.filter l.isNew) r z := by
  rw [newCells, zip_newCells m hz, List.filter_filter, newCells]
  simp only [isNew_append_filter]

/-! ## References on both sides -/

namespace AttributeList

variable {β : Type}

/-- The last attribute of a list that a reference fits, with its cell. -/
def found (l : AttributeList) (row : Row β) (reference : String) : Option (Attribute × Option β) :=
  (l.zip row).reverse.find? fun p => (Reference.ofText reference).fits p.1

/-- A reference has the cell of the last attribute that it fits. -/
theorem look_eq_found (l : AttributeList) (row : Row β) (reference : String) :
    l.look row reference = (l.found row reference).bind (·.2) := rfl

/-- In two rows side by side a reference is found in the second, or else in the first. -/
theorem found_append {l r : AttributeList} {x y : Row β} (hx : l.length = x.length) (reference : String) :
    (l ++ r).found (x ++ y) reference = (r.found y reference).or (l.found x reference) := by
  rw [found, List.zip_append hx, List.reverse_append, List.find?_append]
  rfl

/-- A reference that fits an attribute of the list is found. -/
theorem isSome_found {l : AttributeList} {x : Row β} (hx : l.length = x.length) {reference : String} {a : Attribute}
    (ha : a ∈ l) (hf : (Reference.ofText reference).fits a = true) : (l.found x reference).isSome = true := by
  obtain ⟨c, hc⟩ := exists_mem_zip hx.symm ha
  rw [found, List.find?_isSome]
  exact ⟨(a, c), List.mem_reverse.mpr hc, hf⟩

/-- Attributes on the left do not matter to a reference that fits one on the right. -/
theorem look_append_of_fits {l r : AttributeList} {x y : Row β} (hx : l.length = x.length) (hy : r.length = y.length)
    {reference : String} {a : Attribute} (ha : a ∈ r) (hf : (Reference.ofText reference).fits a = true) :
    (l ++ r).look (x ++ y) reference = r.look y reference := by
  rw [look_eq_found, look_eq_found, found_append hx, Option.or_of_isSome (isSome_found hy ha hf)]

/-- A reference that fits no attribute is not found. -/
theorem found_eq_none {l : AttributeList} (x : Row β) {reference : String}
    (h : ∀ a ∈ l, (Reference.ofText reference).fits a = false) : l.found x reference = none := by
  rw [found, List.find?_eq_none]
  intro p hp
  rw [h p.1 (List.of_mem_zip (List.mem_reverse.mp hp)).1]
  decide

/-- What is found is one of the cells with its attribute, and the reference fits it. -/
theorem mem_of_found {l : AttributeList} {x : Row β} {reference : String} {p : Attribute × Option β}
    (h : l.found x reference = some p) : p ∈ l.zip x ∧ (Reference.ofText reference).fits p.1 = true := by
  have hf := List.find?_some h
  exact ⟨List.mem_reverse.mp (List.mem_of_find?_eq_some h), hf⟩

/-- The attributes that a list hides do not matter to a reference that fits none of them. -/
theorem found_filter_isNew (l : AttributeList) {r : AttributeList} {y : Row β} (hy : r.length = y.length) {reference : String}
    (h : ∀ a ∈ r, (Reference.ofText reference).fits a = true → l.isNew a = true) :
    AttributeList.found (r.filter l.isNew) (newCells l r y) reference = r.found y reference := by
  rw [found, zip_newCells l hy, found, ← List.head?_filter, ← List.head?_filter, ← List.filter_reverse, List.filter_filter]
  refine congrArg List.head? (List.filter_congr fun p hp => ?_)
  by_cases hf : (Reference.ofText reference).fits p.1 = true
  · rw [hf, h p.1 (List.of_mem_zip (List.mem_reverse.mp hp)).1 hf]
    rfl
  · simp [hf]

/-- Attributes that one reference fits have one name. -/
theorem matches_of_fits {reference : String} {a b : Attribute} (ha : (Reference.ofText reference).fits a = true)
    (hb : (Reference.ofText reference).fits b = true) : a.matches b = true := by
  obtain ⟨hla, hna, -⟩ := Reference.fits_iff.mp ha
  obtain ⟨hlb, hnb, -⟩ := Reference.fits_iff.mp hb
  exact Attribute.matches_iff.mpr ⟨hla, hlb, hna.symm.trans hnb⟩

end AttributeList

/-! ## Regrouping -/

/-- A table has a cell for every attribute in every row. -/
def Table.Fits (t : Table α) : Prop := ∀ x ∈ t.rows, t.heading.length = x.length

/-- The join of two tables. -/
def Table.join (v : Values α) (op : Join) (t s : Table α) : Table α :=
  ⟨op.heading t.heading s.heading, op.rows v t.heading s.heading t.rows s.rows⟩

namespace Join

/-- The join has no condition. -/
def isPlain : Join → Bool
  | cross | natural => true
  | conditional _ _ => false

/-- A join without condition to a relation with attributes `a` may pass over a join on its right, whose right operand has
attributes `c`: that join keeps no rows of its right operand, no natural join finds other names to compare, and a condition
names no relation for an attribute that the natural join hides. -/
def passes (a : AttributeList) (x y : Join) (c : AttributeList) : Bool :=
  match x, y with
  | cross, cross => true
  | cross, natural => a.disjoint c
  | cross, conditional kind _ => !kind.keepsRight
  | natural, natural => true
  | natural, cross => a.disjoint c
  | natural, conditional kind condition =>
    !kind.keepsRight && a.disjoint c && condition.references.all fun r =>
      (Reference.ofText r).qualifier = "" || a.all fun b => b.name ≠ (Reference.ofText r).name
  | conditional _ _, _ => false

variable {v : Values α} {a t c : AttributeList} {x y : Join} {i j k : Row α}

/-- A join that may be passed keeps no rows of its right operand. -/
theorem keepsRight_of_passes (h : passes a x y c = true) : y.keepsRight = false := by
  cases x <;> cases y <;> simp_all [passes, keepsRight]

/-- More cells on the right do not change which rows meet in a plain join, if a natural one finds no more names there. -/
theorem meets_append (hx : x.isPlain = true) (hd : x = natural → a.disjoint c = true) (hj : t.length = j.length) (e : Row α) :
    x.meets v a (t ++ c) i (j ++ e) = x.meets v a t i j := by
  cases x with
  | cross => rfl
  | natural =>
    show agrees a (t ++ c) i (j ++ e) = agrees a t i j
    rw [agrees_append_right hj, agrees_of_disjoint (hd rfl), Bool.and_true]
  | conditional kind condition => cases hx

omit [DecidableEq α] in
/-- More cells on the right follow the row of a plain join, if a natural one hides none of them. -/
theorem glue_append (hx : x.isPlain = true) (hd : x = natural → a.disjoint c = true) (hj : t.length = j.length) {e : Row α}
    (he : c.length = e.length) : x.glue a (t ++ c) i (j ++ e) = x.glue a t i j ++ e := by
  cases x with
  | cross => exact (List.append_assoc _ _ _).symm
  | natural =>
    show i ++ newCells a (t ++ c) (j ++ e) = i ++ newCells a t j ++ e
    rw [newCells_append a hj, newCells_of_disjoint (hd rfl) he, List.append_assoc]
  | conditional kind condition => cases hx

/-- More attributes on the right follow those of a plain join, if a natural one hides none of them. -/
theorem heading_append (hx : x.isPlain = true) (hd : x = natural → a.disjoint c = true) :
    x.heading a (t ++ c) = x.heading a t ++ c := by
  cases x with
  | cross => exact (List.append_assoc _ _ _).symm
  | natural =>
    show a ++ (t ++ c).filter a.isNew = a ++ t.filter a.isNew ++ c
    rw [List.filter_append, filter_isNew_of_disjoint (hd rfl), List.append_assoc]
  | conditional kind condition => cases hx

omit [DecidableEq α] in
/-- The row of a join has a cell for every attribute. -/
theorem length_glue (hi : a.length = i.length) (hj : t.length = j.length) : (x.heading a t).length = (x.glue a t i j).length := by
  cases x with
  | natural =>
    show (a ++ t.filter a.isNew).length = (i ++ newCells a t j).length
    rw [List.length_append, List.length_append, hi, length_newCells a hj]
  | cross => simp [heading, glue, hi, hj]
  | conditional kind condition => simp [heading, glue, hi, hj]

/-- A reference that fits attributes on both sides of a natural join finds the same cell on both. -/
theorem look_natural {r : String} (hq : (Reference.ofText r).qualifier = "" ∨ ∀ b ∈ a, b.name ≠ (Reference.ofText r).name)
    (hd : a.disjoint c = true) (hv : ∃ b ∈ t ++ c, (Reference.ofText r).fits b = true) (hm : agrees a t i j = true)
    (hi : a.length = i.length) (hj : t.length = j.length) :
    AttributeList.look (a ++ t.filter a.isNew ++ c) (i ++ newCells a t j ++ k) r = AttributeList.look (t ++ c) (j ++ k) r := by
  have hlen : (a ++ t.filter a.isNew).length = (i ++ newCells a t j).length := by
    rw [List.length_append, List.length_append, hi, length_newCells a hj]
  rw [look_eq_found, look_eq_found, found_append hlen, found_append hi, found_append hj]
  by_cases ha : ∃ b ∈ a, (Reference.ofText r).fits b = true
  · -- The attribute on the right is hidden, and the rows agree on its name.
    obtain ⟨b, hb, hf⟩ := ha
    have hc : AttributeList.found c k r = none := by
      refine found_eq_none k fun e he => ?_
      by_contra hfe
      rw [Bool.not_eq_false] at hfe
      exact absurd (matches_of_fits hf hfe) (by simp [disjoint_iff.mp hd b hb e he])
    have ht : AttributeList.found (t.filter a.isNew) (newCells a t j) r = none := by
      refine found_eq_none _ fun e he => ?_
      by_contra hfe
      rw [Bool.not_eq_false] at hfe
      have hn := isNew_iff.mp (List.mem_filter.mp he).2 b hb
      exact absurd (matches_of_fits hf hfe) (by simp [hn])
    obtain ⟨e, he, hfe⟩ := hv
    have het : e ∈ t := by
      refine (List.mem_append.mp he).resolve_right fun hec => ?_
      exact absurd (matches_of_fits hf hfe) (by simp [disjoint_iff.mp hd b hb e hec])
    obtain ⟨p, hp⟩ := Option.isSome_iff_exists.mp (isSome_found hi hb hf)
    obtain ⟨q, hq⟩ := Option.isSome_iff_exists.mp (isSome_found hj het hfe)
    rw [hc, ht, hp, hq]
    exact (agrees_iff.mp hm p (mem_of_found hp).1 q (mem_of_found hq).1
      (matches_of_fits (mem_of_found hp).2 (mem_of_found hq).2)).2
  · have hn : ∀ b ∈ a, (Reference.ofText r).fits b = false := fun b hb => by
      by_contra hf
      exact ha ⟨b, hb, by simpa using hf⟩
    have hf : AttributeList.found (t.filter a.isNew) (newCells a t j) r = AttributeList.found t j r := by
      refine found_filter_isNew a hj fun e _ hfe => isNew_iff.mpr fun b hb => ?_
      by_contra hbe
      rw [Bool.not_eq_false] at hbe
      obtain ⟨hlb, -, hbn⟩ := Attribute.matches_iff.mp hbe
      have hname : (Reference.ofText r).name = b.name := (Reference.fits_iff.mp hfe).2.1.trans hbn.symm
      rcases hq with hq | hq
      · exact absurd (Reference.fits_iff.mpr ⟨hlb, hname, .inl hq⟩) (by simp [hn b hb])
      · exact hq b hb hname.symm
    rw [found_eq_none i hn, hf, Option.or_none]

/-- A condition holds of a row whatever was joined to it on the left. -/
theorem meets_glue {kind : ConditionalJoin} {condition : Condition} (hp : passes a x (conditional kind condition) c = true)
    (hv : ∀ r ∈ condition.references, ∃ b ∈ t ++ c, (Reference.ofText r).fits b = true) (hi : a.length = i.length)
    (hj : t.length = j.length) (hk : c.length = k.length) (hm : x.meets v a t i j = true) :
    (conditional kind condition).meets v (x.heading a t) c (x.glue a t i j) k
      = (conditional kind condition).meets v t c j k := by
  have hl : ∀ r ∈ condition.references,
      AttributeList.look (x.heading a t ++ c) (x.glue a t i j ++ k) r = AttributeList.look (t ++ c) (j ++ k) r := by
    intro r hr
    cases x with
    | cross =>
      obtain ⟨b, hb, hf⟩ := hv r hr
      show AttributeList.look (a ++ t ++ c) (i ++ j ++ k) r = _
      rw [List.append_assoc, List.append_assoc]
      exact look_append_of_fits hi (by simp [hj, hk]) hb hf
    | natural =>
      simp only [passes, Bool.and_eq_true, List.all_eq_true, Bool.or_eq_true, decide_eq_true_eq] at hp
      exact look_natural (hp.2 r hr) hp.1.2 (hv r hr) hm hi hj
    | conditional _ _ => cases hp
  show decide _ = decide _
  rw [Condition.truth_congr v hl]

/-- A list that is disjoint from `c` hides none of its attributes. -/
theorem filter_isNew_append (hd : a.disjoint c = true) : c.filter (a ++ t).isNew = c.filter t.isNew := by
  refine List.filter_congr fun b hb => ?_
  rw [isNew_append, isNew_iff.mpr fun d hd' => disjoint_iff.mp hd d hd' b hb, Bool.true_and]

/-- A plain join and a natural join have the same attributes in both groupings, if a cross join has no names on both sides. -/
theorem heading_natural (hx : x.isPlain = true) (hd : x = cross → a.disjoint c = true) :
    x.heading a (natural.heading t c) = natural.heading (x.heading a t) c := by
  cases x with
  | cross =>
    show a ++ (t ++ c.filter t.isNew) = a ++ t ++ c.filter (a ++ t).isNew
    rw [filter_isNew_append (hd rfl), List.append_assoc]
  | natural =>
    show a ++ (t ++ c.filter t.isNew).filter a.isNew = a ++ t.filter a.isNew ++ c.filter (a ++ t.filter a.isNew).isNew
    have hf : c.filter (a ++ t.filter a.isNew).isNew = (c.filter t.isNew).filter a.isNew := by
      rw [List.filter_filter]
      exact List.filter_congr fun b _ => isNew_append_filter
    rw [List.filter_append, hf, List.append_assoc]
  | conditional kind condition => cases hx

omit [DecidableEq α] in
/-- A plain join and a natural join have the same cells in both groupings, if a cross join has no names on both sides. -/
theorem glue_natural (hx : x.isPlain = true) (hd : x = cross → a.disjoint c = true) (hj : t.length = j.length)
    (hk : c.length = k.length) :
    x.glue a (natural.heading t c) i (natural.glue t c j k) = natural.glue (x.heading a t) c (x.glue a t i j) k := by
  cases x with
  | cross =>
    show i ++ (j ++ newCells t c k) = i ++ j ++ newCells (a ++ t) c k
    have hf : newCells (a ++ t) c k = newCells t c k := by
      rw [newCells, newCells]
      congr 1
      refine List.filter_congr fun q hq => ?_
      rw [isNew_append, isNew_iff.mpr fun d hd' => disjoint_iff.mp (hd rfl) d hd' q.1 (List.of_mem_zip hq).1, Bool.true_and]
    rw [hf, List.append_assoc]
  | natural =>
    show i ++ newCells a (t ++ c.filter t.isNew) (j ++ newCells t c k)
      = i ++ newCells a t j ++ newCells (a ++ t.filter a.isNew) c k
    rw [newCells_append a hj, newCells_newCells a t hk, List.append_assoc]
  | conditional kind condition => cases hx

/-- If rows agree with a third one wherever they have its names, they agree with each other wherever it has their names. -/
theorem agrees_natural (hi : a.length = i.length) (hj : t.length = j.length) (hk : c.length = k.length) :
    (agrees t c j k = true ∧ agrees a t i j = true ∧ agrees a (c.filter t.isNew) i (newCells t c k) = true)
      ↔ agrees a t i j = true ∧ agrees a c i k = true ∧ agrees (t.filter a.isNew) c (newCells a t j) k = true := by
  simp only [agrees_iff, zip_newCells t hk, zip_newCells a hj, List.mem_filter]
  constructor
  · rintro ⟨htc, hat, hac⟩
    refine ⟨hat, fun p hp q hq hm => ?_, fun r hr q hq => htc r hr.1 q hq⟩
    by_cases hn : t.isNew q.1 = true
    · exact hac p hp q ⟨hq, hn⟩ hm
    · -- The third row has a cell under this name, and both agree with it.
      rw [isNew_iff] at hn
      push Not at hn
      obtain ⟨b, hb, hbq⟩ := hn
      rw [ne_eq, Bool.not_eq_false] at hbq
      obtain ⟨d, hd⟩ := exists_mem_zip hj.symm hb
      obtain ⟨hs, he⟩ := hat p hp (b, d) hd (Attribute.matches_trans hm (Attribute.matches_symm hbq))
      exact ⟨hs, he.trans (htc (b, d) hd q hq hbq).2⟩
  · rintro ⟨hat, hac, htc⟩
    refine ⟨fun r hr q hq hm => ?_, hat, fun p hp q hq => hac p hp q hq.1⟩
    by_cases hn : a.isNew r.1 = true
    · exact htc r ⟨hr, hn⟩ q hq hm
    · rw [isNew_iff] at hn
      push Not at hn
      obtain ⟨b, hb, hbr⟩ := hn
      rw [ne_eq, Bool.not_eq_false] at hbr
      obtain ⟨d, hd⟩ := exists_mem_zip hi.symm hb
      obtain ⟨hs, he⟩ := hat (b, d) hd r hr hbr
      have hq := (hac (b, d) hd q hq (Attribute.matches_trans hbr hm)).2
      exact ⟨he ▸ hs, he.symm.trans hq⟩

/-- The same triples of rows meet in both groupings of a plain join and a natural one. -/
theorem meets_natural (hx : x.isPlain = true) (hd : x = cross → a.disjoint c = true) (hi : a.length = i.length)
    (hj : t.length = j.length) (hk : c.length = k.length) :
    (natural.meets v t c j k && x.meets v a (natural.heading t c) i (natural.glue t c j k))
      = (x.meets v a t i j && natural.meets v (x.heading a t) c (x.glue a t i j) k) := by
  cases x with
  | cross =>
    show (agrees t c j k && true) = (true && agrees (a ++ t) c (i ++ j) k)
    rw [agrees_append_left hi, agrees_of_disjoint (hd rfl), Bool.and_true, Bool.true_and, Bool.true_and]
  | natural =>
    show (agrees t c j k && agrees a (t ++ c.filter t.isNew) i (j ++ newCells t c k))
      = (agrees a t i j && agrees (a ++ t.filter a.isNew) c (i ++ newCells a t j) k)
    rw [agrees_append_right hj, agrees_append_left hi, Bool.eq_iff_iff]
    simp only [Bool.and_eq_true]
    exact agrees_natural hi hj hk
  | conditional kind condition => cases hx

/-- Only a plain join may pass another one. -/
theorem isPlain_of_passes (h : passes a x y c = true) : x.isPlain = true := by
  cases x <;> first | rfl | cases h

/-- A natural join that passes one with a condition or a cross join finds no names to compare in what that brings. -/
theorem disjoint_of_passes (h : passes a x y c = true) (hy : y ≠ natural) : x = natural → a.disjoint c = true := by
  rintro rfl
  cases y with
  | cross => exact h
  | natural => exact absurd rfl hy
  | conditional kind condition =>
    simp only [passes, Bool.and_eq_true] at h
    exact h.1.2

end Join

/-- The rows of a plain join are the pairs that meet. -/
theorem Join.rows_of_isPlain (v : Values α) (l r : AttributeList) {x : Join} (hx : x.isPlain = true) (s t : Multiset (Row α)) :
    x.rows v l r s t = innerRows (x.meets v l r) (x.glue l r) s t := by
  have hr : x.keepsRight = false := by cases x <;> first | rfl | cases hx
  have hl : x.keepsLeft = false := by cases x <;> first | rfl | cases hx
  rw [Join.rows_eq v l r hr, hl]
  exact add_zero _

namespace Table

variable {v : Values α} {a t c : Table α} {x y : Join}

/-- A plain join and a natural join behind it may be regrouped, if a cross join has no names on both sides. -/
theorem join_natural (ha : a.Fits) (ht : t.Fits) (hc : c.Fits) (hx : x.isPlain = true)
    (hd : x = .cross → a.heading.disjoint c.heading = true) :
    a.join v x (t.join v .natural c) = (a.join v x t).join v .natural c := by
  have hr : innerRows (x.meets v a.heading (Join.natural.heading t.heading c.heading))
      (x.glue a.heading (Join.natural.heading t.heading c.heading)) a.rows
      (innerRows (Join.natural.meets v t.heading c.heading) (Join.natural.glue t.heading c.heading) t.rows c.rows)
      = innerRows (Join.natural.meets v (x.heading a.heading t.heading) c.heading)
      (Join.natural.glue (x.heading a.heading t.heading) c.heading)
      (innerRows (x.meets v a.heading t.heading) (x.glue a.heading t.heading) a.rows t.rows) c.rows := by
    refine innerRows_innerRows fun i hi j hj k hk => ⟨?_, fun _ _ => ?_⟩
    · exact Join.meets_natural hx hd (ha i hi) (ht j hj) (hc k hk)
    · exact Join.glue_natural hx hd (ht j hj) (hc k hk)
  simp only [Table.join, Join.heading_natural hx hd, Join.rows_of_isPlain v _ _ hx]
  exact congrArg _ hr

/-- A plain join may pass one that adds its right cells to the row, if the same rows meet in both groupings. -/
theorem join_append (ht : t.Fits) (hc : c.Fits) (hx : x.isPlain = true) (hy : y ≠ .natural)
    (hk : y.keepsRight = false) (hd : x = .natural → a.heading.disjoint c.heading = true)
    (hm : ∀ i ∈ a.rows, ∀ j ∈ t.rows, x.meets v a.heading t.heading i j = true → ∀ k ∈ c.rows,
      y.meets v (x.heading a.heading t.heading) c.heading (x.glue a.heading t.heading i j) k
        = y.meets v t.heading c.heading j k) :
    a.join v x (t.join v y c) = (a.join v x t).join v y c := by
  have hh : ∀ l r, y.heading l r = l ++ r := fun l r => by cases y <;> first | rfl | exact absurd rfl hy
  have hg : ∀ l r, (y.glue l r : Row α → Row α → Row α) = (· ++ ·) := fun l r => by
    cases y <;> first | rfl | exact absurd rfl hy
  have hi : innerRows (x.meets v a.heading (t.heading ++ c.heading)) (x.glue a.heading (t.heading ++ c.heading)) a.rows
      (innerRows (y.meets v t.heading c.heading) (· ++ ·) t.rows c.rows)
      = innerRows (y.meets v (x.heading a.heading t.heading) c.heading) (· ++ ·)
      (innerRows (x.meets v a.heading t.heading) (x.glue a.heading t.heading) a.rows t.rows) c.rows := by
    refine innerRows_innerRows fun i hi j hj k hk => ⟨?_, fun _ _ => ?_⟩
    · rw [Join.meets_append hx hd (ht j hj)]
      cases hb : x.meets v a.heading t.heading i j with
      | false => rw [Bool.and_false, Bool.false_and]
      | true => rw [hm i hi j hj hb k hk, Bool.and_true, Bool.true_and]
    · exact Join.glue_append hx hd (ht j hj) (hc k hk)
  have hl : innerRows (x.meets v a.heading (t.heading ++ c.heading)) (x.glue a.heading (t.heading ++ c.heading)) a.rows
      ((loneRows (y.meets v t.heading c.heading) t.rows c.rows).map (· ++ blankRow c.heading.length))
      = (loneRows (y.meets v (x.heading a.heading t.heading) c.heading)
      (innerRows (x.meets v a.heading t.heading) (x.glue a.heading t.heading) a.rows t.rows) c.rows).map
        (· ++ blankRow c.heading.length) := by
    refine innerRows_loneRows fun i hi j hj => ⟨Join.meets_append hx hd (ht j hj) _, fun _ => ?_, hm i hi j hj⟩
    exact Join.glue_append hx hd (ht j hj) (by simp [blankRow])
  simp only [Table.join, hh, Join.heading_append hx hd, Join.rows_of_isPlain v _ _ hx, Join.rows_eq v _ _ hk, hg]
  congr 1
  rw [innerRows_add, hi]
  congr 1
  split
  · exact hl
  · exact innerRows_zero _ _ _

omit [DecidableEq α] in
/-- The rows of an inner join are as long as what its pairs are glued to. -/
theorem length_of_mem_innerRows {meets : Row α → Row α → Bool} {glue : Row α → Row α → Row α} {s u : Multiset (Row α)}
    {n : Nat} (h : ∀ i ∈ s, ∀ j ∈ u, n = (glue i j).length) : ∀ i ∈ innerRows meets glue s u, n = i.length := by
  intro i hi
  obtain ⟨x, hx, hi⟩ := Multiset.mem_bind.mp hi
  obtain ⟨y, hy, rfl⟩ := Multiset.mem_map.mp hi
  exact h x hx y (Multiset.mem_of_mem_filter hy)

/-- A join of tables that fit their headings fits its own. -/
theorem Fits.join (ht : t.Fits) (hc : c.Fits) (v : Values α) (op : Join) : (t.join v op c).Fits := by
  have hg : ∀ i ∈ t.rows, ∀ j ∈ c.rows,
      (op.heading t.heading c.heading).length = (op.glue t.heading c.heading i j).length :=
    fun i hi j hj => Join.length_glue (ht i hi) (hc j hj)
  cases op with
  | cross => exact length_of_mem_innerRows hg
  | natural => exact length_of_mem_innerRows hg
  | conditional kind condition =>
    intro i hi
    rcases Multiset.mem_add.mp hi with hi | hi
    · rcases Multiset.mem_add.mp hi with hi | hi
      · exact length_of_mem_innerRows hg i hi
      · split at hi
        · obtain ⟨j, hj, rfl⟩ := Multiset.mem_map.mp hi
          show (t.heading ++ c.heading).length = _
          simp [ht j (Multiset.mem_of_mem_filter hj), blankRow]
        · simp at hi
    · split at hi
      · obtain ⟨j, hj, rfl⟩ := Multiset.mem_map.mp hi
        show (t.heading ++ c.heading).length = _
        simp [hc j (Multiset.mem_of_mem_filter hj), blankRow]
      · simp at hi

/-- Tables may be regrouped where the first join passes over the second one. -/
theorem join_join (ha : a.Fits) (ht : t.Fits) (hc : c.Fits) (hp : Join.passes a.heading x y c.heading = true)
    (hv : ∀ r ∈ y.references, ∃ b ∈ t.heading ++ c.heading, (Reference.ofText r).fits b = true) :
    a.join v x (t.join v y c) = (a.join v x t).join v y c := by
  have hx := Join.isPlain_of_passes hp
  have hk := Join.keepsRight_of_passes hp
  cases y with
  | natural =>
    refine join_natural ha ht hc hx ?_
    rintro rfl
    exact hp
  | cross => exact join_append ht hc hx nofun hk (Join.disjoint_of_passes hp nofun) fun _ _ _ _ _ _ _ => rfl
  | conditional kind condition =>
    exact join_append ht hc hx nofun hk (Join.disjoint_of_passes hp nofun) fun i hi j hj hm k hk =>
      Join.meets_glue hp hv (ha i hi) (ht j hj) (hc k hk) hm

end Table

end RelAlg
