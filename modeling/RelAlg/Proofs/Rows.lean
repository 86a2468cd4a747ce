import Mathlib.Data.Multiset.Bind
import Mathlib.Data.Multiset.Dedup
import Mathlib.Data.Multiset.UnionInter
import RelAlg.Proofs.Made

/-!
# The rows of a node

What a node means over a database: rows of cells, a cell for every attribute in order, where a cell may hold no value. A
condition is true, false or unknown, and a selection keeps the rows on which it is true. With bag semantics rows count as
often as they come, with set semantics once. Values are left open: `Values` says what the constants of conditions mean and
how the comparisons come out.
-/

namespace RelAlg

variable {α : Type}

/-- A row has a cell for every column; a cell may hold no value. -/
abbrev Row (α : Type) := List (Option α)

/-- What constants mean, and which values a comparison relates. -/
structure Values (α : Type) where
  constant : String → α
  compare : Connective → α → α → Bool

/-! ## Truth with an unknown -/

/-- True, false, or unknown. -/
abbrev Truth := Option Bool

namespace Truth

/-- Negation leaves the unknown unknown. -/
def not (a : Truth) : Truth := a.map (!·)

/-- A conjunction is false as soon as one side is. -/
def and : Truth → Truth → Truth
  | some false, _ | _, some false => some false
  | some true, some true => some true
  | _, _ => none

/-- A disjunction is true as soon as one side is. -/
def or : Truth → Truth → Truth
  | some true, _ | _, some true => some true
  | some false, some false => some false
  | _, _ => none

end Truth

namespace Condition

/-- The value of an operand, where `look` gives the cells of references. -/
def cell (v : Values α) (look : String → Option α) : Condition → Option α
  | operand text => if isReference text then look text else some (v.constant text)
  | _ => none

/-- The truth of a condition. A comparison with a missing value is unknown. -/
def truth (v : Values α) (look : String → Option α) : Condition → Truth
  | operand _ => none
  | unary .not child => (child.truth v look).not
  | unary .defined child => some (child.cell v look).isSome
  | unary _ _ => none
  | binary .and left right => (left.truth v look).and (right.truth v look)
  | binary .or left right => (left.truth v look).or (right.truth v look)
  | binary op left right => do return v.compare op (← left.cell v look) (← right.cell v look)

/-- The value of a condition depends on what its references look up only. -/
theorem cell_congr (v : Values α) {look look' : String → Option α} {c : Condition}
    (h : ∀ r ∈ c.references, look r = look' r) : c.cell v look = c.cell v look' := by
  cases c with
  | operand text =>
    by_cases hr : isReference text = true
    · simp only [cell, hr, if_true]
      exact h text (by simp [references, hr])
    · simp only [cell, hr, Bool.false_eq_true, if_false]
  | unary op child => rfl
  | binary op left right => rfl

/-- The truth of a condition depends on the cells of its references only. -/
theorem truth_congr (v : Values α) {look look' : String → Option α} {c : Condition}
    (h : ∀ r ∈ c.references, look r = look' r) : c.truth v look = c.truth v look' := by
  induction c with
  | operand text => rfl
  | unary op child ih =>
    have hc : child.cell v look = child.cell v look' := cell_congr v h
    cases op <;> simp only [truth, ih h, hc]
  | binary op left right ihl ihr =>
    have hl : ∀ r ∈ left.references, look r = look' r := fun r hr => h r (by simp [references, hr])
    have hr : ∀ r ∈ right.references, look r = look' r := fun r hr => h r (by simp [references, hr])
    cases op <;> simp only [truth, ihl hl, ihr hr, cell_congr v hl, cell_congr v hr]

end Condition

/-! ## Cells of a row -/

/-- Both attributes have a text for a name, and the same one. -/
def Attribute.matches (a b : Attribute) : Bool := !a.isList && !b.isList && a.name = b.name

namespace AttributeList

/-- The cell of a row under the attribute that a reference fits, under the last one if it fits several. -/
def look (l : AttributeList) (row : Row α) (reference : String) : Option α :=
  ((l.zip row).reverse.find? fun p => (Reference.ofText reference).fits p.1).bind (·.2)

/-- The cell of a row under an attribute. -/
def cell (l : AttributeList) (row : Row α) (a : Attribute) : Option α := ((l.zip row).lookup a).join

/-- No attribute of the list has the name of this one. -/
def isNew (l : AttributeList) (a : Attribute) : Bool := a.isList || !l.textNames.contains a.name

end AttributeList

/-! ## Operators on rows -/

/-- Rows as often as they count. -/
def Sql.Semantics.collapse {β : Type} [DecidableEq β] : Semantics → Multiset β → Multiset β
  | .bag, s => s
  | .set, s => s.dedup

namespace Sql.Semantics

variable {β γ : Type} [DecidableEq β] [DecidableEq γ] (semantics : Semantics)

/-- Collapsing keeps which rows there are. -/
@[simp] theorem mem_collapse {s : Multiset β} {x : β} : x ∈ semantics.collapse s ↔ x ∈ s := by
  cases semantics
  · rfl
  · exact Multiset.mem_dedup

/-- Collapsed rows are collapsed. -/
@[simp] theorem collapse_collapse (s : Multiset β) : semantics.collapse (semantics.collapse s) = semantics.collapse s := by
  cases semantics
  · rfl
  · exact Multiset.dedup_idem

/-- Rows may be collapsed before they are mapped, if they are collapsed after it. -/
theorem collapse_map_collapse (f : β → γ) (s : Multiset β) :
    semantics.collapse ((semantics.collapse s).map f) = semantics.collapse (s.map f) := by
  cases semantics
  · rfl
  · exact Multiset.dedup_map_dedup_eq f s

/-- Rows may be collapsed before or after they are filtered. -/
theorem filter_collapse (p : β → Prop) [DecidablePred p] (s : Multiset β) :
    (semantics.collapse s).filter p = semantics.collapse (s.filter p) := by
  cases semantics
  · rfl
  · refine Multiset.ext.mpr fun x => ?_
    simp only [collapse, Multiset.count_filter, Multiset.count_dedup, Multiset.mem_filter]
    by_cases hp : p x <;> simp [hp]

end Sql.Semantics

/-- The rows of a union, a difference or an intersection. -/
def SetOperator.rows {β : Type} [DecidableEq β] : SetOperator → Multiset β → Multiset β → Multiset β
  | union, s, t => s + t
  | difference, s, t => s - t
  | intersect, s, t => s ∩ t

/-- The pairs of rows that meet, glued together. -/
def innerRows (meets : Row α → Row α → Bool) (glue : Row α → Row α → Row α) (s t : Multiset (Row α)) : Multiset (Row α) :=
  s.bind fun x => (t.filter fun y => meets x y).map (glue x)

/-- The rows that meet no row of the others. -/
def loneRows (meets : Row α → Row α → Bool) (s t : Multiset (Row α)) : Multiset (Row α) :=
  s.filter fun x => ∀ y ∈ t, meets x y = false

/-- The join keeps rows of its left operand that meet no row. -/
def ConditionalJoin.keepsLeft : ConditionalJoin → Bool
  | leftOuter | fullOuter => true
  | theta | rightOuter => false

/-- The join keeps rows of its right operand that meet no row. -/
def ConditionalJoin.keepsRight : ConditionalJoin → Bool
  | rightOuter | fullOuter => true
  | theta | leftOuter => false

/-- A row of cells without values. -/
def blankRow (width : Nat) : Row α := List.replicate width none

/-- The rows of a join on which pairs of rows meet; the rows that an outer join keeps are filled up with blanks. -/
def outerRows (kind : ConditionalJoin) (meets : Row α → Row α → Bool) (left right : Nat) (s t : Multiset (Row α)) :
    Multiset (Row α) :=
  innerRows meets (· ++ ·) s t
    + (if kind.keepsLeft then (loneRows meets s t).map (· ++ blankRow right) else 0)
    + (if kind.keepsRight then (loneRows (fun y x => meets x y) t s).map (blankRow left ++ ·) else 0)

variable [DecidableEq α]

/-- Rows agree if attributes of one name have one value in both, and it is not missing. -/
def agrees (l r : AttributeList) (x y : Row α) : Bool :=
  (l.zip x).all fun p => (r.zip y).all fun q => !p.1.matches q.1 || (p.2.isSome && p.2 = q.2)

/-- The cells under the attributes whose names are new beside those of the list on the left. -/
def newCells (l r : AttributeList) (y : Row α) : Row α := ((r.zip y).filter fun q => l.isNew q.1).map (·.2)

/-- The rows of a join of two relations with the given attributes. -/
def Join.rows (v : Values α) (l r : AttributeList) : Join → Multiset (Row α) → Multiset (Row α) → Multiset (Row α)
  | cross => innerRows (fun _ _ => true) (· ++ ·)
  | natural => innerRows (agrees l r) fun x y => x ++ newCells l r y
  | conditional kind condition =>
    outerRows kind (fun x y => condition.truth v ((l ++ r).look (x ++ y)) = some true) l.length r.length

/-! ## Nodes -/

/-- Attributes, and rows with a cell for each of them. -/
structure Table (α : Type) where
  heading : AttributeList
  rows : Multiset (Row α)

/-- The rows of every relation. -/
abbrev Database (α : Type) := String → Multiset (Row α)

namespace Node

/-- The rows of a node over a database. What is not of the algebra has none. -/
def rows (v : Values α) (semantics : Sql.Semantics) (db : Database α) : Node → Multiset (Row α)
  | relation h => semantics.collapse (db (h.name.getD ""))
  | select _ condition child =>
    (child.rows v semantics db).filter fun x => condition.truth v (child.heading.look x) = some true
  | project h child =>
    semantics.collapse ((child.rows v semantics db).map fun x => h.attributes.map (child.heading.cell x))
  | rename _ child | assign _ child => child.rows v semantics db
  | join _ op left right =>
    op.rows v left.heading right.heading (left.rows v semantics db) (right.rows v semantics db)
  | setOperation _ op left right => semantics.collapse (op.rows (left.rows v semantics db) (right.rows v semantics db))
  | primaryKey .. | pair .. | inclusion .. | bare _ => 0

end Node

end RelAlg
