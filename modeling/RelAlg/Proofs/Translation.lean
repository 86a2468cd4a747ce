import RelAlg.Proofs.Equality
import RelAlg.Proofs.Outcome

/-!
# Translations of equal trees

Trees that are equal differ at most in the serial numbers of their nodes without a name. `Node.numberFrom s` counts these from
`s` on, in the order in which nodes are made. The tree of a text is numbered so from the counter on with which it was made
(`Build.numberFrom_of_build`). Attributes count as they are written when nodes are compared; where no name has a point in it,
what is written tells the attribute, so equal trees are the same when they are numbered from the same number on
(`Node.countsAlike_of_stamps`). Main statement: such trees have the same SQL, the same drawing and equal parts
(`translations_of_equal`).
-/

namespace RelAlg

open Surface Build

/-! ## Names without a point -/

namespace Text

/-- Only one number stands for the point. -/
theorem eq_dot_of_ofNat {n : Nat} (h : Char.ofNat n = '.') : n = 46 := by
  have hn := congrArg Char.toNat h
  rw [Char.toNat_ofNat] at hn
  split at hn
  · exact hn
  · cases hn

/-- Only a point has a point in its small form. -/
theorem eq_dot_of_mem_lowerChar {c : Char} (h : '.' ∈ lowerChar c) : c = '.' := by
  have hl : ∀ e ∈ smallExpansions, ∀ n ∈ e.2, n ≠ 46 := by decide +kernel
  have hs : ∀ s ∈ smallSpans, 46 < s.image := by decide +kernel
  by_cases hc : c.toNat < 128
  · rw [lowerChar, if_pos hc, List.mem_singleton] at h
    exact of_toNat_lt (P := fun x => x.toLower = '.' → x = '.') (by decide) hc h.symm
  · rw [lowerChar, if_neg hc] at h
    obtain ⟨e, he, hm⟩ | ⟨s, hmem, n, hi, hm⟩ | hm := mapCase_cases smallSpans smallExpansions c <;> rw [hm] at h
    · obtain ⟨n, hn, hd⟩ := List.mem_map.mp h
      exact absurd (eq_dot_of_ofNat hd) (hl e he n hn)
    · have hn := eq_dot_of_ofNat (List.mem_singleton.mp h).symm
      obtain ⟨-, rfl⟩ := CaseSpan.of_image? hi
      have := hs s hmem
      omega
    · exact (List.mem_singleton.mp h).symm

/-- Small letters bring no point in, wherever in the text they are made. -/
theorem dot_not_mem_lowerFrom (before : List Char) {cs : List Char} (h : '.' ∉ cs) : '.' ∉ lowerFrom before cs := by
  induction cs generalizing before with
  | nil => nofun
  | cons c cs ih =>
    rw [lowerFrom, List.mem_append]
    rintro (hd | hd)
    · split at hd
      · rw [List.mem_singleton, smallSigma] at hd
        split at hd <;> exact absurd hd (by decide)
      · exact h (by rw [eq_dot_of_mem_lowerChar hd]; exact List.mem_cons_self)
    · exact ih _ (fun hm => h (List.mem_cons_of_mem c hm)) hd

/-- A text without a point has none in small letters. -/
theorem dot_not_mem_lower {s : String} (h : '.' ∉ s.toList) : '.' ∉ (lower s).toList := by
  rw [lower, String.toList_ofList]
  exact dot_not_mem_lowerFrom [] h

end Text

/-- The attribute has a name without a point, and no qualifier or one that texts write. -/
structure Attribute.IsUndotted (a : Attribute) : Prop where
  single : a.isList = false
  name : '.' ∉ a.name.toList
  qualifier : ∀ q, a.qualifier = some q → isName q = true

/-- An attribute without points is told by how it is written. -/
theorem Attribute.IsUndotted.eq_of_qualified {a b : Attribute} (ha : a.IsUndotted) (hb : b.IsUndotted)
    (h : a.qualified = b.qualified) : a = b := by
  have htext : ∀ {a : Attribute}, a.IsUndotted → Reference.ofText a.qualified = ⟨a.qualifier.getD "", a.name⟩ := by
    intro a ha
    unfold Attribute.qualified
    rw [Node.given_of_isName ha.qualifier]
    cases a.qualifier with
    | none => exact Reference.ofText_of_not_mem ha.name
    | some q => exact Reference.ofText_append ha.name
  have hreference := (htext ha).symm.trans ((congrArg _ h).trans (htext hb))
  obtain ⟨hq, hn⟩ := Reference.mk.inj hreference
  have hqualifier : a.qualifier = b.qualifier := by
    cases hqa : a.qualifier with
    | none =>
      cases hqb : b.qualifier with
      | none => rfl
      | some q =>
        rw [hqa, hqb] at hq
        exact absurd hq.symm (ne_empty_of_isName (hb.qualifier q hqb))
    | some p =>
      cases hqb : b.qualifier with
      | none =>
        rw [hqa, hqb] at hq
        exact absurd hq (ne_empty_of_isName (ha.qualifier p hqa))
      | some q =>
        rw [hqa, hqb] at hq
        exact congrArg some hq
  obtain ⟨name, qualifier, isList⟩ := a
  obtain ⟨name', qualifier', isList'⟩ := b
  cases hn
  cases hqualifier
  cases ha.single
  cases hb.single
  rfl

/-- Lists without points are told by how they are written. -/
theorem AttributeList.eq_of_qualifiedNames {l m : AttributeList} (hl : ∀ a ∈ l, a.IsUndotted) (hm : ∀ a ∈ m, a.IsUndotted)
    (h : l.qualifiedNames = m.qualifiedNames) : l = m := by
  induction l generalizing m with
  | nil => exact (List.map_eq_nil_iff.mp h.symm).symm
  | cons a l ih =>
    cases m with
    | nil => cases h
    | cons b m =>
      obtain ⟨hab, hrest⟩ := List.cons.inj h
      rw [(hl a List.mem_cons_self).eq_of_qualified (hm b List.mem_cons_self) hab,
        ih (fun x hx => hl x (List.mem_cons_of_mem a hx)) (fun x hx => hm x (List.mem_cons_of_mem b hx)) hrest]

/-- Every attribute name of the schema is without a point. -/
abbrev Schema.IsUndotted (schema : Schema) : Prop := schema.Names fun n => '.' ∉ n.toList

/-- A tree of the algebra, with or without an assignment, whose attributes are all without points. -/
def Node.IsUndotted : Node → Prop
  | relation h => ∀ a ∈ h.attributes, a.IsUndotted
  | select h _ n | project h n | rename h n | assign h n => (∀ a ∈ h.attributes, a.IsUndotted) ∧ n.IsUndotted
  | join h _ l r | setOperation h _ l r => (∀ a ∈ h.attributes, a.IsUndotted) ∧ l.IsUndotted ∧ r.IsUndotted
  | primaryKey .. | pair .. | inclusion .. | bare _ => False

/-- The attributes of a tree without points are without points. -/
theorem Node.IsUndotted.heading {n : Node} (h : n.IsUndotted) : ∀ a ∈ n.heading, a.IsUndotted := by
  cases n with
  | relation => exact h
  | select | project | rename | assign | join | setOperation => exact h.1
  | primaryKey | pair | inclusion | bare => cases h

/-- Over a schema without points every tree is without points. -/
theorem Node.Made.isUndotted {schema : Schema} {n : Node} (h : n.Made schema) (hs : schema.IsUndotted) : n.IsUndotted := by
  have hheading : ∀ {n : Node}, n.Made schema → ∀ a ∈ n.heading, a.IsUndotted := fun h a ha =>
    ⟨h.isList_eq a ha, h.forall_name (fun _ => not_dot_of_isName) hs a ha, h.isName_qualifier a ha⟩
  have hself := hheading h
  induction h with
  | relation => exact hself
  | select h _ _ ih | project h _ _ ih | rename h _ _ _ ih => exact ⟨hself, ih (hheading h)⟩
  | join hl hr _ _ _ ihl ihr | setOperation hl hr _ ihl ihr => exact ⟨hself, ihl (hheading hl), ihr (hheading hr)⟩

/-- The node of a statement that declares nothing is without points. -/
theorem Stated.isUndotted {schema extended : Schema} {n : Node} (h : Stated schema n extended) (hs : schema.IsUndotted)
    (hd : n.isDeclaration = false) : n.IsUndotted := by
  cases h with
  | query h => exact h.isUndotted hs
  | @assign child name names attributes serial _ h hn hnames hr ha =>
    have hne : ∀ m ∈ names, m ≠ "" := fun m hm => ne_empty_of_isName (hnames m hm)
    refine ⟨fun b hb => ⟨AttributeList.isList_of_rename hne h.isList_eq hr b hb, ?_, fun q hq => ?_⟩, h.isUndotted hs⟩
    · exact AttributeList.forall_name_of_rename (fun _ => not_dot_of_isName)
        (h.forall_name (fun _ => not_dot_of_isName) hs) hnames hr b hb
    · exact AttributeList.isName_qualifier_of_rename hne (by rintro _ ⟨⟩; exact hn) h.isName_qualifier hr b hb q hq
  | declare h =>
    rw [h.declares] at hd
    cases hd

/-! ## Counting nodes -/

/-- One if the head has no name, and zero if it has one. -/
def Head.unnamed (h : Head) : Nat := if (given h.name).isSome then 0 else 1

/-- The head with a serial number, if it keeps one. -/
def Head.number (s : Nat) (h : Head) : Head := Head.make h.name h.attributes s

/-- Numbering a head that was made gives the head that is made with the number. -/
theorem Head.number_make (s serial : Nat) (name : Option String) (attributes : AttributeList) :
    (Head.make name attributes serial).number s = Head.make name attributes s := rfl

namespace Node

/-- How many nodes of the algebra in the tree have no name. -/
@[simp] def unnamed : Node → Nat
  | relation h => h.unnamed
  | select h _ n | project h n | rename h n | assign h n => n.unnamed + h.unnamed
  | join h _ l r | setOperation h _ l r => l.unnamed + r.unnamed + h.unnamed
  | primaryKey .. | pair .. | inclusion .. | bare _ => 0

/-- The tree with its nodes without a name numbered from `s` on, operands before the node above them and left before right. -/
@[simp] def numberFrom (s : Nat) : Node → Node
  | relation h => relation (h.number s)
  | select h c n => select (h.number (s + n.unnamed)) c (n.numberFrom s)
  | project h n => project (h.number (s + n.unnamed)) (n.numberFrom s)
  | rename h n => rename (h.number (s + n.unnamed)) (n.numberFrom s)
  | assign h n => assign (h.number (s + n.unnamed)) (n.numberFrom s)
  | join h op l r => join (h.number (s + l.unnamed + r.unnamed)) op (l.numberFrom s) (r.numberFrom (s + l.unnamed))
  | setOperation h op l r =>
    setOperation (h.number (s + l.unnamed + r.unnamed)) op (l.numberFrom s) (r.numberFrom (s + l.unnamed))
  | n => n

/-- Numbering keeps the name of a node. -/
theorem name_numberFrom (s : Nat) (n : Node) : (n.numberFrom s).name = n.name := by cases n <;> rfl

/-- Numbering keeps the attributes of a node. -/
theorem heading_numberFrom (s : Nat) (n : Node) : (n.numberFrom s).heading = n.heading := by cases n <;> rfl

/-- Numbers are not compared. -/
theorem stamps_numberFrom (s : Nat) (n : Node) : (n.numberFrom s).stamps = n.stamps := by
  induction n generalizing s with
  | relation | primaryKey | pair | inclusion | bare => rfl
  | select _ _ _ ih | project _ _ ih | rename _ _ ih | assign _ _ ih =>
    rw [numberFrom, stamps, stamps, ih]
    rfl
  | join h op l r ihl ihr =>
    rw [numberFrom, stamps, stamps, ihl, ihr]
    cases op <;> rfl
  | setOperation h op l r ihl ihr =>
    rw [numberFrom, stamps, stamps, ihl, ihr]
    rfl

/-- The parts of a tree are compared as those of the numbered tree are. -/
theorem map_stamps_parts_numberFrom (s : Nat) (n : Node) : (n.numberFrom s).parts.map stamps = n.parts.map stamps := by
  have hself := stamps_numberFrom s n
  induction n generalizing s with
  | assign _ n ih => exact ih s (stamps_numberFrom s n)
  | primaryKey | pair | inclusion | bare => rfl
  | relation => exact congrArg (fun x => [x]) hself
  | select _ _ n ih | project _ n ih | rename _ n ih =>
    rw [numberFrom] at hself ⊢
    simp only [parts, List.map_append, List.map_singleton, ih s (stamps_numberFrom s n), hself]
  | join _ _ l r ihl ihr | setOperation _ _ l r ihl ihr =>
    rw [numberFrom] at hself ⊢
    simp only [parts, List.map_append, List.map_singleton, ihl s (stamps_numberFrom s l),
      ihr (s + l.unnamed) (stamps_numberFrom _ r), hself]

/-- Numbering keeps the stamps of all parts, as no stamp has a number. -/
theorem map_stamps_trees_numberFrom (s : Nat) (n : Node) : (n.numberFrom s).trees.map stamps = n.trees.map stamps := by
  have hparts := map_stamps_parts_numberFrom s n
  cases n with
  | assign h n =>
    have hself := stamps_numberFrom s (assign h n)
    rw [numberFrom] at hparts hself ⊢
    rw [trees, trees, List.map_append, List.map_append, List.map_singleton, List.map_singleton, hself]
    exact congrArg (· ++ [(assign h n).stamps]) hparts
  | _ => exact hparts

/-! ## Equal trees -/

/-- Trees with the same stamps have the same stamp at their root. -/
theorem stamp_of_stamps {m n : Node} (h : m.stamps = n.stamps) : m.stamp = n.stamp := by
  rw [stamps_eq, stamps_eq n] at h
  exact (List.cons.inj h).1

/-- The stamp of a join tells its operator and its condition. -/
theorem op_of_stamp {h k : Head} {op op' : Join} {l r l' r' : Node} (hs : (join h op l r).stamp = (join k op' l' r').stamp) :
    op = op' := by
  have ho : (join h op l r).operator? = (join k op' l' r').operator? := congrArg Stamp.operator hs
  have hc : (join h op l r).condition? = (join k op' l' r').condition? := congrArg Stamp.condition hs
  cases op <;> cases op' <;> simp_all [operator?, condition?]

/-- In trees without points the stamp tells the attributes. -/
theorem heading_eq {m n : Node} (hm : m.IsUndotted) (hn : n.IsUndotted) (h : m.stamp = n.stamp) : m.heading = n.heading :=
  AttributeList.eq_of_qualifiedNames hm.heading hn.heading (congrArg Stamp.attributes h)

/-- The trees are the same under the same numbers. -/
structure CountsAlike (m n : Node) : Prop where
  unnamed : m.unnamed = n.unnamed
  number : ∀ s, m.numberFrom s = n.numberFrom s

namespace CountsAlike

variable {h k : Head} {m n m' n' : Node}

/-- Under heads with the same name and attributes, operands that are the same under the same numbers give such trees. -/
theorem above {f : Head → Node → Node} (hu : ∀ h n, (f h n).unnamed = n.unnamed + h.unnamed)
    (hf : ∀ h n s, (f h n).numberFrom s = f (h.number (s + n.unnamed)) (n.numberFrom s)) (hn : h.name = k.name)
    (ha : h.attributes = k.attributes) (hmn : CountsAlike m n) : CountsAlike (f h m) (f k n) := by
  constructor
  · rw [hu, hu, hmn.unnamed, Head.unnamed, Head.unnamed, hn]
  · intro s
    rw [hf, hf, hmn.unnamed, hmn.number, Head.number, Head.number, hn, ha]

/-- Trees with two operands count alike if their heads and their operands do. -/
theorem between {f : Head → Node → Node → Node} (hu : ∀ h l r, (f h l r).unnamed = l.unnamed + r.unnamed + h.unnamed)
    (hf : ∀ h l r s, (f h l r).numberFrom s
      = f (h.number (s + l.unnamed + r.unnamed)) (l.numberFrom s) (r.numberFrom (s + l.unnamed)))
    (hn : h.name = k.name) (ha : h.attributes = k.attributes) (hl : CountsAlike m n) (hr : CountsAlike m' n') :
    CountsAlike (f h m m') (f k n n') := by
  constructor
  · rw [hu, hu, hl.unnamed, hr.unnamed, Head.unnamed, Head.unnamed, hn]
  · intro s
    rw [hf, hf, hl.unnamed, hr.unnamed, hl.number, hr.number, Head.number, Head.number, hn, ha]

end CountsAlike

/-- Equal trees without points in their names are the same when they are numbered from the same number on. -/
theorem countsAlike_of_stamps {m n : Node} (hm : m.IsUndotted) (hn : n.IsUndotted) (h : m.stamps = n.stamps) :
    CountsAlike m n := by
  -- on the left tree; its operator tells the shape of the right one
  induction m generalizing n with
  | primaryKey | pair | inclusion | bare => cases hm
  | relation head =>
    have hstamp := stamp_of_stamps h
    have hop : some Operator.relation = n.operator? := congrArg Stamp.operator hstamp
    cases n with
    | relation head' =>
      have hname : head.name = head'.name := congrArg Stamp.name hstamp
      have hattributes : head.attributes = head'.attributes := heading_eq hm hn hstamp
      constructor <;> simp [Head.unnamed, Head.number, hname, hattributes]
    | join _ op => cases op <;> cases hop
    | _ => cases hop
  | select head c child ih =>
    have hstamp := stamp_of_stamps h
    have hop : some Operator.select = n.operator? := congrArg Stamp.operator hstamp
    cases n with
    | select head' c' child' =>
      obtain rfl : c = c' := Option.some.inj (congrArg Stamp.condition hstamp)
      exact .above (f := fun h n => select h c n) (fun _ _ => rfl) (fun _ _ _ => rfl) (congrArg Stamp.name hstamp)
        (heading_eq hm hn hstamp) (ih hm.2 hn.2 (List.cons.inj h).2)
    | join _ op => cases op <;> cases hop
    | _ => cases hop
  | project head child ih =>
    have hstamp := stamp_of_stamps h
    have hop : some Operator.project = n.operator? := congrArg Stamp.operator hstamp
    cases n with
    | project head' child' =>
      exact .above (f := project) (fun _ _ => rfl) (fun _ _ _ => rfl) (congrArg Stamp.name hstamp)
        (heading_eq hm hn hstamp) (ih hm.2 hn.2 (List.cons.inj h).2)
    | join _ op => cases op <;> cases hop
    | _ => cases hop
  | rename head child ih =>
    have hstamp := stamp_of_stamps h
    have hop : some Operator.rename = n.operator? := congrArg Stamp.operator hstamp
    cases n with
    | rename head' child' =>
      exact .above (f := rename) (fun _ _ => rfl) (fun _ _ _ => rfl) (congrArg Stamp.name hstamp)
        (heading_eq hm hn hstamp) (ih hm.2 hn.2 (List.cons.inj h).2)
    | join _ op => cases op <;> cases hop
    | _ => cases hop
  | assign head child ih =>
    have hstamp := stamp_of_stamps h
    have hop : some Operator.assign = n.operator? := congrArg Stamp.operator hstamp
    cases n with
    | assign head' child' =>
      exact .above (f := assign) (fun _ _ => rfl) (fun _ _ _ => rfl) (congrArg Stamp.name hstamp)
        (heading_eq hm hn hstamp) (ih hm.2 hn.2 (List.cons.inj h).2)
    | join _ op => cases op <;> cases hop
    | _ => cases hop
  | join head op l r ihl ihr =>
    have hstamp := stamp_of_stamps h
    have hop : (join head op l r).operator? = n.operator? := congrArg Stamp.operator hstamp
    cases n with
    | join head' op' l' r' =>
      obtain ⟨hl, hr⟩ := stamps_append_inj (List.cons.inj h).2
      obtain rfl := op_of_stamp hstamp
      exact .between (f := fun h l r => join h op l r) (fun _ _ _ => rfl) (fun _ _ _ _ => rfl) (congrArg Stamp.name hstamp)
        (heading_eq hm hn hstamp) (ihl hm.2.1 hn.2.1 hl) (ihr hm.2.2 hn.2.2 hr)
    | _ => cases op <;> cases hop
  | setOperation head op l r ihl ihr =>
    have hstamp := stamp_of_stamps h
    have hop : some (Operator.setOperation op) = n.operator? := congrArg Stamp.operator hstamp
    cases n with
    | setOperation head' op' l' r' =>
      obtain ⟨hl, hr⟩ := stamps_append_inj (List.cons.inj h).2
      obtain rfl : op = op' := Operator.setOperation.inj (Option.some.inj hop)
      exact .between (f := fun h l r => setOperation h op l r) (fun _ _ _ => rfl) (fun _ _ _ _ => rfl)
        (congrArg Stamp.name hstamp) (heading_eq hm hn hstamp) (ihl hm.2.1 hn.2.1 hl) (ihr hm.2.2 hn.2.2 hr)
    | join _ op => cases op <;> cases hop
    | _ => cases hop

/-! ## Numbers of new nodes -/

variable {serial : Nat}

/-- A relation that was made has a head that was made with the number. -/
theorem shape_of_newRelation {schema : Schema} {name : String} {n : Node} (h : newRelation schema name serial = .ok n) :
    ∃ name attributes, n = relation (Head.make name attributes serial) := by
  obtain ⟨_, -, h⟩ := exists_ok_of_bind h
  cases h
  exact ⟨_, _, rfl⟩

/-- A selection that was made has a head that was made with the number, over its operand. -/
theorem shape_of_newSelect {child n : Node} {c : Condition} (h : child.newSelect c serial = .ok n) :
    ∃ name attributes, n = select (Head.make name attributes serial) c child := by
  obtain ⟨_, -, h⟩ := exists_ok_of_bind h
  obtain ⟨_, -, h⟩ := exists_ok_of_bind h
  cases h
  exact ⟨_, _, rfl⟩

/-- A projection that was made has a head that was made with the number, over its operand. -/
theorem shape_of_newProject {child n : Node} {references : List String} (h : child.newProject references serial = .ok n) :
    ∃ name attributes, n = project (Head.make name attributes serial) child := by
  obtain ⟨_, -, h⟩ := exists_ok_of_bind h
  obtain ⟨_, -, h⟩ := exists_ok_of_bind h
  cases h
  exact ⟨_, _, rfl⟩

/-- A renaming that was made has a head that was made with the number, over its operand. -/
theorem shape_of_newRename {schema : Schema} {child n : Node} {name : Option String} {names : List Phrase}
    (h : newRename schema child name names serial = .ok n) :
    ∃ name attributes, n = rename (Head.make name attributes serial) child := by
  dsimp only [newRename] at h
  split at h
  · cases h
  · obtain ⟨_, -, h⟩ := exists_ok_of_bind h
    obtain ⟨_, -, h⟩ := exists_ok_of_bind h
    cases h
    exact ⟨_, _, rfl⟩

/-- A join that was made has a head that was made with the number, over its operands. -/
theorem shape_of_newJoin {op : Join} {left right n : Node} (h : newJoin op left right serial = .ok n) :
    ∃ name attributes, n = join (Head.make name attributes serial) op left right := by
  dsimp only [newJoin] at h
  split at h
  · cases h
  · obtain ⟨_, -, h⟩ := exists_ok_of_bind h
    obtain ⟨_, -, h⟩ := exists_ok_of_bind h
    cases h
    exact ⟨_, _, rfl⟩

/-- A set operation that was made has a head that was made with the number, over its operands. -/
theorem shape_of_newSetOperation {op : SetOperator} {left right n : Node} (h : newSetOperation op left right serial = .ok n) :
    ∃ name attributes, n = setOperation (Head.make name attributes serial) op left right := by
  obtain ⟨_, -, h⟩ := exists_ok_of_bind h
  obtain ⟨_, -, h⟩ := exists_ok_of_bind h
  split at h
  · cases h
    exact ⟨_, _, rfl⟩
  · cases h

end Node

namespace Build

/-- A node that was placed was made of the schema and the counter, which goes on by one if the node has no name. -/
theorem new_of_place {new : Schema → Nat → Except Error Node} {w v : Workspace} {n : Node}
    (h : outcome (place new) w = (.ok n, v)) :
    new w.schema w.serial = .ok n ∧ v.serial = w.serial + if n.isNamed then 0 else 1 := by
  cases hn : new w.schema w.serial with
  | error e =>
    rw [outcome_place_error hn] at h
    cases h
  | ok m =>
    rw [outcome_place_ok hn] at h
    cases h
    refine ⟨rfl, ?_⟩
    split <;> rfl

/-- A node above operands that are numbered from `s` on has the next number, if it has one. -/
theorem numberFrom_of_place {new : Schema → Nat → Except Error Node} {f : Head → Node} {s k : Nat} {w v : Workspace} {n : Node}
    (hw : w.serial = s + k)
    (hnew : ∀ schema serial n, new schema serial = .ok n → ∃ name attributes, n = f (Head.make name attributes serial))
    (hname : ∀ h, (f h).name = h.name) (hnumber : ∀ h, (f h).numberFrom s = f (h.number (s + k)))
    (hunnamed : ∀ h, (f h).unnamed = k + h.unnamed) (h : outcome (place new) w = (.ok n, v)) :
    n.numberFrom s = n ∧ v.serial = s + n.unnamed := by
  obtain ⟨hn, hv⟩ := new_of_place h
  obtain ⟨name, attributes, rfl⟩ := hnew _ _ _ hn
  constructor
  · rw [hnumber, Head.number_make, hw]
  · rw [hv, hw, hunnamed, Nat.add_assoc, Node.isNamed, hname, Head.unnamed]

/-- The tree of a term is numbered from the counter on, which goes up by the number of nodes without a name. -/
theorem numberFrom_of_build {t : Term} {w v : Workspace} {n : Node} (h : outcome t.build w = (.ok n, v)) :
    n.numberFrom w.serial = n ∧ v.serial = w.serial + n.unnamed := by
  induction t generalizing w v n with
  | relation name =>
    exact numberFrom_of_place (f := .relation) rfl (fun _ _ _ => Node.shape_of_newRelation) (fun _ => rfl) (fun _ => rfl)
      (fun _ => (Nat.zero_add _).symm) h
  | select c t ih =>
    obtain ⟨child, u, hu, h⟩ := outcome_bind h
    obtain ⟨hnum, hserial⟩ := ih hu
    exact numberFrom_of_place (f := fun h => .select h c child) hserial (fun _ _ _ => Node.shape_of_newSelect) (fun _ => rfl)
      (fun _ => by rw [Node.numberFrom, hnum]) (fun _ => rfl) h
  | project references t ih =>
    obtain ⟨child, u, hu, h⟩ := outcome_bind h
    obtain ⟨hnum, hserial⟩ := ih hu
    exact numberFrom_of_place (f := fun h => .project h child) hserial (fun _ _ _ => Node.shape_of_newProject) (fun _ => rfl)
      (fun _ => by rw [Node.numberFrom, hnum]) (fun _ => rfl) h
  | rename target t ih =>
    obtain ⟨child, u, hu, h⟩ := outcome_bind h
    obtain ⟨hnum, hserial⟩ := ih hu
    exact numberFrom_of_place (f := fun h => .rename h child) hserial (fun _ _ _ => Node.shape_of_newRename) (fun _ => rfl)
      (fun _ => by rw [Node.numberFrom, hnum]) (fun _ => rfl) h
  | join op t t' ihl ihr =>
    obtain ⟨l, u, hl, h⟩ := outcome_bind h
    obtain ⟨r, u', hr, h⟩ := outcome_bind h
    obtain ⟨hnl, hsl⟩ := ihl hl
    obtain ⟨hnr, hsr⟩ := ihr hr
    rw [hsl] at hnr hsr
    exact numberFrom_of_place (f := fun h => .join h op l r) (hsr.trans (Nat.add_assoc ..))
      (fun _ _ _ => Node.shape_of_newJoin) (fun _ => rfl) (fun _ => by rw [Node.numberFrom, hnl, hnr, Nat.add_assoc])
      (fun _ => rfl) h
  | combine op t t' ihl ihr =>
    obtain ⟨l, u, hl, h⟩ := outcome_bind h
    obtain ⟨r, u', hr, h⟩ := outcome_bind h
    obtain ⟨hnl, hsl⟩ := ihl hl
    obtain ⟨hnr, hsr⟩ := ihr hr
    rw [hsl] at hnr hsr
    exact numberFrom_of_place (f := fun h => .setOperation h op l r) (hsr.trans (Nat.add_assoc ..))
      (fun _ _ _ => Node.shape_of_newSetOperation) (fun _ => rfl) (fun _ => by rw [Node.numberFrom, hnl, hnr, Nat.add_assoc])
      (fun _ => rfl) h

end Build

namespace Node

/-- The nodes of the tree that have no name are numbered in the order in which they were made. -/
def IsCounted (n : Node) : Prop := ∃ s, n.numberFrom s = n

/-- If a tree is numbered in order, so are its parts. -/
theorem Made.isCounted_of_mem_parts {schema : Schema} {n : Node} (h : n.Made schema) {s : Nat} (hs : n.numberFrom s = n) :
    ∀ k ∈ n.parts, k.IsCounted := by
  induction h generalizing s with
  | relation =>
    rw [parts, List.forall_mem_singleton]
    exact ⟨s, hs⟩
  | select _ _ _ ih =>
    rw [parts, List.forall_mem_append, List.forall_mem_singleton]
    exact ⟨ih (select.inj hs).2.2, s, hs⟩
  | project _ _ _ ih =>
    rw [parts, List.forall_mem_append, List.forall_mem_singleton]
    exact ⟨ih (project.inj hs).2, s, hs⟩
  | rename _ _ _ _ ih =>
    rw [parts, List.forall_mem_append, List.forall_mem_singleton]
    exact ⟨ih (rename.inj hs).2, s, hs⟩
  | join _ _ _ _ _ ihl ihr =>
    obtain ⟨-, -, hl, hr⟩ := join.inj hs
    rw [parts, List.forall_mem_append, List.forall_mem_append, List.forall_mem_singleton]
    exact ⟨⟨ihl hl, ihr hr⟩, s, hs⟩
  | setOperation _ _ _ ihl ihr =>
    obtain ⟨-, -, hl, hr⟩ := setOperation.inj hs
    rw [parts, List.forall_mem_append, List.forall_mem_append, List.forall_mem_singleton]
    exact ⟨⟨ihl hl, ihr hr⟩, s, hs⟩

end Node

namespace Build

variable {level : Level} {w v : Workspace} {n : Node}

/-- All parts of the tree of a term are numbered in order. -/
theorem isCounted_of_build {t : Term} (ht : t.IsWritten) (h : outcome t.build w = (.ok n, v)) : ∀ k ∈ n.parts, k.IsCounted :=
  (steady_build ht w n v h).2.isCounted_of_mem_parts (numberFrom_of_build h).1

/-- What a dependency speaks of is made as if from the first number on. -/
theorem isCounted_of_subject {side : Side} {s : Subject} (hs : side.IsWritten s.term) {schema : Schema}
    (h : s.node schema = .ok n) : ∀ k ∈ n.parts, k.IsCounted := by
  -- its nodes have names, so they are the same from every number on
  have hb := s.outcome_build (ne_empty_of_isName hs.isName_relation) ⟨schema, 0, 0⟩
  rw [h] at hb
  exact isCounted_of_build hs.term hb

/-- The sides of a dependency are numbered in order. -/
theorem isCounted_of_declare {x : Declaration} {d : Dependency} (hx : x.States d) {schema : Schema} {mark : Nat}
    (h : d.node schema mark = .ok n) : ∀ k ∈ n.trees, k.IsCounted := by
  cases hx with
  | key =>
    cases h
    exact fun k hk => absurd hk List.not_mem_nil
  | pair _ _ _ hs =>
    obtain ⟨child, hc, h⟩ := exists_ok_of_bind h
    cases h
    show ∀ k ∈ child.parts, k.IsCounted
    exact isCounted_of_subject hs hc
  | inclusion _ _ _ hl hr =>
    obtain ⟨l, hln, h⟩ := exists_ok_of_bind h
    obtain ⟨r, hrn, h⟩ := exists_ok_of_bind h
    cases h
    show ∀ k ∈ l.parts ++ r.parts, k.IsCounted
    rw [List.forall_mem_append]
    exact ⟨isCounted_of_subject hl hln, isCounted_of_subject hr hrn⟩

/-- Every tree of a statement is numbered in the order in which its nodes were made. -/
theorem isCounted_of_statement {s : Statement} (hs : s.IsWritten level)
    (h : outcome (statement level .standard s) w = (.ok n, v)) : ∀ k ∈ n.trees, k.IsCounted := by
  cases s with
  | query e =>
    obtain ⟨t, -, hw, ho⟩ := build_of_query hs h
    intro k hk
    rcases Node.mem_parts_of_mem_trees hk with hk | rfl
    · exact isCounted_of_build hw ho k hk
    · exact ⟨_, (numberFrom_of_build ho).1⟩
  | declare x =>
    obtain ⟨d, hd⟩ := Declaration.IsWritten.exists_states hs
    exact isCounted_of_declare hd (node_of_states hd h).1
  | assign name attributes op value =>
    obtain ⟨t, child, u, -, hw, hu, h⟩ := define_of_assign hs h
    obtain ⟨-, attributes, serial, rfl⟩ := stated_of_assign hs hw hu h
    rw [Node.trees, List.forall_mem_append, List.forall_mem_singleton]
    refine ⟨isCounted_of_build hw hu, w.serial, ?_⟩
    rw [Node.numberFrom, (numberFrom_of_build hu).1, Head.number_make]
    simp [Head.make, given, ne_empty_of_isName hs.1]

/-- The trees of statements are numbered in order. -/
theorem InTurn.isCounted {ss : List Statement} {ns : List Node} (h : InTurn level w ss ns v) :
    ∀ n ∈ ns, ∀ k ∈ n.trees, k.IsCounted := by
  intro n hn
  obtain ⟨s, -, _, _, hs, ho⟩ := h.exists_statement n hn
  exact isCounted_of_statement hs ho

end Build

/-! ## Nodes of texts -/

/-- Every tree of a statement is the node of a statement that declares nothing. -/
theorem Stated.of_mem_trees {schema extended : Schema} {n : Node} (h : Stated schema n extended) :
    ∀ k ∈ n.trees, k.isDeclaration = false ∧ ∃ e, Stated schema k e := by
  have hparts : ∀ k ∈ n.parts, k.isDeclaration = false ∧ ∃ e, Stated schema k e := by
    intro k hk
    have hm := h.made_of_mem_parts k hk
    exact ⟨by cases hm <;> rfl, schema, .query hm⟩
  cases n with
  | assign head child =>
    rw [Node.trees, List.forall_mem_append, List.forall_mem_singleton]
    exact ⟨hparts, rfl, extended, h⟩
  | _ => exact hparts

/-- Every tree in a chain is the node of a statement of the algebra over a schema without points. -/
theorem Chain.of_mem_trees {schema : Schema} {ns : List Node} (h : Chain schema ns) (hs : schema.IsUndotted) :
    ∀ n ∈ ns, ∀ k ∈ n.trees, k.isDeclaration = false ∧ ∃ s e, Schema.IsUndotted s ∧ Stated s k e := by
  induction h with
  | nil => nofun
  | @cons schema extended n ns h _ ih =>
    have he := h.names (fun _ => not_dot_of_isName) (fun _ => Text.dot_not_mem_lower) hs
    refine List.forall_mem_cons.mpr ⟨fun k hk => ?_, ih he⟩
    obtain ⟨hd, e, hk⟩ := h.of_mem_trees k hk
    exact ⟨hd, schema, e, hs, hk⟩

namespace Node

/-- The node stands in a tree of the algebra that is made of a text over the schema, whatever was made before it. -/
def ArisesOver (schema : Schema) (n : Node) : Prop :=
  ∃ level text w ns v root, w.schema = schema ∧ (program level .standard text).attempt w = (.ok ns, v) ∧ root ∈ ns ∧
    n ∈ root.trees

/-- A node that arises over a schema without points is numbered in order and is the node of a statement. -/
theorem ArisesOver.stated {schema : Schema} {n : Node} (h : n.ArisesOver schema) (hs : schema.IsUndotted) :
    n.IsCounted ∧ n.isDeclaration = false ∧ ∃ s e, Schema.IsUndotted s ∧ Stated s n e := by
  obtain ⟨level, text, w, ns, v, root, rfl, hp, hr, hn⟩ := h
  obtain ⟨ss, hparse, hnodes⟩ := nodes_of_program (outcome_of_attempt hp)
  have hturn := inTurn_of_parse hparse hnodes
  exact ⟨hturn.isCounted root hr n hn, hturn.chain.of_mem_trees hs root hr n hn⟩

/-! ## Outputs -/

/-- Numbering keeps a node one that was made over the schema. -/
theorem Made.numberFrom {schema : Schema} {n : Node} (h : n.Made schema) (s : Nat) : (n.numberFrom s).Made schema := by
  induction h generalizing s with
  | relation hn hg => exact .relation hn hg
  | @select child c serial h hc hv ih =>
    rw [Node.numberFrom, Head.number_make, ← name_numberFrom s child, ← heading_numberFrom s child]
    exact .select (ih s) hc (by rwa [heading_numberFrom])
  | @project child references kept serial h hr hk ih =>
    rw [Node.numberFrom, Head.number_make, ← name_numberFrom s child]
    exact .project (ih s) hr (by rwa [heading_numberFrom])
  | @rename child target renamed serial h ht hf hr ih =>
    rw [Node.numberFrom, Head.number_make, ← name_numberFrom s child]
    exact .rename (ih s) ht hf (by rwa [name_numberFrom, heading_numberFrom])
  | @join op left right attributes serial hl hr ho hn ha ihl ihr =>
    rw [Node.numberFrom, Head.number_make]
    exact .join (ihl s) (ihr _) ho (by rwa [name_numberFrom, name_numberFrom]) (by rwa [heading_numberFrom, heading_numberFrom])
  | @setOperation op left right serial hl hr hn ihl ihr =>
    rw [Node.numberFrom, Head.number_make, ← heading_numberFrom s left]
    exact .setOperation (ihl s) (ihr _) (by rwa [heading_numberFrom, heading_numberFrom])

/-- Numbering makes no dependency of a node of the algebra, nor the other way. -/
theorem isDeclaration_numberFrom (s : Nat) (n : Node) : (n.numberFrom s).isDeclaration = n.isDeclaration := by cases n <;> rfl

end Node

namespace Stated

variable {schema extended : Schema} {n : Node}

/-- Numbering keeps a node that of a statement over the schema. -/
theorem numberFrom (h : Stated schema n extended) (s : Nat) : Stated schema (n.numberFrom s) extended := by
  cases h with
  | query h => exact .query (h.numberFrom s)
  | @assign child name names attributes serial _ h hn hs hr ha =>
    rw [Node.numberFrom, Head.number_make]
    exact .assign (h.numberFrom s) hn hs (by rwa [Node.heading_numberFrom]) ha
  | declare h =>
    obtain ⟨_, _, rfl⟩ | ⟨_, _, _, _, rfl, -⟩ | ⟨_, _, _, _, _, rfl, -⟩ := h.cases <;> exact .declare h

/-- A statement that declares nothing has one text of SQL. -/
theorem exists_sqlText (h : Stated schema n extended) (hd : n.isDeclaration = false) (semantics : Sql.Semantics) :
    ∃ text, Node.sqlTexts semantics [n] = .ok [text] := by
  cases h with
  | query h =>
    obtain ⟨q, hq⟩ := h.has_query
    rw [Node.sqlTexts, hq]
    exact ⟨_, rfl⟩
  | assign h =>
    obtain ⟨q, hq⟩ := h.has_query
    rw [Node.sqlTexts, Node.query_of_assign _ hq]
    exact ⟨_, rfl⟩
  | declare h =>
    rw [h.declares] at hd
    cases hd

/-- A statement that declares nothing has one drawing. -/
theorem exists_drawingText (h : Stated schema n extended) (hd : n.isDeclaration = false) :
    ∃ text, Node.drawingTexts [n] = .ok [text] := by
  cases h with
  | query h =>
    obtain ⟨d, hd⟩ := h.drawn
    rw [Node.drawingTexts, hd]
    exact ⟨_, rfl⟩
  | assign h =>
    obtain ⟨d, hd⟩ := h.drawn
    rw [Node.drawingTexts, Node.drawing, hd]
    exact ⟨_, rfl⟩
  | declare h =>
    rw [h.declares] at hd
    cases hd

/-- The parts of a node of the algebra are listed without fail, operands first. -/
theorem postOrder_eq (h : Stated schema n extended) (hd : n.isDeclaration = false) : n.postOrder = .ok n.trees := by
  cases h with
  | query h =>
    rw [h.postOrder_eq]
    cases h <;> rfl
  | assign h =>
    rw [Node.postOrder, h.postOrder_eq]
    rfl
  | declare h =>
    rw [h.declares] at hd
    cases hd

end Stated

/-- Equal trees of the algebra translate equally. Of texts over any two schemas without points in their attribute names, take
trees that are equal. The nodes without a name of both are numbered in the order in which they were made. Numbered from the same
number on, both trees have the same SQL under both semantics and the same drawing; and their nodes in postorder are as many on
both sides and pairwise equal. -/
theorem translations_of_equal {schema other : Schema} (hs : schema.IsUndotted) (ho : other.IsUndotted) {a b : Node}
    (ha : a.ArisesOver schema) (hb : b.ArisesOver other) (h : a.compare b = .ok true) :
    a.IsCounted ∧ b.IsCounted ∧
      (∀ s semantics, ∃ text, Node.sqlTexts semantics [a.numberFrom s] = .ok [text] ∧
        Node.sqlTexts semantics [b.numberFrom s] = .ok [text]) ∧
      (∀ s, ∃ text, Node.drawingTexts [a.numberFrom s] = .ok [text] ∧ Node.drawingTexts [b.numberFrom s] = .ok [text]) ∧
      ∃ ks ms, a.postOrder = .ok ks ∧ b.postOrder = .ok ms ∧ List.Forall₂ (fun k m : Node => k.compare m = .ok true) ks ms := by
  obtain ⟨hca, hda, _, _, hsa, hstated⟩ := ha.stated hs
  obtain ⟨hcb, hdb, _, _, hsb, hstated'⟩ := hb.stated ho
  have hstamps := (Node.compare_eq_ok_true_iff hstated.isWhole).mp h
  have hnum := (Node.countsAlike_of_stamps (hstated.isUndotted hsa hda) (hstated'.isUndotted hsb hdb) hstamps).number
  refine ⟨hca, hcb, fun s semantics => ?_, fun s => ?_, a.trees, b.trees, hstated.postOrder_eq hda,
    hstated'.postOrder_eq hdb, ?_⟩
  · obtain ⟨text, ht⟩ := (hstated.numberFrom s).exists_sqlText ((a.isDeclaration_numberFrom s).trans hda) semantics
    exact ⟨text, ht, hnum s ▸ ht⟩
  · obtain ⟨text, ht⟩ := (hstated.numberFrom s).exists_drawingText ((a.isDeclaration_numberFrom s).trans hda)
    exact ⟨text, ht, hnum s ▸ ht⟩
  · have htrees : a.trees.map Node.stamps = b.trees.map Node.stamps := by
      rw [← Node.map_stamps_trees_numberFrom 0 a, ← Node.map_stamps_trees_numberFrom 0 b, hnum]
    have hwhole : ∀ k ∈ a.trees, k.isWhole = true := fun k hk => (hstated.of_mem_trees k hk).2.choose_spec.isWhole
    rw [← List.forall₂_eq_eq_eq, List.forall₂_map_left_iff, List.forall₂_map_right_iff] at htrees
    refine ((List.forall₂_and_left _ _).mpr ⟨hwhole, htrees⟩).imp fun k m hkm => ?_
    exact (Node.compare_eq_ok_true_iff hkm.1).mpr hkm.2

/-- The union of two joins that is made with the serial number at hand. -/
def unitedNode (serial : Nat) : Node :=
  .setOperation ⟨none, [⟨"a", none, false⟩, ⟨"b", none, false⟩], serial + 2⟩ .union (joinedNode serial) (joinedNode (serial + 1))

/-- The names of a union show its number, so the SQL of equal unions is the same only if they are numbered alike. -/
theorem translations_of_unitedNodes :
    (unitedNode 1).ArisesOver [("r", ["a"]), ("s", ["b"])] ∧
      (unitedNode 2).ArisesOver [("t", ["c"]), ("r", ["a"]), ("s", ["b"])] ∧
      (unitedNode 1).compare (unitedNode 2) = .ok true ∧
      Node.sqlTexts .bag [unitedNode 1] ≠ Node.sqlTexts .bag [unitedNode 2] ∧
      ∃ text, Node.sqlTexts .bag [(unitedNode 1).numberFrom 1] = .ok [text] ∧
        Node.sqlTexts .bag [(unitedNode 2).numberFrom 1] = .ok [text] := by
  obtain ⟨ns, v, hn, hp⟩ := exists_run_of_any (p := fun ns => ns = [unitedNode 1])
    (x := (program .core .standard "(r \\join s) \\union (r \\join s);").attempt (.start [("r", ["a"]), ("s", ["b"])]))
    (by decide +kernel)
  obtain rfl := of_decide_eq_true hp
  obtain ⟨ms, v', hm, hp⟩ := exists_run_of_any (p := fun ns => ns.drop 1 = [unitedNode 2])
    (x := (program .dependency .standard "t \\join r; (r \\join s) \\union (r \\join s);").attempt
      (.start [("t", ["c"]), ("r", ["a"]), ("s", ["b"])]))
    (by decide +kernel)
  have hmem : unitedNode 2 ∈ ms := List.mem_of_mem_drop (of_decide_eq_true hp ▸ List.mem_cons_self)
  have ha : (unitedNode 1).ArisesOver [("r", ["a"]), ("s", ["b"])] :=
    ⟨_, _, _, _, _, unitedNode 1, rfl, hn, List.mem_cons_self, by decide⟩
  have hb : (unitedNode 2).ArisesOver [("t", ["c"]), ("r", ["a"]), ("s", ["b"])] :=
    ⟨_, _, _, _, _, unitedNode 2, rfl, hm, hmem, by decide⟩
  have hne : (Node.sqlTexts .bag [unitedNode 1]).toOption ≠ (Node.sqlTexts .bag [unitedNode 2]).toOption := by decide +kernel
  obtain ⟨-, -, hsql, -⟩ := translations_of_equal (by unfold Schema.IsUndotted Schema.Names; decide)
    (by unfold Schema.IsUndotted Schema.Names; decide) ha hb rfl
  exact ⟨ha, hb, rfl, fun h => hne (congrArg Except.toOption h), hsql 1 .bag⟩

end RelAlg
