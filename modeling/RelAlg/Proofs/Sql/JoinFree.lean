import RelAlg.Proofs.Compared
import RelAlg.Proofs.Sql.ConditionText

/-!
# Queries of the language without joins

The query of a node without joins merges selections and projections into the query of their operand, so that its filters and
columns speak of the columns of the innermost source, where the node speaks of the attributes of its operand. `Reads` is what
carries the two: a reference that the node resolves is resolved in the scope of the source to the column of the same name, and
the rows of the node are what the selection makes of the rows of the source. Every statement then gives the same rows as its
query, over every database and with both semantics, if every literal in its conditions ends at its own closing quote. A literal
that was written between double quotes may hold a single quote; SQL then reads the text of the condition as another one, and
programs with different rows may have one SQL text.
-/

namespace RelAlg

variable {α : Type}

/-! ## Nodes without joins -/

namespace Node

/-- What is known of the heading of a node without joins: plain names under the name of the node. -/
structure HasPlainHeading (n : Node) : Prop where
  plain : n.heading.IsPlain
  nonempty : n.heading ≠ []
  owned : ∀ a ∈ n.heading, a.qualifier = n.name
  named : ∀ q, n.name = some q → isName q = true

end Node

/-! ## Conditions whose leaves are operands -/

/-- A numeral as texts write it is one as SQL has it. -/
theorem IsNumeral.isNumeral {s : String} (h : IsNumeral s.toList) : Sql.isNumeral s = true := by
  obtain ⟨sign, hs, ds, he, hd⟩ := h
  have hdigits : Sql.isDigits ds = true := by
    unfold Sql.isDigits
    cases hd with
    | whole hd hn =>
      rw [List.dropWhile_eq_nil_iff.mpr hd]
      simpa using hn
    | @fraction ds fs hd hf hn =>
      have hpoint : (ds ++ '.' :: fs).dropWhile Char.isDigit = '.' :: fs := by
        rw [List.dropWhile_append_of_pos hd]
        rfl
      simpa [hpoint, hn] using hf
  have hsign : (sign ++ ds).drop (Reader.signPart (sign ++ ds)).length = ds := by
    have hpart : Reader.signPart (sign ++ (ds ++ [])) = sign := signPart_append hs hd
    rw [List.append_nil] at hpart
    rw [hpart, List.drop_left]
  rw [Sql.isNumeral, he, hsign, hdigits]

namespace Sql

open AttributeList

/-- Every reference that the list resolves is resolved in scope, to the column of the same name. -/
def Scope.Serves (t : Scope α) (l : AttributeList) : Prop :=
  ∀ reference a, l.get reference = .ok a → ∃ b, t.heading.get reference = .ok b ∧ b.name = a.name

/-- The names of a list under one qualifier serve the list if it uses no other qualifier. -/
theorem Relation.serves_named {l : AttributeList} (hp : l.IsPlain) {q : String}
    (hq : ∀ a ∈ l, a.qualifier = none ∨ a.qualifier = some q) (rows : Multiset (Row α)) :
    (Relation.named ⟨l.names, rows⟩ q).Serves l := by
  intro reference a h
  obtain ⟨ha, hf⟩ := mem_of_get h
  obtain ⟨hl, hn, hr⟩ := Reference.fits_iff.mp hf
  refine ⟨⟨a.name, some q, false⟩, get_of_fits ?_ ?_ ?_, rfl⟩
  · rw [named, names_ofNames]
    exact hp.distinct
  · exact List.mem_map.mpr ⟨a.name, List.mem_map_of_mem ha, rfl⟩
  · refine Reference.fits_iff.mpr ⟨rfl, hn, ?_⟩
    rcases hr with hr | hr
    · exact .inl hr
    · rcases hq a ha with h | h
      · rw [h] at hr; cases hr
      · exact .inr (by rw [← hr, h])

/-- A scope that serves a list resolves what the list does. -/
theorem Scope.Serves.resolves {t : Scope α} {l : AttributeList} (h : t.Serves l) {reference : String} {a : Attribute}
    (ha : l.get reference = .ok a) : t.resolves reference = true := by
  obtain ⟨b, hb, -⟩ := h reference a ha
  simp [Scope.resolves, hb, Except.toOption]

/-- In scope, a reference stands for the cell under the name of its attribute. -/
theorem Scope.Serves.look_eq {t : Scope α} {l : AttributeList} (h : t.Serves l) (hd : t.heading.names.Nodup) {x : Row α}
    (hx : x.length = t.heading.length) {reference : String} {a : Attribute} (ha : l.get reference = .ok a) :
    t.heading.look x reference = byName t.heading.names x a.name := by
  obtain ⟨b, hb, hn⟩ := h reference a ha
  rw [look_of_get hd hx hb, hn]

/-- A scope that serves a plain list serves what is kept of it. -/
theorem Scope.Serves.of_trim {t : Scope α} {l kept : AttributeList} {references : List String} (h : t.Serves l)
    (hp : l.IsPlain) (hk : l.trim references = .ok kept) : t.Serves kept := by
  intro reference a ha
  obtain ⟨hm, hf⟩ := mem_of_get ha
  exact h reference a (get_of_fits hp.distinct (mem_of_trim hk a hm) hf)

variable [DecidableEq α]

/-- The node is read off the scope of a source through filters that SQL reads: what it resolves is in scope, and its rows are
those on which the filters are true, with the cells under its names. -/
structure Reads (v : Values α) (semantics : Semantics) (db : Database α) (n : Node) (t : Scope α) (filters : List Predicate) :
    Prop where
  distinct : t.heading.names.Nodup
  width : ∀ x ∈ t.rows, x.length = t.heading.length
  serves : t.Serves n.heading
  wellFormed : ∀ p ∈ filters, p.isWellFormed = true
  resolved : ∀ p ∈ filters, ∀ r ∈ p.references, t.resolves r = true
  rows : n.rows v semantics db = semantics.collapse
    ((t.rows.filter fun x => ∀ p ∈ filters, p.truth v (t.heading.look x) = some true).map fun x =>
      n.heading.names.map (byName t.heading.names x))

/-- A row of a set operation is one of its operands. -/
theorem SetOperator.mem_of_mem_rows {op : SetOperator} {s t : Multiset (Row α)} {x : Row α} (h : x ∈ op.rows s t) :
    x ∈ s ∨ x ∈ t := by
  cases op with
  | union => exact Multiset.mem_add.mp h
  | difference => exact .inl (Multiset.mem_of_le (Multiset.sub_le_self s t) h)
  | intersect => exact .inl (Multiset.mem_inter.mp h).1

namespace Reads

variable {v : Values α} {semantics : Semantics} {db : Database α} {n child : Node} {t : Scope α} {filters : List Predicate}

/-- The columns of a node are resolved where it is read off. -/
theorem resolves_columns (h : Reads v semantics db n t filters) (hp : n.heading.IsPlain) :
    ∀ c ∈ n.heading.qualifiedNames, t.resolves c = true := by
  intro c hc
  obtain ⟨a, ha, rfl⟩ := List.mem_map.mp hc
  exact h.serves.resolves (hp.get_qualified ha)

/-- The columns of the node, looked up in scope, are the cells under its names. -/
theorem map_look (h : Reads v semantics db n t filters) (hp : n.heading.IsPlain) {x : Row α} (hx : x ∈ t.rows) :
    n.heading.qualifiedNames.map (t.heading.look x) = n.heading.names.map (byName t.heading.names x) := by
  simp only [qualifiedNames, AttributeList.names, List.map_map]
  refine List.map_congr_left fun a ha => ?_
  exact h.serves.look_eq h.distinct (h.width x hx) (hp.get_qualified ha)

/-- The query of a node that is read off a source gives the rows of the node under its names. -/
theorem run_select (h : Reads v semantics db n t filters) (hp : n.heading.IsPlain) {catalog : Catalog α} {source : Source}
    (hs : source.run v semantics catalog = some t) (target : Option Target) :
    (Query.select target n.heading.qualifiedNames source filters).run v semantics catalog
      = some ⟨n.heading.names, n.rows v semantics db⟩ := by
  have hc : (n.heading.qualifiedNames.all t.resolves
      && filters.all fun p => p.isWellFormed && p.references.all t.resolves) = true := by
    rw [Bool.and_eq_true, List.all_eq_true, List.all_eq_true]
    refine ⟨h.resolves_columns hp, fun p hm => ?_⟩
    rw [Bool.and_eq_true, List.all_eq_true]
    exact ⟨h.wellFormed p hm, h.resolved p hm⟩
  have hn : (n.heading.qualifiedNames.map fun c => (Reference.ofText c).name) = n.heading.names := by
    simp only [qualifiedNames, AttributeList.names, List.map_map]
    refine List.map_congr_left fun a ha => ?_
    show (Reference.ofText a.qualified).name = a.name
    rw [hp.ofText_qualified ha]
  have hr : t.select v semantics n.heading.qualifiedNames filters = n.rows v semantics db := by
    rw [h.rows, Scope.select]
    congr 1
    refine Multiset.map_congr rfl fun x hx => h.map_look hp (Multiset.mem_of_mem_filter hx)
  rw [Query.run, hs]
  simp only [Option.bind_eq_bind, Option.bind_some, hc, if_true, hn, hr]
  rfl

/-- The rows of the node have a cell for every attribute. -/
theorem length_of_mem (h : Reads v semantics db n t filters) {x : Row α} (hx : x ∈ n.rows v semantics db) :
    x.length = n.heading.length := by
  rw [h.rows, Semantics.mem_collapse] at hx
  obtain ⟨y, -, rfl⟩ := Multiset.mem_map.mp hx
  simp [AttributeList.names]

/-- The rows of a node that is read off are collapsed already. -/
theorem collapse_rows (h : Reads v semantics db n t filters) :
    semantics.collapse (n.rows v semantics db) = n.rows v semantics db := by
  rw [h.rows, Semantics.collapse_collapse]

/-- A node whose attributes are the columns of a table is read off that table. -/
theorem of_named (hp : n.heading.IsPlain) {q : String} (hq : ∀ a ∈ n.heading, a.qualifier = none ∨ a.qualifier = some q)
    {rows : Multiset (Row α)} (hw : ∀ x ∈ rows, x.length = n.heading.length)
    (hr : n.rows v semantics db = semantics.collapse rows) :
    Reads v semantics db n (Relation.named ⟨n.heading.names, rows⟩ q) [] where
  distinct := by
    rw [Relation.named, names_ofNames]
    exact hp.distinct
  width := by simpa [Relation.named, ofNames, AttributeList.names] using hw
  serves := Relation.serves_named hp hq rows
  wellFormed := List.forall_mem_nil _
  resolved := List.forall_mem_nil _
  rows := by
    rw [hr]
    congr 1
    have hm : ∀ x ∈ rows, n.heading.names.map (byName n.heading.names x) = x := fun x hx =>
      map_byName hp.distinct (by simpa [AttributeList.names] using hw x hx)
    simp only [Relation.named, names_ofNames, List.not_mem_nil, false_imp_iff, implies_true, Multiset.filter_true]
    conv_lhs => rw [← Multiset.map_id' rows]
    exact Multiset.map_congr rfl fun x hx => (hm x hx).symm

/-- On a row of the node a reference stands for the cell that it stands for in scope. -/
theorem look_row (h : Reads v semantics db n t filters) (hp : n.heading.IsPlain) {x : Row α} (hx : x ∈ t.rows)
    {reference : String} {a : Attribute} (ha : n.heading.get reference = .ok a) :
    n.heading.look (n.heading.names.map (byName t.heading.names x)) reference = t.heading.look x reference := by
  rw [h.serves.look_eq h.distinct (h.width x hx) ha, look_of_get hp.distinct (by simp [AttributeList.names]) ha]
  exact byName_map _ hp.distinct (List.mem_map_of_mem (mem_of_get ha).1)

/-- A selection adds its condition to the filters. -/
theorem select (h : Reads v semantics db child t filters) (hp : child.heading.IsPlain) {head : Head} {c : Condition}
    {p : Predicate} (hh : head.attributes = child.heading) (hw : Predicate.Writes c p) (hp' : p.isWellFormed = true)
    (hv : child.heading.validate c.references = .ok ()) :
    Reads v semantics db (.select head c child) t (filters ++ [p]) where
  distinct := h.distinct
  width := h.width
  serves := by
    show t.Serves head.attributes
    rw [hh]
    exact h.serves
  wellFormed := by
    rw [List.forall_mem_append, List.forall_mem_singleton]
    exact ⟨h.wellFormed, hp'⟩
  resolved := by
    rw [List.forall_mem_append, List.forall_mem_singleton]
    refine ⟨h.resolved, fun r hr => ?_⟩
    · rw [hw.references_eq] at hr
      obtain ⟨a, ha⟩ := get_of_validate hv r hr
      exact h.serves.resolves ha
  rows := by
    show (child.rows v semantics db).filter _ = _
    rw [h.rows, Semantics.filter_collapse, Multiset.filter_map, Multiset.filter_filter]
    congr 1
    show Multiset.map _ _ = Multiset.map (fun x => head.attributes.names.map (byName t.heading.names x)) _
    rw [hh]
    congr 1
    refine Multiset.filter_congr fun x hx => ?_
    have ht : c.truth v (child.heading.look (child.heading.names.map (byName t.heading.names x)))
        = p.truth v (t.heading.look x) := by
      rw [hw.truth_eq]
      refine Condition.truth_congr v fun r hr => ?_
      obtain ⟨a, ha⟩ := get_of_validate hv r hr
      exact h.look_row hp hx ha
    simp only [Function.comp_apply, ht, List.mem_append, List.mem_singleton]
    constructor
    · rintro ⟨h₁, h₂⟩ q (hq | rfl)
      · exact h₂ q hq
      · exact h₁
    · exact fun h => ⟨h p (.inr rfl), fun q hq => h q (.inl hq)⟩

/-- A projection keeps the filters and takes fewer columns. -/
theorem project (h : Reads v semantics db child t filters) (hp : child.heading.IsPlain) {head : Head}
    {references : List String} (hk : child.heading.trim references = .ok head.attributes) :
    Reads v semantics db (.project head child) t filters where
  distinct := h.distinct
  width := h.width
  serves := h.serves.of_trim hp hk
  wellFormed := h.wellFormed
  resolved := h.resolved
  rows := by
    show semantics.collapse ((child.rows v semantics db).map fun x => head.attributes.map (child.heading.cell x)) = _
    rw [h.rows, Semantics.collapse_map_collapse, Multiset.map_map]
    congr 1
    refine Multiset.map_congr rfl fun x hx => ?_
    show _ = (head.attributes.map (·.name)).map (byName t.heading.names x)
    rw [List.map_map]
    refine List.map_congr_left fun a ha => ?_
    have hm := mem_of_trim hk a ha
    rw [cell_of_mem hp.distinct (by simp [AttributeList.names]) hm, byName_map _ hp.distinct (List.mem_map_of_mem hm)]
    rfl

/-- A renaming is read off the query of its operand under the new names. -/
theorem rename (h : Reads v semantics db child t filters) {head : Head}
    (hh : (Node.rename head child).HasPlainHeading) (hl : head.attributes.length = child.heading.length) :
    Reads v semantics db (.rename head child)
      (Relation.named ⟨head.attributes.names, child.rows v semantics db⟩ (nameText head.name)) [] := by
  refine of_named hh.plain (fun a ha => ?_) (fun x hx => (h.length_of_mem hx).trans hl.symm) h.collapse_rows.symm
  rw [show a.qualifier = head.name from hh.owned a ha]
  cases head.name with
  | none => exact .inl rfl
  | some q => exact .inr rfl

/-- A set operation is read off the queries of its operands under a name of its own. -/
theorem combine {left right : Node} {s : Scope α} {filters' : List Predicate} (hl : Reads v semantics db left t filters)
    (hr : Reads v semantics db right s filters') (hw : left.heading.length = right.heading.length) {head : Head}
    {op : SetOperator} (hh : (Node.setOperation head op left right).HasPlainHeading) (hn : head.name = none)
    (hlen : head.attributes.length = left.heading.length) :
    Reads v semantics db (.setOperation head op left right)
      (Relation.named ⟨head.attributes.names,
        combineRows semantics op (left.rows v semantics db) (right.rows v semantics db)⟩ head.label) [] := by
  have hc : combineRows semantics op (left.rows v semantics db) (right.rows v semantics db)
      = semantics.collapse (op.rows (left.rows v semantics db) (right.rows v semantics db)) := by
    rw [combineRows, hl.collapse_rows, hr.collapse_rows]
  refine of_named hh.plain (fun a ha => .inl ((hh.owned a ha).trans hn)) (fun x hx => ?_) ?_
  · rw [hc, Semantics.mem_collapse] at hx
    show x.length = head.attributes.length
    rw [hlen]
    rcases SetOperator.mem_of_mem_rows hx with hx | hx
    · exact hl.length_of_mem hx
    · exact (hr.length_of_mem hx).trans hw.symm
  · rw [hc, Semantics.collapse_collapse]
    rfl

end Reads

end Sql

/-! ## Statements -/

open Sql

/-- The tables of the catalog are the relations of the schema with their rows in the database. -/
def Agrees (schema : Schema) (db : Database α) (catalog : Catalog α) : Prop :=
  ∀ name names, schema.get name = .ok names →
    catalog name = some ⟨names, db name⟩ ∧ ∀ x ∈ db name, x.length = names.length

/-- Over every database, the source offers what the node is read off through the filters. -/
def Node.IsReadOff (schema : Schema) (n : Node) (source : Source) (filters : List Predicate) : Prop :=
  ∀ (α : Type) [DecidableEq α] (v : Values α) (semantics : Semantics) (db : Database α) (catalog : Catalog α),
    Agrees schema db catalog → ∃ t, source.run v semantics catalog = some t ∧ Reads v semantics db n t filters

namespace Node.IsReadOff

variable {schema : Schema} {child left right : Node} {source source' : Source} {filters filters' : List Predicate}

/-- A relation is read off its table. -/
theorem relation {name : String} {names : List String} {serial : Nat} (hg : schema.get name = .ok names)
    (hh : (Node.relation (Head.make (some name) (.ofNames names (some name)) serial)).HasPlainHeading) :
    IsReadOff schema (.relation (Head.make (some name) (.ofNames names (some name)) serial)) (.table (some name)) [] := by
  intro α _ v semantics db catalog ha
  obtain ⟨hc, hw⟩ := ha name names hg
  have hnames : (AttributeList.ofNames names (some name)).names = names := AttributeList.names_ofNames _ _
  have hwidth : ∀ x ∈ db name, x.length = (AttributeList.ofNames names (some name)).length := fun x hx => by
    rw [hw x hx]
    exact (List.length_map _).symm
  refine ⟨_, ?_, Reads.of_named hh.plain (fun a ha => .inr (hh.owned a ha)) hwidth rfl⟩
  show (Source.table (some name)).run v semantics catalog
    = some (Relation.named ⟨(AttributeList.ofNames names (some name)).names, db name⟩ name)
  rw [hnames]
  simp only [Source.run, Option.bind_eq_bind, Option.bind_some, hc]
  rfl

/-- A renaming is read off the query of its operand as a sub-query. -/
theorem rename (h : child.IsReadOff schema source filters) (hhc : child.HasPlainHeading) {head : Head}
    (hh : (Node.rename head child).HasPlainHeading) (hl : head.attributes.length = child.heading.length) :
    IsReadOff schema (.rename head child)
      (.renamed (.select none child.heading.qualifiedNames source filters) head.name head.attributes.names) [] := by
  intro α _ v semantics db catalog ha
  obtain ⟨t, hrun, hread⟩ := h α v semantics db catalog ha
  have hlen : head.attributes.names.length = child.heading.names.length := by simp [AttributeList.names, hl]
  refine ⟨_, ?_, hread.rename hh hl⟩
  simp only [Source.run, hread.run_select hhc.plain hrun none, Option.bind_eq_bind, Option.bind_some, hlen, if_true]
  rfl

/-- A set operation is read off the queries of its operands, combined. -/
theorem combine (hl : left.IsReadOff schema source filters) (hr : right.IsReadOff schema source' filters')
    (hhl : left.HasPlainHeading) (hhr : right.HasPlainHeading) (hn : left.heading.names = right.heading.names)
    {op : SetOperator} {serial : Nat}
    (hh : (Node.setOperation (Head.make none (.ofNames left.heading.names none) serial) op left right).HasPlainHeading) :
    IsReadOff schema (.setOperation (Head.make none (.ofNames left.heading.names none) serial) op left right)
      (.combined op (.select none left.heading.qualifiedNames source filters)
        (.select none right.heading.qualifiedNames source' filters') (labelOf none serial)) [] := by
  intro α _ v semantics db catalog ha
  obtain ⟨tl, hrl, hreadl⟩ := hl α v semantics db catalog ha
  obtain ⟨tr, hrr, hreadr⟩ := hr α v semantics db catalog ha
  have hlen : left.heading.length = right.heading.length := by
    simpa [AttributeList.names] using congrArg List.length hn
  have hnames : (AttributeList.ofNames left.heading.names none).names = left.heading.names := AttributeList.names_ofNames _ _
  have hwidth : (AttributeList.ofNames left.heading.names none).length = left.heading.length := by
    simp [AttributeList.ofNames, AttributeList.names]
  refine ⟨_, ?_, hreadl.combine hreadr hlen hh rfl hwidth⟩
  have hlen' : left.heading.names.length = right.heading.names.length := by rw [hn]
  simp only [Source.run, hreadl.run_select hhl.plain hrl none, hreadr.run_select hhr.plain hrr none, Option.bind_eq_bind,
    Option.bind_some, hlen', if_true]
  show some (Relation.named _ _) = some (Relation.named ⟨(AttributeList.ofNames left.heading.names none).names, _⟩ _)
  rw [hnames]
  rfl

end Node.IsReadOff

end RelAlg
