import RelAlg.Proofs.Heading
import RelAlg.Proofs.Sql.Predicate

/-!
# Names in scope

The columns and conditions of a query may name a relation only if the source of that query brings the name. A node is in scope
if this holds of its query. Relations, set operations and renamings under a name always are, and so are selections and
projections over what is (`Node.Anchored`); a renaming without a name is only if its attributes have no qualifiers, and a join
only if the qualifiers of its attributes are names of its operands (`Node.namesReach`). In a tree where this holds of all
parts, all parts are in scope, and in no other tree.
-/

namespace RelAlg

namespace Sql

/-- The names that a source brings for its columns: of a table its name, of a sub-query what stands after it. -/
def Source.names : Source → List String
  | .table name => [nameText name]
  | .renamed _ name _ => [nameText name]
  | .combined _ _ _ label => [label]
  | .labelled _ label => [label]
  | .joined _ left right => left.names ++ right.names

/-- The condition that a join prints, if it has one. -/
def JoinOp.conditions : JoinOp → List Predicate
  | cross | natural => []
  | conditional _ condition => [condition]

/-- The conditions that a source prints itself, not within a sub-query. -/
def Source.conditions : Source → List Predicate
  | .joined op left right => left.conditions ++ right.conditions ++ op.conditions
  | .table _ | .renamed .. | .combined .. | .labelled .. => []

/-- Every qualifier of an attribute of the list, and of a reference in a condition that the query prints, is a name that the
source of the query brings. -/
structure Query.Covers (q : Query) (l : AttributeList) : Prop where
  columns : ∀ a ∈ l, ∀ p, given a.qualifier = some p → p ∈ q.source.names
  conditions : ∀ c ∈ q.filters ++ q.source.conditions, ∀ r ∈ c.references, (Reference.ofText r).qualifier ≠ "" →
    (Reference.ofText r).qualifier ∈ q.source.names

end Sql

open Sql

namespace Node

/-- The columns and conditions of the node's query name only what its source brings. -/
def InScope (n : Node) : Prop := ∃ q, n.query = .ok (some q) ∧ q.Covers n.heading

/-- The nodes of the algebra in a tree, each after its operands. An assignment has the query of its operand, so it is left
out. -/
def parts : Node → List Node
  | relation h => [relation h]
  | select h c n => n.parts ++ [select h c n]
  | project h n => n.parts ++ [project h n]
  | rename h n => n.parts ++ [rename h n]
  | join h op l r => l.parts ++ r.parts ++ [join h op l r]
  | setOperation h op l r => l.parts ++ r.parts ++ [setOperation h op l r]
  | assign _ n => n.parts
  | pair _ _ _ n => n.parts
  | inclusion _ _ _ l r => l.parts ++ r.parts
  | primaryKey .. | bare _ => []

/-- The names of the operands of a group of joins; a node that is no join is a group by itself. -/
def operandNames : Node → List String
  | join _ _ l r => l.operandNames ++ r.operandNames
  | n => n.name.toList

/-- The qualifiers of a renaming or of a join are names that its query can bring. -/
def namesReach : Node → Bool
  | rename h _ => h.name.isSome || h.attributes.all (·.qualifier.isNone)
  | join h op l r => h.attributes.all fun a => a.qualifier.all fun p => (join h op l r).operandNames.contains p
  | _ => true

attribute [local simp] parts operandNames namesReach Source.names Source.conditions

variable {schema : Schema} {n child left right : Node}

/-! ## Names of nodes -/

/-- The attributes of a node with a name are under that name. -/
theorem Made.qualifier_eq (h : n.Made schema) {q : String} (hq : n.name = some q) : ∀ a ∈ n.heading, a.qualifier = some q := by
  induction h with
  | relation =>
    intro a ha
    obtain ⟨m, -, rfl⟩ := List.mem_map.mp ha
    exact hq
  | select _ _ _ ih => exact ih hq
  | project _ _ hk ih => exact fun a ha => ih hq a (AttributeList.mem_of_trim hk a ha)
  | @rename child target renamed serial h ht hf hr _ =>
    intro b hb
    have hname : ∀ p, target.name?.or child.name = some p → isName p = true := fun p hp =>
      (Option.or_eq_some_iff.mp hp).elim (ht.1 p) fun hp => h.isName_name p hp.2
    obtain ⟨a, -, hab⟩ := AttributeList.qualifier_of_rename (fun n hm => ne_empty_of_isName (ht.2 n hm)) hr b hb
    have hq' : target.name?.or child.name = some q := hq
    rw [hab, given_of_isName hname, hq']
    rfl
  | join => cases hq
  | setOperation => cases hq

theorem Made.given_qualifier (h : n.Made schema) {a : Attribute} (ha : a ∈ n.heading) : given a.qualifier = a.qualifier :=
  given_of_isName (h.isName_qualifier a ha)

/-- The label of a node without a name is no name that a text can write. -/
theorem mem_operandNames_of_label (h : n.Made schema) (hj : n.isJoin = false) {p : String} (hp : isName p = true) :
    p ∈ [n.label] ↔ p ∈ n.operandNames := by
  have ho : n.operandNames = n.name.toList := by cases n <;> first | rfl | cases hj
  rw [ho, List.mem_singleton, label, labelOf, given_of_isName h.isName_name]
  cases hn : n.name with
  | some q => simp
  | none =>
    simp only [Option.toList_none, List.not_mem_nil, iff_false]
    rintro rfl
    exact absurd hp (by simp [isName])

/-- A join that has a query has it from those of its operands. -/
theorem exists_of_query_join {h : Head} {op : Join} {q : Query} (hq : (join h op left right).query = .ok (some q)) :
    ∃ l r o, left.query = .ok (some l) ∧ right.query = .ok (some r) ∧ op.toSql = .ok o
      ∧ q = .select none h.attributes.qualifiedNames (.joined o (left.operandSource l) (right.operandSource r)) [] := by
  have hneeded : ∀ {q? : Option Query} {q : Query}, needed q? = .ok q → q? = some q := by
    intro q? q h
    cases q? <;> cases h
    rfl
  obtain ⟨l?, hl, hq⟩ := exists_ok_of_bind hq
  obtain ⟨l, hln, hq⟩ := exists_ok_of_bind hq
  obtain ⟨r?, hr, hq⟩ := exists_ok_of_bind hq
  obtain ⟨r, hrn, hq⟩ := exists_ok_of_bind hq
  obtain ⟨o, ho, hq⟩ := exists_ok_of_bind hq
  cases hq
  exact ⟨l, r, o, hneeded hln ▸ hl, hneeded hrn ▸ hr, ho, rfl⟩

/-- Of the names that texts can write, an operand of a join brings those of its group. -/
theorem Made.mem_operandSource (h : n.Made schema) {q : Query} (hq : n.query = .ok (some q)) {p : String}
    (hp : isName p = true) : p ∈ (n.operandSource q).names ↔ p ∈ n.operandNames := by
  induction h generalizing q with
  | relation hn hg => exact mem_operandNames_of_label (.relation hn hg) rfl hp
  | select h hc hv => exact mem_operandNames_of_label (.select h hc hv) rfl hp
  | project h hr hk => exact mem_operandNames_of_label (.project h hr hk) rfl hp
  | rename h ht hf hr => exact mem_operandNames_of_label (.rename h ht hf hr) rfl hp
  | setOperation hl hr hn => exact mem_operandNames_of_label (.setOperation hl hr hn) rfl hp
  | join _ _ _ _ _ ihl ihr =>
    obtain ⟨l, r, o, hl, hr, -, rfl⟩ := exists_of_query_join hq
    show p ∈ Source.names _ ++ Source.names _ ↔ p ∈ operandNames _ ++ operandNames _
    rw [List.mem_append, List.mem_append, ihl hl, ihr hr]

/-- The conditions that an operand prints are in scope where the operand is. -/
theorem conditions_operandSource {q : Query} (hc : q.Covers n.heading) :
    ∀ c ∈ (n.operandSource q).conditions, ∀ r ∈ c.references, (Reference.ofText r).qualifier ≠ "" →
      (Reference.ofText r).qualifier ∈ (n.operandSource q).names := by
  intro c hm
  by_cases hj : n.isJoin = true
  · rw [operandSource, if_pos hj] at hm ⊢
    exact hc.conditions c (List.mem_append_right _ hm)
  · rw [operandSource, if_neg hj] at hm
    cases hm

/-- A reference that a list resolves has the qualifier of one of its attributes, if it has one. -/
theorem exists_given_of_get {l : AttributeList} {r : String} {a : Attribute} (h : l.get r = .ok a)
    (hq : (Reference.ofText r).qualifier ≠ "") : a ∈ l ∧ given a.qualifier = some (Reference.ofText r).qualifier := by
  obtain ⟨ha, hf⟩ := AttributeList.mem_of_get h
  have he := ((Reference.fits_iff.mp hf).2.2).resolve_left hq
  exact ⟨ha, by simp [he, given, hq]⟩

/-- The condition of a join speaks of its attributes. -/
theorem exists_toSql_get {op : Join} {l r attributes : AttributeList} (ho : op.IsWritten)
    (ha : joinAttributes op l r = .ok attributes) :
    ∃ o, op.toSql = .ok o ∧ ∀ c ∈ o.conditions, ∀ ref ∈ c.references, ∃ a, attributes.get ref = .ok a := by
  cases op with
  | cross => exact ⟨.cross, rfl, fun c hc => by cases hc⟩
  | natural => exact ⟨.natural, rfl, fun c hc => by cases hc⟩
  | conditional kind condition =>
    obtain ⟨p, hp⟩ := Predicate.exists_ofCondition ho
    refine ⟨.conditional kind p, by rw [Join.toSql, hp]; rfl, ?_⟩
    intro c hc ref hr
    obtain rfl := List.mem_singleton.mp hc
    rw [(Predicate.writes_of_ofCondition hp).references_eq] at hr
    exact AttributeList.get_of_validate (joinAttributes_conditional ha).2 ref hr

/-- Every node of the algebra has a query. -/
theorem Made.has_query (h : n.Made schema) : ∃ q, n.query = .ok (some q) := by
  induction h with
  | relation => exact ⟨_, rfl⟩
  | select _ hc _ ih =>
    obtain ⟨q, hq⟩ := ih
    obtain ⟨p, hp⟩ := Predicate.exists_ofCondition hc
    exact ⟨_, query_of_select _ hq hp⟩
  | project _ _ _ ih =>
    obtain ⟨q, hq⟩ := ih
    exact ⟨_, query_of_project _ hq⟩
  | rename _ _ _ _ ih =>
    obtain ⟨q, hq⟩ := ih
    exact ⟨_, query_of_rename _ hq⟩
  | join _ _ ho _ ha ihl ihr =>
    obtain ⟨l, hl⟩ := ihl
    obtain ⟨r, hr⟩ := ihr
    obtain ⟨o, ho, -⟩ := exists_toSql_get ho ha
    exact ⟨_, query_of_join _ hl hr ho⟩
  | setOperation _ _ _ ihl ihr =>
    obtain ⟨l, hl⟩ := ihl
    obtain ⟨r, hr⟩ := ihr
    exact ⟨_, query_of_setOperation _ _ hl hr⟩

/-! ## One node -/

/-- The name of a relation is that of its table, and its attributes are under it. -/
theorem inScope_relation {name : String} {names : List String} {serial : Nat} :
    (relation (Head.make (some name) (.ofNames names (some name)) serial)).InScope := by
  refine ⟨_, rfl, ?_, fun c hc => by cases hc⟩
  intro a ha p hp
  obtain ⟨m, -, rfl⟩ := List.mem_map.mp ha
  have hp : (some name).filter (· ≠ "") = some p := hp
  rw [Option.filter_eq_some_iff] at hp
  cases hp.1
  exact List.mem_singleton_self _

/-- A selection from a node in scope is in scope: its condition speaks of attributes of the node. -/
theorem InScope.select (h : child.InScope) {c : Condition} (hc : c.IsWritten)
    (hv : child.heading.validate c.references = .ok ()) (serial : Nat) :
    (select (Head.make child.name child.heading serial) c child).InScope := by
  obtain ⟨q, hq, hcols, hconds⟩ := h
  obtain ⟨p, hp⟩ := Predicate.exists_ofCondition hc
  refine ⟨_, query_of_select _ hq hp, hcols, ?_⟩
  intro d hd r hr hne
  have hd : d ∈ q.filters ++ [p] ++ q.source.conditions := hd
  rw [List.append_assoc, List.mem_append, List.mem_append, List.mem_singleton] at hd
  rcases hd with hd | rfl | hd
  · exact hconds d (List.mem_append_left _ hd) r hr hne
  · -- The new condition speaks of attributes of the operand.
    rw [(Predicate.writes_of_ofCondition hp).references_eq] at hr
    obtain ⟨a, ha⟩ := AttributeList.get_of_validate hv r hr
    obtain ⟨hm, hg⟩ := exists_given_of_get ha hne
    exact hcols a hm _ hg
  · exact hconds d (List.mem_append_right _ hd) r hr hne

/-- A projection of a node in scope is in scope: it keeps some of the attributes. -/
theorem InScope.project (h : child.InScope) {references : List String} {kept : AttributeList}
    (hk : child.heading.trim references = .ok kept) (serial : Nat) :
    (project (Head.make child.name kept serial) child).InScope := by
  obtain ⟨q, hq, hcols, hconds⟩ := h
  exact ⟨_, query_of_project _ hq, fun a ha => hcols a (AttributeList.mem_of_trim hk a ha), hconds⟩

/-- A set operation is in scope whatever its operands are: its attributes have no qualifiers. -/
theorem inScope_setOperation (hl : left.Made schema) (hr : right.Made schema) (op : SetOperator) (serial : Nat) :
    (setOperation (Head.make none (.ofNames left.heading.names none) serial) op left right).InScope := by
  obtain ⟨l, hl⟩ := hl.has_query
  obtain ⟨r, hr⟩ := hr.has_query
  refine ⟨_, query_of_setOperation _ op hl hr, ?_, fun c hc => by cases hc⟩
  intro a ha p hp
  obtain ⟨m, -, rfl⟩ := List.mem_map.mp ha
  cases hp

/-- A renaming brings its own name only, whatever its operand is. -/
theorem inScope_rename_iff {h : Head} (hc : child.Made schema) (hm : (rename h child).Made schema) :
    (rename h child).InScope ↔ (rename h child).namesReach = true := by
  obtain ⟨q, hq⟩ := hc.has_query
  have hquery := query_of_rename h hq
  constructor
  · rintro ⟨q', hq', hcols, -⟩
    rw [hquery] at hq'
    cases hq'
    rw [namesReach]
    cases hn : h.name with
    | some p => rfl
    | none =>
      rw [Option.isSome_none, Bool.false_or, List.all_eq_true]
      intro a ha
      rw [Option.isNone_iff_eq_none]
      by_contra hne
      obtain ⟨p, hp⟩ := Option.ne_none_iff_exists'.mp hne
      have hmem := hcols a ha p ((hm.given_qualifier ha).trans hp)
      rw [Query.source, Source.names, hn] at hmem
      have hname := hm.isName_qualifier a ha p hp
      rw [List.mem_singleton.mp hmem] at hname
      exact absurd hname (by decide)
  · intro hr
    refine ⟨_, hquery, ?_, fun c hc => by cases hc⟩
    intro a ha p hp
    rw [hm.given_qualifier ha] at hp
    rw [namesReach, Bool.or_eq_true, List.all_eq_true] at hr
    rcases hr with hr | hr
    · obtain ⟨name, hn⟩ := Option.isSome_iff_exists.mp hr
      have hown := hm.qualifier_eq hn a ha
      rw [hp] at hown
      cases hown
      rw [Query.source, Source.names, hn]
      exact List.mem_singleton_self _
    · have := hr a ha
      rw [hp] at this
      cases this

/-- A join brings the names of its operands, and its condition speaks of its attributes. -/
theorem inScope_join_iff {h : Head} {op : Join} (hm : (join h op left right).Made schema) (hl : left.InScope)
    (hr : right.InScope) : (join h op left right).InScope ↔ (join h op left right).namesReach = true := by
  have hreach : (join h op left right).namesReach = true ↔
      ∀ a ∈ h.attributes, ∀ p, a.qualifier = some p → p ∈ (join h op left right).operandNames := by
    rw [namesReach, List.all_eq_true]
    refine forall₂_congr fun a ha => ?_
    cases a.qualifier <;> simp
  have hnames : ∀ q, (join h op left right).query = .ok (some q) → ∀ p, isName p = true →
      (p ∈ q.source.names ↔ p ∈ (join h op left right).operandNames) := fun q hq p hp => hm.mem_operandSource hq hp
  rw [hreach]
  constructor
  · rintro ⟨q, hq, hcols, -⟩ a ha p hp
    exact (hnames q hq p (hm.isName_qualifier a ha p hp)).mp (hcols a ha p ((hm.given_qualifier ha).trans hp))
  · intro hown
    obtain ⟨lq, hlq, hlc⟩ := hl
    obtain ⟨rq, hrq, hrc⟩ := hr
    have hma := hm
    cases hma with
    | @join _ _ _ attributes serial _ _ ho _ ha =>
      obtain ⟨o, hos, hget⟩ := exists_toSql_get ho ha
      have hquery := query_of_join (Head.make none attributes serial) hlq hrq hos
      have hcols : ∀ a ∈ attributes, ∀ p, given a.qualifier = some p →
          p ∈ (left.operandSource lq).names ++ (right.operandSource rq).names := by
        intro a ha p hp
        rw [hm.given_qualifier ha] at hp
        exact (hnames _ hquery p (hm.isName_qualifier a ha p hp)).mpr (hown a ha p hp)
      refine ⟨_, hquery, hcols, ?_⟩
      intro c hc r hr hne
      have hc : c ∈ (left.operandSource lq).conditions ++ (right.operandSource rq).conditions ++ o.conditions := hc
      rw [List.mem_append, List.mem_append] at hc
      rcases hc with (hc | hc) | hc
      · exact List.mem_append_left _ (conditions_operandSource hlc c hc r hr hne)
      · exact List.mem_append_right _ (conditions_operandSource hrc c hc r hr hne)
      · obtain ⟨a, hga⟩ := hget c hc r hr
        obtain ⟨ham, hg⟩ := exists_given_of_get hga hne
        exact hcols a ham _ hg

/-- A node that is in scope by its operator and its name alone, or by the scope of the one node it filters. -/
def Anchored : Node → Prop
  | relation _ | setOperation .. => True
  | rename h _ => h.name.isSome = true
  | select _ _ n | project _ n => n.InScope
  | join .. | assign .. | primaryKey .. | pair .. | inclusion .. | bare _ => False

/-- Relations, set operations and renamings under a name are in scope, and so are selections and projections over what is. -/
theorem Made.inScope_of_anchored (h : n.Made schema) (ha : n.Anchored) : n.InScope := by
  cases h with
  | relation => exact inScope_relation
  | select _ hc hv => exact InScope.select ha hc hv _
  | project _ _ hk => exact InScope.project ha hk _
  | rename h ht hf hr =>
    refine (inScope_rename_iff h (.rename h ht hf hr)).mpr ?_
    rw [namesReach, Bool.or_eq_true]
    exact .inl ha
  | setOperation hl hr => exact inScope_setOperation hl hr _ _
  | join => exact ha.elim

/-! ## Trees -/

/-- A node that was made is a part of itself. -/
theorem Made.self_mem_parts (h : n.Made schema) : n ∈ n.parts := by
  cases h <;> simp

/-- The parts of a node that was made over a schema were made over it too. -/
theorem Made.of_mem_parts (h : n.Made schema) : ∀ k ∈ n.parts, k.Made schema := by
  induction h with
  | relation hn hg =>
    intro k hk
    rw [List.mem_singleton.mp hk]
    exact .relation hn hg
  | select h hc hv ih =>
    rw [parts, List.forall_mem_append, List.forall_mem_singleton]
    exact ⟨ih, .select h hc hv⟩
  | project h hr hk ih =>
    rw [parts, List.forall_mem_append, List.forall_mem_singleton]
    exact ⟨ih, .project h hr hk⟩
  | rename h ht hf hr ih =>
    rw [parts, List.forall_mem_append, List.forall_mem_singleton]
    exact ⟨ih, .rename h ht hf hr⟩
  | join hl hr ho hn ha ihl ihr =>
    rw [parts, List.forall_mem_append, List.forall_mem_append, List.forall_mem_singleton]
    exact ⟨⟨ihl, ihr⟩, .join hl hr ho hn ha⟩
  | setOperation hl hr hn ihl ihr =>
    rw [parts, List.forall_mem_append, List.forall_mem_append, List.forall_mem_singleton]
    exact ⟨⟨ihl, ihr⟩, .setOperation hl hr hn⟩

/-- In a tree that was made, all parts are in scope just if the qualifiers of all renamings and joins reach. -/
theorem Made.inScope_iff (h : n.Made schema) :
    (∀ k ∈ n.parts, k.InScope) ↔ ∀ k ∈ n.parts, k.namesReach = true := by
  -- A part is in scope by the lemma for its operator, once its operands are.
  have hstep : ∀ {ks : List Node} {k : Node}, ((∀ j ∈ ks, j.InScope) ↔ ∀ j ∈ ks, j.namesReach = true) →
      ((∀ j ∈ ks, j.InScope) → (k.InScope ↔ k.namesReach = true)) →
      ((∀ j ∈ ks ++ [k], j.InScope) ↔ ∀ j ∈ ks ++ [k], j.namesReach = true) := by
    intro ks k hks hk
    simp only [List.forall_mem_append, List.forall_mem_singleton]
    constructor
    · rintro ⟨h₁, h₂⟩
      exact ⟨hks.mp h₁, (hk h₁).mp h₂⟩
    · rintro ⟨h₁, h₂⟩
      exact ⟨hks.mpr h₁, (hk (hks.mpr h₁)).mpr h₂⟩
  have happend : ∀ {js ks : List Node}, ((∀ j ∈ js, j.InScope) ↔ ∀ j ∈ js, j.namesReach = true) →
      ((∀ j ∈ ks, j.InScope) ↔ ∀ j ∈ ks, j.namesReach = true) →
      ((∀ j ∈ js ++ ks, j.InScope) ↔ ∀ j ∈ js ++ ks, j.namesReach = true) := by
    intro js ks hjs hks
    simp only [List.forall_mem_append, hjs, hks]
  induction h with
  | relation hn hg =>
    simp only [parts, List.forall_mem_singleton]
    exact ⟨fun _ => rfl, fun _ => inScope_relation⟩
  | select h hc hv ih =>
    refine hstep ih fun hk => ?_
    exact ⟨fun _ => rfl, fun _ => (hk _ h.self_mem_parts).select hc hv _⟩
  | project h hr hk ih =>
    refine hstep ih fun hks => ?_
    exact ⟨fun _ => rfl, fun _ => (hks _ h.self_mem_parts).project hk _⟩
  | rename h ht hf hr ih =>
    exact hstep ih fun _ => inScope_rename_iff h (.rename h ht hf hr)
  | join hl hr ho hn ha ihl ihr =>
    refine hstep (happend ihl ihr) fun hk => ?_
    exact inScope_join_iff (.join hl hr ho hn ha) (hk _ (List.mem_append_left _ hl.self_mem_parts))
      (hk _ (List.mem_append_right _ hr.self_mem_parts))
  | setOperation hl hr hn ihl ihr =>
    refine hstep (happend ihl ihr) fun _ => ?_
    exact ⟨fun _ => rfl, fun _ => inScope_setOperation hl hr _ _⟩

end Node

/-- In the tree of a statement, all parts are in scope just if the qualifiers of all renamings and joins reach. -/
theorem Stated.inScope_iff {schema extended : Schema} {n : Node} (h : Stated schema n extended) :
    (∀ k ∈ n.parts, k.InScope) ↔ ∀ k ∈ n.parts, k.namesReach = true := by
  cases h with
  | query h => exact h.inScope_iff
  | assign h => exact h.inScope_iff
  | declare h =>
    obtain ⟨_, _, rfl⟩ | ⟨_, _, _, child, rfl, hc⟩ | ⟨_, _, _, left, right, rfl, hl, hr⟩ := h.cases
    · exact iff_of_true (fun k hk => by cases hk) fun k hk => by cases hk
    · exact hc.inScope_iff
    · simp only [Node.parts, List.forall_mem_append, hl.inScope_iff, hr.inScope_iff]

/-- Every part of the tree of a statement was made over the schema that the statement found. -/
theorem Stated.made_of_mem_parts {schema extended : Schema} {n : Node} (h : Stated schema n extended) :
    ∀ k ∈ n.parts, k.Made schema := by
  cases h with
  | query h => exact h.of_mem_parts
  | assign h => exact h.of_mem_parts
  | declare h =>
    obtain ⟨_, _, rfl⟩ | ⟨_, _, _, child, rfl, hc⟩ | ⟨_, _, _, left, right, rfl, hl, hr⟩ := h.cases
    · exact List.forall_mem_nil _
    · exact hc.of_mem_parts
    · exact List.forall_mem_append.mpr ⟨hl.of_mem_parts, hr.of_mem_parts⟩

/-- Every part of the trees of a text was made over the schema of its statement. -/
theorem Chain.made_of_mem_parts {schema : Schema} {ns : List Node} (h : Chain schema ns) :
    ∀ n ∈ ns, ∀ k ∈ n.parts, ∃ s, k.Made s := by
  induction h with
  | nil => nofun
  | cons h _ ih =>
    rw [List.forall_mem_cons]
    exact ⟨fun k hk => ⟨_, h.made_of_mem_parts k hk⟩, ih⟩

/-- In the trees of an accepted text, over any schema, the columns and conditions of all queries name only what their sources
bring, just if every renaming without a name has attributes without qualifiers and every join has attributes under the names of
its operands. Of a single part this is known without a look at the others if it is a relation, a set operation or a renaming
under a name, and if it is a selection or a projection it is so where its operand is. -/
theorem inScope_iff_namesReach (level : Level) (schema : Schema) (text : String) (ns : List Node)
    (h : Dialect.forest ⟨level, .standard⟩ schema text = .ok ns) :
    ((∀ n ∈ ns, ∀ k ∈ n.parts, k.InScope) ↔ ∀ n ∈ ns, ∀ k ∈ n.parts, k.namesReach = true)
      ∧ ∀ n ∈ ns, ∀ k ∈ n.parts, k.Anchored → k.InScope := by
  have hc := Build.chain_of_forest h
  refine ⟨?_, fun n hn k hk hanchored => ?_⟩
  · clear h
    induction hc with
    | nil => simp
    | cons h _ ih => simp only [List.forall_mem_cons, h.inScope_iff, ih]
  · obtain ⟨s, hm⟩ := hc.made_of_mem_parts n hn k hk
    exact hm.inScope_of_anchored hanchored

/-- A join with a renamed relation, and a selection over it that names both. -/
theorem inScope_of_named_operands : ∃ n, Dialect.forest ⟨.extended, .standard⟩ [("r", ["a"]), ("s", ["b"])]
      "\\select_\x7br.a = t.c and s.b = a\x7d (r \\join s \\join \\rename_\x7bt(c)\x7d \\project_\x7ba\x7d r);" = .ok [n]
    ∧ ∀ k ∈ n.parts, k.InScope := by
  obtain ⟨n, hn, hr⟩ := exists_single_of_any (x := Dialect.forest ⟨.extended, .standard⟩ [("r", ["a"]), ("s", ["b"])]
    "\\select_\x7br.a = t.c and s.b = a\x7d (r \\join s \\join \\rename_\x7bt(c)\x7d \\project_\x7ba\x7d r);")
    (p := fun n => n.parts.all Node.namesReach) (by decide +kernel)
  have hall := (inScope_iff_namesReach .extended _ _ [n] hn).1.mpr (by simpa using hr)
  exact ⟨n, hn, hall n (List.mem_singleton_self n)⟩

/-- The trees of an accepted text have a part whose query names what its source does not bring. -/
def Strays (schema : Schema) (text sql : String) : Prop :=
  Dialect.sql ⟨.extended, .standard⟩ .bag schema text = .ok [sql]
    ∧ ∃ n, Dialect.forest ⟨.extended, .standard⟩ schema text = .ok [n] ∧ ∃ k ∈ n.parts, ¬k.InScope

/-- A part that does not reach its names makes the text stray. -/
theorem strays_of_namesReach {schema : Schema} {text sql : String}
    (hs : ((Dialect.sql ⟨.extended, .standard⟩ .bag schema text).toOption.any fun texts => texts = [sql]) = true)
    (hr : ((Dialect.forest ⟨.extended, .standard⟩ schema text).toOption.any fun ns =>
      ns.length = 1 && ns.all fun n => !n.parts.all Node.namesReach) = true) : Strays schema text sql := by
  obtain ⟨texts, hs, ht⟩ := exists_ok_of_any hs
  obtain ⟨n, hn, hr⟩ := exists_single_of_any hr
  rw [decide_eq_true_eq] at ht
  refine ⟨ht ▸ hs, n, hn, ?_⟩
  by_contra hall
  push Not at hall
  cases Build.chain_of_forest hn with
  | cons h _ =>
    have hreach := h.inScope_iff.mp hall
    rw [Bool.not_eq_true', List.all_eq_false] at hr
    obtain ⟨k, hk, hkr⟩ := hr
    exact hkr (hreach k hk)

/-- New attribute names for a join keep the qualifiers of the join, and a selection from a join keeps them as an operand; both
are under another name then. -/
theorem qualifiers_stray :
    Strays [("r", ["a"]), ("s", ["b"])] "\\rename_\x7b(x, y)\x7d (r \\join s);"
      "SELECT r.x, s.y FROM (SELECT r.a, s.b FROM (SELECT r.a FROM r) AS r CROSS JOIN (SELECT s.b FROM s) AS s) AS None(x, y)"
    ∧ Strays [("r", ["a"]), ("s", ["b"]), ("t", ["c"])] "\\select_\x7ba = b\x7d (r \\join s) \\join t;"
      ("SELECT r.a, s.b, t.c FROM (SELECT r.a, s.b FROM (SELECT r.a FROM r) AS r CROSS JOIN (SELECT s.b FROM s) AS s "
        ++ "WHERE (a = b)) AS _#2 CROSS JOIN (SELECT t.c FROM t) AS t") := by
  refine ⟨strays_of_namesReach ?_ ?_, strays_of_namesReach ?_ ?_⟩ <;> decide +kernel

end RelAlg
