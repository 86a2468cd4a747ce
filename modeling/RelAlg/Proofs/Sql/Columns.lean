import RelAlg.Proofs.Sql.Semantics

/-!
# Columns of queries

The columns of a query are set by some nodes, taken over from the operand by others and replaced by a projection; the
attributes of a node come about on their own. Both lists are the same at every node of the algebra (`Made.exists_columns`).
So wherever a query stands next to names for its columns, or next to another query whose rows it is put together with, there
are as many of the one as of the other (`columnsAgree`).
-/

namespace RelAlg

open Sql

namespace Sql

mutual

/-- Wherever the query, or a query inside it, stands next to names for its columns or is put together with another one, the
numbers of columns agree. -/
def Query.columnsAgree : Query → Bool
  | .select target columns source _ => target.all (·.columns.length = columns.length) && source.columnsAgree
  | .alter .. => true

/-- The numbers of columns agree in every query of the source. -/
def Source.columnsAgree : Source → Bool
  | .table _ => true
  | .renamed query _ columns => query.columns.length = columns.length && query.columnsAgree
  | .combined _ left right _ => left.columns.length = right.columns.length && left.columnsAgree && right.columnsAgree
  | .labelled query _ => query.columnsAgree
  | .joined _ left right => left.columnsAgree && right.columnsAgree

end

theorem Query.columnsAgree_source {q : Query} (h : q.columnsAgree = true) : q.source.columnsAgree = true := by
  cases q with
  | select target columns source filters => exact (Bool.and_eq_true_iff.mp h).2
  | alter => rfl

end Sql

namespace Node

variable {schema : Schema} {n : Node}

theorem columnsAgree_operandSource {q : Query} (h : q.columnsAgree = true) : (n.operandSource q).columnsAgree = true := by
  unfold operandSource
  split
  · exact Query.columnsAgree_source h
  · exact h

/-- The query of a node creates no table, has the columns that the node has attributes, and has no filters if the node is a
join. -/
structure HasColumns (n : Node) (q : Query) : Prop where
  query : n.query = .ok (some q)
  target : q.target = none
  columns : q.columns = n.heading.qualifiedNames
  agree : q.columnsAgree = true
  filters : n.isJoin = true → q.filters = []

theorem HasColumns.length {q : Query} (h : n.HasColumns q) : q.columns.length = n.heading.length := by
  rw [h.columns, AttributeList.qualifiedNames, List.length_map]

/-- Every node of the algebra has a query with its own columns. -/
theorem Made.exists_columns (h : n.Made schema) : ∃ q, n.HasColumns q := by
  induction h with
  | relation => exact ⟨_, rfl, rfl, rfl, rfl, fun h => by cases h⟩
  | @select child c serial _ hc _ ih =>
    obtain ⟨q, hq⟩ := ih
    obtain ⟨p, hp⟩ := Predicate.exists_ofCondition hc
    -- the operand has the columns of the selection, so it does not matter whose are taken
    have hquery : (Node.select (Head.make child.name child.heading serial) c child).query
        = .ok (some (.select none child.heading.qualifiedNames q.source (q.filters ++ [p]))) := by
      rw [query_of_select _ hq.query hp, hq.target, hq.columns]
      exact congrArg (fun columns => Except.ok (some (Query.select none columns q.source (q.filters ++ [p])))) (ite_self _)
    exact ⟨_, hquery, rfl, rfl, Query.columnsAgree_source hq.agree, fun h => by cases h⟩
  | @project child _ kept serial _ _ _ ih =>
    obtain ⟨q, hq⟩ := ih
    have hquery := query_of_project (Head.make child.name kept serial) hq.query
    rw [hq.target] at hquery
    exact ⟨_, hquery, rfl, rfl, Query.columnsAgree_source hq.agree, fun h => by cases h⟩
  | @rename child target renamed serial _ _ _ hr ih =>
    obtain ⟨q, hq⟩ := ih
    have hlength : q.columns.length = renamed.names.length := by
      rw [hq.length, AttributeList.names, List.length_map]
      exact (AttributeList.length_of_rename hr).symm
    refine ⟨_, query_of_rename _ hq.query, rfl, rfl, ?_, fun h => by cases h⟩
    exact Bool.and_eq_true_iff.mpr ⟨decide_eq_true hlength, hq.agree⟩
  | @join op left right attributes serial _ _ ho _ ha ihl ihr =>
    obtain ⟨l, hl⟩ := ihl
    obtain ⟨r, hr⟩ := ihr
    obtain ⟨o, ho, -⟩ := exists_toSql_get ho ha
    refine ⟨_, query_of_join _ hl.query hr.query ho, rfl, rfl, ?_, fun _ => rfl⟩
    exact Bool.and_eq_true_iff.mpr ⟨columnsAgree_operandSource hl.agree, columnsAgree_operandSource hr.agree⟩
  | @setOperation op left right serial _ _ hn ihl ihr =>
    obtain ⟨l, hl⟩ := ihl
    obtain ⟨r, hr⟩ := ihr
    have hlength : l.columns.length = r.columns.length := by
      have := congrArg List.length hn
      rw [hl.length, hr.length]
      simpa [AttributeList.names] using this
    refine ⟨_, query_of_setOperation _ op hl.query hr.query, rfl, rfl, ?_, fun h => by cases h⟩
    simp only [Query.columnsAgree, Source.columnsAgree, Option.all_none, hlength, hl.agree, hr.agree, Bool.and_self, decide_true]

/-- The blocks of the query of a node: its attributes as they are written, with something to print, and no condition for a
join. -/
theorem HasColumns.blocks {q : Query} (h : n.HasColumns q) (hm : n.Made schema) (hs : schema.IsNamed) (semantics : Semantics) :
    (q.blocks semantics).select = n.heading.text ∧ (q.blocks semantics).select ≠ "" ∧
      (n.isJoin = true → (q.blocks semantics).filter = "") := by
  have hselect : (q.blocks semantics).select = n.heading.text := by
    show commaList q.columns = _
    rw [h.columns]
    rfl
  refine ⟨hselect, fun he => ?_, fun hj => ?_⟩
  · have hprinted := (hm.isSmallText_columns hs).1
    rw [show commaList n.heading.qualifiedNames = "" from hselect.symm.trans he] at hprinted
    cases hprinted
  · show filterText q.filters = ""
    rw [h.filters hj]
    rfl

end Node

/-- The query of a statement, if it has one, has columns that agree; an assignment names as many as its value has. -/
theorem Stated.columnsAgree {schema extended : Schema} {n : Node} (h : Stated schema n extended) :
    ∃ q?, n.query = .ok q? ∧ ∀ q, q? = some q → q.columnsAgree = true := by
  cases h with
  | query h =>
    obtain ⟨q, hq⟩ := h.exists_columns
    exact ⟨_, hq.query, by rintro _ ⟨⟩; exact hq.agree⟩
  | @assign child name names attributes serial _ h _ _ hr _ =>
    obtain ⟨q, hq⟩ := h.exists_columns
    have hlength : attributes.names.length = q.columns.length := by
      rw [hq.length, AttributeList.names, List.length_map]
      exact AttributeList.length_of_rename hr
    refine ⟨_, Node.query_of_assign _ hq.query, ?_⟩
    rintro _ ⟨⟩
    exact Bool.and_eq_true_iff.mpr ⟨decide_eq_true hlength, Query.columnsAgree_source hq.agree⟩
  | declare h =>
    obtain ⟨_, _, rfl⟩ | ⟨_, _, _, _, rfl, -⟩ | ⟨_, _, _, _, _, rfl, -⟩ := h.cases
    · exact ⟨_, rfl, by rintro _ ⟨⟩; rfl⟩
    · exact ⟨none, rfl, fun _ h => by cases h⟩
    · exact ⟨none, rfl, fun _ h => by cases h⟩

/-- The queries of all parts of the trees of a text, over a schema with names. -/
theorem Chain.columns {schema : Schema} {ns : List Node} (h : Chain schema ns) (hs : schema.IsNamed) :
    ∀ n ∈ ns, (∀ k ∈ n.parts, ∃ q, k.query = .ok (some q) ∧ ∀ semantics, (q.blocks semantics).select = k.heading.text ∧
      (q.blocks semantics).select ≠ "" ∧ (k.isJoin = true → (q.blocks semantics).filter = "")) ∧
      ∃ q?, n.query = .ok q? ∧ ∀ q, q? = some q → q.columnsAgree = true := by
  induction h with
  | nil => nofun
  | cons h _ ih =>
    rw [List.forall_mem_cons]
    refine ⟨⟨fun k hk => ?_, h.columnsAgree⟩, ih (h.isNamed hs)⟩
    have hm := h.made_of_mem_parts k hk
    obtain ⟨q, hq⟩ := hm.exists_columns
    exact ⟨q, hq.query, hq.blocks hm hs⟩

/-- For every accepted text over a schema with names for all attributes, and for both semantics: the query of every part of
the algebra selects the attributes of the part as they are written, of which there are some, and has no condition of its own if
the part is a join. In the query of every statement the numbers of columns agree wherever names for columns stand next to a
query, or a set operator between two. -/
theorem columns_of_forest (level : Level) (definition : List (String × List String)) (text : String) (ns : List Node)
    (hn : ∀ e ∈ definition, "" ∉ e.2) (hf : Dialect.forest ⟨level, .standard⟩ (.ofDefinition definition) text = .ok ns) :
    ∀ n ∈ ns, (∀ k ∈ n.parts, ∃ q, k.query = .ok (some q) ∧ ∀ semantics, (q.blocks semantics).select = k.heading.text ∧
      (q.blocks semantics).select ≠ "" ∧ (k.isJoin = true → (q.blocks semantics).filter = "")) ∧
      ∃ q?, n.query = .ok q? ∧ ∀ q, q? = some q → q.columnsAgree = true :=
  (Build.chain_of_forest hf).columns (Schema.isNamed_ofDefinition hn)

/-- An assignment with new names over a renaming of a union, and a selection over a join inside another join. -/
def nestedText : String :=
  "t(x) := \\rename_\x7bz(c)\x7d (r \\union s); \\select_\x7bx = b\x7d (t \\join u) \\natural_join s;"

theorem columns_of_nestedText : ∃ ns,
    Dialect.forest ⟨.extended, .standard⟩ (.ofDefinition [("R", ["A"]), ("s", ["a"]), ("u", ["b"])]) nestedText = .ok ns ∧
      ns.length = 2 ∧
      ∀ n ∈ ns, (∀ k ∈ n.parts, ∃ q, k.query = .ok (some q) ∧ ∀ semantics, (q.blocks semantics).select = k.heading.text ∧
        (q.blocks semantics).select ≠ "" ∧ (k.isJoin = true → (q.blocks semantics).filter = "")) ∧
        ∃ q?, n.query = .ok q? ∧ ∀ q, q? = some q → q.columnsAgree = true := by
  obtain ⟨ns, hf, hl⟩ := exists_ok_of_any (p := fun ns => decide (ns.length = 2))
    (x := Dialect.forest ⟨.extended, .standard⟩ (.ofDefinition [("R", ["A"]), ("s", ["a"]), ("u", ["b"])]) nestedText)
    (by decide +kernel)
  exact ⟨ns, hf, of_decide_eq_true hl, columns_of_forest .extended _ nestedText ns (by decide) hf⟩

end RelAlg
