import RelAlg.Node.Basic
import RelAlg.Sql.Query

/-!
# SQL of nodes

`Node.query` writes a node as a query: selections and projections go into the query of their operand, renamings and set
operators open sub-queries, and joins that stand directly in one another share a source. A primary key becomes a change of
its table. The other dependencies have no SQL, and a node over one of them fails.
-/

namespace RelAlg

open Sql

/-- A query as an operand of a join: the source of a join, or a sub-query with a name. -/
def Node.operandSource (n : Node) (q : Query) : Source :=
  if n.isJoin then q.source else .labelled q n.label

/-- A join with its condition as SQL has it. -/
def Join.toSql : Join → Except Error JoinOp
  | cross => .ok .cross
  | natural => .ok .natural
  | conditional kind condition => return .conditional kind (← Predicate.ofCondition condition)

/-- The attributes of a primary key as SQL lists them. -/
def Listing.sqlText (l : Listing) : String :=
  match l.phrase with
  | .leaf s => s
  | .list ps => commaList (ps.map Phrase.text)

/-- The query of a bare node. It has one only as a relation, since it has no operands. -/
def Bare.query (b : Bare) : Except Error (Option Query) :=
  match Operator.ofTitle? b.operator with
  | none => .error (.unknownOperator b.operator)
  | some .relation =>
    .ok (some (.select none ((b.attributes.map (·.qualifiedNames)).getD ["None"]) (.table b.name) []))
  | some (.pairDependency _) | some (.inclusion _) => .ok none
  | some _ => .error .missingOperand

namespace Node

/-- The query of an operand, which must have one. -/
def needed : Option Query → Except Error Query
  | some q => .ok q
  | none => .error .noQuery

/-- The query of a node, if it has one. -/
def query : Node → Except Error (Option Query)
  | relation h => .ok (some (.select none h.attributes.qualifiedNames (.table h.name) []))
  | select h condition child => do
    let q? ← child.query
    let p ← Predicate.ofCondition condition
    let q ← needed q?
    let columns := if (commaList q.columns).isEmpty then h.attributes.qualifiedNames else q.columns
    return some (.select q.target columns q.source (q.filters ++ [p]))
  | project h child => do
    let q ← needed (← child.query)
    return some (.select q.target h.attributes.qualifiedNames q.source q.filters)
  | rename h child => do
    let q ← needed (← child.query)
    return some (.select none h.attributes.qualifiedNames (.renamed q h.name h.attributes.names) [])
  | assign h child => do
    let q ← needed (← child.query)
    return some (.select (some ⟨h.name, h.attributes.names⟩) q.columns q.source q.filters)
  | join h op left right => do
    let l ← needed (← left.query)
    let r ← needed (← right.query)
    let o ← op.toSql
    return some (.select none h.attributes.qualifiedNames (.joined o (left.operandSource l) (right.operandSource r)) [])
  | setOperation h op left right => do
    let l ← needed (← left.query)
    let r ← needed (← right.query)
    return some (.select none h.attributes.qualifiedNames (.combined op l r h.label) [])
  | primaryKey table attributes => .ok (some (.alter table.phrase.text "ADD PRIMARY KEY" attributes.sqlText))
  | pair .. | inclusion .. => .ok none
  | bare b => b.query

section Query

variable {child left right : Node} {q l r : Query}

/-- A selection adds its condition to the filters. It has the columns of its operand, or its own if those print nothing. -/
theorem query_of_select (h : Head) {c : Condition} {p : Predicate} (hq : child.query = .ok (some q))
    (hp : Predicate.ofCondition c = .ok p) :
    (select h c child).query = .ok (some (.select q.target
      (if (commaList q.columns).isEmpty then h.attributes.qualifiedNames else q.columns) q.source (q.filters ++ [p]))) := by
  rw [query, hq, hp]
  rfl

/-- A projection puts its columns in the place of those of its operand. -/
theorem query_of_project (h : Head) (hq : child.query = .ok (some q)) :
    (project h child).query = .ok (some (.select q.target h.attributes.qualifiedNames q.source q.filters)) := by
  rw [query, hq]
  rfl

/-- A renaming has the query of its operand as a sub-query. -/
theorem query_of_rename (h : Head) (hq : child.query = .ok (some q)) :
    (rename h child).query
      = .ok (some (.select none h.attributes.qualifiedNames (.renamed q h.name h.attributes.names) [])) := by
  rw [query, hq]
  rfl

/-- An assignment has the query of its operand, which creates a table under its name. -/
theorem query_of_assign (h : Head) (hq : child.query = .ok (some q)) :
    (assign h child).query
      = .ok (some (.select (some ⟨h.name, h.attributes.names⟩) q.columns q.source q.filters)) := by
  rw [query, hq]
  rfl

/-- A join selects from the sources of its operands. -/
theorem query_of_join (h : Head) {op : Join} {o : JoinOp} (hl : left.query = .ok (some l)) (hr : right.query = .ok (some r))
    (ho : op.toSql = .ok o) :
    (join h op left right).query = .ok (some (.select none h.attributes.qualifiedNames
      (.joined o (left.operandSource l) (right.operandSource r)) [])) := by
  rw [query, hl, hr, ho]
  rfl

/-- A set operation selects from its operator between the queries of its operands. -/
theorem query_of_setOperation (h : Head) (op : SetOperator) (hl : left.query = .ok (some l)) (hr : right.query = .ok (some r)) :
    (setOperation h op left right).query
      = .ok (some (.select none h.attributes.qualifiedNames (.combined op l r h.label) [])) := by
  rw [query, hl, hr]
  rfl

end Query

/-- The texts of the SQL statements of nodes, in order; a node without one is passed over. -/
def sqlTexts (semantics : Semantics) : List Node → Except Error (List String)
  | [] => .ok []
  | n :: ns => do
    let q ← n.query
    let texts ← sqlTexts semantics ns
    return (q.map (·.text semantics)).toList ++ texts

end Node

end RelAlg
