import RelAlg.Sql.Predicate
import RelAlg.Operator

/-!
# SQL queries

A `Query` selects columns from a source under filters, and may create a temporary table; or it changes a table. The text of
a selection consists of four blocks; with set semantics every `SELECT` says `DISTINCT` and no set operator says `ALL`, with
bag semantics it is the other way round. A bag query without columns is its source alone.
-/

namespace RelAlg.Sql

/-- Whether rows count once or as often as they come. -/
inductive Semantics where
  | bag
  | set
  deriving DecidableEq, Repr

/-- A temporary table to create. -/
structure Target where
  name : Option String
  columns : List String
  deriving DecidableEq, Repr

/-- A join of two sources. -/
inductive JoinOp where
  | cross
  | natural
  | conditional (kind : ConditionalJoin) (condition : Predicate)
  deriving DecidableEq, Repr

mutual

/-- A query: a selection, or a change of a table that names attributes. -/
inductive Query where
  | select (target : Option Target) (columns : List String) (source : Source) (filters : List Predicate)
  | alter (table action attributes : String)

/-- Where the rows of a query come from. -/
inductive Source where
  | table (name : Option String)
  | renamed (query : Query) (name : Option String) (columns : List String)
  | combined (op : SetOperator) (left right : Query) (label : String)
  | labelled (query : Query) (label : String)
  | joined (op : JoinOp) (left right : Source)

end

namespace Query

/-- The temporary table that the query creates. -/
def target : Query → Option Target
  | select t _ _ _ => t
  | alter .. => none

/-- The columns of the query. -/
def columns : Query → List String
  | select _ c _ _ => c
  | alter .. => []

/-- The source of the query. -/
def source : Query → Source
  | select _ _ s _ => s
  | alter .. => .table (some "")

/-- The filters of the query, the innermost first. -/
def filters : Query → List Predicate
  | select _ _ _ f => f
  | alter .. => []

end Query

/-! ## Texts -/

/-- Names with commas between them. -/
def commaList (names : List String) : String := ", ".intercalate names

/-- A name where one is needed; SQL has no word for a missing one. -/
def nameText (name : Option String) : String := name.getD "None"

/-- The blocks of a query. A table without a name has no source block. -/
structure Blocks where
  start : String
  select : String
  source : Option String
  filter : String
  deriving DecidableEq, Repr

/-- The text of a query from its blocks. -/
def Blocks.text (semantics : Semantics) (b : Blocks) : String :=
  let source := nameText b.source
  let body := match semantics with
    | .set => "SELECT DISTINCT " ++ b.select ++ " FROM " ++ source
    | .bag => if b.select.isEmpty then source else "SELECT " ++ b.select ++ " FROM " ++ source
  b.start ++ body ++ (if b.filter.isEmpty then "" else " WHERE " ++ b.filter)

/-- The start of a query that creates a temporary table. -/
def Target.text (t : Target) : String :=
  "CREATE TEMPORARY TABLE " ++ nameText t.name ++ "(" ++ commaList t.columns ++ ") AS "

/-- The text of filters that hold together. -/
def filterText (filters : List Predicate) : String :=
  filters.foldl (fun text p => if text.isEmpty then p.text else "(" ++ text ++ ") AND (" ++ p.text ++ ")") ""

/-- How SQL writes a set operator. -/
def setWord : SetOperator → String
  | .union => "UNION"
  | .difference => "EXCEPT"
  | .intersect => "INTERSECT"

/-- What stands between a set operator and its right operand. -/
def allWord : Semantics → String
  | .bag => "ALL "
  | .set => ""

/-- How SQL writes a conditional join. -/
def conditionalJoinWord : ConditionalJoin → String
  | .theta => "JOIN"
  | .fullOuter => "FULL OUTER JOIN"
  | .leftOuter => "LEFT OUTER JOIN"
  | .rightOuter => "RIGHT OUTER JOIN"

/-- How SQL writes a join. -/
def JoinOp.word : JoinOp → String
  | cross => "CROSS JOIN"
  | natural => "NATURAL JOIN"
  | conditional kind _ => conditionalJoinWord kind

/-- What follows the operands of a join. -/
def JoinOp.ending : JoinOp → String
  | cross | natural => ""
  | conditional _ condition => " ON " ++ condition.text

/-- The text of a change of a table. -/
def alterText (table action attributes : String) : String :=
  "ALTER TABLE " ++ table ++ " " ++ action ++ " (" ++ attributes ++ ")"

mutual

/-- The text of a query. -/
def Query.text (semantics : Semantics) : Query → String
  | .select target columns source filters =>
    Blocks.text semantics
      ⟨(target.map Target.text).getD "", commaList columns, source.text semantics, filterText filters⟩
  | .alter table action attributes => alterText table action attributes

/-- The text of a source; a table without a name has none. -/
def Source.text (semantics : Semantics) : Source → Option String
  | .table name => name
  | .renamed query name columns =>
    some ("(" ++ query.text semantics ++ ") AS " ++ nameText name ++ "(" ++ commaList columns ++ ")")
  | .combined op left right label =>
    some ("(" ++ left.text semantics ++ " " ++ setWord op ++ " " ++ allWord semantics ++ right.text semantics ++ ") AS "
      ++ label)
  | .labelled query label => some ("(" ++ query.text semantics ++ ") AS " ++ label)
  | .joined op left right =>
    some (nameText (left.text semantics) ++ " " ++ op.word ++ " " ++ nameText (right.text semantics) ++ op.ending)

end

/-- The blocks of a query; those of a change of a table are empty. -/
def Query.blocks (semantics : Semantics) (q : Query) : Blocks :=
  ⟨(q.target.map Target.text).getD "", commaList q.columns, q.source.text semantics, filterText q.filters⟩

/-- The text of a selection is that of its blocks. -/
theorem Query.text_select (semantics : Semantics) (target : Option Target) (columns : List String) (source : Source)
    (filters : List Predicate) :
    (Query.select target columns source filters).text semantics
      = ((Query.select target columns source filters).blocks semantics).text semantics := rfl

end RelAlg.Sql
