import RelAlg.Proofs.Rows
import RelAlg.Sql.OfNode

/-!
# Running queries

What a query means over a catalog of tables. The columns and filters of a selection speak of the columns that its source
brings into scope; a reference has to fit exactly one of them. A query runs only if all its references do. Of the sources,
tables, renamed queries and combined queries are run; `Query.isPlain` says that a query is put together from these.

SQL has only the text of a query. Every leaf of a condition has to be a text that SQL reads as one operand
(`Predicate.isWellFormed`): of any other leaf it reads something else, so a query with such a leaf is not run and is not plain.
-/

namespace RelAlg.Sql

variable {α : Type}

/-- The SQL operator between two operands as a connective. -/
def BinaryOp.connective : BinaryOp → Connective
  | and => .and
  | or => .or
  | equal => .equal
  | notEqual => .notEqual
  | less => .less
  | lessEqual => .lessEqual
  | greater => .greater
  | greaterEqual => .greaterEqual

/-! ## Conditions -/

/-- Digits, or a point and digits with or without digits before it. -/
def isDigits (cs : List Char) : Bool :=
  match cs.dropWhile Char.isDigit with
  | [] => !cs.isEmpty
  | c :: fraction => c = '.' && !fraction.isEmpty && fraction.all Char.isDigit

/-- A numeral, with a sign or without. -/
def isNumeral (text : String) : Bool := isDigits (text.toList.drop (Reader.signPart text.toList).length)

/-- A text between single quotes of which the last is the one that closes it: a quote inside is written twice or follows a
backslash. -/
def isLiteral (text : String) : Bool :=
  match text.toList with
  | '\'' :: rest => (Quoted.split '\'' rest).2 = ['\'']
  | _ => false

/-- SQL reads the text as one operand: a reference, a numeral or a literal. -/
def isOperand (text : String) : Bool := Condition.isReference text || isNumeral text || isLiteral text

namespace Predicate

/-- SQL reads every leaf of the condition as one operand. -/
def isWellFormed : Predicate → Bool
  | operand text => isOperand text
  | negation body | notNull body => body.isWellFormed
  | binary _ left right => left.isWellFormed && right.isWellFormed

/-- The value of an operand that SQL reads as one, where `look` gives the cells of references. -/
def cell (v : Values α) (look : String → Option α) : Predicate → Option α
  | operand text => if Condition.isReference text then look text else some (v.constant text)
  | _ => none

/-- The truth of an SQL condition. A comparison with a missing value is unknown. -/
def truth (v : Values α) (look : String → Option α) : Predicate → Truth
  | operand _ => none
  | negation body => (body.truth v look).not
  | notNull body => some (body.cell v look).isSome
  | binary .and left right => (left.truth v look).and (right.truth v look)
  | binary .or left right => (left.truth v look).or (right.truth v look)
  | binary op left right => do return v.compare op.connective (← left.cell v look) (← right.cell v look)

/-- The references of an SQL condition from left to right. -/
def references : Predicate → List String
  | operand text => if Condition.isReference text then [text] else []
  | negation body | notNull body => body.references
  | binary _ left right => left.references ++ right.references

end Predicate

/-! ## Queries -/

/-- A table: its column names and its rows. -/
structure Relation (α : Type) where
  columns : List String
  rows : Multiset (Row α)

/-- The tables that there are. -/
abbrev Catalog (α : Type) := String → Option (Relation α)

/-- What a source offers: columns under the name of the table they belong to, and rows. -/
abbrev Scope (α : Type) := Table α

/-- The reference fits exactly one column. -/
def Scope.resolves (t : Scope α) (reference : String) : Bool := (t.heading.get reference).toOption.isSome

/-- The columns and rows of a table under a name. -/
def Relation.named (r : Relation α) (name : String) : Scope α := ⟨.ofNames r.columns (some name), r.rows⟩

variable [DecidableEq α]

/-- The rows of a set operator between two queries. Without `ALL`, rows of its operands and of its result count once. -/
def combineRows (semantics : Semantics) (op : SetOperator) (s t : Multiset (Row α)) : Multiset (Row α) :=
  semantics.collapse (op.rows (semantics.collapse s) (semantics.collapse t))

/-- The rows of a selection: those of its source on which all filters are true, cell by cell. -/
def Scope.select (v : Values α) (semantics : Semantics) (t : Scope α) (columns : List String) (filters : List Predicate) :
    Multiset (Row α) :=
  semantics.collapse ((t.rows.filter fun x => ∀ p ∈ filters, p.truth v (t.heading.look x) = some true).map fun x =>
    columns.map (t.heading.look x))

mutual

/-- The table that a query gives over a catalog. -/
def Query.run (v : Values α) (semantics : Semantics) (catalog : Catalog α) : Query → Option (Relation α)
  | .select _ columns source filters => do
    let t ← source.run v semantics catalog
    if columns.all t.resolves && filters.all fun p => p.isWellFormed && p.references.all t.resolves then
      return ⟨columns.map fun c => (Reference.ofText c).name, t.select v semantics columns filters⟩
    else none
  | .alter .. => none

/-- What a source offers over a catalog. -/
def Source.run (v : Values α) (semantics : Semantics) (catalog : Catalog α) : Source → Option (Scope α)
  | .table name => do
    let n ← name
    return (← catalog n).named n
  | .renamed query name columns => do
    let r ← query.run v semantics catalog
    if columns.length = r.columns.length then return Relation.named ⟨columns, r.rows⟩ (nameText name) else none
  | .combined op left right label => do
    let l ← left.run v semantics catalog
    let r ← right.run v semantics catalog
    if l.columns.length = r.columns.length then
      return Relation.named ⟨l.columns, combineRows semantics op l.rows r.rows⟩ label
    else none
  | .labelled .. | .joined .. => none

end

mutual

/-- A selection of some columns from a plain source, under conditions whose leaves are operands, that creates no table. -/
def Query.isPlain : Query → Bool
  | .select target columns source filters =>
    target.isNone && !columns.isEmpty && (source.isPlain && filters.all Predicate.isWellFormed)
  | .alter .. => false

/-- A table, a plain query under a name with column names, or a set operator between plain queries under a name. -/
def Source.isPlain : Source → Bool
  | .table name => name.isSome
  | .renamed query _ _ => query.isPlain
  | .combined _ left right _ => left.isPlain && right.isPlain
  | .labelled .. | .joined .. => false

end

end RelAlg.Sql
