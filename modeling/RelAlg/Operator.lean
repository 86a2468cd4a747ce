import RelAlg.Condition.Basic

/-!
# Operators of nodes

The operators that a node may carry, and their titles.
-/

namespace RelAlg

/-- A join that has a condition. -/
inductive ConditionalJoin where
  | theta
  | fullOuter
  | leftOuter
  | rightOuter
  deriving DecidableEq, Repr

/-- A join. -/
inductive Join where
  | cross
  | natural
  | conditional (kind : ConditionalJoin) (condition : Condition)
  deriving DecidableEq, Repr

/-- An operator on relations with the same attribute names. -/
inductive SetOperator where
  | union
  | difference
  | intersect
  deriving DecidableEq, Repr

/-- A dependency between two attributes of one relation. -/
inductive PairDependency where
  | multivalued
  | functional
  deriving DecidableEq, Repr

/-- A dependency between two relations. -/
inductive Inclusion where
  | equivalence
  | subsumption
  deriving DecidableEq, Repr

/-- What a node does. -/
inductive Operator where
  | relation
  | assign
  | project
  | rename
  | select
  | crossJoin
  | naturalJoin
  | conditionalJoin (kind : ConditionalJoin)
  | setOperation (op : SetOperator)
  | primaryKey
  | pairDependency (kind : PairDependency)
  | inclusion (kind : Inclusion)
  deriving DecidableEq, Repr

namespace Operator

/-- All operators. -/
def all : List Operator :=
  [relation, assign, project, rename, select, crossJoin, naturalJoin, conditionalJoin .theta,
    conditionalJoin .fullOuter, conditionalJoin .leftOuter, conditionalJoin .rightOuter, setOperation .difference,
    setOperation .union, setOperation .intersect, primaryKey, pairDependency .multivalued,
    pairDependency .functional, inclusion .equivalence, inclusion .subsumption]

/-- The title of an operator. -/
def title : Operator → String
  | relation => "relation"
  | assign => "assign"
  | project => "project"
  | rename => "rename"
  | select => "select"
  | crossJoin => "cross_join"
  | naturalJoin => "natural_join"
  | conditionalJoin .theta => "theta_join"
  | conditionalJoin .fullOuter => "full_outer_join"
  | conditionalJoin .leftOuter => "left_outer_join"
  | conditionalJoin .rightOuter => "right_outer_join"
  | setOperation .difference => "difference"
  | setOperation .union => "union"
  | setOperation .intersect => "intersect"
  | primaryKey => "primary_key"
  | pairDependency .multivalued => "multivalued_dependency"
  | pairDependency .functional => "functional_dependency"
  | inclusion .equivalence => "inclusion_equivalence"
  | inclusion .subsumption => "inclusion_subsumption"

/-- The operator with the title. -/
def ofTitle? (title : String) : Option Operator := all.find? fun op => op.title = title

end Operator

end RelAlg
