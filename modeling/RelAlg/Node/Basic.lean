import RelAlg.Listing
import RelAlg.Operator
import RelAlg.Schema

/-!
# Nodes

A `Node` is the root of a statement whose names have been resolved. The nodes of the algebra carry a `Head`: the name of the
relation they stand for, if it has one, its attributes, and a serial number that names it in SQL where it has no name. A
dependency states something about the data and keeps the names it was given as a `Listing`, without a check that the
relation has them. A bare node has nothing but an operator, a name and perhaps attributes; its operator need not be one that
the library knows. Any node may stand under any other as far as its attributes allow it.
-/

namespace RelAlg

/-- The name of a node in SQL: its own, or one made of its serial number. -/
def labelOf (name : Option String) (serial : Nat) : String :=
  match given name with
  | some name => name
  | none => "_#" ++ toString serial

/-- What every node of the algebra carries. -/
structure Head where
  name : Option String
  attributes : AttributeList
  serial : Nat
  deriving DecidableEq, Repr

namespace Head

/-- The head of a node; only a node without a name keeps its serial number. -/
def make (name : Option String) (attributes : AttributeList) (serial : Nat) : Head :=
  ⟨name, attributes, if (given name).isSome then 0 else serial⟩

/-- The name of a node in SQL. -/
def label (h : Head) : String := labelOf h.name h.serial

/-- The heads have the same name and attributes. -/
def same (h k : Head) : Bool := h.name = k.name && h.attributes.same k.attributes

end Head

/-- A node without operands. -/
structure Bare where
  operator : String
  name : Option String
  attributes : Option AttributeList
  serial : Nat
  deriving DecidableEq, Repr

/-- The bare nodes have the same operator, name and attributes. -/
def Bare.same (a b : Bare) : Bool :=
  a.operator = b.operator && a.name = b.name
    && a.attributes.map (·.qualifiedNames) = b.attributes.map (·.qualifiedNames)

/-- The root of a statement whose names have been resolved. -/
inductive Node where
  | relation (head : Head)
  | select (head : Head) (condition : Condition) (child : Node)
  | project (head : Head) (child : Node)
  | rename (head : Head) (child : Node)
  | assign (head : Head) (child : Node)
  | join (head : Head) (op : Join) (left right : Node)
  | setOperation (head : Head) (op : SetOperator) (left right : Node)
  | primaryKey (relation attributes : Listing)
  | pair (kind : PairDependency) (relation attributes : Listing) (child : Node)
  | inclusion (kind : Inclusion) (relations attributes : Listing) (left right : Node)
  | bare (bare : Bare)
  deriving DecidableEq, Repr

namespace Node

/-- The name of the node; a dependency has none. -/
def name : Node → Option String
  | relation h | select h _ _ | project h _ | rename h _ | assign h _ | join h _ _ _ | setOperation h _ _ _ => h.name
  | bare b => b.name
  | primaryKey .. | pair .. | inclusion .. => none

/-- The serial number of the node; a dependency has none. -/
def serial : Node → Nat
  | relation h | select h _ _ | project h _ | rename h _ | assign h _ | join h _ _ _ | setOperation h _ _ _ => h.serial
  | bare b => b.serial
  | primaryKey .. | pair .. | inclusion .. => 0

/-- The node has a name. -/
def isNamed (n : Node) : Bool := (given n.name).isSome

/-- The name of the node in SQL. -/
def label (n : Node) : String := labelOf n.name n.serial

/-- The attribute list of the node, or the kind of what it has in the place of one. -/
def listed : Node → AttributeList ⊕ Foreign
  | relation h | select h _ _ | project h _ | rename h _ | assign h _ | join h _ _ _ | setOperation h _ _ _ =>
    .inl h.attributes
  | primaryKey _ a | pair _ _ a _ | inclusion _ _ a _ _ => .inr a.kind
  | bare b =>
    match b.attributes with
    | some l => .inl l
    | none => .inr .nothing

/-- The attribute list of the node. -/
def attributes (n : Node) : Except Error AttributeList :=
  match n.listed with
  | .inl l => .ok l
  | .inr v => .error v.asAttributes

/-- What the node does, unless it is bare. -/
def operator? : Node → Option Operator
  | relation _ => some .relation
  | select .. => some .select
  | project .. => some .project
  | rename .. => some .rename
  | assign .. => some .assign
  | join _ .cross _ _ => some .crossJoin
  | join _ .natural _ _ => some .naturalJoin
  | join _ (.conditional kind _) _ _ => some (.conditionalJoin kind)
  | setOperation _ op _ _ => some (.setOperation op)
  | primaryKey .. => some .primaryKey
  | pair kind .. => some (.pairDependency kind)
  | inclusion kind .. => some (.inclusion kind)
  | bare _ => none

/-- The title of the operator. -/
def operatorTitle : Node → String
  | bare b => b.operator
  | n => (n.operator?.map Operator.title).getD ""

/-- The condition of the node, if it has one. -/
def condition? : Node → Option Condition
  | select _ c _ => some c
  | join _ (.conditional _ c) _ _ => some c
  | _ => none

/-- The node is a join. -/
def isJoin : Node → Bool
  | join .. => true
  | _ => false

/-- The nodes under a node and the node itself, children before the nodes above them and left before right. A dependency
counts as one node, and a bare node has no order. -/
def postOrder : Node → Except Error (List Node)
  | relation h => .ok [relation h]
  | select h c n => return (← n.postOrder) ++ [select h c n]
  | project h n => return (← n.postOrder) ++ [project h n]
  | rename h n => return (← n.postOrder) ++ [rename h n]
  | assign h n => return (← n.postOrder) ++ [assign h n]
  | join h op l r => return (← l.postOrder) ++ (← r.postOrder) ++ [join h op l r]
  | setOperation h op l r => return (← l.postOrder) ++ (← r.postOrder) ++ [setOperation h op l r]
  | primaryKey r a => .ok [primaryKey r a]
  | pair kind r a n => .ok [pair kind r a n]
  | inclusion kind rs a l r => .ok [inclusion kind rs a l r]
  | bare _ => .error .missingOperand

end Node

end RelAlg
