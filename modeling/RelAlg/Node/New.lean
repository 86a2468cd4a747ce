import RelAlg.Node.Basic

/-!
# New nodes

The functions `newRelation`, `newSelect`, … make a node of the algebra over given operands, or refuse. They are the only way
in which the library makes such nodes. An operand need not be of the algebra, but most operators need its attribute list.
-/

namespace RelAlg.Node

/-- A relation of the schema. -/
def newRelation (schema : Schema) (name : String) (serial : Nat) : Except Error Node := do
  let names ← schema.get name
  return relation (Head.make (some name) (.ofNames names (some name)) serial)

/-- The rows of a relation that meet a condition. -/
def newSelect (child : Node) (condition : Condition) (serial : Nat) : Except Error Node := do
  let attributes ← child.attributes
  attributes.validate condition.references
  return select (Head.make child.name attributes serial) condition child

/-- Some columns of a relation. -/
def newProject (child : Node) (references : List String) (serial : Nat) : Except Error Node := do
  let attributes ← (← child.attributes).trim references
  return project (Head.make child.name attributes serial) child

/-- A relation under a new name, with new attribute names, or both. The new name must not be taken. -/
def newRename (schema : Schema) (child : Node) (name : Option String) (names : List Phrase) (serial : Nat) :
    Except Error Node := do
  let newName := (given name).or child.name
  if name.any schema.contains then throw (.relationExists (name.getD ""))
  let attributes ← (← child.attributes).rename names newName
  return rename (Head.make newName attributes serial) child

/-- How many columns a node counts: its attributes, or the names that a dependency lists. -/
def columnCount : Node → Except Error Nat
  | primaryKey _ a | pair _ _ a _ | inclusion _ _ a _ _ => .ok a.items.length
  | n =>
    match n.listed with
    | .inl l => .ok l.length
    | .inr _ => .error .notNames

/-- A relation assigned to a name, with new attribute names or the old ones. -/
def newAssign (child : Node) (name : Option String) (names : List Phrase) (serial : Nat) : Except Error Node := do
  let some newName := given name | throw .nameRequired
  unless names.isEmpty do
    if names.length ≠ (← child.columnCount) then throw .partialNaming
  let attributes ← (← child.attributes).rename names (some newName)
  return assign (Head.make (some newName) attributes serial) child

/-- The references by which a natural join keeps its attributes: all on the left, and those on the right whose name is
new. -/
def naturalReferences (left right : AttributeList) : List String :=
  left.qualifiedNames
    ++ AttributeList.qualifiedNames (right.filter fun a => a.isList || !left.textNames.contains a.name)

/-- The attributes of a join of two lists. -/
def joinAttributes (op : Join) (left right : AttributeList) : Except Error AttributeList :=
  match op with
  | .cross => .ok (left.merge right)
  | .natural => (left.merge right).trim (naturalReferences left right)
  | .conditional _ condition => do
    (left.merge right).validate condition.references
    return left.merge right

/-- Both names are given and they are the same. -/
def sameName (left right : Option String) : Bool := (given left).isSome && left = right

/-- A join of two relations, which must not have one name. -/
def newJoin (op : Join) (left right : Node) (serial : Nat) : Except Error Node := do
  if sameName left.name right.name then throw .ambiguousRelation
  let (l, r) ← AttributeList.both left.listed right.listed
  let attributes ← joinAttributes op l r
  return join (Head.make none attributes serial) op left right

/-- The attributes by whose names a set operator compares its operands. A list of words that was read has none. -/
def columns (n : Node) : Except Error (Option AttributeList) :=
  match n.listed with
  | .inl l => .ok (some l)
  | .inr .reading => .ok none
  | .inr v => .error v.asAttributes

/-- The attributes have the same names. A list for a name differs from every other. -/
def sameColumns : Option AttributeList → Option AttributeList → Bool
  | some l, some r => l.names = r.names && !l.hasList && !r.hasList
  | none, none => true
  | _, _ => false

/-- A set operation on two relations, which must have the same attribute names. -/
def newSetOperation (op : SetOperator) (left right : Node) (serial : Nat) : Except Error Node := do
  let l ← left.columns
  let r ← right.columns
  if sameColumns l r then
    return setOperation (Head.make none (.ofNames ((l.map (·.names)).getD []) none) serial) op left right
  else throw .schemasDiffer

/-- A node without operands. -/
def newBare (operator : String) (name : Option String) (attributes : Option AttributeList) (serial : Nat) : Node :=
  bare ⟨operator, name, attributes, if (given name).isSome then 0 else serial⟩

end RelAlg.Node
