import RelAlg.Node.New

/-!
# Making nodes

`Build` is a computation that makes nodes: it reads the schema, which assignments extend, and hands out serial numbers and
marks. A computation that fails keeps the relations it has assigned so far; `Build.attempt` runs one. `Build.unary`,
`Build.binary` and `Build.dependency` make one node from an operator as it is spelled, its parameters as words, and its
operands.
-/

namespace RelAlg

/-- What making nodes reads and changes: the schema, the next serial number for a node without a name, and the next mark for
a list that was read. -/
structure Workspace where
  schema : Schema
  serial : Nat
  mark : Nat

/-- A workspace before the first node. -/
def Workspace.start (schema : Schema) : Workspace := ⟨schema, 1, 0⟩

/-- A computation that makes nodes. What it has changed in the workspace stays changed if it fails. -/
abbrev Build := ExceptT Error (StateM Workspace)

namespace Build

/-- Run a computation. One that fails uses up no serial numbers and no marks, but the relations it has assigned stay. -/
def attempt {α : Type} (b : Build α) (w : Workspace) : Except Error α × Workspace :=
  match (ExceptT.run b).run w with
  | (.ok a, v) => (.ok a, v)
  | (.error e, v) => (.error e, { w with schema := v.schema })

/-- Make a node with the next serial number, which is used up if the node has no name. -/
def place (new : Schema → Nat → Except Error Node) : Build Node := do
  let w ← get
  let n ← new w.schema w.serial
  unless n.isNamed do set { w with serial := w.serial + 1 }
  return n

/-- Make nodes that use up no serial numbers. -/
def aside {α : Type} (b : Build α) : Build α := do
  let w ← get
  let a ← b
  modify fun v => { v with serial := w.serial }
  return a

/-- A bare node. -/
def bare (operator : String) (name : Option String) (attributes : Option AttributeList) : Build Node :=
  place fun _ serial => .ok (Node.newBare operator name attributes serial)

/-- The relation that a phrase names. -/
def relation (name : Phrase) : Build Node :=
  match name with
  | .leaf s => place fun schema => Node.newRelation schema s
  | .list ps => throw (.noRelation (Phrase.display (.list ps)))

/-- The part of a list at a place. -/
def part (ps : List Phrase) (i : Nat) : Build Phrase :=
  match ps[i]? with
  | some p => return p
  | none => throw .missingPart

/-- Parameters that must be there. -/
def needed (params : Option Phrase) : Build Phrase :=
  match params with
  | some p => return p
  | none => throw .noParameters

/-- The condition that stands first among parameters. -/
def condition (lex : Lexicon) (params : Phrase) : Build Condition := do
  Condition.ofPhrase .read lex (← part params.parts 0)

/-! ## One operand -/

/-- Some columns of a relation, by references that must be words. -/
def project (origin : Origin) (child : Node) (references : List Phrase) : Build Node := do
  let (words, whole) := Phrase.leadingWords references
  if whole then place fun _ => child.newProject words
  else
    let _ ← (← child.attributes).resolve words
    throw (.listForName origin)

/-- A new name as a text. An empty list stands for no new name. -/
def nameText : Phrase → String
  | .leaf s => s
  | .list [] => ""
  | .list ps => Phrase.display (.list ps)

/-- A relation under a new name, with new attribute names, or both. -/
def rename (child : Node) (name : Option String) (names : List Phrase) : Build Node :=
  place fun schema => Node.newRename schema child name names

/-- A relation assigned to a name, without a change of the schema. -/
def assign (child : Node) (name : Option String) (names : List Phrase) : Build Node :=
  place fun _ => child.newAssign name names

/-- Make a node over new names that a caller hands in. A list among them fails once there are as many as are needed. -/
def withHanded (names : List Phrase) (make : List Phrase → Build Node) : Build Node := do
  if names.all fun p => p.text?.isSome then make names
  else
    let _ ← make (names.map fun _ => .group [])
    throw .notNames

/-- The schema with a relation assigned to a name. Neither the name nor an attribute may be a list. -/
def assigned (schema : Schema) (name : Phrase) (attributes : AttributeList) : Except Error Schema :=
  match name with
  | .leaf s => do
    let extended ← schema.add s attributes.names
    if attributes.hasList then throw .notNames
    return extended
  | .list _ => .error .notNames

/-- A relation assigned to a name that becomes one of the schema. -/
def define (child : Node) (name : Phrase) (names : List Phrase) : Build Node := do
  let n ← assign child (some (nameText name)) names
  let schema ← assigned (← get).schema name (← n.attributes)
  modify fun w => { w with schema }
  return n

/-- The new name and the new attribute names that the parameters of a renaming give. They must be a list. -/
def newNames (params : Phrase) : Build (Option String × List Phrase) :=
  match params with
  | .leaf s => throw (if s.isEmpty then .missingPart else .singleWord)
  | .list [] => throw .missingPart
  | .list [.leaf name] => return (some name, [])
  | .list (.leaf name :: names :: _) => return (some name, Phrase.parts names)
  | .list (.list names :: _) => return (none, names)

/-- A node over one operand. -/
def unary (lex : Lexicon) (op : String) (child : Node) (params : Option Phrase) : Build Node := do
  if lex.spells .select op then
    let c ← condition lex (← needed params)
    place fun _ => child.newSelect c
  else if lex.spells .project op then
    let _ ← child.attributes
    project .read child (← needed params).parts
  else if lex.spells .rename op then
    let (name, names) ← newNames (← needed params)
    rename child name names
  else if lex.isAssign op then
    let params := (← needed params).parts
    let name ← part params 0
    define child name ((params[1]?.map Phrase.parts).getD [])
  else throw (.unknownUnary op)

/-! ## Two operands -/

/-- The conditional joins and the symbols that spell them. -/
def conditionalJoins : List (Symbol × ConditionalJoin) :=
  [(.thetaJoin, .theta), (.fullOuterJoin, .fullOuter), (.leftOuterJoin, .leftOuter), (.rightOuterJoin, .rightOuter)]

/-- The last conditional join that is spelled so. -/
def conditionalJoin? (lex : Lexicon) (op : String) : Option ConditionalJoin :=
  (conditionalJoins.reverse.find? fun p => lex.spells p.1 op).map (·.2)

/-- A join of two relations. -/
def join (op : Join) (left right : Node) : Build Node := place fun _ => Node.newJoin op left right

/-- A set operation on two relations. -/
def combine (op : SetOperator) (left right : Node) : Build Node := place fun _ => Node.newSetOperation op left right

/-- A node over two operands. -/
def binary (lex : Lexicon) (op : String) (left right : Node) (params : Option Phrase) : Build Node := do
  if lex.spells .join op then join .cross left right
  else if lex.spells .naturalJoin op then join .natural left right
  else match conditionalJoin? lex op with
  | some kind =>
    let c ← condition lex (← needed params)
    join (.conditional kind c) left right
  | none =>
    if lex.spells .union op then combine .union left right
    else if lex.spells .difference op then combine .difference left right
    else if lex.spells .intersect op then combine .intersect left right
    else throw (.unknownBinary op)

/-! ## Dependencies -/

/-- Names as they were read, with a mark of their own if they are a list. -/
def listing (names : Phrase) : Build Listing := do
  match names with
  | .leaf s => return ⟨.leaf s, none⟩
  | .list ps =>
    let w ← get
    set { w with mark := w.mark + 1 }
    return ⟨.list ps, some w.mark⟩

/-- A relation with a selection on it. -/
def selection (lex : Lexicon) (params name : Phrase) : Build Node := do
  let c ← condition lex params
  let base ← relation name
  place fun _ => base.newSelect c

/-- A relation with a selection on it or without. -/
def side (lex : Lexicon) (expr : Phrase) : Build Node := do
  match expr with
  | .leaf name => relation (.leaf name)
  | .list [.leaf name] => relation (.leaf name)
  | .list ps =>
    let params ← part ps 1
    let name ← part ps 2
    selection lex params name

/-- A primary key from its words. -/
def primaryKey (parts : List Phrase) : Build Node := do
  let attributes ← part parts 1
  let relation ← part parts 2
  return .primaryKey (← listing relation) (← listing attributes)

/-- A dependency between two attributes from its words. -/
def pair (lex : Lexicon) (kind : PairDependency) (parts : List Phrase) : Build Node := do
  let attributes ← part parts 1
  let (name, child) ← if parts.length = 3 then do
      let name ← part parts 2
      pure (name, ← relation name)
    else do
      let params ← part parts 3
      let name ← part parts 4
      pure (name, ← selection lex params name)
  return .pair kind (← listing name) (← listing attributes) child

/-- An inclusion from its words. Two bare names stand for relations. -/
def inclusion (lex : Lexicon) (kind : Inclusion) (parts : List Phrase) : Build Node := do
  let attributes ← part parts 1
  let sides ← part parts 2
  let left ← part sides.parts 0
  match left with
  | .leaf _ =>
    let l ← relation left
    let r ← relation (← part sides.parts 1)
    return .inclusion kind (← listing sides) (← listing attributes) l r
  | .list _ =>
    let right ← part sides.parts 1
    let l ← side lex left
    let r ← side lex right
    let names := Phrase.words [l.name.getD "", r.name.getD ""]
    return .inclusion kind (.handed names) (← listing attributes) l r

/-- A dependency from its words. Where two symbols are spelled alike, a key comes before the rest, and a functional
dependency before a multivalued one. -/
def dependency (lex : Lexicon) (parts : List Phrase) : Build Node := aside do
  let op ← part parts 0
  if op.text?.any (lex.spells .primaryKey) then primaryKey parts
  else if op.text?.any (lex.spells .functional) then pair lex .functional parts
  else if op.text?.any (lex.spells .multivalued) then pair lex .multivalued parts
  else if op.text?.any (lex.spells .inclusionEquivalence) then inclusion lex .equivalence parts
  else if op.text?.any (lex.spells .inclusionSubsumption) then inclusion lex .subsumption parts
  else throw (.unknownDependency op.text)

end Build

end RelAlg
