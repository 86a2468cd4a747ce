import RelAlg.Attribute
import RelAlg.Text.Case

/-!
# Schemas

A schema lists the attribute names of every relation, in the order in which the relations came. Names are stored in small
letters and looked up as they are given.
-/

namespace RelAlg

/-- Replace the value under a key, or put the key at the end of the list. -/
def upsert {α : Type} (key : String) (value : α) : List (String × α) → List (String × α)
  | [] => [(key, value)]
  | (k, v) :: entries => if k = key then (key, value) :: entries else (k, v) :: upsert key value entries

/-- The attribute names of every relation. -/
abbrev Schema := List (String × List String)

namespace Schema

/-- The schema of a definition. Of two entries for one name the later one counts, for names that differ in letter case
too. -/
def ofDefinition (definition : List (String × List String)) : Schema :=
  let distinct := definition.foldl (fun entries e => upsert e.1 e.2 entries) []
  distinct.foldl (fun schema e => upsert (Text.lower e.1) (e.2.map Text.lower) schema) []

/-- The schema has a relation of exactly this name. -/
def contains (schema : Schema) (name : String) : Bool := (schema.lookup name).isSome

/-- The attribute names of a relation; a relation without attributes counts as missing. -/
def get (schema : Schema) (name : String) : Except Error (List String) :=
  match schema.lookup name with
  | none | some [] => .error (.noRelation name)
  | some attributes => .ok attributes

/-- Store a relation in small letters under a name that is not taken, with the attribute names as they are. -/
def store (schema : Schema) (name : String) (attributes : List String) : Except Error Schema :=
  if schema.contains name then .error (.relationExists name)
  else .ok (upsert (Text.lower name) attributes schema)

/-- Add a relation. -/
def add (schema : Schema) (name : String) (attributes : List String) : Except Error Schema :=
  schema.store name (attributes.map Text.lower)

/-- Add a relation with the attributes of a list as they are written. -/
def addList (schema : Schema) (name : String) (attributes : AttributeList) : Except Error Schema :=
  schema.store name attributes.qualifiedNames

/-- The schemas have the same relations with the same attributes, in any order. -/
def same (s t : Schema) : Bool :=
  s.length = t.length && s.all fun e => t.lookup e.1 = some e.2

/-- The relations in the order of their names. -/
def sorted (schema : Schema) : Schema := schema.mergeSort fun a b => decide (a.1 ≤ b.1)

end Schema

end RelAlg
