import RelAlg.Error

/-!
# Attributes

An attribute has a name and may have a qualifier, the relation it belongs to. An `AttributeList` keeps attributes in
order. References are resolved by `AttributeList.get`: a bare name fits attributes of that name under any qualifier, a
qualified one needs the same qualifier, and exactly one attribute has to fit. An empty name or qualifier counts as none.
An attribute may have been given a list for a name; then no reference fits it, and its name differs from every other.
-/

namespace RelAlg

/-- The name if there is one: an empty text is no name. -/
def given (name : Option String) : Option String := name.filter (· ≠ "")

/-- Some value stands in the list twice. -/
def hasDuplicates {α : Type} [DecidableEq α] : List α → Bool
  | [] => false
  | x :: xs => xs.contains x || hasDuplicates xs

/-- No value stands twice in a list without duplicates. -/
theorem hasDuplicates_eq_false_iff {α : Type} [DecidableEq α] (xs : List α) : hasDuplicates xs = false ↔ xs.Nodup := by
  induction xs with
  | nil => simp [hasDuplicates]
  | cons x xs ih => simp [hasDuplicates, ih, List.nodup_cons]

/-- An attribute of a relation. Where a list was given for a name, the name is how messages show the list. -/
structure Attribute where
  name : String
  qualifier : Option String
  isList : Bool := false
  deriving DecidableEq, Repr

namespace Attribute

/-- The name with the qualifier and a point before it, if there is a qualifier. -/
def qualified (a : Attribute) : String :=
  match given a.qualifier with
  | some q => q ++ "." ++ a.name
  | none => a.name

/-- Attributes count as the same if they are written in the same way. -/
def same (a b : Attribute) : Bool := a.qualified = b.qualified

end Attribute

/-- A reference to an attribute. -/
structure Reference where
  qualifier : String
  name : String
  deriving DecidableEq, Repr

namespace Reference

/-- Divide a reference at its last point; without a point it is a bare name. -/
def ofText (text : String) : Reference :=
  let back := text.toList.reverse
  ⟨String.ofList ((back.dropWhile (· ≠ '.')).drop 1).reverse, String.ofList (back.takeWhile (· ≠ '.')).reverse⟩

/-- The reference fits the attribute. -/
def fits (r : Reference) (a : Attribute) : Bool :=
  !a.isList && r.name = a.name && (r.qualifier = "" || some r.qualifier = a.qualifier)

end Reference

/-- Attributes in order. -/
abbrev AttributeList := List Attribute

namespace AttributeList

/-- The attributes of the given names under one qualifier. -/
def ofNames (names : List String) (qualifier : Option String) : AttributeList :=
  names.map fun n => { name := n, qualifier }

/-- The names of the attributes. -/
def names (l : AttributeList) : List String := l.map (·.name)

/-- The names that are texts. -/
def textNames (l : AttributeList) : List String := names (l.filter fun a => !a.isList)

/-- Some attribute was given a list for a name. -/
def hasList (l : AttributeList) : Bool := l.any (·.isList)

/-- The attributes as they are written. -/
def qualifiedNames (l : AttributeList) : List String := l.map (·.qualified)

/-- The attributes as they are written, with commas between them. -/
def text (l : AttributeList) : String := ", ".intercalate l.qualifiedNames

/-- Lists count as the same if they are written in the same way. -/
def same (l m : AttributeList) : Bool := l.qualifiedNames = m.qualifiedNames

/-- The attributes of the list followed by new ones under one qualifier. -/
def extend (l : AttributeList) (names : List String) (qualifier : Option String) : AttributeList :=
  l ++ ofNames names qualifier

/-- The attributes of two lists, one after the other. -/
def merge (l m : AttributeList) : AttributeList := l ++ m

/-- The one attribute that a reference fits. -/
def get (l : AttributeList) (reference : String) : Except Error Attribute :=
  match l.filter (Reference.ofText reference).fits with
  | [] => .error (.noAttribute reference)
  | [a] => .ok a
  | _ :: b :: _ => .error (.ambiguousAttribute b.name)

/-- Refuse a list of references unless each resolves. -/
def validate (l : AttributeList) : List String → Except Error Unit
  | [] => .ok ()
  | r :: rs => do
    let _ ← l.get r
    l.validate rs

/-- The attributes of a list of references, in that order. -/
def resolve (l : AttributeList) : List String → Except Error AttributeList
  | [] => .ok []
  | r :: rs => do
    let a ← l.get r
    let as ← l.resolve rs
    return a :: as

/-- The attributes of a list of references, in that order, each asked for once. -/
def trim (l : AttributeList) (references : List String) : Except Error AttributeList := do
  let kept ← l.resolve references
  if hasDuplicates kept.qualifiedNames then .error .repeatedReference else .ok kept

/-- The attribute under a new qualifier, if one is given. -/
def requalify (qualifier : Option String) (a : Attribute) : Attribute :=
  { a with qualifier := (given qualifier).or a.qualifier }

/-- The attribute under a new name and a new qualifier, where they are given. An empty text or list is no new name. -/
def renameOne (qualifier : Option String) (a : Attribute) : Phrase → Attribute
  | .leaf s => if s = "" then requalify qualifier a else { requalify qualifier a with name := s, isList := false }
  | .list [] => requalify qualifier a
  | .list (p :: ps) => { requalify qualifier a with name := Phrase.display (.list (p :: ps)), isList := true }

/-- New names for all attributes or for none, and a new qualifier if one is given. The result must be unambiguous: no text
is a new name twice. -/
def rename (l : AttributeList) (names : List Phrase) (qualifier : Option String) : Except Error AttributeList :=
  if names.isEmpty then
    if (given qualifier).isSome && hasDuplicates l.textNames then .error .ambiguousNames
    else .ok (l.map (requalify qualifier))
  else if names.length ≠ l.length then .error .attributeCount
  else if hasDuplicates (names.filterMap Phrase.text?) then .error .repeatedName
  else .ok (List.zipWith (renameOne qualifier) l names)

end AttributeList

end RelAlg
