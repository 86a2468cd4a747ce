import RelAlg.Attribute

/-!
# Foreign values

A value that is no attribute list or no condition may stand where one is needed: a caller hands it in, or a node without an
attribute list becomes an operand. Such a value is known by its kind alone, and it is never equal to anything of the
algebra.
-/

namespace RelAlg

/-- The kinds of foreign values. -/
inductive Foreign where
  | text
  | integer
  | decimal
  | truth
  | nothing
  | list
  | object
  | reading
  deriving DecidableEq, Repr

namespace Foreign

/-- The title of a kind in messages. -/
def title : Foreign → String
  | text => "str"
  | integer => "int"
  | decimal => "float"
  | truth => "bool"
  | nothing => "NoneType"
  | list => "list"
  | object => "dict"
  | reading => "ParseResults"

/-- A foreign value has no form as a condition. -/
def asCondition (v : Foreign) : Error := .notCondition v.title

/-- Why a foreign value cannot serve as an attribute list. -/
def asAttributes : Foreign → Error
  | reading => .wordsForAttributes
  | _ => .noAttributeList

end Foreign

namespace AttributeList

/-- Two values that must both be attribute lists; the first is looked at first. -/
def both : AttributeList ⊕ Foreign → AttributeList ⊕ Foreign → Except Error (AttributeList × AttributeList)
  | .inl l, .inl m => .ok (l, m)
  | .inr v, _ => .error (.firstNotList v.title)
  | .inl _, .inr v => .error (.secondNotList v.title)

/-- Merge two values that must both be attribute lists. -/
def mergeAny (a b : AttributeList ⊕ Foreign) : Except Error AttributeList := do
  let (l, m) ← both a b
  return l.merge m

end AttributeList

end RelAlg
