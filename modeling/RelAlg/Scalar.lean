import RelAlg.Attribute

/-!
# Single values

A `Scalar` is a value that can be told from every other: a text, a number or nothing. Truth values count as the numbers one
and zero. Only collections of single values can be searched for duplicates.
-/

namespace RelAlg

/-- A single value. -/
inductive Scalar where
  | text (text : String)
  | number (value : Rat)
  | nothing
  deriving DecidableEq

namespace Scalar

/-- The number that a truth value counts as. -/
def ofBool (b : Bool) : Scalar := number (if b then 1 else 0)

/-- Some value of a collection stands in it twice. A member that is no single value is left open, and then there is no
answer. -/
def searchDuplicates (members : List (Option Scalar)) : Except Error Bool :=
  if members.all Option.isSome then .ok (hasDuplicates (members.filterMap id)) else .error .notSingle

end Scalar

end RelAlg
