import RelAlg.Condition.Basic

/-!
# SQL conditions

A `Predicate` is a condition as SQL has it. `Predicate.ofCondition` refuses a connective over a number of operands that is
not its own.
-/

namespace RelAlg.Sql

/-- An SQL operator between two operands of a condition. -/
inductive BinaryOp where
  | and
  | or
  | equal
  | notEqual
  | less
  | lessEqual
  | greater
  | greaterEqual
  deriving DecidableEq, Repr

/-- How SQL writes an operator of conditions. -/
def BinaryOp.text : BinaryOp → String
  | and => "AND"
  | or => "OR"
  | equal => "="
  | notEqual => "!="
  | less => "<"
  | lessEqual => "<="
  | greater => ">"
  | greaterEqual => ">="

/-- The SQL operator for a connective between two operands. -/
def BinaryOp.ofConnective? : Connective → Option BinaryOp
  | .and => some and
  | .or => some or
  | .equal => some equal
  | .notEqual => some notEqual
  | .less => some less
  | .lessEqual => some lessEqual
  | .greater => some greater
  | .greaterEqual => some greaterEqual
  | .not | .defined => none

/-- An SQL condition. -/
inductive Predicate where
  | operand (text : String)
  | negation (body : Predicate)
  | notNull (operand : Predicate)
  | binary (op : BinaryOp) (left right : Predicate)
  deriving DecidableEq, Repr

namespace Predicate

/-- The SQL condition for a condition. The connective is looked at before its operands. -/
def ofCondition : Condition → Except Error Predicate
  | .operand text => .ok (operand text)
  | .unary .not child => return negation (← ofCondition child)
  | .unary .defined child => return notNull (← ofCondition child)
  | .unary op _ => .error (.notUnary op)
  | .binary op left right =>
    match BinaryOp.ofConnective? op with
    | some o => do
      let l ← ofCondition left
      let r ← ofCondition right
      return binary o l r
    | none => .error (.notBinary op)

/-- The text of an SQL condition. -/
def text : Predicate → String
  | operand s => s
  | negation body => "NOT " ++ body.text
  | notNull body => body.text ++ " IS NOT NULL"
  | binary op left right => "(" ++ left.text ++ " " ++ op.text ++ " " ++ right.text ++ ")"

end Predicate

end RelAlg.Sql
