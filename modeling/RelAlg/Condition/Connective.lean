import RelAlg.Lexicon

/-!
# Connectives

The operators that build conditions: two that take one operand, and eight that take two. `ofSpelling?` finds the
connective that a lexicon spells in a given way; where one spelling is used twice, the connective that stands first wins.
-/

namespace RelAlg

/-- An operator of conditions. -/
inductive Connective where
  | not
  | defined
  | and
  | or
  | equal
  | notEqual
  | less
  | lessEqual
  | greater
  | greaterEqual
  deriving DecidableEq, Repr

namespace Connective

/-- All connectives. -/
def all : List Connective := [not, defined, and, or, equal, notEqual, less, lessEqual, greater, greaterEqual]

/-- The connective takes one operand. -/
def isUnary : Connective → Bool
  | not | defined => true
  | _ => false

/-- The title of a connective. -/
def title : Connective → String
  | not => "NOT"
  | defined => "DEFINED"
  | and => "AND"
  | or => "OR"
  | equal => "EQUAL"
  | notEqual => "NOT_EQUAL"
  | less => "LESS_THAN"
  | lessEqual => "LESS_THAN_EQUAL"
  | greater => "GREATER_THAN"
  | greaterEqual => "GREATER_THAN_EQUAL"

/-- The title of a connective with the family it belongs to. -/
def fullTitle (op : Connective) : String :=
  (if op.isUnary then "UnaryConditionalOperator." else "BinaryConditionalOperator.") ++ op.title

/-- The connective with the title. -/
def ofTitle? (title : String) : Option Connective := all.find? fun op => op.title = title

/-- The connectives with one operand, and the symbols that spell them. -/
def unarySymbols : List (Symbol × Connective) := [(.not, not), (.defined, defined)]

/-- The connectives with two operands, and the symbols that spell them. -/
def binarySymbols : List (Symbol × Connective) :=
  [(.and, and), (.or, or), (.equal, equal), (.notEqual, notEqual), (.notEqualAlt, notEqual), (.less, less),
    (.lessEqual, lessEqual), (.greater, greater), (.greaterEqual, greaterEqual)]

/-- The first connective of the list that the lexicon spells so. -/
def ofSpelling? (symbols : List (Symbol × Connective)) (lex : Lexicon) (spelling : String) : Option Connective :=
  (symbols.find? fun p => lex.spells p.1 spelling).map (·.2)

end Connective

end RelAlg
