import RelAlg.Reader.Recursive
import RelAlg.Surface.Piece

/-!
# Written conditions

A `Clause` is a condition as it was written: comparisons of operands, tests whether an operand is defined, negations, and
clauses linked by a logical operator. Negation binds tighter than linking; the linking operators share one level and
group to the right. `Clause.reader` reads one, `Clause.phrase` gives its words, and `Clause.references` the operands that
were read as attribute references.
-/

namespace RelAlg.Surface

open Reader

/-- One side of a comparison. -/
inductive Operand where
  | reference (text : String)
  | quoted (text : String)
  | number (text : String)
  deriving DecidableEq, Repr

namespace Operand

/-- The text of an operand. -/
def text : Operand → String
  | reference s | quoted s | number s => s

/-- The operand as a phrase. -/
def phrase (o : Operand) : Phrase := .word o.text

/-- The attribute reference that the operand is, if it is one. -/
def references : Operand → List String
  | reference s => [s]
  | quoted _ | number _ => []

/-- Read an operand. -/
def reader : Reader Operand :=
  firstOf [
    do let s ← Reader.reference; pure (reference s),
    do let s ← Reader.quoted; pure (quoted s),
    do let s ← Reader.number; pure (number s)]

end Operand

/-- A condition as it was written, with its operators as they are spelled. -/
inductive Clause where
  | compare (left : Operand) (op : String) (right : Operand)
  | defined (op : String) (operand : Operand)
  | negate (op : String) (body : Clause)
  | link (left : Clause) (op : String) (right : Clause)
  deriving DecidableEq, Repr

/-! ## Words shared by all rules -/

/-- Read what stands between parentheses. -/
def parenthesized {α : Type} (lex : Lexicon) (p : Reader α) : Reader α := do
  markReader lex .parenLeft
  let a ← p
  markReader lex .parenRight
  pure a

/-- Read what stands between the marks for parameters. The opening mark touches what comes before it. -/
def parameters {α : Type} (lex : Lexicon) (p : Reader α) : Reader α := do
  touchingMark lex .paramsStart
  let a ← p
  markReader lex .paramsStop
  pure a

/-- Read items with the delimiter between two. -/
def listed {α : Type} (lex : Lexicon) (item : Reader α) : Reader (List α) :=
  separated item (markReader lex .delimiter)

namespace Clause

/-- Read a comparison operator. -/
def comparator (lex : Lexicon) : Reader String :=
  oneOf (comparatorSymbols.map lex.spelling)

/-- Read the negation. -/
def negation (lex : Lexicon) : Reader String := caselessKeyword true (lex .not)

/-- Read a logical operator with two operands. -/
def linker (lex : Lexicon) : Reader String :=
  caselessKeyword true (lex .and) <|> caselessKeyword true (lex .or)

/-- Read a comparison. -/
def comparison (lex : Lexicon) : Reader Clause := do
  let left ← Operand.reader
  let op ← comparator lex
  let right ← Operand.reader
  pure (compare left op right)

/-- Read a test whether an operand is defined. -/
def definedTest (lex : Lexicon) : Reader Clause := do
  let op ← caselessKeyword true (lex .defined)
  let _ ← literalReader lex .parenLeft
  let operand ← Operand.reader
  let _ ← literalReader lex .parenRight
  pure (defined op operand)

/-- Read a condition without logical operators; the extended language has the test whether an operand is defined. -/
def simple (level : Level) (lex : Lexicon) : Reader Clause :=
  if level.includes .extended then comparison lex <|> definedTest lex else comparison lex

/-- Link clauses to the right. -/
def linkAll (first : Clause) : List (String × Clause) → Clause
  | [] => first
  | (op, next) :: others => link first op (linkAll next others)

/-- Read clauses with logical operators between them. -/
def linkedReader (lex : Lexicon) (tight : Reader Clause) : Reader Clause := do
  let first ← tight
  let others ← many (do
    let op ← linker lex
    let next ← tight
    pure (op, next))
  pure (linkAll first others)

/-- Read a clause that no logical operator divides: negations over a condition without them or over a clause between
parentheses. -/
def tightReader (level : Level) (lex : Lexicon) : Reader Clause :=
  recursive fun tight =>
    (do
      let op ← negation lex
      let body ← tight
      pure (negate op body))
    <|> simple level lex <|> parenthesized lex (linkedReader lex tight)

/-- Read a clause. -/
def reader (level : Level) (lex : Lexicon) : Reader Clause := linkedReader lex (tightReader level lex)

/-- The pieces of a test whether an operand is defined. -/
def definedPieces : List Piece := [.keyword .defined, .literal .parenLeft, .literal .parenRight]

/-- The pieces of a condition without logical operators. -/
def simplePieces (level : Level) : List Piece :=
  .comparators :: if level.includes .extended then definedPieces else []

/-- The pieces of a clause. -/
def pieces (level : Level) : List Piece :=
  simplePieces level ++ [.keyword .not, .keyword .and, .keyword .or, .parentheses]

/-- The words of a clause: an operator stands between its operands, or before its one operand. -/
def phrase : Clause → Phrase
  | compare left op right => .group [left.phrase, .word op, right.phrase]
  | defined op operand => .group [.word op, operand.phrase]
  | negate op body => .group [.word op, body.phrase]
  | link left op right => .group [left.phrase, .word op, right.phrase]

/-- The attribute references of a clause from left to right. -/
def references : Clause → List String
  | compare left _ right => left.references ++ right.references
  | defined _ operand => operand.references
  | negate _ body => body.references
  | link left _ right => left.references ++ right.references

end Clause

/-- The attribute references of the condition at the start of a text, in the usual spelling and without tests whether an
operand is defined. -/
def attributeReferences (text : String) : Option (List String) :=
  ((Clause.reader .condition .standard).readStart (Text.expandTabs text.toList)).map Clause.references

end RelAlg.Surface
