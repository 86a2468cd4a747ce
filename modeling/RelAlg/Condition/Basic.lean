import RelAlg.Error

/-!
# Conditions

A `Condition` is a tree of connectives over operands, which are kept as texts. `Condition.ofPhrase` builds one from
words, and `Condition.references` lists the operands that look like attribute references. A connective may stand over a
number of operands that is not its own; writing such a condition as SQL fails.
-/

namespace RelAlg

/-- A condition. -/
inductive Condition where
  | operand (text : String)
  | unary (op : Connective) (child : Condition)
  | binary (op : Connective) (left right : Condition)
  deriving DecidableEq, Repr

namespace Condition

/-- The connective with one operand that is spelled so. -/
def unaryOf (lex : Lexicon) (spelling : Phrase) : Except Error Connective :=
  match spelling.text?.bind (Connective.ofSpelling? Connective.unarySymbols lex) with
  | some op => .ok op
  | none => .error (.unknownUnaryConnective spelling.text)

/-- The connective with two operands that is spelled so. -/
def binaryOf (lex : Lexicon) (spelling : Phrase) : Except Error Connective :=
  match spelling.text?.bind (Connective.ofSpelling? Connective.binarySymbols lex) with
  | some op => .ok op
  | none => .error (.unknownBinaryConnective spelling.text)

/-- The condition of the words: a word is an operand, two parts are a connective and its operand, three parts a
connective between its operands. The operands are looked at before the connective. -/
def ofPhrase (origin : Origin) (lex : Lexicon) : Phrase → Except Error Condition
  | .leaf s => .ok (operand s)
  | .list [op, body] => do
    let child ← ofPhrase origin lex body
    return unary (← unaryOf lex op) child
  | .list [left, op, right] => do
    let l ← ofPhrase origin lex left
    let r ← ofPhrase origin lex right
    return binary (← binaryOf lex op) l r
  | .list parts => .error (.conditionShape origin parts)

/-- A character that may start an attribute reference. -/
def startsReference (c : Char) : Bool := c.isAlpha || c = '_'

/-- A character that may follow in an attribute reference. -/
def continuesReference (c : Char) : Bool := c.isAlphanum || c = '_' || c = '.'

/-- The text looks like an attribute reference. -/
def isReference (text : String) : Bool :=
  match text.toList with
  | [] => false
  | c :: cs => startsReference c && cs.all continuesReference

/-- The operands that look like attribute references, from left to right. -/
def references : Condition → List String
  | operand text => if isReference text then [text] else []
  | unary _ child => child.references
  | binary _ left right => left.references ++ right.references

end Condition

end RelAlg
