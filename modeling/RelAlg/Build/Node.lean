import RelAlg.Build.Basic
import RelAlg.Configuration
import RelAlg.Surface.Statement

/-!
# Nodes from words

`Build.node` makes the node of a list of words. A list that starts with a dependency symbol is a dependency; a single word is
a relation, and a single list stands for its members; a list that starts with an operator with one operand applies it to all
that follows its parameters; and a list of operands with operators between them is taken apart from its right end, so that
all operators group to the left. Operands are made before the node above them, the left one first. `Build.program` makes the
nodes of a whole text, one for every statement, where a statement may speak of the relations that earlier statements
assigned.

Words may be nested to any depth, and so may the nodes that are made of them. An interpreter whose recursion has a limit fails
on words that are nested more deeply than the limit allows; that failure is no `Error`, and it is left out.
-/

namespace RelAlg.Build

/-! ## Chains -/

/-- A chain divided at its last operator. -/
structure LastOperation where
  left : List Phrase
  op : Phrase
  params : Option Phrase
  right : Phrase

/-- Divide a chain at its last operator. Before the last operand stands the operator, or the operator and a list of
parameters. -/
def lastOperation? (parts : List Phrase) : Option LastOperation :=
  match parts.reverse with
  | right :: .leaf op :: left => some ⟨left.reverse, .leaf op, none, right⟩
  | right :: .list params :: op :: left => some ⟨left.reverse, op, some (.list params), right⟩
  | _ => none

/-- What stands before the last operator is lighter than the chain, and so are the members of the last operand. -/
theorem weight_lastOperation {parts : List Phrase} {o : LastOperation} (h : lastOperation? parts = some o) :
    Phrase.weightAll o.left < Phrase.weightAll parts ∧ Phrase.weightAll o.right.parts < Phrase.weightAll parts := by
  rw [← Phrase.weightAll_reverse parts]
  unfold lastOperation? at h
  split at h
  · rename_i right op left hr
    cases h
    have hp := Phrase.weightAll_parts_le right
    have hw := Phrase.weight_pos right
    have ho := Phrase.weight_pos (.leaf op)
    rw [hr]
    simp only [Phrase.weightAll, Phrase.weightAll_reverse]
    omega
  · rename_i right params op left hr
    cases h
    have hp := Phrase.weightAll_parts_le right
    have hw := Phrase.weight_pos right
    have ho := Phrase.weight_pos (.list params)
    rw [hr]
    simp only [Phrase.weightAll, Phrase.weightAll_reverse]
    omega
  · cases h

/-! ## Nodes -/

/-- The list is a dependency: it has two parts or more, and the first is a dependency symbol. -/
def isDependency (lex : Lexicon) (parts : List Phrase) : Except Error Bool :=
  match parts with
  | first :: _ :: _ => return (← lex.dependencyOperators).any fun s => first.text?.any fun t => s = .text t
  | _ => .ok false

/-- The answer to a question about the spelling of operators, if there is one. -/
def answered : Option Bool → Except Error Bool
  | some b => .ok b
  | none => .error .notSingle

/-- The phrase is a word that is an operator with one operand. -/
def isUnary (lex : Lexicon) (p : Phrase) : Except Error Bool :=
  if p.text?.isSome then answered (lex.isUnary? p.text?) else .ok false

/-- The phrase is a word that is an operator with two operands. -/
def isBinary (level : Level) (lex : Lexicon) (p : Phrase) : Except Error Bool := answered (lex.isBinary? level p.text?)

/-- How the characters of a word tell the assignment, and how the members of a list do. -/
def assignsIn (lex : Lexicon) (assigns : String → Bool) : Phrase → String → Bool
  | .leaf _ => lex.isAssignCharacter
  | .list _ => assigns

/-- The node of a list of words, where `assigns` tells which words in the second place are the assignment. -/
def node (level : Level) (lex : Lexicon) (assigns : String → Bool) (parts : List Phrase) : Build Node := do
  if ← isDependency lex parts then dependency lex parts
  else match parts with
  | [] => throw .missingPart
  | [.leaf name] => relation (.leaf name)
  | [.list inner] => node level lex assigns inner
  | first :: second :: rest =>
    if ← isUnary lex first then do
      let child ← node level lex assigns rest
      unary lex first.text child (some second)
    else if second.text?.any assigns then do
      let child ← node level lex assigns rest
      unary lex second.text child (some first)
    else if ← isBinary level lex second then
      match _h : lastOperation? (first :: second :: rest) with
      | none => throw .missingPart
      | some o => do
        let l ← node level lex assigns o.left
        let r ← node level lex (assignsIn lex assigns o.right) o.right.parts
        binary lex o.op.text l r o.params
    else throw .expressionShape
termination_by Phrase.weightAll parts
decreasing_by
  · simp only [Phrase.weightAll, Phrase.weight]
    omega
  · have := Phrase.weight_pos first
    simp only [Phrase.weightAll]
    omega
  · have := Phrase.weight_pos first
    simp only [Phrase.weightAll]
    omega
  · exact (weight_lastOperation _h).1
  · exact (weight_lastOperation _h).2

/-- The node of words that a caller hands in: any word that is spelled like the assignment is one. -/
def nodeOf (level : Level) (lex : Lexicon) (words : Phrase) : Build Node :=
  node level lex (assignsIn lex lex.isAssign words) words.parts

/-- The node of a statement. -/
def statement (level : Level) (lex : Lexicon) (s : Surface.Statement) : Build Node := do
  match s with
  | .assign name attributes op value =>
    let _ ← isDependency lex s.phrase.parts
    let child ← node level lex lex.isAssignCharacter [value.phrase]
    unary lex op child (some (.group (.word name :: (attributes.map Phrase.words).toList)))
  | _ => node level lex lex.isAssignCharacter s.phrase.parts

/-- The nodes of statements, in order. -/
def nodes (level : Level) (lex : Lexicon) : List Surface.Statement → Build (List Node)
  | [] => return []
  | s :: ss => do
    let n ← statement level lex s
    let ns ← nodes level lex ss
    return n :: ns

/-- The nodes of the statements of a text. -/
def program (level : Level) (lex : Lexicon) (text : String) : Build (List Node) := do
  nodes level lex (← Surface.parse level lex text)

/-- The nodes of the statements of a text over a schema. -/
def forest (level : Level) (lex : Lexicon) (schema : Schema) (text : String) : Except Error (List Node) :=
  ((program level lex text).attempt (.start schema)).1

end RelAlg.Build
