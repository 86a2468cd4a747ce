import RelAlg.Build.Node
import RelAlg.Drawing.OfNode
import RelAlg.Sql.OfNode

/-!
# Dialects

A dialect is a level of the language with a spelling. From a text and a schema it makes the nodes of the statements, their
SQL, the SQL of all their parts, and their drawings. All of these fail with the first error of the text.
-/

namespace RelAlg

/-- A level of the language with a spelling. -/
structure Dialect where
  level : Level
  lexicon : Lexicon

namespace Dialect

/-- The dialect of a configuration: the level by its title, the extended one if there is none, and changes of the usual
spelling. -/
def configure (title : Option String) (changes : List (String × Setting)) : Except Error Dialect := do
  let lexicon ← Lexicon.configure .dependency changes
  lexicon.checkTables
  return ⟨(title.map Level.ofTitle).getD .extended, lexicon⟩

/-- The words of the statements of a text. Only the levels from the core language on have statements. -/
def phrases (d : Dialect) (text : String) : Except Error (List Phrase) :=
  if d.level.includes .core then return (← Surface.parse d.level d.lexicon text).map Surface.Statement.phrase
  else .error .noStatements

/-- Whether a spelling is an operator with one operand, and whether it is one with two. Only the levels from the core
language on have operators. -/
def arities (d : Dialect) (spelling : String) : Except Error (Bool × Bool) :=
  if d.level.includes .core then do
    let u ← Build.isUnary d.lexicon (.word spelling)
    let b ← Build.isBinary d.level d.lexicon (.word spelling)
    return (u, b)
  else .error .noRule

/-- The nodes of the statements of a text. -/
def forest (d : Dialect) (schema : Schema) (text : String) : Except Error (List Node) :=
  Build.forest d.level d.lexicon schema text

/-- The SQL statements of a text. -/
def sql (d : Dialect) (semantics : Sql.Semantics) (schema : Schema) (text : String) : Except Error (List String) := do
  Node.sqlTexts semantics (← d.forest schema text)

/-- The SQL statements of all parts of a text, statement by statement, the parts of an expression before the whole. -/
def sqlSequence (d : Dialect) (semantics : Sql.Semantics) (schema : Schema) (text : String) :
    Except Error (List (List String)) := do
  (← d.forest schema text).mapM fun n => do Node.sqlTexts semantics (← n.postOrder)

/-- The drawings of the statements of a text. -/
def drawings (d : Dialect) (schema : Schema) (text : String) : Except Error (List String) := do
  Node.drawingTexts (← d.forest schema text)

end Dialect

end RelAlg
