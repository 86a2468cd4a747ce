import RelAlg.Attribute
import RelAlg.Build.Basic
import RelAlg.Build.Node
import RelAlg.Condition.Basic
import RelAlg.Condition.Connective
import RelAlg.Configuration
import RelAlg.Dialect
import RelAlg.Drawing.Basic
import RelAlg.Drawing.OfNode
import RelAlg.Error
import RelAlg.Foreign
import RelAlg.Lexicon
import RelAlg.Listing
import RelAlg.Nested
import RelAlg.Node.Basic
import RelAlg.Node.Compare
import RelAlg.Node.New
import RelAlg.Operator
import RelAlg.Proofs.Compared
import RelAlg.Proofs.Compose
import RelAlg.Proofs.Declared
import RelAlg.Proofs.Drawing.Brackets
import RelAlg.Proofs.Drawing.Chunks
import RelAlg.Proofs.Drawing.Dependencies
import RelAlg.Proofs.Drawing.Trees
import RelAlg.Proofs.Drawing.Underscores
import RelAlg.Proofs.Equality
import RelAlg.Proofs.Grouping
import RelAlg.Proofs.Heading
import RelAlg.Proofs.History
import RelAlg.Proofs.Join.Regroup
import RelAlg.Proofs.Join.Steps
import RelAlg.Proofs.LetterCase
import RelAlg.Proofs.Lower
import RelAlg.Proofs.Made
import RelAlg.Proofs.NaturalJoin
import RelAlg.Proofs.Outcome
import RelAlg.Proofs.Owned
import RelAlg.Proofs.Program
import RelAlg.Proofs.Reader.Alike
import RelAlg.Proofs.Reader.Append
import RelAlg.Proofs.Reader.Clause
import RelAlg.Proofs.Reader.Conditions
import RelAlg.Proofs.Reader.Dependency
import RelAlg.Proofs.Reader.Expression
import RelAlg.Proofs.Reader.Follows
import RelAlg.Proofs.Reader.Found
import RelAlg.Proofs.Reader.Frame
import RelAlg.Proofs.Reader.Gives
import RelAlg.Proofs.Reader.Grammar
import RelAlg.Proofs.Reader.Layout
import RelAlg.Proofs.Reader.Levels
import RelAlg.Proofs.Reader.Lexeme
import RelAlg.Proofs.Reader.Literal
import RelAlg.Proofs.Reader.Operand
import RelAlg.Proofs.Reader.Operator
import RelAlg.Proofs.Reader.Pieces
import RelAlg.Proofs.Reader.Respell
import RelAlg.Proofs.Reader.Scan
import RelAlg.Proofs.Reader.SinglyQuoted
import RelAlg.Proofs.Reader.Statement
import RelAlg.Proofs.Reader.Token
import RelAlg.Proofs.Reader.UsualFrame
import RelAlg.Proofs.Renaming
import RelAlg.Proofs.Renumber
import RelAlg.Proofs.Respelling
import RelAlg.Proofs.Rows
import RelAlg.Proofs.Schema
import RelAlg.Proofs.Sql.Aliases
import RelAlg.Proofs.Sql.Columns
import RelAlg.Proofs.Sql.ConditionText
import RelAlg.Proofs.Sql.JoinFree
import RelAlg.Proofs.Sql.JoinText
import RelAlg.Proofs.Sql.Merge
import RelAlg.Proofs.Sql.Predicate
import RelAlg.Proofs.Sql.ReadBack
import RelAlg.Proofs.Sql.Run
import RelAlg.Proofs.Sql.Scope
import RelAlg.Proofs.Sql.Semantics
import RelAlg.Proofs.Term
import RelAlg.Proofs.Translation
import RelAlg.Proofs.Trimming
import RelAlg.Proofs.Written
import RelAlg.Reader.Basic
import RelAlg.Reader.Recursive
import RelAlg.Reader.Token
import RelAlg.Scalar
import RelAlg.Schema
import RelAlg.Setting
import RelAlg.Sql.OfNode
import RelAlg.Sql.Predicate
import RelAlg.Sql.Query
import RelAlg.Surface.Clause
import RelAlg.Surface.Expression
import RelAlg.Surface.Piece
import RelAlg.Surface.Rule
import RelAlg.Surface.Statement
import RelAlg.Text.Case
import RelAlg.Text.CaseTable
import RelAlg.Text.Display
import RelAlg.Text.PrintTable
import RelAlg.Text.Tabs
