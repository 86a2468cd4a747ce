import RelAlg.Surface.Clause

/-!
# Written expressions

An `Expression` is a relational-algebra expression as it was written. Operators with one operand bind tightest, then come
the joins, then (in the extended language) the intersection, then union and difference. A run of operators of one level
is kept flat, as a chain; parentheses leave no trace of their own.
-/

namespace RelAlg.Surface

open Reader

/-- What a renaming writes: a new relation name, new attribute names, or both. -/
inductive Renaming where
  | relation (name : String)
  | attributes (names : List String)
  | both (name : String) (names : List String)
  deriving DecidableEq, Repr

/-- An operator with one operand, with its parameters. -/
inductive UnaryOp where
  | project (op : String) (references : List String)
  | select (op : String) (clause : Clause)
  | rename (op : String) (target : Renaming)
  deriving DecidableEq, Repr

/-- An operator with two operands, with its condition if it has one. -/
inductive BinaryOp where
  | plain (op : String)
  | conditioned (op : String) (clause : Clause)
  deriving DecidableEq, Repr

mutual

/-- An expression as it was written. -/
inductive Expression where
  | relation (name : String)
  | unary (op : UnaryOp) (operand : Expression)
  | chain (first : Expression) (links : Links)

/-- The operators of a chain after its first operand, each with the operand that follows it. -/
inductive Links where
  | nil
  | cons (op : BinaryOp) (operand : Expression) (rest : Links)

end

/-- The links of a list of operators and operands. -/
def Links.ofList : List (BinaryOp × Expression) → Links
  | [] => nil
  | (op, e) :: rest => cons op e (ofList rest)

/-! ## Words of an expression -/

/-- The words of a renaming. -/
def Renaming.phrase : Renaming → Phrase
  | relation name => .group [.word name]
  | attributes names => .group [Phrase.words names]
  | both name names => .group [.word name, Phrase.words names]

/-- The words of an operator with one operand. -/
def UnaryOp.phrases : UnaryOp → List Phrase
  | project op references => [.word op, Phrase.words references]
  | select op clause => [.word op, .group [clause.phrase]]
  | rename op target => [.word op, target.phrase]

/-- The words of an operator with two operands. -/
def BinaryOp.phrases : BinaryOp → List Phrase
  | plain op => [.word op]
  | conditioned op clause => [.word op, .group [clause.phrase]]

mutual

/-- The words of an expression. -/
def Expression.phrase : Expression → Phrase
  | .relation name => .group [.word name]
  | .unary op operand => .group (op.phrases ++ [operand.phrase])
  | .chain first links => .group (first.phrase :: links.phrases)

/-- The words of the links of a chain. -/
def Links.phrases : Links → List Phrase
  | .nil => []
  | .cons op operand rest => op.phrases ++ operand.phrase :: rest.phrases

end

/-! ## Operators with one operand -/

namespace UnaryOp

/-- Read an operator with parameters. -/
def parametrized {α : Type} (lex : Lexicon) (s : Symbol) (params : Reader α) : Reader (String × α) := do
  let op ← caselessKeyword false (lex s)
  let a ← parameters lex params
  pure (op, a)

/-- Read a projection. -/
def projectReader (lex : Lexicon) : Reader UnaryOp := do
  let (op, references) ← parametrized lex .project (listed lex reference)
  pure (project op references)

/-- Read a selection. -/
def selectReader (level : Level) (lex : Lexicon) : Reader UnaryOp := do
  let (op, clause) ← parametrized lex .select (Clause.reader level lex)
  pure (select op clause)

/-- Read new attribute names between parentheses. -/
def attributeNames (lex : Lexicon) : Reader (List String) := parenthesized lex (listed lex name)

/-- Read what a renaming writes. -/
def targetReader (lex : Lexicon) : Reader Renaming :=
  longest
    (do let n ← name; pure (.relation n))
    (do
      let n ← opt name
      let names ← attributeNames lex
      match n with
      | some n => pure (.both n names)
      | none => pure (.attributes names))

/-- Read a renaming. -/
def renameReader (lex : Lexicon) : Reader UnaryOp := do
  let (op, target) ← parametrized lex .rename (targetReader lex)
  pure (rename op target)

/-- Read an operator with one operand. -/
def reader (level : Level) (lex : Lexicon) : Reader UnaryOp :=
  firstOf [projectReader lex, selectReader level lex, renameReader lex]

/-- The pieces of a projection. -/
def projectPieces : List Piece := Piece.parametrized .project [.mark .delimiter]

/-- The pieces of a selection. -/
def selectPieces (level : Level) : List Piece := Piece.parametrized .select (Clause.pieces level)

/-- The pieces of a renaming. -/
def renamePieces : List Piece := Piece.parametrized .rename (Piece.parenthesized [.mark .delimiter])

/-- The pieces of the operators with one operand. -/
def pieces (level : Level) : List Piece := projectPieces ++ selectPieces level ++ renamePieces

end UnaryOp

/-! ## Operators with two operands -/

namespace BinaryOp

/-- Read an operator without parameters. -/
def plainReader (lex : Lexicon) (s : Symbol) : Reader BinaryOp := do
  let op ← caselessKeyword true (lex s)
  pure (plain op)

/-- Read an operator with a condition. -/
def conditionedReader (level : Level) (lex : Lexicon) (s : Symbol) : Reader BinaryOp := do
  let (op, clause) ← UnaryOp.parametrized lex s (Clause.reader level lex)
  pure (conditioned op clause)

/-- Read a theta join. The plain join followed by a condition is one too. -/
def thetaReader (level : Level) (lex : Lexicon) : Reader BinaryOp :=
  longest
    (conditionedReader level lex .thetaJoin)
    (do
      let (_, clause) ← UnaryOp.parametrized lex .join (Clause.reader level lex)
      pure (conditioned (lex .thetaJoin) clause))

/-- Read a join. -/
def joinReader (level : Level) (lex : Lexicon) : Reader BinaryOp :=
  if level.includes .extended then
    longestOf [
      plainReader lex .join,
      plainReader lex .naturalJoin,
      thetaReader level lex,
      conditionedReader level lex .fullOuterJoin,
      conditionedReader level lex .leftOuterJoin,
      conditionedReader level lex .rightOuterJoin]
  else plainReader lex .join

/-- The pieces of an operator with a condition. -/
def conditionedPieces (level : Level) (s : Symbol) : List Piece := Piece.parametrized s (Clause.pieces level)

/-- The pieces of a theta join. -/
def thetaPieces (level : Level) : List Piece := conditionedPieces level .thetaJoin ++ conditionedPieces level .join

/-- The pieces of the joins. -/
def joinPieces (level : Level) : List Piece :=
  .keyword .join :: if level.includes .extended then
    .keyword .naturalJoin :: (thetaPieces level ++ conditionedPieces level .fullOuterJoin
      ++ conditionedPieces level .leftOuterJoin ++ conditionedPieces level .rightOuterJoin)
  else []

/-- Read an intersection. -/
def intersectReader (lex : Lexicon) : Reader BinaryOp := plainReader lex .intersect

/-- Read a union or a difference. -/
def unionReader (lex : Lexicon) : Reader BinaryOp := plainReader lex .union <|> plainReader lex .difference

/-- The pieces of a union or a difference. -/
def unionPieces : List Piece := [.keyword .union, .keyword .difference]

end BinaryOp

/-! ## Expressions -/

namespace Expression

/-- Read a relation name. -/
def relationReader : Reader Expression := do
  let n ← name
  pure (relation n)

/-- Read operands with operators between them. A single operand is no chain. -/
def chained (operand : Reader Expression) (op : Reader BinaryOp) : Reader Expression := do
  let first ← operand
  let links ← many (do
    let o ← op
    let e ← operand
    pure (o, e))
  match links with
  | [] => pure first
  | link :: links => pure (chain first (Links.ofList (link :: links)))

/-- Read operands with operators of all levels between them. -/
def chainedReader (level : Level) (lex : Lexicon) (tight : Reader Expression) : Reader Expression :=
  let joins := chained tight (BinaryOp.joinReader level lex)
  let meets := if level.includes .extended then chained joins (BinaryOp.intersectReader lex) else joins
  chained meets (BinaryOp.unionReader lex)

/-- Read an expression that no operator with two operands divides: operators with one operand over a relation or over an
expression between parentheses. -/
def tightReader (level : Level) (lex : Lexicon) : Reader Expression :=
  recursive fun tight =>
    (do
      let op ← UnaryOp.reader level lex
      let operand ← tight
      pure (unary op operand))
    <|> relationReader <|> parenthesized lex (chainedReader level lex tight)

/-- Read an expression. -/
def reader (level : Level) (lex : Lexicon) : Reader Expression := chainedReader level lex (tightReader level lex)

/-- The pieces of an expression. -/
def pieces (level : Level) : List Piece :=
  UnaryOp.pieces level ++ BinaryOp.joinPieces level
    ++ (if level.includes .extended then [.keyword .intersect] else []) ++ BinaryOp.unionPieces ++ [.parentheses]

end Expression

end RelAlg.Surface
