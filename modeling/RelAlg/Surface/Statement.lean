import RelAlg.Surface.Expression

/-!
# Written statements

A statement is an expression, an assignment of an expression to a new relation, or, in the dependency language, a
declaration: a key, a dependency between two attributes of a relation, or an inclusion between two relations. A terminator
ends every statement. `parse` reads a whole text.
-/

namespace RelAlg.Surface

open Reader

/-- A relation that a declaration speaks of, with a selection on it or without. -/
inductive Side where
  | relation (name : String)
  | selected (op : String) (clause : Clause) (name : String)
  deriving DecidableEq, Repr

/-- A statement about the data rather than a query. -/
inductive Declaration where
  | key (op : String) (attributes : List String) (relation : String)
  | between (op : String) (left right : String) (side : Side)
  | inclusion (op : String) (left right : String) (leftSide rightSide : Side)
  deriving DecidableEq, Repr

/-- A statement as it was written. -/
inductive Statement where
  | assign (name : String) (attributes : Option (List String)) (op : String) (value : Expression)
  | query (expression : Expression)
  | declare (declaration : Declaration)

/-! ## Words of a statement -/

/-- The word of an operator that is a plain symbol; one that is spelled by no character leaves none. -/
def symbolPhrases (op : String) : List Phrase := if op.isEmpty then [] else [.word op]

/-- The words of a side. -/
def Side.phrases : Side → List Phrase
  | relation name => [.word name]
  | selected op clause name => symbolPhrases op ++ [.group [clause.phrase], .word name]

/-- The words of a pair of attributes and a side. -/
def pairPhrases (left right : String) (side : Side) : List Phrase :=
  Phrase.words [left, right] :: side.phrases

/-- The words of a pair of attributes and a pair of sides. -/
def inclusionPhrases (left right : String) (leftSide rightSide : Side) : List Phrase :=
  [Phrase.words [left, right], .group [.group leftSide.phrases, .group rightSide.phrases]]

/-- The words of a declaration. -/
def Declaration.phrase : Declaration → Phrase
  | key op attributes relation => .group (symbolPhrases op ++ [Phrase.words attributes, .word relation])
  | between op left right side => .group (symbolPhrases op ++ pairPhrases left right side)
  | inclusion op left right leftSide rightSide =>
    .group (symbolPhrases op ++ inclusionPhrases left right leftSide rightSide)

/-- The words of a statement. -/
def Statement.phrase : Statement → Phrase
  | assign name attributes op value =>
    .group [.group (.word name :: (attributes.map Phrase.words).toList), .word op, value.phrase]
  | query expression => expression.phrase
  | declare declaration => declaration.phrase

/-! ## Declarations -/

/-- Read a relation with a selection on it or without. -/
def Side.reader (level : Level) (lex : Lexicon) : Reader Side :=
  (do
    let op ← literalReader lex .select
    let clause ← parameters lex (Clause.reader level lex)
    let n ← name
    pure (selected op clause n))
  <|> (do let n ← name; pure (relation n))

/-- The pieces of a relation with a selection on it or without. -/
def Side.pieces (level : Level) : List Piece := .literal .select :: Piece.parameters (Clause.pieces level)

/-- Read two attribute names as parameters. -/
def attributePair (lex : Lexicon) : Reader (String × String) :=
  parameters lex (do
    let left ← name
    markReader lex .delimiter
    let right ← name
    pure (left, right))

/-- Read two attribute names and the relation they belong to. -/
def pairReader (level : Level) (lex : Lexicon) : Reader (String × String × Side) := do
  let (left, right) ← attributePair lex
  let side ← Side.reader level lex
  pure (left, right, side)

/-- Read two attribute names and the two relations they belong to. -/
def inclusionReader (level : Level) (lex : Lexicon) : Reader (String × String × Side × Side) := do
  let (left, right) ← attributePair lex
  let (leftSide, rightSide) ← parenthesized lex (do
    let l ← Side.reader level lex
    markReader lex .delimiter
    let r ← Side.reader level lex
    pure (l, r))
  pure (left, right, leftSide, rightSide)

/-- The pieces of two attribute names and the relation they belong to. -/
def pairPieces (level : Level) : List Piece := Piece.parameters [.mark .delimiter] ++ Side.pieces level

/-- The pieces of two attribute names and the two relations they belong to. -/
def inclusionPieces (level : Level) : List Piece :=
  Piece.parameters [.mark .delimiter]
    ++ Piece.parenthesized (Side.pieces level ++ .mark .delimiter :: Side.pieces level)

namespace Declaration

/-- Read a key. -/
def keyReader (lex : Lexicon) : Reader Declaration := do
  let op ← literalReader lex .primaryKey
  let attributes ← parameters lex (listed lex name)
  let relation ← name
  pure (key op attributes relation)

/-- Read a dependency between two attributes. -/
def betweenReader (level : Level) (lex : Lexicon) (s : Symbol) : Reader Declaration := do
  let op ← literalReader lex s
  let (left, right, side) ← pairReader level lex
  pure (between op left right side)

/-- Read an inclusion. -/
def inclusionReader (level : Level) (lex : Lexicon) (s : Symbol) : Reader Declaration := do
  let op ← literalReader lex s
  let (left, right, leftSide, rightSide) ← Surface.inclusionReader level lex
  pure (inclusion op left right leftSide rightSide)

/-- Read a declaration. -/
def reader (level : Level) (lex : Lexicon) : Reader Declaration :=
  firstOf [
    keyReader lex,
    betweenReader level lex .multivalued,
    betweenReader level lex .functional,
    inclusionReader level lex .inclusionEquivalence,
    inclusionReader level lex .inclusionSubsumption]

/-- The pieces of a key. -/
def keyPieces : List Piece := .literal .primaryKey :: Piece.parameters [.mark .delimiter]

/-- The pieces of a dependency between two attributes. -/
def betweenPieces (level : Level) (s : Symbol) : List Piece := .literal s :: pairPieces level

/-- The pieces of an inclusion. -/
def inclusionPieces (level : Level) (s : Symbol) : List Piece := .literal s :: Surface.inclusionPieces level

/-- The pieces of a declaration. -/
def pieces (level : Level) : List Piece :=
  keyPieces ++ betweenPieces level .multivalued ++ betweenPieces level .functional
    ++ inclusionPieces level .inclusionEquivalence ++ inclusionPieces level .inclusionSubsumption

end Declaration

/-! ## Statements -/

namespace Statement

/-- Read an assignment. -/
def assignReader (level : Level) (lex : Lexicon) : Reader Statement := do
  let n ← name
  let attributes ← opt (UnaryOp.attributeNames lex)
  let op ← keyword (lex .assign)
  let value ← Expression.reader level lex
  pure (assign n attributes op value)

/-- Read an expression as a statement. -/
def queryReader (level : Level) (lex : Lexicon) : Reader Statement := do
  let e ← Expression.reader level lex
  pure (query e)

/-- Read what the terminator ends. -/
def terminated {α : Type} (lex : Lexicon) (p : Reader α) : Reader α := do
  let a ← p
  markReader lex .terminator
  pure a

/-- Read a declaration as a statement. -/
def declareReader (level : Level) (lex : Lexicon) : Reader Statement :=
  terminated lex (do let d ← Declaration.reader level lex; pure (declare d))

/-- Read a statement of the algebra. -/
def algebraReader (level : Level) (lex : Lexicon) : Reader Statement :=
  terminated lex (longest (assignReader level lex) (queryReader level lex))

/-- Read a statement. -/
def reader (level : Level) (lex : Lexicon) : Reader Statement :=
  if level.includes .dependency then declareReader level lex <|> algebraReader level lex
  else algebraReader level lex

/-- The pieces of an assignment. -/
def assignPieces (level : Level) : List Piece :=
  Piece.parenthesized [.mark .delimiter] ++ .exactKeyword .assign :: Expression.pieces level

/-- The pieces of a declaration as a statement. -/
def declarePieces (level : Level) : List Piece := Declaration.pieces level ++ [.mark .terminator]

/-- The pieces of a statement. -/
def pieces (level : Level) : List Piece :=
  (if level.includes .dependency then declarePieces level else [])
    ++ assignPieces level ++ Expression.pieces level ++ [.mark .terminator]

end Statement

/-- Read one or more statements. -/
def statements (level : Level) (lex : Lexicon) : Reader (List Statement) := do
  let first ← Statement.reader level lex
  let others ← many (Statement.reader level lex)
  pure (first :: others)

/-- The value that a reader finds in a text. With `whole`, nothing but blanks may be left over. -/
def readText {α : Type} (p : Reader α) (whole : Bool) (text : String) : Option α :=
  (if whole then (do let a ← p; atEnd; pure a) else p).readStart (Text.expandTabs text.toList)

/-- The value that a reader finds in a text, if the pieces of its rule can be made. -/
def readRule {α : Type} (lex : Lexicon) (pieces : List Piece) (p : Reader α) (whole : Bool) (text : String) :
    Except Error α :=
  match pieces.findSome? (Piece.problem? lex) with
  | some problem => .error problem
  | none =>
    match readText p whole text with
    | some a => .ok a
    | none => .error .unreadable

/-- The statements of a text. -/
def parse (level : Level) (lex : Lexicon) (text : String) : Except Error (List Statement) :=
  readRule lex (Statement.pieces level) (statements level lex) true text

/-- The condition that a text is, at a level that has conditions. -/
def Clause.parse (level : Level) (lex : Lexicon) (text : String) : Except Error Clause :=
  if level.includes .condition then readRule lex (pieces level) (reader level lex) true text
  else .error .noRule

end RelAlg.Surface
