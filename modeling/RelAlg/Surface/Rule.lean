import RelAlg.Surface.Statement

/-!
# Named rules

The rules of the written language by title, each with the smallest level that has it and its pieces, as readers of words.
A rule read at a larger level follows that level: a condition of the extended language may test whether an operand is
defined.
-/

namespace RelAlg.Surface

open Reader

/-- A rule of the language: its title, the smallest level that has it, its pieces at a level, and what it reads. -/
structure Rule where
  title : String
  least : Level
  pieces : Level → List Piece
  reader : Level → Lexicon → Reader (List Phrase)

namespace Rule

variable {α : Type}

/-- Keep the words of what is read. -/
def words (p : Reader α) (phrases : α → List Phrase) : Reader (List Phrase) := do
  let a ← p
  pure (phrases a)

/-- Keep a word. -/
def wordOf (p : Reader String) : Reader (List Phrase) := words p fun s => [.word s]

/-- Keep a list of words without a bracket of its own. -/
def wordsOf (p : Reader (List String)) : Reader (List Phrase) := words p (·.map .word)

/-- The same pieces at every level. -/
def fixed (pieces : List Piece) : Level → List Piece := fun _ => pieces

/-- Rules for names, numbers and quoted texts. -/
def base : List Rule := [
  ⟨"number", .base, fixed [], fun _ _ => wordOf number⟩,
  ⟨"string_literal", .base, fixed [], fun _ _ => wordOf quoted⟩,
  ⟨"identifier", .base, fixed [], fun _ _ => wordOf name⟩,
  ⟨"relation_name", .base, fixed [], fun _ _ => wordOf name⟩,
  ⟨"attribute_name", .base, fixed [], fun _ _ => wordOf name⟩,
  ⟨"attribute_reference", .base, fixed [], fun _ _ => wordOf reference⟩]

/-- Rules for conditions. -/
def condition : List Rule := [
  ⟨"comparator_op", .condition, fixed [.comparators], fun _ lex => wordOf (Clause.comparator lex)⟩,
  ⟨"not_op", .condition, fixed [.keyword .not], fun _ lex => wordOf (Clause.negation lex)⟩,
  ⟨"logical_binary_op", .condition, fixed [.keyword .and, .keyword .or], fun _ lex => wordOf (Clause.linker lex)⟩,
  ⟨"operand", .condition, fixed [], fun _ _ => words Operand.reader fun o => [o.phrase]⟩,
  ⟨"condition", .condition, Clause.simplePieces, fun level lex =>
    words (Clause.simple level lex) fun c => [c.phrase]⟩,
  ⟨"conditions", .condition, Clause.pieces, fun level lex => words (Clause.reader level lex) fun c => [c.phrase]⟩]

/-- Rules for expressions and statements. -/
def core : List Rule := [
  ⟨"attribute_list", .core, fixed [.mark .delimiter], fun _ lex => wordsOf (listed lex name)⟩,
  ⟨"attribute_reference_list", .core, fixed [.mark .delimiter], fun _ lex => wordsOf (listed lex reference)⟩,
  ⟨"relation", .core, fixed [], fun _ _ => words Expression.relationReader fun e => [e.phrase]⟩,
  ⟨"project", .core, fixed UnaryOp.projectPieces, fun _ lex => words (UnaryOp.projectReader lex) UnaryOp.phrases⟩,
  ⟨"select", .core, UnaryOp.selectPieces, fun level lex => words (UnaryOp.selectReader level lex) UnaryOp.phrases⟩,
  ⟨"rename", .core, fixed UnaryOp.renamePieces, fun _ lex => words (UnaryOp.renameReader lex) UnaryOp.phrases⟩,
  ⟨"unary_op", .core, UnaryOp.pieces, fun level lex => words (UnaryOp.reader level lex) UnaryOp.phrases⟩,
  ⟨"join", .core, fixed [.keyword .join], fun _ lex => words (BinaryOp.plainReader lex .join) BinaryOp.phrases⟩,
  ⟨"binary_op_p1", .core, BinaryOp.joinPieces, fun level lex =>
    words (BinaryOp.joinReader level lex) BinaryOp.phrases⟩,
  ⟨"union", .core, fixed [.keyword .union], fun _ lex => words (BinaryOp.plainReader lex .union) BinaryOp.phrases⟩,
  ⟨"difference", .core, fixed [.keyword .difference], fun _ lex =>
    words (BinaryOp.plainReader lex .difference) BinaryOp.phrases⟩,
  ⟨"binary_op_p2", .core, fixed BinaryOp.unionPieces, fun _ lex =>
    words (BinaryOp.unionReader lex) BinaryOp.phrases⟩,
  ⟨"expression", .core, Expression.pieces, fun level lex =>
    words (Expression.reader level lex) fun e => [e.phrase]⟩,
  ⟨"assignment", .core, Statement.assignPieces, fun level lex =>
    words (Statement.assignReader level lex) fun s => [s.phrase]⟩,
  ⟨"statement", .core, Statement.pieces, fun level lex => words (Statement.reader level lex) fun s => [s.phrase]⟩,
  ⟨"statements", .core, Statement.pieces, fun level lex => words (statements level lex) (·.map Statement.phrase)⟩]

/-- Rules for the further joins, the intersection and the test whether an operand is defined. -/
def extended : List Rule := [
  ⟨"natural_join", .extended, fixed [.keyword .naturalJoin], fun _ lex =>
    words (BinaryOp.plainReader lex .naturalJoin) BinaryOp.phrases⟩,
  ⟨"theta_join", .extended, BinaryOp.thetaPieces, fun level lex =>
    words (BinaryOp.thetaReader level lex) BinaryOp.phrases⟩,
  ⟨"full_outer_join", .extended, (BinaryOp.conditionedPieces · .fullOuterJoin), fun level lex =>
    words (BinaryOp.conditionedReader level lex .fullOuterJoin) BinaryOp.phrases⟩,
  ⟨"left_outer_join", .extended, (BinaryOp.conditionedPieces · .leftOuterJoin), fun level lex =>
    words (BinaryOp.conditionedReader level lex .leftOuterJoin) BinaryOp.phrases⟩,
  ⟨"right_outer_join", .extended, (BinaryOp.conditionedPieces · .rightOuterJoin), fun level lex =>
    words (BinaryOp.conditionedReader level lex .rightOuterJoin) BinaryOp.phrases⟩,
  ⟨"intersect", .extended, fixed [.keyword .intersect], fun _ lex =>
    words (BinaryOp.intersectReader lex) BinaryOp.phrases⟩,
  ⟨"defined_op", .extended, fixed [.keyword .defined], fun _ lex => wordOf (caselessKeyword true (lex .defined))⟩,
  ⟨"defined_condition", .extended, fixed Clause.definedPieces, fun _ lex =>
    words (Clause.definedTest lex) fun c => [c.phrase]⟩]

/-- Rules for declarations. -/
def dependency : List Rule := [
  ⟨"pk", .dependency, fixed [.literal .primaryKey], fun _ lex =>
    words (literalReader lex .primaryKey) symbolPhrases⟩,
  ⟨"mvd", .dependency, fixed [.literal .multivalued], fun _ lex =>
    words (literalReader lex .multivalued) symbolPhrases⟩,
  ⟨"fd", .dependency, fixed [.literal .functional], fun _ lex =>
    words (literalReader lex .functional) symbolPhrases⟩,
  ⟨"inc_equiv", .dependency, fixed [.literal .inclusionEquivalence], fun _ lex =>
    words (literalReader lex .inclusionEquivalence) symbolPhrases⟩,
  ⟨"inc_subset", .dependency, fixed [.literal .inclusionSubsumption], fun _ lex =>
    words (literalReader lex .inclusionSubsumption) symbolPhrases⟩,
  ⟨"select_or_relation", .dependency, Side.pieces, fun level lex => words (Side.reader level lex) Side.phrases⟩,
  ⟨"cond_dep_expr", .dependency, pairPieces, fun level lex =>
    words (pairReader level lex) fun (left, right, side) => pairPhrases left right side⟩,
  ⟨"inc_expr", .dependency, inclusionPieces, fun level lex =>
    words (inclusionReader level lex) fun (left, right, leftSide, rightSide) =>
      inclusionPhrases left right leftSide rightSide⟩,
  ⟨"pk_dep", .dependency, fixed Declaration.keyPieces,
    fun _ lex => words (Declaration.keyReader lex) fun d => [d.phrase]⟩,
  ⟨"mvd_dep", .dependency, (Declaration.betweenPieces · .multivalued), fun level lex =>
    words (Declaration.betweenReader level lex .multivalued) fun d => [d.phrase]⟩,
  ⟨"fd_dep", .dependency, (Declaration.betweenPieces · .functional), fun level lex =>
    words (Declaration.betweenReader level lex .functional) fun d => [d.phrase]⟩,
  ⟨"inc_equiv_dep", .dependency, (Declaration.inclusionPieces · .inclusionEquivalence), fun level lex =>
    words (Declaration.inclusionReader level lex .inclusionEquivalence) fun d => [d.phrase]⟩,
  ⟨"inc_subset_dep", .dependency, (Declaration.inclusionPieces · .inclusionSubsumption), fun level lex =>
    words (Declaration.inclusionReader level lex .inclusionSubsumption) fun d => [d.phrase]⟩,
  ⟨"dep", .dependency, Declaration.pieces, fun level lex => words (Declaration.reader level lex) fun d => [d.phrase]⟩,
  ⟨"dep_statement", .dependency, Statement.declarePieces, fun level lex =>
    words (Statement.declareReader level lex) fun s => [s.phrase]⟩]

/-- All rules. -/
def all : List Rule := base ++ condition ++ core ++ extended ++ dependency

/-- The rule of a level that has the title. -/
def find? (level : Level) (title : String) : Option Rule :=
  all.find? fun r => r.title = title && level.includes r.least

/-- The words that a rule reads off a text. With `whole`, nothing but blanks may be left over. -/
def read (level : Level) (lex : Lexicon) (title : String) (whole : Bool) (text : String) :
    Except Error (List Phrase) :=
  match find? level title with
  | some r => readRule lex (r.pieces level) (r.reader level lex) whole text
  | none => .error .noRule

end Rule

end RelAlg.Surface
