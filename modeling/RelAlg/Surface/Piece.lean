import RelAlg.Error
import RelAlg.Reader.Token

/-!
# Pieces of rules

A rule of the written language is put together from pieces, and each piece makes its own demands on how the symbols it needs
are set. Before a rule reads anything its pieces are looked at in the order in which they are put together; the first that
cannot be made refuses the rule. `Piece.problem?` says why.
-/

namespace RelAlg.Surface

open Reader

/-- What a rule is put together from. -/
inductive Piece where
  /-- A word in any letter case. -/
  | keyword (s : Symbol)
  /-- A word in exactly its spelling. -/
  | exactKeyword (s : Symbol)
  /-- A text that is kept. -/
  | literal (s : Symbol)
  /-- A text that leaves no word. -/
  | mark (s : Symbol)
  /-- The parentheses around an expression or a condition. -/
  | parentheses
  /-- The choice of a comparison operator. -/
  | comparators
  deriving DecidableEq, Repr

/-- The comparison operators. -/
def comparatorSymbols : List Symbol :=
  [.equal, .notEqual, .notEqualAlt, .less, .lessEqual, .greater, .greaterEqual]

namespace Piece

/-- Some setting is longer than one character or item. There is no answer if one without a size comes before it. -/
def someLonger? : List Setting → Option Bool
  | [] => some false
  | s :: rest =>
    match s.size? with
    | some n => if 1 < n then some true else someLonger? rest
    | none => none

/-- Why there can be no choice among texts. They are ordered by comparing each with the later ones if one of them is longer
than one character; a setting that is no text then fails as the first of two in another way than as the second. -/
def choiceProblem? (settings : List Setting) : Option Error :=
  if settings.all Setting.isText then none
  else match someLonger? settings with
  | none => some .noSpelling
  | some true =>
    match settings with
    | first :: second :: _ => if first.isText || !second.isText then some .noLetters else some .noSpelling
    | _ => some .noLetters
  | some false => if settings.all fun s => s.size? = some 1 then some .noLetters else some .noSpelling

/-- Why a keyword cannot be made: it has no character, or it is no text. A list fails in a way of its own. -/
def keywordProblem? : Setting → Option Error
  | .text s => if s.isEmpty then some .emptyKeyword else none
  | .list items => some (if items.isEmpty then .emptyKeyword else .noLetters)
  | _ => some .noSpelling

/-- Why a keyword that is taken as it is spelled cannot be made. -/
def exactKeywordProblem? : Setting → Option Error
  | .text s => if s.isEmpty then some .emptyKeyword else none
  | .list items => some (if items.isEmpty then .emptyKeyword else .noSpelling)
  | _ => some .noSpelling

/-- Why a text that is kept cannot be made. Anything empty stands for the empty text, and a list is found nowhere. -/
def literalProblem? : Setting → Option Error
  | .text _ | .list _ => none
  | s => if s.isEmpty then none else some .noSpelling

/-- Why a text that leaves no word cannot be made. Nothing at all is found nowhere. -/
def markProblem? : Setting → Option Error
  | .text _ | .nothing => none
  | _ => some .noLetters

/-- Why a piece cannot be made. -/
def problem? (lex : Lexicon) : Piece → Option Error
  | keyword s => keywordProblem? (lex.setting s)
  | exactKeyword s => exactKeywordProblem? (lex.setting s)
  | literal s => literalProblem? (lex.setting s)
  | mark s => markProblem? (lex.setting s)
  | parentheses =>
    if (lex.setting .parenLeft).isText && (lex.setting .parenRight).isText then none else some .noSpelling
  | comparators => choiceProblem? (comparatorSymbols.map lex.setting)

/-- The pieces of parameters, around the pieces of what they hold. -/
def parameters (inner : List Piece) : List Piece := inner ++ [mark .paramsStart, mark .paramsStop]

/-- The pieces of an operator with parameters. -/
def parametrized (s : Symbol) (inner : List Piece) : List Piece := inner ++ keyword s :: parameters []

/-- The pieces of what stands between parentheses as a part of a rule. -/
def parenthesized (inner : List Piece) : List Piece := inner ++ [mark .parenLeft, mark .parenRight]

end Piece

/-! ## Reading texts and marks -/

/-- Read a text that leaves no word. -/
def markReader (lex : Lexicon) (s : Symbol) : Reader Unit :=
  match lex.setting s with
  | .text t => Reader.literal t
  | _ => failure

/-- Read a text that leaves no word, without skipping blanks. -/
def touchingMark (lex : Lexicon) (s : Symbol) : Reader Unit :=
  match lex.setting s with
  | .text t => exactly t
  | _ => failure

/-- Read a text and keep it. -/
def literalReader (lex : Lexicon) (s : Symbol) : Reader String :=
  if (lex.setting s).isText || (lex.setting s).isEmpty then symbol (lex s) else failure

end RelAlg.Surface
