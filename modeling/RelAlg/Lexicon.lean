import RelAlg.Setting

/-!
# The lexicon

A `Symbol` is a piece of the written language that has a spelling of its own; a `Lexicon` gives every symbol its
spelling. The language comes in five levels, each with all the symbols of the level before it. `Lexicon.standard` has the
usual spelling, and `Lexicon.set` changes it for one symbol. A symbol that is set to something other than a text is spelled
by no word. Which symbols start a dependency is a part of the lexicon too.
-/

namespace RelAlg

/-- The levels of the language, each containing the one before. -/
inductive Level where
  | base
  | condition
  | core
  | extended
  | dependency
  deriving DecidableEq, Repr

namespace Level

/-- The place of a level, counted from the smallest. -/
def rank : Level → Nat
  | base => 0
  | condition => 1
  | core => 2
  | extended => 3
  | dependency => 4

/-- The level has all that `least` has. -/
def includes (level least : Level) : Bool := least.rank ≤ level.rank

/-- The level a configuration asks for by title; an unknown title asks for the core language. -/
def ofTitle (title : String) : Level :=
  if title = "Extended Grammar" then extended
  else if title = "Dependency Grammar" then dependency
  else core

end Level

/-- The pieces of the written language with a spelling of their own. -/
inductive Symbol where
  | terminator
  | delimiter
  | paramsStart
  | paramsStop
  | parenLeft
  | parenRight
  | not
  | and
  | or
  | equal
  | notEqual
  | notEqualAlt
  | less
  | lessEqual
  | greater
  | greaterEqual
  | project
  | rename
  | select
  | assign
  | join
  | difference
  | union
  | thetaJoin
  | naturalJoin
  | fullOuterJoin
  | leftOuterJoin
  | rightOuterJoin
  | intersect
  | defined
  | primaryKey
  | multivalued
  | functional
  | inclusionEquivalence
  | inclusionSubsumption
  deriving DecidableEq, Repr

namespace Symbol

/-- All symbols, the smaller levels first. -/
def all : List Symbol :=
  [terminator, delimiter, paramsStart, paramsStop, parenLeft, parenRight,
    not, and, or, equal, notEqual, notEqualAlt, less, lessEqual, greater, greaterEqual,
    project, rename, select, assign, join, difference, union,
    thetaJoin, naturalJoin, fullOuterJoin, leftOuterJoin, rightOuterJoin, intersect, defined,
    primaryKey, multivalued, functional, inclusionEquivalence, inclusionSubsumption]

/-- The smallest level that has the symbol. -/
def level : Symbol → Level
  | terminator | delimiter | paramsStart | paramsStop | parenLeft | parenRight => .base
  | not | and | or | equal | notEqual | notEqualAlt | less | lessEqual | greater | greaterEqual => .condition
  | project | rename | select | assign | join | difference | union => .core
  | thetaJoin | naturalJoin | fullOuterJoin | leftOuterJoin | rightOuterJoin | intersect | defined => .extended
  | primaryKey | multivalued | functional | inclusionEquivalence | inclusionSubsumption => .dependency

/-- The key of the symbol in a configuration. -/
def key : Symbol → String
  | terminator => "terminator"
  | delimiter => "delim"
  | paramsStart => "params_start"
  | paramsStop => "params_stop"
  | parenLeft => "paren_left"
  | parenRight => "paren_right"
  | not => "not_op"
  | and => "and_op"
  | or => "or_op"
  | equal => "equal_op"
  | notEqual => "not_equal_op"
  | notEqualAlt => "not_equal_alt_op"
  | less => "less_than_op"
  | lessEqual => "less_than_equal_op"
  | greater => "greater_than_op"
  | greaterEqual => "greater_than_equal_op"
  | project => "project_op"
  | rename => "rename_op"
  | select => "select_op"
  | assign => "assign_op"
  | join => "join_op"
  | difference => "difference_op"
  | union => "union_op"
  | thetaJoin => "theta_join_op"
  | naturalJoin => "natural_join_op"
  | fullOuterJoin => "full_outer_join_op"
  | leftOuterJoin => "left_outer_join_op"
  | rightOuterJoin => "right_outer_join_op"
  | intersect => "intersect_op"
  | defined => "defined_op"
  | primaryKey => "pk_op"
  | multivalued => "mvd_op"
  | functional => "fd_op"
  | inclusionEquivalence => "inc_equiv_op"
  | inclusionSubsumption => "inc_subset_op"

/-- The symbols of a level. -/
def ofLevel (level : Level) : List Symbol := all.filter fun s => level.includes s.level

/-- The symbol of a level that has the key. -/
def ofKey? (level : Level) (key : String) : Option Symbol := (ofLevel level).find? fun s => s.key = key

/-- The key under which a configuration shows the dependency symbols together; it cannot be set. -/
def dependencyKey : String := "dependency_operators"

/-- The key under which a configuration lists the keys of the dependency symbols. -/
def dependencyListKey : String := "_dependency_op_attrs"

/-- The symbols that start a dependency. -/
def dependencies : List Symbol := [primaryKey, multivalued, functional, inclusionEquivalence, inclusionSubsumption]

end Symbol

/-- A setting for every symbol, and the keys of the symbols that start a dependency. -/
structure Lexicon where
  setting : Symbol → Setting
  dependencyKeys : Setting

/-- The characters that spell a symbol. -/
def Lexicon.spelling (lex : Lexicon) (s : Symbol) : String := (lex.setting s).letters

instance : CoeFun Lexicon fun _ => Symbol → String := ⟨Lexicon.spelling⟩

namespace Lexicon

/-- The usual spelling. -/
def usual : Symbol → String
  | .terminator => ";"
  | .delimiter => ","
  | .paramsStart => "_\x7b"
  | .paramsStop => "\x7d"
  | .parenLeft => "("
  | .parenRight => ")"
  | .not => "not"
  | .and => "and"
  | .or => "or"
  | .equal => "="
  | .notEqual => "!="
  | .notEqualAlt => "<>"
  | .less => "<"
  | .lessEqual => "<="
  | .greater => ">"
  | .greaterEqual => ">="
  | .project => "\\project"
  | .rename => "\\rename"
  | .select => "\\select"
  | .assign => ":="
  | .join => "\\join"
  | .difference => "\\difference"
  | .union => "\\union"
  | .thetaJoin => "\\theta_join"
  | .naturalJoin => "\\natural_join"
  | .fullOuterJoin => "\\full_outer_join"
  | .leftOuterJoin => "\\left_outer_join"
  | .rightOuterJoin => "\\right_outer_join"
  | .intersect => "\\intersect"
  | .defined => "defined"
  | .primaryKey => "pk"
  | .multivalued => "mvd"
  | .functional => "fd"
  | .inclusionEquivalence => "inc="
  | .inclusionSubsumption => "inc⊆"

/-- The lexicon of the usual spelling. -/
def standard : Lexicon := ⟨fun s => .text (usual s), .list (Symbol.dependencies.map fun s => some s.key)⟩

/-- The lexicon with one symbol set anew. -/
def set (lex : Lexicon) (s : Symbol) (setting : Setting) : Lexicon :=
  { lex with setting := fun t => if t = s then setting else lex.setting t }

/-- The word is how the symbol is spelled. -/
def spells (lex : Lexicon) (s : Symbol) (word : String) : Bool := lex.setting s = .text word

/-- The word, if it is one, spells one of the symbols. There is no answer if one of them is set to something that cannot be
looked up. -/
def anySpells? (lex : Lexicon) (symbols : List Symbol) (word : Option String) : Option Bool :=
  if symbols.all fun s => (lex.setting s).isSingle then some (symbols.any fun s => word.any (lex.spells s)) else none

/-- The word is an operator with one operand. -/
def isUnary? (lex : Lexicon) (word : Option String) : Option Bool := lex.anySpells? [.select, .project, .rename] word

/-- The operators with two operands that the core language has. -/
def coreBinary : List Symbol := [.difference, .union, .join]

/-- The operators with two operands that the extended language adds. -/
def extendedBinary : List Symbol :=
  [.intersect, .naturalJoin, .thetaJoin, .fullOuterJoin, .leftOuterJoin, .rightOuterJoin]

/-- The word is an operator with two operands at the given level. The operators that the extended language adds are looked
at first. -/
def isBinary? (level : Level) (lex : Lexicon) (word : Option String) : Option Bool :=
  if level.includes .extended then
    match lex.anySpells? extendedBinary word with
    | some false => lex.anySpells? coreBinary word
    | answer => answer
  else lex.anySpells? coreBinary word

/-- The word is spelled like the assignment. -/
def isAssign (lex : Lexicon) (word : String) : Bool := lex.spells .assign word

/-- A word that a text has in the place of an operator is taken for the assignment: it is spelled like it, by a single
character of the first 256. Any longer word that is spelled like the assignment keeps the meaning it was read with. -/
def isAssignCharacter (lex : Lexicon) (word : String) : Bool :=
  lex.isAssign word && word.length = 1 && word.toList.all fun c => c.toNat < 256

end Lexicon

end RelAlg
