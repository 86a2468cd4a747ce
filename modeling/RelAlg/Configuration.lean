import RelAlg.Error

/-!
# Configurations

A configuration changes the standard lexicon by keys: `Lexicon.configure` sets one key after the other and passes over those
that the level of the language does not have. In the dependency language it can be set which keys stand for what starts a
dependency, but what starts a dependency cannot itself be set.
-/

namespace RelAlg.Lexicon

/-- The setting that a key of the dependency list stands for: that of a symbol, or the list itself. -/
def dependencySetting (lex : Lexicon) (key : String) : Except Error Setting :=
  match Symbol.ofKey? .dependency key with
  | some s => .ok (lex.setting s)
  | none => if key = Symbol.dependencyListKey then .ok lex.dependencyKeys else .error .unknownKey

/-- The settings that start a dependency. -/
def dependencyOperators (lex : Lexicon) : Except Error (List Setting) :=
  match lex.dependencyKeys.members? with
  | some keys => keys.mapM fun
    | some key => lex.dependencySetting key
    | none => .error .noSpelling
  | none => .error .noSpelling

/-- The keys that stand for what starts a dependency, if all of them are known. -/
def knownDependencyKeys (lex : Lexicon) : Except Error (Option (List String)) :=
  match lex.dependencyOperators with
  | .ok _ => .ok (some ((lex.dependencyKeys.members?.getD []).filterMap id))
  | .error .unknownKey => .ok none
  | .error e => .error e

/-- The lexicon with one key of a configuration set. What starts a dependency cannot be set where it is known. -/
def change (level : Level) (lex : Lexicon) (key : String) (setting : Setting) : Except Error Lexicon :=
  match Symbol.ofKey? level key with
  | some s => .ok (lex.set s setting)
  | none =>
    if !level.includes .dependency then .ok lex
    else if key = Symbol.dependencyListKey then .ok { lex with dependencyKeys := setting }
    else if key = Symbol.dependencyKey then do
      if (← lex.knownDependencyKeys).isSome then throw .fixedSymbols
      return lex
    else .ok lex

/-- The lexicon with keys of a configuration set one after the other. -/
def changeAll (level : Level) (lex : Lexicon) : List (String × Setting) → Except Error Lexicon
  | [] => .ok lex
  | (key, setting) :: changes => do changeAll level (← lex.change level key setting) changes

/-- The lexicon of a configuration. -/
def configure (level : Level) (changes : List (String × Setting)) : Except Error Lexicon :=
  standard.changeAll level changes

/-- The symbols by whose spelling nodes are looked up. -/
def tabled : List Symbol :=
  [.thetaJoin, .fullOuterJoin, .leftOuterJoin, .rightOuterJoin, .multivalued, .functional]

/-- Nodes can be made with the lexicon: each symbol by which they are looked up has a single setting. -/
def checkTables (lex : Lexicon) : Except Error Unit :=
  if tabled.all fun s => (lex.setting s).isSingle then .ok () else .error .notSingle

end RelAlg.Lexicon
