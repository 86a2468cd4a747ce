import RelAlg.Text.Display

/-!
# Nested lists

A reading of a text comes out as words in nested lists, a `Phrase`. The operations are `flatten`, which keeps the values in
order and drops the nesting, `Phrase.display`, the form that messages show, and `Phrase.weight`, a size that the characters
of a word never exceed.
-/

namespace RelAlg

/-- A value, or a list of nested values. -/
inductive Nested (α : Type) where
  | leaf (value : α)
  | list (items : List (Nested α))
  deriving Repr

namespace Nested

variable {α : Type}

mutual

/-- The values from left to right. -/
def flatten : Nested α → List α
  | leaf a => [a]
  | list items => flattenAll items

/-- The values of all members from left to right. -/
def flattenAll : List (Nested α) → List α
  | [] => []
  | n :: ns => n.flatten ++ flattenAll ns

end

@[simp] theorem flattenAll_append (ms ns : List (Nested α)) :
    flattenAll (ms ++ ns) = flattenAll ms ++ flattenAll ns := by
  induction ms with
  | nil => rfl
  | cons m ms ih => simp [flattenAll, ih]

/-! ## Equality -/

variable [DecidableEq α]

mutual

/-- Decide whether two nested values are equal. -/
def decEq : (m n : Nested α) → Decidable (m = n)
  | leaf a, leaf b =>
    if h : a = b then isTrue (by rw [h]) else isFalse fun e => h (by injection e)
  | list ms, list ns =>
    match decEqAll ms ns with
    | isTrue h => isTrue (by rw [h])
    | isFalse h => isFalse fun e => h (by injection e)
  | leaf _, list _ => isFalse nofun
  | list _, leaf _ => isFalse nofun

/-- Decide whether two lists of nested values are equal. -/
def decEqAll : (ms ns : List (Nested α)) → Decidable (ms = ns)
  | [], [] => isTrue rfl
  | m :: ms, n :: ns =>
    match decEq m n, decEqAll ms ns with
    | isTrue h, isTrue k => isTrue (by rw [h, k])
    | isFalse h, _ => isFalse fun e => h (by injection e)
    | _, isFalse k => isFalse fun e => k (by injection e)
  | [], _ :: _ => isFalse nofun
  | _ :: _, [] => isFalse nofun

end

instance : DecidableEq (Nested α) := decEq

end Nested

/-- Words in nested lists. -/
abbrev Phrase := Nested String

/-- Where a list of words comes from: a caller handed it in, or it was read off a text. -/
inductive Origin where
  | handed
  | read
  deriving DecidableEq, Repr

namespace Phrase

/-- A single word. -/
abbrev word (text : String) : Phrase := Nested.leaf text

/-- A list of phrases. -/
abbrev group (parts : List Phrase) : Phrase := Nested.list parts

/-- A list of words. -/
def words (texts : List String) : Phrase := group (texts.map word)

/-- The text of a phrase that is a single word. -/
def text? : Phrase → Option String
  | .leaf s => some s
  | .list _ => none

/-- The members of a phrase: the parts of a list, or the characters of a word. -/
def parts : Phrase → List Phrase
  | .leaf s => s.toList.map fun c => word (String.singleton c)
  | .list ps => ps

/-- The words before the first list, and whether that is all there is. -/
def leadingWords : List Phrase → List String × Bool
  | [] => ([], true)
  | .leaf s :: ps => let r := leadingWords ps; (s :: r.1, r.2)
  | .list _ :: _ => ([], false)

/-! ## Display -/

mutual

/-- A phrase as messages show it: words between quotes, lists between brackets. -/
def display : Phrase → String
  | .leaf s => Text.display s
  | .list ps => "[" ++ displayAll ps ++ "]"

/-- The members of a list as messages show them, with a comma between two. -/
def displayAll : List Phrase → String
  | [] => ""
  | [p] => display p
  | p :: q :: ps => display p ++ ", " ++ displayAll (q :: ps)

end

mutual

/-- A phrase as messages show it where every list says that it was read. -/
def displayRead : Phrase → String
  | .leaf s => Text.display s
  | .list ps => "ParseResults([" ++ displayReadAll ps ++ "], \x7b\x7d)"

/-- The members of a list as messages show them where every list says that it was read. -/
def displayReadAll : List Phrase → String
  | [] => ""
  | [p] => displayRead p
  | p :: q :: ps => displayRead p ++ ", " ++ displayReadAll (q :: ps)

end

/-- The members of a list as messages show them, by the origin of the lists. -/
def displayFrom : Origin → List Phrase → String
  | .handed, ps => displayAll ps
  | .read, ps => displayReadAll ps

/-- A phrase as it stands in a text: a word as it is, a list as messages show it. -/
def text : Phrase → String
  | .leaf s => s
  | .list ps => display (.list ps)

/-! ## Weight -/

mutual

/-- The weight of a phrase. A word of several characters weighs more than all of them together. -/
def weight : Phrase → Nat
  | .leaf s => if s.length ≤ 1 then 1 else 2 * s.length
  | .list ps => weightAll ps + 1

/-- The weight of the members of a list. -/
def weightAll : List Phrase → Nat
  | [] => 0
  | p :: ps => weight p + weightAll ps

end

theorem weight_pos (p : Phrase) : 0 < p.weight := by
  cases p with
  | leaf s => simp only [weight]; split <;> omega
  | list ps => simp [weight]

@[simp] theorem weightAll_append (ps qs : List Phrase) : weightAll (ps ++ qs) = weightAll ps + weightAll qs := by
  induction ps with
  | nil => simp [weightAll]
  | cons p ps ih => simp only [List.cons_append, weightAll, ih]; omega

@[simp] theorem weightAll_reverse (ps : List Phrase) : weightAll ps.reverse = weightAll ps := by
  induction ps with
  | nil => rfl
  | cons p ps ih => simp only [List.reverse_cons, weightAll_append, weightAll, ih]; omega

/-- Words of one character weigh as much as there are of them. -/
theorem weightAll_characters (cs : List Char) :
    weightAll (cs.map fun c => word (String.singleton c)) = cs.length := by
  induction cs with
  | nil => rfl
  | cons c cs ih => simp only [List.map_cons, weightAll, ih, List.length_cons, weight]; simp; omega

/-- The members of a phrase weigh no more than the phrase. -/
theorem weightAll_parts_le (p : Phrase) : weightAll p.parts ≤ p.weight := by
  cases p with
  | leaf s =>
    simp only [parts, weightAll_characters, weight, String.length_toList]
    split <;> omega
  | list ps => simp [parts, weight]

end Phrase

end RelAlg
