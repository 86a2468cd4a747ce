import RelAlg.Foreign

/-!
# Listings

A dependency keeps the names it was given, of attributes or of relations, as a word or a list, without a check that there are
such names. A list that was read off a text or off words is known by a mark, and it is the same only as itself.
-/

namespace RelAlg

/-- The names that a dependency was given, as a word or a list. A list that was read has a mark of its own. -/
structure Listing where
  phrase : Phrase
  mark : Option Nat
  deriving DecidableEq, Repr

namespace Listing

/-- Names as a caller hands them in. -/
def handed (phrase : Phrase) : Listing := ⟨phrase, none⟩

/-- The single names; of a word, its characters. -/
def items (l : Listing) : List Phrase := l.phrase.parts

/-- Listings are the same if they are equal; a list that was read is the same only as itself. -/
def same (l m : Listing) : Bool :=
  match l.mark, m.mark with
  | none, none => l.phrase = m.phrase
  | some i, some j => i = j
  | _, _ => false

/-- The kind of value that the names are, which is never an attribute list. -/
def kind (l : Listing) : Foreign :=
  match l.phrase, l.mark with
  | .leaf _, _ => .text
  | .list _, none => .list
  | .list _, some _ => .reading

end Listing

end RelAlg
