/-!
# Settings

A configuration sets a key to a text, and may set it to something else: nothing, a number, a truth value, a list or an object.
Only a text spells a symbol. Of a list it is known which of its items are texts, and of an object its keys.
-/

namespace RelAlg

/-- What a configuration sets a key to. -/
inductive Setting where
  | text (text : String)
  | nothing
  | number (isZero : Bool)
  | truth (value : Bool)
  | list (items : List (Option String))
  | object (keys : List String)
  deriving DecidableEq, Repr

namespace Setting

/-- The characters of a text; anything else has none. -/
def letters : Setting → String
  | text s => s
  | _ => ""

/-- The setting is a text. -/
def isText : Setting → Bool
  | text _ => true
  | _ => false

/-- The setting has nothing in it: no character, no item, or a value that counts as none. -/
def isEmpty : Setting → Bool
  | text s => s.isEmpty
  | nothing => true
  | number isZero => isZero
  | truth value => !value
  | list items => items.isEmpty
  | object keys => keys.isEmpty

/-- The setting is a single value, by which something can be looked up. -/
def isSingle : Setting → Bool
  | list _ | object _ => false
  | _ => true

/-- How many characters, items or keys there are; a value that is none of these has no size. -/
def size? : Setting → Option Nat
  | text s => some s.length
  | list items => some items.length
  | object keys => some keys.length
  | nothing | number _ | truth _ => none

/-- The members of a setting: characters, items or keys. An item that is no text is left open. -/
def members? : Setting → Option (List (Option String))
  | text s => some (s.toList.map fun c => some (String.singleton c))
  | list items => some items
  | object keys => some (keys.map some)
  | nothing | number _ | truth _ => none

end Setting

end RelAlg
