/-!
# Readers

A `Cursor` is a place in a text, and a `Reader` takes a value off the text at the cursor or refuses. Readers are put
together in sequence, by ordered choice (`<|>`), by longest match (`longest`) and by repetition (`many`). A part that has
been read is never given back: a sequence fails when one of its parts fails.
-/

namespace RelAlg

/-- A place in a text: the character just before it, the characters still to come, and how far it is from the start. A
reader may step past the end of the text; then there is nothing to come and the distance still grows. -/
structure Cursor where
  before : Option Char
  rest : List Char
  offset : Nat
  deriving DecidableEq, Repr

namespace Cursor

/-- The start of a text. -/
def start (text : List Char) : Cursor := ⟨none, text, 0⟩

/-- The place `n` characters on. -/
def advance : Nat → Cursor → Cursor
  | 0, c => c
  | n + 1, ⟨b, [], k⟩ => ⟨b, [], k + (n + 1)⟩
  | n + 1, ⟨_, x :: xs, k⟩ => advance n ⟨some x, xs, k + 1⟩

@[simp] theorem rest_advance (n : Nat) (c : Cursor) : (c.advance n).rest = c.rest.drop n := by
  induction n generalizing c with
  | zero => rfl
  | succ n ih =>
    obtain ⟨b, rest, k⟩ := c
    cases rest with
    | nil => rfl
    | cons x xs => exact ih ⟨some x, xs, k + 1⟩

@[simp] theorem offset_advance (n : Nat) (c : Cursor) : (c.advance n).offset = c.offset + n := by
  induction n generalizing c with
  | zero => rfl
  | succ n ih =>
    obtain ⟨b, rest, k⟩ := c
    cases rest with
    | nil => rfl
    | cons x xs =>
      have h := ih ⟨some x, xs, k + 1⟩
      simp only [advance, h]
      omega

end Cursor

/-- Takes a value off the text at the cursor, or refuses. -/
def Reader (α : Type) : Type := Cursor → Option (α × Cursor)

namespace Reader

variable {α β : Type}

/-- Read nothing. -/
protected def pure (a : α) : Reader α := fun c => some (a, c)

/-- Read one part after another. -/
protected def bind (p : Reader α) (f : α → Reader β) : Reader β := fun c =>
  match p c with
  | some (a, c') => f a c'
  | none => none

/-- Read by the first of two readers, or by the second where the first refuses. -/
protected def orElse (p : Reader α) (q : Unit → Reader α) : Reader α := fun c =>
  match p c with
  | some r => some r
  | none => q () c

/-- Refuse every text. -/
protected def failure : Reader α := fun _ => none

instance : Monad Reader where
  pure := Reader.pure
  bind := Reader.bind

instance : Alternative Reader where
  failure := Reader.failure
  orElse := Reader.orElse

/-- Read by the reader that gets further, by the first where both get equally far. -/
def longest (p q : Reader α) : Reader α := fun c =>
  match p c, q c with
  | some (a, c₁), some (b, c₂) => if c₁.offset < c₂.offset then some (b, c₂) else some (a, c₁)
  | some r, none => some r
  | none, r => r

/-- Read by the reader that gets furthest, by the earliest where several get equally far. -/
def longestOf : List (Reader α) → Reader α
  | [] => Reader.failure
  | [p] => p
  | p :: ps => p.longest (longestOf ps)

/-- Read by the first reader of the list that does not refuse. -/
def firstOf : List (Reader α) → Reader α
  | [] => Reader.failure
  | p :: ps => p <|> firstOf ps

/-- Read the part if it is there. -/
def opt (p : Reader α) : Reader (Option α) := (do let a ← p; pure (some a)) <|> pure none

/-- Read the part up to `n` times, as often as it is there. -/
def upTo (p : Reader α) : Nat → Reader (List α)
  | 0 => pure []
  | n + 1 => do
    match ← p.opt with
    | some a => do let as ← upTo p n; pure (a :: as)
    | none => pure []

/-- Read the part as often as it is there. A part takes up at least one character, so the characters that are left bound
their number. -/
def many (p : Reader α) : Reader (List α) := fun c => p.upTo c.rest.length c

/-- Read items with a separator between two; a separator is taken only if an item follows it. -/
def separated (item : Reader α) (separator : Reader Unit) : Reader (List α) := do
  let first ← item
  let others ← many (do separator; item)
  pure (first :: others)

/-- The value read at the start of a text, whatever follows it. -/
def readStart (p : Reader α) (text : List Char) : Option α := (p (Cursor.start text)).map (·.1)

/-! ## How the parts behave -/

@[simp] theorem pure_apply (a : α) (c : Cursor) : (pure a : Reader α) c = some (a, c) := rfl

theorem bind_apply (p : Reader α) (f : α → Reader β) (c : Cursor) :
    (p >>= f) c = match p c with
      | some (a, c') => f a c'
      | none => none := rfl

theorem orElse_apply (p q : Reader α) (c : Cursor) : (p <|> q) c = (p c).or (q c) := by
  show Reader.orElse p (fun _ => q) c = _
  unfold Reader.orElse
  cases p c <;> rfl

@[simp] theorem failure_apply (c : Cursor) : (failure : Reader α) c = none := rfl

end Reader

end RelAlg
