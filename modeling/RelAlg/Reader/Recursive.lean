import RelAlg.Reader.Basic

/-!
# Readers that use themselves

`Reader.recursive step` is the reader that `step` makes of itself, where it may be used at later places of the text only.
What it finds at a place is kept, so that no place is read twice. `recursive_apply` unfolds it by one step, and
`later_advance` says that the reader which the step is given is the recursive one at every later place.

Nesting is not bounded here. An interpreter whose recursion has a limit fails on a text that is nested more deeply than the
limit allows, and what is proved of the readers says nothing of that failure.
-/

namespace RelAlg

/-- What a reader finds at a place of a text and at all later ones, each found when it is first asked for. -/
inductive Findings (β : Type) where
  | done
  | next (here : Thunk β) (later : Thunk (Findings β))

namespace Findings

variable {β : Type}

/-- What is found `n` places on. -/
def get? : Nat → Findings β → Option β
  | _, done => none
  | 0, next here _ => some here.get
  | n + 1, next _ later => get? n later.get

end Findings

namespace Reader

variable {α : Type}

/-- The reader that looks up what is found from the place at a given distance from the start on. -/
def ofFindings (start : Nat) (found : Thunk (Findings (Option (α × Cursor)))) : Reader α := fun c =>
  if start ≤ c.offset then (found.get.get? (c.offset - start)).join else none

/-- What the reader that a step makes of itself finds at a place and at all later ones. -/
def findings (step : Reader α → Reader α) : Option Char → List Char → Nat → Findings (Option (α × Cursor))
  | before, [], offset => .next ⟨fun _ => step Reader.failure ⟨before, [], offset⟩⟩ ⟨fun _ => .done⟩
  | before, x :: rest, offset =>
    let later : Thunk (Findings (Option (α × Cursor))) := ⟨fun _ => findings step (some x) rest (offset + 1)⟩
    .next ⟨fun _ => step (ofFindings (offset + 1) later) ⟨before, x :: rest, offset⟩⟩ later

/-- The reader that a step makes of itself. The step may use it at later places only; at the same place it refuses. -/
def recursive (step : Reader α → Reader α) : Reader α := fun c =>
  ((findings step c.before c.rest c.offset).get? 0).join

/-- The recursive reader as the step is given it at a place. -/
def later (step : Reader α → Reader α) (c : Cursor) : Reader α :=
  match c.rest with
  | [] => Reader.failure
  | x :: rest => ofFindings (c.offset + 1) ⟨fun _ => findings step (some x) rest (c.offset + 1)⟩

/-- A recursive reader does what its step does with the recursive reader at later places. -/
theorem recursive_apply (step : Reader α → Reader α) (c : Cursor) : recursive step c = step (later step c) c := by
  obtain ⟨before, rest, offset⟩ := c
  cases rest <;> rfl

/-- What is found `n` places on is what the recursive reader finds there. -/
theorem get?_findings (step : Reader α → Reader α) (n : Nat) (c : Cursor) (h : n ≤ c.rest.length) :
    (findings step c.before c.rest c.offset).get? n = some (recursive step (c.advance n)) := by
  induction n generalizing c with
  | zero =>
    obtain ⟨before, rest, offset⟩ := c
    cases rest <;> rfl
  | succ n ih =>
    obtain ⟨before, rest, offset⟩ := c
    cases rest with
    | nil => simp at h
    | cons x rest => exact ih ⟨some x, rest, offset + 1⟩ (by simpa using h)

/-- At every later place the step is given the recursive reader itself. -/
theorem later_advance (step : Reader α → Reader α) (c : Cursor) (n : Nat) (hn : 0 < n) (h : n ≤ c.rest.length) :
    later step c (c.advance n) = recursive step (c.advance n) := by
  obtain ⟨before, rest, offset⟩ := c
  cases rest with
  | nil => simp at h; omega
  | cons x rest =>
    obtain ⟨m, rfl⟩ : ∃ m, n = m + 1 := ⟨n - 1, by omega⟩
    have hm : m ≤ rest.length := by simpa using h
    have hf := get?_findings step m ⟨some x, rest, offset + 1⟩ hm
    have ho : (Cursor.advance (m + 1) ⟨before, x :: rest, offset⟩).offset - (offset + 1) = m := by
      rw [Cursor.offset_advance]; simp only []; omega
    have hl : offset + 1 ≤ (Cursor.advance (m + 1) ⟨before, x :: rest, offset⟩).offset := by
      rw [Cursor.offset_advance]; simp only []; omega
    show (if offset + 1 ≤ (Cursor.advance (m + 1) ⟨before, x :: rest, offset⟩).offset then
      ((findings step (some x) rest (offset + 1)).get?
        ((Cursor.advance (m + 1) ⟨before, x :: rest, offset⟩).offset - (offset + 1))).join else none) = _
    rw [if_pos hl, ho, hf]
    rfl

end Reader

end RelAlg
