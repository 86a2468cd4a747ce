import RelAlg.Proofs.Sql.Run

/-!
# Conditions in SQL

`Predicate.Writes` relates a condition to its SQL form, connective by connective. Both have the same references and are true on
the same rows, and every condition that a text can write has such a form.
-/

namespace RelAlg.Sql.Predicate

variable {α : Type}

/-- The SQL form of a condition, connective by connective. -/
inductive Writes : Condition → Predicate → Prop where
  | operand (text : String) : Writes (.operand text) (.operand text)
  | negation {c : Condition} {p : Predicate} (h : Writes c p) : Writes (.unary .not c) (.negation p)
  | notNull {c : Condition} {p : Predicate} (h : Writes c p) : Writes (.unary .defined c) (.notNull p)
  | binary (op : BinaryOp) {l r : Condition} {p q : Predicate} (hl : Writes l p) (hr : Writes r q) :
      Writes (.binary op.connective l r) (.binary op p q)

/-- The operator in SQL is for the connective that it was made of. -/
theorem connective_of_ofConnective? {k : Connective} {op : BinaryOp} (h : BinaryOp.ofConnective? k = some op) :
    op.connective = k := by
  cases k <;> cases h <;> rfl

/-- What a condition becomes in SQL writes it. -/
theorem writes_of_ofCondition {c : Condition} {p : Predicate} (h : ofCondition c = .ok p) : Writes c p := by
  induction c generalizing p with
  | operand text => cases h; exact .operand text
  | unary op child ih =>
    cases hc : ofCondition child with
    | error e => cases op <;> simp only [ofCondition, hc] at h <;> cases h
    | ok q =>
      cases op <;> simp only [ofCondition, hc] at h <;> cases h
      · exact .negation (ih hc)
      · exact .notNull (ih hc)
  | binary op left right ihl ihr =>
    unfold ofCondition at h
    split at h
    · rename_i o ho
      cases hl : ofCondition left with
      | error e => rw [hl] at h; cases h
      | ok l =>
        cases hr : ofCondition right with
        | error e => rw [hl, hr] at h; cases h
        | ok r =>
          rw [hl, hr] at h
          cases h
          rw [← connective_of_ofConnective? ho]
          exact .binary o (ihl hl) (ihr hr)
    · cases h

/-- A condition in SQL has the value of the condition that it writes. -/
theorem Writes.cell_eq {c : Condition} {p : Predicate} (h : Writes c p) (v : Values α) (look : String → Option α) :
    p.cell v look = c.cell v look := by
  cases h <;> rfl

/-- A condition in SQL has the references of the condition that it writes. -/
theorem Writes.references_eq {c : Condition} {p : Predicate} (h : Writes c p) : p.references = c.references := by
  induction h with
  | operand text => rfl
  | negation _ ih => exact ih
  | notNull _ ih => exact ih
  | binary op _ _ ihl ihr => rw [references, Condition.references, ihl, ihr]

/-- A condition and its SQL form are true on the same rows. -/
theorem Writes.truth_eq {c : Condition} {p : Predicate} (h : Writes c p) (v : Values α) (look : String → Option α) :
    p.truth v look = c.truth v look := by
  induction h with
  | operand text => rfl
  | negation _ ih => rw [truth, Condition.truth, ih]
  | notNull h _ => rw [truth, Condition.truth, h.cell_eq v look]
  | binary op hl hr ihl ihr =>
    cases op <;> simp only [truth, BinaryOp.connective, Condition.truth, ihl, ihr, hl.cell_eq v look, hr.cell_eq v look]

/-- A condition as texts write it has an SQL form. -/
theorem exists_ofCondition {c : Condition} (h : c.IsWritten) : ∃ p, ofCondition c = .ok p := by
  induction h with
  | @compare op left right ho _ _ => cases op <;> first | exact ⟨_, rfl⟩ | cases ho
  | defined _ => exact ⟨_, rfl⟩
  | negate _ ih =>
    obtain ⟨p, hp⟩ := ih
    exact ⟨.negation p, by simp only [ofCondition, hp]; rfl⟩
  | link ho _ _ ihl ihr =>
    obtain ⟨l, hl⟩ := ihl
    obtain ⟨r, hr⟩ := ihr
    rcases ho with rfl | rfl
    · exact ⟨.binary .and l r, by simp only [ofCondition, BinaryOp.ofConnective?, hl, hr]; rfl⟩
    · exact ⟨.binary .or l r, by simp only [ofCondition, BinaryOp.ofConnective?, hl, hr]; rfl⟩

end RelAlg.Sql.Predicate
