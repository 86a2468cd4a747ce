import RelAlg.Proofs.Reader.Operator

/-!
# Expressions that are read

`Term.Writes` says which lexemes write a term in the extended language. Operators with one operand bind tightest, then come
the joins, then the intersection, then union and difference; operators of one rank group to the left, and parentheses may
stand around any part. Whatever lexemes write a term, reading them gives an expression that stands for it
(`Expression.readTo_of_writes`): the flat chain of each rank is read operand by operand, and the reader stops where no
operator of its rank follows.
-/

namespace RelAlg

open Surface Reader Cursor

/-- The lexemes write the term. Outside parentheses there are, at rank 0, no operators with two operands; at rank 1, joins;
at rank 2, intersections too; at rank 3, all of them. -/
inductive Term.Writes : Nat → Term → List Lexeme → Prop where
  | relation {name : String} {w : Lexeme} (h : w.Names name) : Writes 0 (.relation name) [w]
  | unary {f : Term → Term} {t : Term} {us ws : List Lexeme} (hf : UnaryWrites f us) (h : Writes 0 t ws) :
      Writes 0 (f t) (us ++ ws)
  | parens {t : Term} {ws : List Lexeme} (h : Writes 3 t ws) : Writes 0 t (.mark '(' rfl :: (ws ++ [.mark ')' rfl]))
  | binary {k : Nat} {f : Term → Term → Term} {t u : Term} {ls os rs : List Lexeme} (hl : Writes (k + 1) t ls)
      (hf : BinaryWrites k f os) (hr : Writes k u rs) : Writes (k + 1) (f t u) (ls ++ (os ++ rs))
  | loose {k : Nat} {t : Term} {ws : List Lexeme} (h : Writes k t ws) : Writes (k + 1) t ws

theorem Term.UnaryWrites.exists_cons {f : Term → Term} {us : List Lexeme} (h : UnaryWrites f us) :
    ∃ w ws, us = w :: ws := by
  cases h <;> exact ⟨_, _, rfl⟩

theorem Term.BinaryWrites.exists_cons {k : Nat} {f : Term → Term → Term} {us : List Lexeme} (h : BinaryWrites k f us) :
    ∃ w ws, us = w :: ws := by
  cases h <;> exact ⟨_, _, rfl⟩

namespace Surface.Expression

/-! ## Chains -/

/-- The reader of the expressions of a rank. -/
def rankReader (tight : Reader Expression) : Nat → Reader Expression
  | 0 => tight
  | k + 1 => chained (rankReader tight k) (BinaryOp.rankReader k)

/-- Expressions of any rank are those of the last one. -/
theorem chainedReader_eq (tight : Reader Expression) : chainedReader .extended .standard tight = rankReader tight 3 := rfl

/-- An operator of a rank and the operand after it. -/
def linkPart (tight : Reader Expression) (k : Nat) : Reader (BinaryOp × Expression) := do
  let o ← BinaryOp.rankReader k
  let e ← rankReader tight k
  pure (o, e)

/-- The term is read from the first place to the second: at rank 0 as one expression, at a higher rank as operands of the
rank below with operators between them. -/
def ReadTo (tight : Reader Expression) (c c' : Cursor) : Nat → Term → Prop
  | 0, t => ∃ e, tight c = some (e, c') ∧ e.Denotes .extended t
  | k + 1, t => ∃ first links u d, rankReader tight k c = some (first, d) ∧ first.Denotes .extended u ∧
      Runs (linkPart tight k) d links c' ∧ Links.Denotes .extended u (Links.ofList links) t

/-- A chain is read up to the place where no operator of its rank follows. -/
theorem ReadTo.rankReader {tight : Reader Expression} {k : Nat} {t : Term} {c c' : Cursor} (h : ReadTo tight c c' k t)
    (hr : ∀ j, j < k → BinaryOp.rankReader j c' = none) :
    ∃ e, rankReader tight k c = some (e, c') ∧ e.Denotes .extended t := by
  cases k with
  | zero => exact h
  | succ k =>
    obtain ⟨first, links, u, d, hf, hu, hruns, hl⟩ := h
    have hmany := many_of_runs hruns (bind_of_none (hr k (Nat.lt_succ_self k)))
    cases links with
    | nil =>
      cases hl
      exact ⟨first, (bind_of_some hf).trans (bind_of_some hmany), hu⟩
    | cons link links => exact ⟨_, (bind_of_some hf).trans (bind_of_some hmany), .chain hu hl⟩

/-- Links that stand for terms one after another stand for the last. -/
theorem denotes_append {t u v : Term} {links more : List (BinaryOp × Expression)}
    (h : Links.Denotes .extended t (Links.ofList links) u) (hm : Links.Denotes .extended u (Links.ofList more) v) :
    Links.Denotes .extended t (Links.ofList (links ++ more)) v := by
  induction links generalizing t with
  | nil => cases h; exact hm
  | cons link links ih =>
    cases h with
    | cons ho he hr => exact .cons ho he (ih hr)

/-- A chain goes on with one operator and one operand. -/
theorem ReadTo.snoc {tight : Reader Expression} {k : Nat} {f : Term → Term → Term} {t u : Term} {os : List Lexeme}
    {e : Expression} {c d d' c' : Cursor} (h : ReadTo tight c d (k + 1) t) (hf : Term.BinaryWrites k f os)
    (hp : Passes os d d') (he : Expression.rankReader tight k d' = some (e, c')) (hd : e.Denotes .extended u)
    (hlen : c'.rest.length ≤ d'.rest.length) : ReadTo tight c c' (k + 1) (f t u) := by
  obtain ⟨first, links, v, m, hm, hv, hruns, hl⟩ := h
  obtain ⟨op, hop, ho⟩ := BinaryOp.rankReader_of_writes hf hp
  have hlt : d'.rest.length < d.rest.length := by
    obtain ⟨w, ws, rfl⟩ := hf.exists_cons
    obtain ⟨m, h₁, h₂⟩ := Passes.cons_iff.mp hp
    exact Nat.lt_of_le_of_lt h₂.length_le h₁.length_lt
  have hpart : linkPart tight k d = some ((op, e), c') := (bind_of_some hop).trans (bind_of_some he)
  exact ⟨first, links ++ [(op, e)], v, m, hm, hv, hruns.append (.cons hpart (by omega) (.nil c')),
    denotes_append hl (.cons ho hd (.nil _))⟩

/-! ## Expressions -/

/-- The step of the reader of expressions that no operator with two operands divides. -/
def tightStep (level : Level) (tight : Reader Expression) : Reader Expression :=
  (do
    let op ← UnaryOp.reader level .standard
    let operand ← tight
    pure (unary op operand))
  <|> relationReader <|> parenthesized .standard (chainedReader level .standard tight)

theorem tightReader_eq (level : Level) : tightReader level .standard = recursive (tightStep level) := rfl

/-- A relation name is read. -/
theorem tightStep_relation {level : Level} {tight : Reader Expression} {name : String} {c c' : Cursor}
    (h : Reader.name c = some (name, c')) : tightStep level tight c = some (relation name, c') := by
  obtain ⟨word, hw, hc, -⟩ := exists_of_name h
  obtain ⟨x, xs, rfl, hx, -⟩ := exists_cons_of_isIdentifier hw
  have hunary : UnaryOp.reader level .standard c = none := by
    refine unaryReader_eq_none ?_
    rw [hc]
    rintro ⟨⟩
    cases hx
  exact (orElse_of_none (bind_of_none hunary)).trans (orElse_of_some (bind_of_some h))

/-- An expression between parentheses is read. -/
theorem tightStep_parens {level : Level} {tight : Reader Expression} {e : Expression} {u v : Unit} {c d d' c' : Cursor}
    (h₁ : markReader .standard .parenLeft c = some (u, d)) (h₂ : chainedReader level .standard tight d = some (e, d'))
    (h₃ : markReader .standard .parenRight d' = some (v, c')) : tightStep level tight c = some (e, c') := by
  have hc : c.ahead = '(' :: d.rest := ahead_of_mark h₁
  have hunary : UnaryOp.reader level .standard c = none := unaryReader_eq_none (by rw [hc]; simp)
  have hname : Reader.name c = none := name_eq_none (by rw [hc]; rfl)
  refine (orElse_of_none (bind_of_none hunary)).trans ((orElse_of_none (bind_of_none hname)).trans ?_)
  exact (bind_of_some h₁).trans ((bind_of_some h₂).trans (bind_of_some h₃))

/-- Whatever lexemes write a term, it is read off them if no operator follows that would make a chain of a tighter rank
longer. -/
theorem readTo_of_writes {k : Nat} {t : Term} {ws : List Lexeme} (h : Term.Writes k t ws) {tight : Reader Expression}
    {c c' : Cursor} (ht : AgreesFrom tight (tightReader .extended .standard) c) (hp : Passes ws c c')
    (hr : ∀ j, j + 1 < k → BinaryOp.rankReader j c' = none) : ReadTo tight c c' k t := by
  induction h generalizing tight c c' with
  | relation hw =>
    obtain ⟨d, h₁, hp⟩ := Passes.cons_iff.mp hp
    cases hp
    refine ⟨_, ?_, .relation _⟩
    rw [ht.here, tightReader_eq, recursive_apply]
    exact tightStep_relation (hw.name h₁)
  | @unary f t us ws hf h ih =>
    obtain ⟨d, h₁, h₂⟩ := Passes.append.mp hp
    obtain ⟨op, hop, ho⟩ := hf.reader h₁
    have hlater : AgreesFrom (later (tightStep .extended) c) (recursive (tightStep .extended)) d := by
      obtain ⟨w, us, rfl⟩ := hf.exists_cons
      obtain ⟨m, hm, h₁⟩ := Passes.cons_iff.mp h₁
      exact (agreesFrom_later (tightStep .extended) hm).of_passes h₁
    obtain ⟨e, he, hd⟩ := ih hlater h₂ hr
    refine ⟨_, ?_, .unary ho hd⟩
    rw [ht.here, tightReader_eq, recursive_apply]
    exact orElse_of_some ((bind_of_some hop).trans (bind_of_some he))
  | parens h ih =>
    obtain ⟨d, h₁, hp⟩ := Passes.cons_iff.mp hp
    obtain ⟨m, h₂, hp⟩ := Passes.append.mp hp
    obtain ⟨f, h₃, hp⟩ := Passes.cons_iff.mp hp
    cases hp
    have hstop : ∀ j, BinaryOp.rankReader j m = none :=
      fun j => BinaryOp.rankReader_of_head j (by rw [h₃.ahead]; simp [Lexeme.chars, Lexeme.mark])
    obtain ⟨e, he, hd⟩ := (ih (agreesFrom_later (tightStep .extended) h₁) h₂ fun j _ => hstop j).rankReader fun j _ => hstop j
    refine ⟨e, ?_, hd⟩
    rw [ht.here, tightReader_eq, recursive_apply]
    rw [← chainedReader_eq] at he
    exact tightStep_parens (markReader_of_past h₁ rfl) he (markReader_of_past h₃ rfl)
  | @binary k f t u ls os rs hl hf hr' ihl ihr =>
    obtain ⟨d, h₁, hp⟩ := Passes.append.mp hp
    obtain ⟨m, h₂, h₃⟩ := Passes.append.mp hp
    -- the operator ends the chain before it at every tighter rank, and what follows ends its right operand
    have hleft := ihl ht h₁ fun j hj => BinaryOp.rankReader_of_lt hf (Nat.lt_of_succ_lt_succ hj) h₂
    have htm := (ht.of_passes h₁).of_passes h₂
    obtain ⟨e, he, hd⟩ :=
      (ihr htm h₃ fun j hj => hr j (Nat.lt_succ_of_lt hj)).rankReader fun j hj => hr j (Nat.succ_lt_succ hj)
    exact hleft.snoc hf h₂ he hd h₃.length_le
  | @loose k t ws h ih =>
    obtain ⟨e, he, hd⟩ :=
      (ih ht hp fun j hj => hr j (Nat.lt_succ_of_lt hj)).rankReader fun j hj => hr j (Nat.succ_lt_succ hj)
    exact ⟨e, [], t, c', he, hd, .nil c', .nil t⟩

/-- Whatever lexemes write a term, reading them up to a mark gives an expression that stands for it. -/
theorem reader_of_writes {t : Term} {ws : List Lexeme} (h : t.Writes 3 ws) {w : Lexeme} {c c' d : Cursor}
    (hp : Passes ws c c') (hw : Past w c' d) (hm : isMark w.first = true) :
    ∃ e, Expression.reader .extended .standard c = some (e, c') ∧ e.Denotes .extended t := by
  have hstop : ∀ j, BinaryOp.rankReader j c' = none := by
    refine fun j => BinaryOp.rankReader_of_head j ?_
    rw [hw.ahead]
    intro he
    rw [show w.first = '\\' from Option.some.inj he] at hm
    cases hm
  rw [Expression.reader, chainedReader_eq]
  exact (readTo_of_writes h (.refl _ c) hp fun j _ => hstop j).rankReader fun j _ => hstop j

/-- No expression is read where nothing is ahead. -/
theorem reader_of_end {level : Level} {c : Cursor} (hc : c.ahead = []) : Expression.reader level .standard c = none := by
  have hunary : UnaryOp.reader level .standard c = none := unaryReader_eq_none (by rw [hc]; simp)
  have hname : Reader.name c = none := name_eq_none (by rw [hc]; rfl)
  have hpar : markReader .standard .parenLeft c = none := markReader_eq_none rfl (by rw [hc]; simp)
  have htight : tightReader level .standard c = none := by
    rw [tightReader_eq, recursive_apply]
    exact (orElse_of_none (bind_of_none hunary)).trans
      ((orElse_of_none (bind_of_none hname)).trans (bind_of_none hpar))
  unfold Expression.reader chainedReader
  split
  · exact bind_of_none (bind_of_none (bind_of_none htight))
  · exact bind_of_none (bind_of_none htight)

end Surface.Expression

end RelAlg
