import RelAlg.Proofs.Outcome
import RelAlg.Proofs.Reader.Append
import RelAlg.Proofs.Reader.Found

/-!
# Larger languages

Each level of the language reads what the smaller ones read, and reads it in the same way (`Surface.parse_of_includes`). The
readers of a larger level have more to choose from, and a part that is read is never given back; so what has to be shown is
that nothing new is found where something was found before. A comparison is no negation of a clause, two operators never start
at one place, and an operator that the larger level adds never follows where the smaller one was done: there a mark is ahead.
-/

namespace RelAlg

open Cursor Reader Surface

/-! ## What another reader reads too -/

/-- What the first reader takes off a text of at most `n` characters, up to a place of the given kind, the second takes off
it too. -/
def Reader.Kept {α : Type} (n : Nat) (stop : Cursor → Prop) (p q : Reader α) : Prop :=
  ∀ c a c', c.rest.length ≤ n → p c = some (a, c') → stop c' → q c = some (a, c')

/-- Nothing is ahead, or a mark. -/
def Cursor.AtMark (c : Cursor) : Prop := c.ahead.head?.all isMark = true

/-- Where a mark was read, a mark is ahead. -/
theorem Cursor.atMark_of_mark {s : Symbol} {u : Unit} {c c' : Cursor} (h : markReader .standard s c = some (u, c'))
    (hs : (Lexicon.usual s).toList.head?.any isMark = true) : c.AtMark := by
  rw [AtMark, ahead_of_mark h, List.head?_append]
  cases hh : (Lexicon.usual s).toList.head? with
  | none =>
    rw [hh] at hs
    cases hs
  | some x =>
    rw [hh] at hs
    exact hs

/-- Where a mark is ahead, no operator is. -/
theorem Cursor.AtMark.head_ne {c : Cursor} (h : c.AtMark) : c.ahead.head? ≠ some '\\' := by
  intro he
  rw [AtMark, he] at h
  cases h

/-- A place that is beyond another one is not before it. -/
theorem Cursor.Beyond.offset_le {k : Nat} {c d : Cursor} (h : c.Beyond k d) : c.offset ≤ d.offset := by
  obtain ⟨n, rfl⟩ := h.1
  rw [offset_advance]
  exact Nat.le_add_right _ _

/-! ## Conditions -/

namespace Surface.Clause

variable {a b : Level}

/-- Levels that both have the tests whether an operand is defined, or both do not, have the same conditions. -/
theorem reader_congr (h : a.includes .extended = b.includes .extended) : reader a .standard = reader b .standard := by
  unfold reader tightReader simple
  rw [h]

/-- A connective and a clause take at least one character. -/
theorem advances_linkPart {level : Level} : Advances (linkPart (tightReader level .standard)) :=
  Follows.advances (φ := fun _ _ => True) (Q := fun _ _ _ => True) <| (Frame.same.linker []).bind fun _ _ _ =>
    (Frame.same.tightClause []).bind fun _ _ _ => .pure trivial fun _ _ _ => trivial

/-- Clauses with linking operators between them are kept up to a mark if the clauses are. -/
theorem kept_linked {n : Nat} (ht : Kept n (fun _ => True) (tightReader a .standard) (tightReader b .standard)) :
    Kept n AtMark (linkedReader .standard (tightReader a .standard)) (linkedReader .standard (tightReader b .standard)) := by
  intro c clause c' hn h hstop
  obtain ⟨first, d, hf, h⟩ := bind_eq_some h
  obtain ⟨others, e, ho, h⟩ := bind_eq_some h
  cases h
  have hd := (Frame.same.tightClause.advances c first d hf).2
  have hruns : Runs (linkPart (tightReader b .standard)) d others c' := by
    refine (runs_of_many advances_linkPart ho).mono fun e link e' he hlink => ?_
    obtain ⟨op, m, hop, hlink⟩ := bind_eq_some hlink
    obtain ⟨next, m', hnext, hlink⟩ := bind_eq_some hlink
    cases hlink
    have hm := (Frame.same.linker.advances e op m hop).2
    exact (bind_of_some hop).trans (bind_of_some (ht m next e' (by omega) hnext trivial))
  have hend : linkPart (tightReader b .standard) c' = none := bind_of_none (linker_eq_none hstop)
  exact (bind_of_some (ht c first d hn hf trivial)).trans (bind_of_some (many_of_runs hruns hend))

/-- Where a comparison is read no negation of a clause is. -/
theorem negated_of_comparison {level : Level} {r : Clause × Cursor} {c : Cursor} (h : comparison .standard c = some r) :
    (do
      let op ← negation .standard
      let body ← tightReader level .standard
      pure (negate op body) : Reader Clause) c = none := by
  obtain ⟨x, d, hx, h⟩ := bind_eq_some h
  obtain ⟨o, e, ho, -⟩ := bind_eq_some h
  cases hn : negation .standard c with
  | none => exact bind_of_none hn
  | some r => exact (bind_of_some hn).trans (bind_of_none (tightReader_of_comparison hn hx ho).2)

/-- One step keeps the clauses of the core language. -/
theorem kept_step {n : Nat} (ih : Kept n (fun _ => True) (tightReader .core .standard) (tightReader .extended .standard)) :
    Kept (n + 1) (fun _ => True) (tightReader .core .standard) (tightReader .extended .standard) := by
  intro c clause c' hn h _
  rw [tightReader_step] at h ⊢
  rcases orElse_eq_some h with h | ⟨-, h⟩
  · obtain ⟨op, d, hop, h⟩ := bind_eq_some h
    obtain ⟨body, d', hbody, h⟩ := bind_eq_some h
    cases h
    have hd := ((Frame.same.word .not (by decide)).advances c op d hop).2
    exact orElse_of_some ((bind_of_some hop).trans (bind_of_some (ih d body c' (by omega) hbody trivial)))
  · rcases orElse_eq_some h with h | ⟨-, h⟩
    · have hcomp : comparison .standard c = some (clause, c') := h
      exact (orElse_of_none (negated_of_comparison hcomp)).trans (orElse_of_some (simple_of_comparison hcomp))
    · obtain ⟨u, d, h₁, h⟩ := bind_eq_some h
      obtain ⟨x, e, h₂, h⟩ := bind_eq_some h
      obtain ⟨v, e', h₃, h⟩ := bind_eq_some h
      cases h
      have hd := ((Frame.same.mark .parenLeft (by decide)).advances c u d h₁).2
      exact tightStep_parens h₁ (kept_linked ih d clause e (by omega) h₂ (atMark_of_mark h₃ (by decide))) h₃

/-- The extended language keeps the conditions of the core language. -/
theorem kept_reader (n : Nat) : Kept n AtMark (reader .core .standard) (reader .extended .standard) := by
  refine kept_linked ?_
  induction n with
  | zero =>
    intro c clause c' hn h _
    have := (Frame.same.tightClause.advances c clause c' h).2
    omega
  | succ n ih => exact kept_step ih

end Surface.Clause

/-! ## Operators -/

/-- Parameters are kept if they are up to a mark. -/
theorem kept_parametrized {α : Type} {s : Symbol} {p q : Reader α} (h : ∀ n, Kept n AtMark p q) {c : Cursor}
    {r : (String × α) × Cursor} (hr : UnaryOp.parametrized .standard s p c = some r) :
    UnaryOp.parametrized .standard s q c = some r := by
  obtain ⟨op, d, hop, hr⟩ := bind_eq_some hr
  obtain ⟨x, d', hx, hr⟩ := bind_eq_some hr
  obtain ⟨u, e, hu, hx⟩ := bind_eq_some hx
  obtain ⟨y, e', hy, hx⟩ := bind_eq_some hx
  obtain ⟨v, e'', hv, hx⟩ := bind_eq_some hx
  cases hx
  have hq := h _ e x e' (Nat.le_refl _) hy (atMark_of_mark hv (by decide))
  have hparams : parameters .standard q d = some (x, d') := (bind_of_some hu).trans ((bind_of_some hq).trans (bind_of_some hv))
  exact (bind_of_some hop).trans ((bind_of_some hparams).trans hr)

namespace Surface.UnaryOp

/-- The extended language keeps the operators with one operand of the core language. -/
theorem reader_kept {c : Cursor} {r : UnaryOp × Cursor} (h : reader .core .standard c = some r) :
    reader .extended .standard c = some r := by
  rcases orElse_eq_some h with h | ⟨hp, h⟩
  · exact orElse_of_some h
  refine (orElse_of_none hp).trans ?_
  rcases orElse_eq_some h with h | ⟨-, h⟩
  · obtain ⟨⟨op, clause⟩, d, hs, h⟩ := bind_eq_some h
    exact orElse_of_some ((bind_of_some (kept_parametrized Clause.kept_reader hs)).trans h)
  · -- a renaming is no selection
    obtain ⟨op, d, hop⟩ : ∃ op d, caselessKeyword false (Lexicon.usual .rename) c = some (op, d) := by
      rcases orElse_eq_some h with h | ⟨-, h⟩
      · obtain ⟨_, _, hr, -⟩ := bind_eq_some h
        obtain ⟨op, d, hop, -⟩ := bind_eq_some hr
        exact ⟨op, d, hop⟩
      · cases h
    have hselect : caselessKeyword false (Lexicon.usual .select) c = none :=
      operator_of_read (t := .rename) (by decide) (by decide) (by decide) hop
    exact (orElse_of_none (bind_of_none (parametrized_eq_none hselect))).trans h

end Surface.UnaryOp

namespace Surface.BinaryOp

variable {a b : Level}

/-- Joins are read alike at levels that both have the extended ones, or both not. -/
theorem joinReader_congr (h : a.includes .extended = b.includes .extended) :
    joinReader a .standard = joinReader b .standard := by
  unfold joinReader thetaReader conditionedReader
  rw [h, Clause.reader_congr h]

/-- No join is read where no backslash is ahead. -/
theorem joinReader_of_head {level : Level} {c : Cursor} (hc : c.ahead.head? ≠ some '\\') :
    joinReader level .standard c = none := by
  cases hl : level.includes .extended with
  | true => exact (congrFun (joinReader_congr (b := .extended) hl) c).trans (rankReader_of_head 0 hc)
  | false =>
    rw [joinReader_congr (b := .core) hl]
    exact bind_of_none (operator_of_head (s := .join) (by decide) hc)

/-- Where a union or a difference is read no operator of a tighter rank is. -/
theorem rankReader_of_union {c : Cursor} {r : BinaryOp × Cursor} (h : unionReader .standard c = some r) :
    rankReader 0 c = none ∧ rankReader 1 c = none := by
  obtain ⟨s, hs, op, d, hop⟩ : ∃ s, s ∈ [Symbol.union, .difference] ∧
      ∃ op d, caselessKeyword true (Lexicon.usual s) c = some (op, d) := by
    rcases orElse_eq_some h with h | ⟨-, h⟩
    · obtain ⟨op, d, hop, -⟩ := bind_eq_some h
      exact ⟨.union, by decide, op, d, hop⟩
    · obtain ⟨op, d, hop, -⟩ := bind_eq_some h
      exact ⟨.difference, by decide, op, d, hop⟩
  have hall : ∀ s ∈ [Symbol.union, .difference], s ∈ operatorSymbols ∧ .intersect ≠ s ∧ ∀ t ∈ joinSymbols, t ≠ s := by decide
  obtain ⟨hso, hi, hj⟩ := hall s hs
  exact ⟨joinReader_eq_none fun t ht joined => operator_of_read (joinSymbols_subset t ht) hso (hj t ht) hop,
    bind_of_none (operator_of_read (s := .intersect) (by decide) hso hi hop)⟩

end Surface.BinaryOp

/-! ## Expressions -/

namespace Surface.Expression

variable {a b : Level}

/-- Expressions are read alike at levels that both have the extended operators, or both not. -/
theorem reader_congr (h : a.includes .extended = b.includes .extended) : reader a .standard = reader b .standard := by
  unfold reader tightReader chainedReader UnaryOp.reader UnaryOp.selectReader
  rw [h, BinaryOp.joinReader_congr h, Clause.reader_congr h]

/-- Operands with operators between them are kept, if an operator that was read is still read, and only behind an operand
that is kept. -/
theorem kept_chained {n : Nat} {stop stop' : Cursor → Prop} {p q : Reader Expression} {op op' : Reader BinaryOp}
    (hp : Kept n stop p q) (hap : Advances p) (hao : Advances op)
    (ho : ∀ c o d, op c = some (o, d) → stop c ∧ op' c = some (o, d)) (hs : ∀ c, stop' c → stop c ∧ op' c = none) :
    Kept n stop' (chained p op) (chained q op') := by
  have hruns : ∀ {c links c'}, Runs (do let o ← op; let e ← p; pure (o, e)) c links c' → c.rest.length ≤ n → stop' c' →
      stop c ∧ Runs (do let o ← op'; let e ← q; pure (o, e)) c links c' := by
    intro c links c' h
    induction h with
    | nil c => exact fun _ hc => ⟨(hs c hc).1, .nil c⟩
    | @cons link links c d c' h hl _ ih =>
      intro hn hc
      obtain ⟨o, m, hm, h⟩ := bind_eq_some h
      obtain ⟨e, m', he, h⟩ := bind_eq_some h
      cases h
      obtain ⟨hstop, hread⟩ := ho c o m hm
      obtain ⟨hd, hrest⟩ := ih (by omega) hc
      have hlen := (hao c o m hm).2
      exact ⟨hstop, .cons ((bind_of_some hread).trans (bind_of_some (hp m e d (by omega) he hd))) hl hrest⟩
  intro c x c' hn h hstop
  obtain ⟨first, d, hf, h⟩ := bind_eq_some h
  obtain ⟨links, e, hl, h⟩ := bind_eq_some h
  obtain rfl : e = c' := by cases links <;> exact congrArg Prod.snd (Option.some.inj h)
  have hadv : Advances (do let o ← op; let e ← p; pure (o, e) : Reader (BinaryOp × Expression)) := by
    refine hao.bind fun o c r c' hr => ?_
    obtain ⟨e, d, he, hr⟩ := bind_eq_some hr
    cases hr
    exact (hap c e c' he).mono (Nat.zero_le 1)
  have hlen := (hap c first d hf).2
  obtain ⟨hd, hruns'⟩ := hruns (runs_of_many hadv hl) (by omega) hstop
  exact (bind_of_some (hp c first d hn hf hd)).trans
    ((bind_of_some (many_of_runs hruns' (bind_of_none (hs e hstop).2))).trans h)

/-- A single operand is no chain. -/
theorem chained_of_none {p : Reader Expression} {op : Reader BinaryOp} {e : Expression} {c c' : Cursor} (h : p c = some (e, c'))
    (ho : op c' = none) : chained p op c = some (e, c') :=
  (bind_of_some h).trans (bind_of_some (many_of_none (bind_of_none ho)))

/-- An expression takes at least one character. -/
theorem advances_tight {level : Level} : Advances (tightReader level .standard) :=
  Frame.same.tightExpression.advances

/-- Chains are kept up to a mark if their operands are. -/
theorem kept_chains {n : Nat} (ht : Kept n (fun _ => True) (tightReader .core .standard) (tightReader .extended .standard)) :
    Kept n AtMark (chainedReader .core .standard (tightReader .core .standard))
      (chainedReader .extended .standard (tightReader .extended .standard)) := by
  have hao : Advances (BinaryOp.joinReader .core .standard) := Frame.same.join.advances
  have hjoins : Kept n (fun c => BinaryOp.rankReader 0 c = none)
      (chained (tightReader .core .standard) (BinaryOp.joinReader .core .standard))
      (chained (tightReader .extended .standard) (BinaryOp.joinReader .extended .standard)) := by
    refine kept_chained ht advances_tight hao (fun c o d h => ⟨trivial, ?_⟩) fun c hc => ⟨trivial, hc⟩
    obtain ⟨op, d', hop, h⟩ := bind_eq_some h
    cases h
    exact BinaryOp.joinReader_of_plain (.inl rfl) hop
  -- where neither a join nor an intersection follows, one operand of the intersection is all there is
  have hmeets : Kept n (fun c => BinaryOp.rankReader 0 c = none ∧ BinaryOp.rankReader 1 c = none)
      (chained (tightReader .core .standard) (BinaryOp.joinReader .core .standard))
      (chained (chained (tightReader .extended .standard) (BinaryOp.joinReader .extended .standard))
        (BinaryOp.intersectReader .standard)) :=
    fun c e c' hn h hc => chained_of_none (hjoins c e c' hn h hc.1) hc.2
  have hau : Advances (BinaryOp.unionReader .standard) := Frame.same.union.advances
  refine kept_chained hmeets ?_ hau (fun c o d h => ⟨BinaryOp.rankReader_of_union h, h⟩) fun c hc => ?_
  · exact (Frame.same.chained Frame.same.here_of_later Frame.same.tightExpression Frame.same.join).advances
  · have hstop := fun k => BinaryOp.rankReader_of_head k hc.head_ne
    exact ⟨⟨hstop 0, hstop 1⟩, hstop 2⟩

/-- One step keeps the expressions of the core language. -/
theorem kept_step {n : Nat} (ih : Kept n (fun _ => True) (tightReader .core .standard) (tightReader .extended .standard)) :
    Kept (n + 1) (fun _ => True) (tightReader .core .standard) (tightReader .extended .standard) := by
  intro c e c' hn h _
  rw [tightReader_step] at h ⊢
  rcases orElse_eq_some h with h | ⟨-, h⟩
  · obtain ⟨op, d, hop, h⟩ := bind_eq_some h
    obtain ⟨operand, d', hoperand, h⟩ := bind_eq_some h
    cases h
    have hd := (Frame.same.unaryOp.advances c op d hop).2
    exact orElse_of_some ((bind_of_some (UnaryOp.reader_kept hop)).trans
      (bind_of_some (ih d operand c' (by omega) hoperand trivial)))
  · rcases orElse_eq_some h with h | ⟨-, h⟩
    · obtain ⟨name, d, hname, h⟩ := bind_eq_some h
      cases h
      exact tightStep_relation hname
    · obtain ⟨u, d, h₁, h⟩ := bind_eq_some h
      obtain ⟨x, d', h₂, h⟩ := bind_eq_some h
      obtain ⟨v, d'', h₃, h⟩ := bind_eq_some h
      cases h
      have hd := ((Frame.same.mark .parenLeft (by decide)).advances c u d h₁).2
      exact tightStep_parens h₁ (kept_chains ih d e d' (by omega) h₂ (atMark_of_mark h₃ (by decide))) h₃

/-- Every level keeps the expressions of a smaller one. -/
theorem kept_reader (h : b.includes a = true) (n : Nat) : Kept n AtMark (reader a .standard) (reader b .standard) := by
  by_cases he : a.includes .extended = b.includes .extended
  · rw [reader_congr he]
    exact fun _ _ _ _ h _ => h
  · have hab : a.includes .extended = Level.core.includes .extended ∧
        b.includes .extended = Level.extended.includes .extended := by
      cases a <;> cases b <;> first | exact ⟨rfl, rfl⟩ | exact absurd rfl he | cases h
    rw [reader_congr hab.1, reader_congr hab.2]
    refine kept_chains ?_
    induction n with
    | zero =>
      intro c e c' hn h _
      have := (advances_tight c e c' h).2
      omega
    | succ n ih => exact kept_step ih

/-- A name is a whole expression where no operator follows it. -/
theorem reader_of_name {level : Level} {name : String} {c c' : Cursor} (h : Reader.name c = some (name, c'))
    (hc : c'.ahead.head? ≠ some '\\') : reader level .standard c = some (relation name, c') := by
  have htight : tightReader level .standard c = some (relation name, c') := by
    rw [tightReader_step]
    exact tightStep_relation h
  have hjoins := chained_of_none htight (@BinaryOp.joinReader_of_head level _ hc)
  have hstop := fun k => BinaryOp.rankReader_of_head k hc
  unfold reader chainedReader
  split
  · exact chained_of_none (chained_of_none hjoins (hstop 1)) (hstop 2)
  · exact chained_of_none hjoins (hstop 2)

end Surface.Expression

/-! ## Statements -/

namespace Surface.Statement

variable {a b : Level}

/-- An assignment starts with a name, and no operator is behind it. -/
theorem name_of_assign {level : Level} {s : Statement} {c d : Cursor} (h : assignReader level .standard c = some (s, d)) :
    ∃ name m, Reader.name c = some (name, m) ∧ m.Beyond 0 d ∧ m.ahead.head? ∈ [some '(', some ':'] := by
  obtain ⟨name, m, hname, h⟩ := bind_eq_some h
  obtain ⟨names, e, hnames, h⟩ := bind_eq_some h
  obtain ⟨op, e', hop, h⟩ := bind_eq_some h
  obtain ⟨value, d', hvalue, h⟩ := bind_eq_some h
  cases h
  have hop' := Frame.same.assignment.advances e op e' hop
  have hrest := hop'.trans (Frame.same.expression.advances e' value d hvalue)
  rcases opt_eq_some hnames with ⟨ns, rfl, hns⟩ | ⟨rfl, rfl, -⟩
  · have hns' := Frame.same.attributeNames.advances m ns e hns
    obtain ⟨u, e, hu, -⟩ := bind_eq_some hns
    refine ⟨name, m, hname, (hns'.trans hrest).mono (Nat.zero_le _), ?_⟩
    rw [ahead_of_mark hu]
    exact List.mem_cons_self
  · refine ⟨name, e, hname, hrest.mono (Nat.zero_le _), ?_⟩
    rw [head_of_assign hop]
    exact List.mem_cons_of_mem _ List.mem_cons_self

/-- Every level reads the algebraic statements of a smaller one. -/
theorem algebraReader_kept (h : b.includes a = true) {c : Cursor} {r : Statement × Cursor}
    (hr : algebraReader a .standard c = some r) : algebraReader b .standard c = some r := by
  obtain ⟨s, d, hs, hr⟩ := bind_eq_some hr
  obtain ⟨u, e, hu, hr⟩ := bind_eq_some hr
  have hd : d.AtMark := atMark_of_mark hu (by decide)
  have hread : longest (assignReader b .standard) (queryReader b .standard) c = some (s, d) := by
    rcases longest_eq_some hs with ⟨hs, -⟩ | ⟨hs, -⟩
    · -- the name that is assigned is a query too, but a shorter one
      obtain ⟨name, m, hname, hm, hhead⟩ := name_of_assign hs
      have hquery : queryReader b .standard c = some (.query (.relation name), m) := by
        refine bind_of_some (Expression.reader_of_name hname fun hb => ?_)
        rw [hb] at hhead
        simp at hhead
      have hassign : assignReader b .standard c = some (s, d) := by
        obtain ⟨name, m, hname, hs⟩ := bind_eq_some hs
        obtain ⟨names, e, hnames, hs⟩ := bind_eq_some hs
        obtain ⟨op, e', hop, hs⟩ := bind_eq_some hs
        obtain ⟨value, d', hvalue, hs⟩ := bind_eq_some hs
        cases hs
        have hvalue' := Expression.kept_reader h _ e' value d (Nat.le_refl _) hvalue hd
        exact (bind_of_some hname).trans ((bind_of_some hnames).trans ((bind_of_some hop).trans (bind_of_some hvalue')))
      exact longest_of_le hassign hquery hm.offset_le
    · obtain ⟨e, d', he, hs⟩ := bind_eq_some hs
      cases hs
      have hquery : queryReader b .standard c = some (.query e, d) :=
        bind_of_some (Expression.kept_reader h _ c e d (Nat.le_refl _) he hd)
      cases hassign : assignReader b .standard c with
      | none => exact (longest_of_none_left hassign).trans hquery
      | some r =>
        -- the query would be the name that is assigned, and the terminator behind it
        obtain ⟨name, m, hname, -, hhead⟩ := name_of_assign hassign
        have hname' : Expression.reader a .standard c = some (.relation name, m) := by
          refine Expression.reader_of_name hname fun hb => ?_
          rw [hb] at hhead
          simp at hhead
        obtain ⟨-, rfl⟩ := Prod.mk.inj (Option.some.inj (he.symm.trans hname'))
        rw [ahead_of_mark hu] at hhead
        simp [Lexicon.usual] at hhead
  exact (bind_of_some hread).trans ((bind_of_some hu).trans hr)

/-- A declaration starts with its word, and the mark that opens its parameters touches it. -/
theorem ahead_of_declaration {level : Level} {c : Cursor} {r : Declaration × Cursor}
    (h : Declaration.reader level .standard c = some r) :
    ∃ s ∈ Symbol.dependencies, ∃ rest, c.ahead = (Lexicon.usual s).toList ++ ((Lexicon.usual .paramsStart).toList ++ rest) := by
  have hopen : ∀ {s op u d e}, literalReader .standard s c = some (op, d) → touchingMark .standard .paramsStart d = some (u, e) →
      c.ahead = (Lexicon.usual s).toList ++ ((Lexicon.usual .paramsStart).toList ++ e.rest) := by
    intro s op u d e hs ht
    obtain ⟨v, d', hm, hs⟩ := bind_eq_some hs
    cases hs
    rw [ahead_of_mark hm, rest_of_touchingMark ht]
  have hpair : ∀ {d x}, attributePair .standard d = some x → ∃ u e, touchingMark .standard .paramsStart d = some (u, e) := by
    intro d x hx
    obtain ⟨u, e, hu, -⟩ := bind_eq_some hx
    exact ⟨u, e, hu⟩
  obtain ⟨p, hp, h⟩ := firstOf_eq_some h
  simp only [List.mem_cons, List.not_mem_nil, or_false] at hp
  rcases hp with rfl | rfl | rfl | rfl | rfl
  · obtain ⟨op, d, hs, h⟩ := bind_eq_some h
    obtain ⟨names, e, hn, -⟩ := bind_eq_some h
    obtain ⟨u, e, hu, -⟩ := bind_eq_some hn
    exact ⟨_, by decide, _, hopen hs hu⟩
  all_goals
    obtain ⟨op, d, hs, h⟩ := bind_eq_some h
    obtain ⟨x, e, hx, -⟩ := bind_eq_some h
    obtain ⟨y, e, hy, -⟩ := bind_eq_some hx
    obtain ⟨u, e, hu⟩ := hpair hy
    exact ⟨_, by decide, _, hopen hs hu⟩

/-- No algebraic statement is read where a declaration is: it would start with a name that nothing may follow. -/
theorem algebraReader_of_declaration {level : Level} {c : Cursor} {r : Declaration × Cursor}
    (h : Declaration.reader b .standard c = some r) : algebraReader level .standard c = none := by
  obtain ⟨s, hs, rest, hc⟩ := ahead_of_declaration h
  obtain ⟨word, y, ys, he, hw, hy⟩ : ∃ word y ys,
      (Lexicon.usual s).toList ++ (Lexicon.usual .paramsStart).toList = word ++ y :: ys ∧
      isIdentifier (String.ofList word) = true ∧ y ∈ ['\x7b', '=', '⊆'] := by
    simp only [Symbol.dependencies, List.mem_cons, List.not_mem_nil, or_false] at hs
    rcases hs with rfl | rfl | rfl | rfl | rfl
    · exact ⟨"pk_".toList, '\x7b', [], rfl, rfl, by decide⟩
    · exact ⟨"mvd_".toList, '\x7b', [], rfl, rfl, by decide⟩
    · exact ⟨"fd_".toList, '\x7b', [], rfl, rfl, by decide⟩
    · exact ⟨"inc".toList, '=', "_\x7b".toList, rfl, rfl, by decide⟩
    · exact ⟨"inc".toList, '⊆', "_\x7b".toList, rfl, rfl, by decide⟩
  obtain ⟨hblank, hchar, hne⟩ : isBlank y = false ∧ isNameChar y = false ∧ y ∉ ['(', ':', ';', '\\'] := by
    simp only [List.mem_cons, List.not_mem_nil, or_false] at hy
    rcases hy with rfl | rfl | rfl <;> decide
  rw [← List.append_assoc, he, List.append_assoc, List.cons_append] at hc
  obtain ⟨m, hname, hm⟩ : ∃ m, Reader.name c = some (lowered word, m) ∧ m.ahead.head? = some y := by
    refine ⟨_, bareName_of_rest hc hw (by simp [hchar]), ?_⟩
    have hrest : ((c.skipWhile isBlank).advance word.length).rest = y :: (ys ++ rest) := by
      rw [rest_advance, show (c.skipWhile isBlank).rest = c.ahead from rfl, hc, List.drop_left]
    rw [ahead, skipWhile, hrest, List.takeWhile_cons_of_neg (by simp [hblank])]
    show (Cursor.advance 0 _).rest.head? = _
    rw [advance, hrest]
    rfl
  have hassign : assignReader level .standard c = none := by
    cases hassign : assignReader level .standard c with
    | none => rfl
    | some r =>
      obtain ⟨name, m', hname', -, hhead⟩ := name_of_assign hassign
      obtain ⟨-, rfl⟩ := Prod.mk.inj (Option.some.inj (hname.symm.trans hname'))
      rw [hm] at hhead
      refine absurd ?_ hne
      simp at hhead
      rcases hhead with rfl | rfl <;> decide
  have hquery : queryReader level .standard c = some (.query (.relation (lowered word)), m) := by
    refine bind_of_some (Expression.reader_of_name hname fun hb => hne ?_)
    rw [hm] at hb
    rw [Option.some.inj hb]
    decide
  have hend : markReader .standard .terminator m = none := by
    refine markReader_eq_none rfl fun hb => hne ?_
    rw [hm] at hb
    rw [Option.some.inj hb]
    decide
  exact (bind_of_some ((longest_of_none_left hassign).trans hquery)).trans (bind_of_none hend)

/-- Every level reads the statements of a smaller one. -/
theorem reader_kept (h : b.includes a = true) {c : Cursor} {r : Statement × Cursor} (hr : reader a .standard c = some r) :
    reader b .standard c = some r := by
  cases ha : a.includes .dependency with
  | true =>
    obtain rfl : a = b := by cases a <;> cases b <;> first | rfl | exact absurd h (by decide) | exact absurd ha (by decide)
    exact hr
  | false =>
    have halgebra : algebraReader a .standard c = some r := by
      rw [reader, ha] at hr
      exact hr
    have hkept := algebraReader_kept h halgebra
    unfold reader
    split
    · refine (orElse_of_none ?_).trans hkept
      cases hd : declareReader b .standard c with
      | none => rfl
      | some x =>
        obtain ⟨s, d, hs, -⟩ := bind_eq_some hd
        obtain ⟨declaration, e, he, -⟩ := bind_eq_some hs
        rw [algebraReader_of_declaration he] at halgebra
        cases halgebra
    · exact hkept

end Surface.Statement

/-- Every level accepts what a smaller one accepts, and reads the same statements. -/
theorem Surface.parse_of_includes {a b : Level} (h : b.includes a = true) {text : String} {ss : List Statement}
    (hp : parse a .standard text = .ok ss) : parse b .standard text = .ok ss := by
  obtain ⟨hn, c', hruns, hend⟩ := runs_of_parse hp
  exact parse_of_runs hn (hruns.mono fun _ _ _ _ => Statement.reader_kept h) hend

/-! ## Nodes -/

/-- A level includes what the levels it includes do. -/
theorem Level.includes_trans {a b l : Level} (h : b.includes a = true) (ha : a.includes l = true) : b.includes l = true := by
  simp only [Level.includes, decide_eq_true_eq] at *
  omega

namespace Surface

variable {a b : Level}

/-- What an operator denotes at a level it denotes at every level that includes it. -/
theorem BinaryOp.Denotes.of_includes (h : b.includes a = true) {op : BinaryOp} {f : Term → Term → Term} (hd : op.Denotes a f) :
    op.Denotes b f := by
  cases hd with
  | cross => exact .cross
  | union => exact .union
  | difference => exact .difference
  | natural hl => exact .natural (Level.includes_trans h hl)
  | intersect hl => exact .intersect (Level.includes_trans h hl)
  | conditioned hl hs hc => exact .conditioned (Level.includes_trans h hl) hs hc

mutual

/-- An expression stands for the same term at every level that has it. -/
theorem Expression.denotes_of_includes (h : b.includes a = true) : (e : Expression) → {t : Term} → e.Denotes a t → e.Denotes b t
  | .relation name, _, hd => by
    cases hd
    exact .relation name
  | .unary op e, _, hd => by
    cases hd with
    | unary ho he => exact .unary ho (Expression.denotes_of_includes h e he)
  | .chain first links, _, hd => by
    cases hd with
    | chain hf hl => exact .chain (Expression.denotes_of_includes h first hf) (Links.denotes_of_includes h links hl)

/-- What links denote at a level they denote at every level that includes it. -/
theorem Links.denotes_of_includes (h : b.includes a = true) : (links : Links) → {t u : Term} → Links.Denotes a t links u →
    Links.Denotes b t links u
  | .nil, _, _, hd => by
    cases hd
    exact .nil _
  | .cons op e rest, _, _, hd => by
    cases hd with
    | cons ho he hr =>
      exact .cons (ho.of_includes h) (Expression.denotes_of_includes h e he) (Links.denotes_of_includes h rest hr)

end

end Surface

namespace Build

variable {a b : Level}

/-- A statement that a level has makes the same node at every larger one. -/
theorem statement_of_includes (h : b.includes a = true) {s : Statement} (hs : s.IsWritten a) :
    statement b .standard s = statement a .standard s := by
  cases s with
  | assign name attributes op value =>
    obtain ⟨-, -, -, t, hd, -⟩ := hs
    have hvalue : ∀ {level : Level}, value.Denotes level t →
        node level .standard Lexicon.standard.isAssignCharacter [value.phrase] = t.build := by
      intro level hd
      rw [phrase_eq_list]
      exact (node_single level _).trans (node_phrase value hd)
    simp only [statement, hvalue hd, hvalue (value.denotes_of_includes h hd)]
  | query e =>
    obtain ⟨t, hd, -⟩ := hs
    exact (node_phrase e (e.denotes_of_includes h hd)).trans (node_phrase e hd).symm
  | declare d =>
    obtain ⟨x, -, hx⟩ := node_declare hs
    exact (hx b).trans (hx a).symm

/-- Statements that are written at a level make the same nodes at every level that includes it. -/
theorem nodes_of_includes (h : b.includes a = true) {ss : List Statement} (hs : ∀ s ∈ ss, s.IsWritten a) :
    nodes b .standard ss = nodes a .standard ss := by
  induction ss with
  | nil => rfl
  | cons s ss ih =>
    rw [nodes, nodes, statement_of_includes h (hs s List.mem_cons_self), ih fun t ht => hs t (List.mem_cons_of_mem s ht)]

end Build

/-! ## All that is made of a text -/

namespace Dialect

/-- A text that a level accepts has the same nodes at every larger one. -/
theorem forest_of_includes {a b : Level} (h : b.includes a = true) (schema : Schema) {text : String} {ss : List Statement}
    (hp : parse a .standard text = .ok ss) :
    forest ⟨b, .standard⟩ schema text = forest ⟨a, .standard⟩ schema text := by
  calc forest ⟨b, .standard⟩ schema text
      = (Build.outcome (Build.nodes b .standard ss) (.start schema)).1 := Build.forest_of_parse (parse_of_includes h hp)
    _ = (Build.outcome (Build.nodes a .standard ss) (.start schema)).1 := by
      rw [Build.nodes_of_includes h (isWritten_of_parse hp)]
    _ = forest ⟨a, .standard⟩ schema text := (Build.forest_of_parse hp).symm

end Dialect

/-- The levels of the language extend one another conservatively. A text that a level accepts has the same words at every
larger level and at every other one that accepts it; and over every schema it has the same nodes, SQL and drawings there, or
fails in the same way. -/
theorem levels_agree (a b : Level) (text : String) (ps : List Phrase) (ha : Dialect.phrases ⟨a, .standard⟩ text = .ok ps)
    (hb : b.includes a = true ∨ ∃ qs, Dialect.phrases ⟨b, .standard⟩ text = .ok qs) :
    Dialect.phrases ⟨b, .standard⟩ text = .ok ps ∧ ∀ schema semantics,
      Dialect.forest ⟨b, .standard⟩ schema text = Dialect.forest ⟨a, .standard⟩ schema text ∧
      Dialect.sql ⟨b, .standard⟩ semantics schema text = Dialect.sql ⟨a, .standard⟩ semantics schema text ∧
      Dialect.sqlSequence ⟨b, .standard⟩ semantics schema text = Dialect.sqlSequence ⟨a, .standard⟩ semantics schema text ∧
      Dialect.drawings ⟨b, .standard⟩ schema text = Dialect.drawings ⟨a, .standard⟩ schema text := by
  obtain ⟨hca, ss, hs, rfl⟩ := Dialect.phrases_eq_ok_iff.mp ha
  -- of two levels one includes the other, and the smaller one decides
  have hboth : Dialect.phrases ⟨b, .standard⟩ text = .ok (ss.map Statement.phrase) ∧
      ∀ schema, Dialect.forest ⟨b, .standard⟩ schema text = Dialect.forest ⟨a, .standard⟩ schema text := by
    by_cases hab : b.includes a = true
    · have hcb := Level.includes_trans hab hca
      exact ⟨Dialect.phrases_eq_ok_iff.mpr ⟨hcb, ss, parse_of_includes hab hs, rfl⟩,
        fun schema => Dialect.forest_of_includes hab schema hs⟩
    · obtain ⟨qs, hq⟩ := hb.resolve_left hab
      obtain ⟨hcb, ts, ht, rfl⟩ := Dialect.phrases_eq_ok_iff.mp hq
      have hba : a.includes b = true := by
        simp only [Level.includes, decide_eq_true_eq] at hab ⊢
        omega
      obtain rfl : ts = ss := Except.ok.inj ((parse_of_includes hba ht).symm.trans hs)
      exact ⟨hq, fun schema => (Dialect.forest_of_includes hba schema ht).symm⟩
  refine ⟨hboth.1, fun schema semantics => ⟨hboth.2 schema, ?_, ?_, ?_⟩⟩
  · simp only [Dialect.sql, hboth.2]
  · simp only [Dialect.sqlSequence, hboth.2]
  · simp only [Dialect.drawings, hboth.2]

/-- A relation named like the word of a dependency, an attribute named like the negation, and a difference of joins. -/
theorem levels_agree_of_words :
    ∃ ps, Dialect.phrases ⟨.core, .standard⟩
        "pk := r \\join s \\difference \\select_\x7bnot=1 and not (not.a = 2)\x7d (t);" = .ok ps ∧
      Dialect.phrases ⟨.dependency, .standard⟩
        "pk := r \\join s \\difference \\select_\x7bnot=1 and not (not.a = 2)\x7d (t);" = .ok ps := by
  obtain ⟨ps, hps, -⟩ := exists_ok_of_any (p := fun _ => true) (x := Dialect.phrases ⟨.core, .standard⟩
    "pk := r \\join s \\difference \\select_\x7bnot=1 and not (not.a = 2)\x7d (t);") (by decide +kernel)
  exact ⟨ps, hps, (levels_agree .core .dependency _ ps hps (.inl rfl)).1⟩

end RelAlg
