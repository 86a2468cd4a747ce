import RelAlg.Proofs.Reader.Clause

/-!
# Operators that are read

`Term.UnaryWrites` and `Term.BinaryWrites` say which lexemes write an operator of the extended language with its parameters;
the second also gives the rank of an operator with two operands: 0 for the joins, 1 for the intersection, 2 for union and
difference. Reading such lexemes gives an operator that stands for it, and the readers of other ranks refuse it. A theta join
is written with its own word or with that of the plain join.
-/

namespace RelAlg

open Surface Reader Cursor

/-! ## Lists and new names -/

/-- The lexemes write the texts with commas between them. -/
inductive Lexeme.Listed (writes : Lexeme → String → Prop) : List String → List Lexeme → Prop where
  | single {s : String} {w : Lexeme} (h : writes w s) : Listed writes [s] [w]
  | cons {s : String} {ss : List String} {w : Lexeme} {ws : List Lexeme} (h : writes w s) (hs : Listed writes ss ws) :
      Listed writes (s :: ss) (w :: .mark ',' rfl :: ws)

/-- The lexemes write the names between parentheses. -/
def Lexeme.WritesNames (names : List String) (us : List Lexeme) : Prop :=
  ∃ ws, Listed Names names ws ∧ us = .mark '(' rfl :: (ws ++ [.mark ')' rfl])

/-- The lexemes write the new names of a renaming. -/
inductive Surface.Renaming.Writes : Renaming → List Lexeme → Prop where
  | relation {name : String} {w : Lexeme} (h : w.Names name) : Writes (.relation name) [w]
  | attributes {names : List String} {ws : List Lexeme} (h : Lexeme.WritesNames names ws) : Writes (.attributes names) ws
  | both {name : String} {names : List String} {w : Lexeme} {ws : List Lexeme} (hn : w.Names name)
      (h : Lexeme.WritesNames names ws) : Writes (.both name names) (w :: ws)

/-- Items with commas between them are read. -/
theorem Lexeme.Listed.runs {item : Reader String} {writes : Lexeme → String → Prop}
    (hitem : ∀ {w s c c'}, writes w s → Past w c c' → item c = some (s, c')) {ss : List String} {ws : List Lexeme}
    (h : Listed writes ss ws) {c c' : Cursor} (hp : Passes ws c c') :
    ∃ s rest d, ss = s :: rest ∧ item c = some (s, d) ∧ d.rest.length ≤ c.rest.length ∧
      Runs (do markReader .standard .delimiter; item) d rest c' := by
  induction h generalizing c with
  | single h =>
    obtain ⟨d, h₁, hp⟩ := Passes.cons_iff.mp hp
    cases hp
    exact ⟨_, [], c', rfl, hitem h h₁, Nat.le_of_lt h₁.length_lt, .nil c'⟩
  | cons h _ ih =>
    obtain ⟨d, h₁, hp⟩ := Passes.cons_iff.mp hp
    obtain ⟨e, h₂, hp⟩ := Passes.cons_iff.mp hp
    obtain ⟨s, rest, f, rfl, hs, hlen, hr⟩ := ih hp
    have hlt := h₂.length_lt
    refine ⟨_, _, d, rfl, hitem h h₁, Nat.le_of_lt h₁.length_lt, .cons ?_ (by omega) hr⟩
    exact (bind_of_some (markReader_of_past h₂ rfl)).trans hs

theorem Lexeme.Listed.listed {item : Reader String} {writes : Lexeme → String → Prop}
    (hitem : ∀ {w s c c'}, writes w s → Past w c c' → item c = some (s, c')) {ss : List String} {ws : List Lexeme}
    (h : Listed writes ss ws) {c c' : Cursor} (hp : Passes ws c c') (hc : c'.ahead.head? ≠ some ',') :
    Surface.listed .standard item c = some (ss, c') := by
  obtain ⟨s, rest, d, rfl, hs, -, hr⟩ := h.runs hitem hp
  have hstop : markReader .standard .delimiter c' = none := markReader_eq_none rfl hc
  exact (bind_of_some hs).trans (bind_of_some (many_of_runs hr (bind_of_none hstop)))

/-- Names between parentheses are read. -/
theorem attributeNames_of_passes {names : List String} {us : List Lexeme} (h : Lexeme.WritesNames names us) {c c' : Cursor}
    (hp : Passes us c c') : UnaryOp.attributeNames .standard c = some (names, c') := by
  obtain ⟨ws, hl, rfl⟩ := h
  obtain ⟨d, h₁, hp⟩ := Passes.cons_iff.mp hp
  obtain ⟨e, h₂, hp⟩ := Passes.append.mp hp
  obtain ⟨f, h₃, hp⟩ := Passes.cons_iff.mp hp
  cases hp
  have hnames := hl.listed Lexeme.Names.name h₂ (by rw [h₃.ahead]; simp [Lexeme.chars, Lexeme.mark])
  exact (bind_of_some (markReader_of_past h₁ rfl)).trans
    ((bind_of_some hnames).trans (bind_of_some (markReader_of_past h₃ rfl)))

/-- Names between parentheses are not read where no parenthesis is ahead. -/
theorem attributeNames_eq_none {c : Cursor} (hc : c.ahead.head? ≠ some '(') :
    UnaryOp.attributeNames .standard c = none := bind_of_none (markReader_eq_none rfl hc)

/-- New names are read up to the mark that closes the parameters. -/
theorem Surface.Renaming.Writes.targetReader {target : Renaming} {ws : List Lexeme} (h : target.Writes ws)
    {c d c' : Cursor} (hp : Passes ws c d) (hd : Past (.mark '\x7d' rfl) d c') :
    UnaryOp.targetReader .standard c = some (target, d) := by
  have hstop : UnaryOp.attributeNames .standard d = none := by
    refine attributeNames_eq_none ?_
    rw [hd.ahead]
    simp [Lexeme.chars, Lexeme.mark]
  cases h with
  | relation h =>
    obtain ⟨e, h₁, hp⟩ := Passes.cons_iff.mp hp
    cases hp
    have hname := h.name h₁
    refine (longest_of_none_right ?_).trans (bind_of_some hname)
    exact (bind_of_some (opt_of_some hname)).trans (bind_of_none hstop)
  | attributes h =>
    have hn : Reader.name c = none := by
      obtain ⟨us, -, rfl⟩ := h
      obtain ⟨e, h₁, -⟩ := Passes.cons_iff.mp hp
      exact name_eq_none (by rw [h₁.ahead]; rfl)
    refine (longest_of_none_left (bind_of_none hn)).trans ((bind_of_some (opt_of_none hn)).trans ?_)
    exact bind_of_some (attributeNames_of_passes h hp)
  | both hn h =>
    obtain ⟨e, h₁, hp⟩ := Passes.cons_iff.mp hp
    have hname := hn.name h₁
    refine longest_of_lt (bind_of_some hname)
      ((bind_of_some (opt_of_some hname)).trans (bind_of_some (attributeNames_of_passes h hp))) ?_
    -- the reader of both gets past the parenthesis
    obtain ⟨us, -, rfl⟩ := h
    obtain ⟨f, h₂, hp⟩ := Passes.cons_iff.mp hp
    exact Nat.lt_of_lt_of_le h₂.offset_lt hp.offset_le

/-! ## Words of operators -/

/-- The symbols of the operators. -/
def operatorSymbols : List Symbol :=
  [.project, .select, .rename, .join, .naturalJoin, .thetaJoin, .fullOuterJoin, .leftOuterJoin, .rightOuterJoin,
    .intersect, .union, .difference]

theorem isKeyword_of_operator : ∀ s ∈ operatorSymbols, isKeyword (Lexicon.usual s) = true := by decide

/-- No two operators are spelled so that one could be taken for the other. -/
theorem clash_of_operators : ∀ s ∈ operatorSymbols, ∀ t ∈ operatorSymbols, s ≠ t →
    clash (Lexicon.usual s) (Lexicon.usual t) = true := by decide

/-- No operator but one is read where its word is ahead. -/
theorem operator_of_other {joined : Bool} {s t : Symbol} {w : Lexeme} {c c' : Cursor} (hs : s ∈ operatorSymbols)
    (ht : t ∈ operatorSymbols) (hne : s ≠ t) (hw : w.Spells t ∨ w.Opens t) (h : Past w c c') :
    caselessKeyword joined (Lexicon.usual s) c = none :=
  Lexeme.keyword_of_clash hw h (isKeyword_of_operator s hs) (isKeyword_of_operator t ht) (clash_of_operators s hs t ht hne)

/-- Where an operator was read no other one is. -/
theorem operator_of_read {joined joined' : Bool} {s t : Symbol} {c : Cursor} {r : String × Cursor} (hs : s ∈ operatorSymbols)
    (ht : t ∈ operatorSymbols) (hne : s ≠ t) (h : caselessKeyword joined' (Lexicon.usual t) c = some r) :
    caselessKeyword joined (Lexicon.usual s) c = none :=
  caselessKeyword_of_other h (isKeyword_of_operator s hs) (isKeyword_of_operator t ht) (clash_of_operators s hs t ht hne)

/-- No operator is read where no backslash is ahead. -/
theorem operator_of_head {joined : Bool} {s : Symbol} {c : Cursor} (hs : s ∈ operatorSymbols)
    (hc : c.ahead.head? ≠ some '\\') : caselessKeyword joined (Lexicon.usual s) c = none := by
  have hall : ∀ s ∈ operatorSymbols,
      ((Lexicon.usual s).toList.map Char.toUpper).head? = some '\\' ∧ 0 < (Lexicon.usual s).length := by
    decide
  obtain ⟨hfirst, hpos⟩ := hall s hs
  cases h : caselessKeyword joined (Lexicon.usual s) c with
  | none => rfl
  | some r =>
    rw [← upper_of_keyword (isKeyword_of_operator s hs) h] at hfirst
    cases ha : c.ahead with
    | nil =>
      rw [ha] at hfirst
      simp [Text.upper] at hfirst
    | cons x rest =>
      refine absurd ?_ hc
      rw [ha, ← Nat.sub_add_cancel hpos, List.take_succ_cons, Text.upper, List.flatMap_cons, List.head?_append,
        List.head?_eq_some_head (upperChar_ne_nil x), Option.some_or, Option.some.injEq] at hfirst
      have hx : x = '\\' := eq_of_mem_upperChar (hfirst ▸ List.head_mem (upperChar_ne_nil x)) (by decide) (by decide)
      rw [ha, hx, List.head?_cons]

/-- An operator with parameters is read. -/
theorem parametrized_of_past {α : Type} {s : Symbol} {w : Lexeme} {params : Reader α} {a : α} {c d e c' : Cursor}
    (hs : s ∈ operatorSymbols) (hw : w.Opens s) (h₁ : Past w c d) (hp : params d = some (a, e))
    (h₂ : Past (.mark '\x7d' rfl) e c') : UnaryOp.parametrized .standard s params c = some ((Lexicon.usual s, a), c') := by
  obtain ⟨m, hk, hm⟩ := hw.keyword h₁ (isKeyword_of_operator s hs)
  have hparams : parameters .standard params m = some (a, c') :=
    (bind_of_some hm).trans ((bind_of_some hp).trans (bind_of_some (markReader_of_past h₂ rfl)))
  exact (bind_of_some hk).trans (bind_of_some hparams)

/-- An operator with parameters is not read where its word is not ahead. -/
theorem parametrized_eq_none {α : Type} {s : Symbol} {params : Reader α} {c : Cursor}
    (h : caselessKeyword false (Lexicon.usual s) c = none) : UnaryOp.parametrized .standard s params c = none :=
  bind_of_none h

/-! ## Operators with one operand -/

/-- The lexemes write the operator with one operand. -/
inductive Term.UnaryWrites : (Term → Term) → List Lexeme → Prop where
  | project {references : List String} {w : Lexeme} {ws : List Lexeme} (hw : w.Opens .project)
      (h : Lexeme.Listed Lexeme.Refers references ws) :
      UnaryWrites (Term.project references) (w :: (ws ++ [.mark '\x7d' rfl]))
  | select {condition : Condition} {w : Lexeme} {ws : List Lexeme} (hw : w.Opens .select) (h : condition.Writes 1 ws) :
      UnaryWrites (Term.select condition) (w :: (ws ++ [.mark '\x7d' rfl]))
  | rename {target : Renaming} {w : Lexeme} {ws : List Lexeme} (hw : w.Opens .rename) (h : target.Writes ws) :
      UnaryWrites (Term.rename target) (w :: (ws ++ [.mark '\x7d' rfl]))

/-- Parameters and the lexemes around them. -/
theorem Cursor.Passes.parameters {w : Lexeme} {ws : List Lexeme} {c c' : Cursor}
    (h : Passes (w :: (ws ++ [.mark '\x7d' rfl])) c c') :
    ∃ d e, Past w c d ∧ Passes ws d e ∧ Past (.mark '\x7d' rfl) e c' := by
  obtain ⟨d, h₁, h⟩ := Passes.cons_iff.mp h
  obtain ⟨e, h₂, h⟩ := Passes.append.mp h
  obtain ⟨f, h₃, h⟩ := Passes.cons_iff.mp h
  cases h
  exact ⟨d, e, h₁, h₂, h₃⟩

/-- An operator with one operand is read. -/
theorem Term.UnaryWrites.reader {f : Term → Term} {us : List Lexeme} (h : UnaryWrites f us) {c c' : Cursor}
    (hp : Passes us c c') : ∃ op, UnaryOp.reader .extended .standard c = some (op, c') ∧ op.Denotes f := by
  cases h with
  | project hw h =>
    obtain ⟨d, e, h₁, h₂, h₃⟩ := hp.parameters
    have hparams := h.listed Lexeme.Refers.reference h₂ (by rw [h₃.ahead]; simp [Lexeme.chars, Lexeme.mark])
    refine ⟨_, orElse_of_some (bind_of_some (parametrized_of_past (by decide) hw h₁ hparams h₃)), .project _⟩
  | select hw h =>
    obtain ⟨d, e, h₁, h₂, h₃⟩ := hp.parameters
    obtain ⟨clause, hparams, hd⟩ := h.reader h₂ h₃ rfl
    have hproject : caselessKeyword false (Lexicon.usual .project) c = none :=
      operator_of_other (by decide) (by decide) (by decide) (.inr hw) h₁
    refine ⟨_, (orElse_of_none (bind_of_none (parametrized_eq_none hproject))).trans ?_, .select hd⟩
    exact orElse_of_some (bind_of_some (parametrized_of_past (by decide) hw h₁ hparams h₃))
  | rename hw h =>
    obtain ⟨d, e, h₁, h₂, h₃⟩ := hp.parameters
    have hproject : caselessKeyword false (Lexicon.usual .project) c = none :=
      operator_of_other (by decide) (by decide) (by decide) (.inr hw) h₁
    have hselect : caselessKeyword false (Lexicon.usual .select) c = none :=
      operator_of_other (by decide) (by decide) (by decide) (.inr hw) h₁
    refine ⟨_, (orElse_of_none (bind_of_none (parametrized_eq_none hproject))).trans
      ((orElse_of_none (bind_of_none (parametrized_eq_none hselect))).trans ?_), .rename _⟩
    exact orElse_of_some (bind_of_some (parametrized_of_past (by decide) hw h₁ (h.targetReader h₂ h₃) h₃))

/-- No operator with one operand is read where no backslash is ahead. -/
theorem unaryReader_eq_none {level : Level} {c : Cursor} (hc : c.ahead.head? ≠ some '\\') :
    UnaryOp.reader level .standard c = none := by
  have hnone : ∀ s ∈ operatorSymbols, caselessKeyword false (Lexicon.usual s) c = none :=
    fun s hs => operator_of_head hs hc
  refine (orElse_of_none (bind_of_none (parametrized_eq_none (hnone .project (by decide))))).trans ?_
  refine (orElse_of_none (bind_of_none (parametrized_eq_none (hnone .select (by decide))))).trans ?_
  exact (orElse_of_none (bind_of_none (parametrized_eq_none (hnone .rename (by decide))))).trans rfl

/-! ## Operators with two operands -/

/-- The lexemes write the operator with two operands, which has the given rank. -/
inductive Term.BinaryWrites : Nat → (Term → Term → Term) → List Lexeme → Prop where
  | cross {w : Lexeme} (hw : w.Spells .join) : BinaryWrites 0 (Term.join .cross) [w]
  | natural {w : Lexeme} (hw : w.Spells .naturalJoin) : BinaryWrites 0 (Term.join .natural) [w]
  | conditional {s : Symbol} {kind : ConditionalJoin} {condition : Condition} {w : Lexeme} {ws : List Lexeme}
      (hs : (s, kind) ∈ Build.conditionalJoins) (hw : w.Opens s) (h : condition.Writes 1 ws) :
      BinaryWrites 0 (Term.join (.conditional kind condition)) (w :: (ws ++ [.mark '\x7d' rfl]))
  | theta {condition : Condition} {w : Lexeme} {ws : List Lexeme} (hw : w.Opens .join) (h : condition.Writes 1 ws) :
      BinaryWrites 0 (Term.join (.conditional .theta condition)) (w :: (ws ++ [.mark '\x7d' rfl]))
  | intersect {w : Lexeme} (hw : w.Spells .intersect) : BinaryWrites 1 (Term.combine .intersect) [w]
  | union {w : Lexeme} (hw : w.Spells .union) : BinaryWrites 2 (Term.combine .union) [w]
  | difference {w : Lexeme} (hw : w.Spells .difference) : BinaryWrites 2 (Term.combine .difference) [w]

namespace Surface.BinaryOp

/-- The reader of the operators of a rank. -/
def rankReader : Nat → Reader BinaryOp
  | 0 => joinReader .extended .standard
  | 1 => intersectReader .standard
  | 2 => unionReader .standard
  | _ + 3 => failure

/-- The readers that a join is looked for by. -/
def joinReaders : List (Reader BinaryOp) :=
  [plainReader .standard .join, plainReader .standard .naturalJoin, thetaReader .extended .standard,
    conditionedReader .extended .standard .fullOuterJoin, conditionedReader .extended .standard .leftOuterJoin,
    conditionedReader .extended .standard .rightOuterJoin]

theorem joinReader_eq : joinReader .extended .standard = longestOf joinReaders := rfl

/-- The symbols of the joins. -/
def joinSymbols : List Symbol := [.join, .naturalJoin, .thetaJoin, .fullOuterJoin, .leftOuterJoin, .rightOuterJoin]

theorem joinSymbols_subset : ∀ s ∈ joinSymbols, s ∈ operatorSymbols := by decide

/-- A join is not read where none of the words of joins is ahead. -/
theorem joinReader_eq_none {c : Cursor}
    (h : ∀ s ∈ joinSymbols, ∀ joined, caselessKeyword joined (Lexicon.usual s) c = none) :
    joinReader .extended .standard c = none := by
  have hparam : ∀ {α : Type} (params : Reader α), ∀ s ∈ joinSymbols, UnaryOp.parametrized .standard s params c = none :=
    fun _ s hs => parametrized_eq_none (h s hs false)
  rw [joinReader_eq]
  refine longestOf_of_none fun q hq => ?_
  simp only [joinReaders, List.mem_cons, List.not_mem_nil, or_false] at hq
  rcases hq with rfl | rfl | rfl | rfl | rfl | rfl
  · exact bind_of_none (h .join (by decide) true)
  · exact bind_of_none (h .naturalJoin (by decide) true)
  · exact (longest_of_none_left (bind_of_none (hparam _ .thetaJoin (by decide)))).trans
      (bind_of_none (hparam _ .join (by decide)))
  · exact bind_of_none (hparam _ .fullOuterJoin (by decide))
  · exact bind_of_none (hparam _ .leftOuterJoin (by decide))
  · exact bind_of_none (hparam _ .rightOuterJoin (by decide))

variable {s t : Symbol} {w : Lexeme} {c c' : Cursor}

/-- An operator without parameters is read. -/
theorem plainReader_of_past (hs : s ∈ operatorSymbols) (hw : w.Spells s) (h : Past w c c') :
    plainReader .standard s c = some (.plain (Lexicon.usual s), c') :=
  bind_of_some (hw.keyword h (isKeyword_of_operator s hs) true)

/-- An operator with parameters is not read where a word was read that has none. -/
theorem parametrized_of_plain {α : Type} {params : Reader α} {r : String × Cursor} (hs : s ∈ operatorSymbols)
    (ht : t ∈ operatorSymbols) (h : caselessKeyword true (Lexicon.usual t) c = some r) :
    UnaryOp.parametrized .standard s params c = none := by
  by_cases hne : s = t
  · subst hne
    cases hk : caselessKeyword false (Lexicon.usual s) c with
    | none => exact parametrized_eq_none hk
    | some r' =>
      refine (bind_of_some hk).trans (bind_of_none (bind_of_none ?_))
      rw [caselessKeyword_apply] at h hk
      split at h
      · rename_i hc
        split at hk
        · obtain rfl := Option.some.inj hk
          -- the mark that opens parameters would touch the word
          have hb : caselessBoundary true (c.ahead.drop (Lexicon.usual s).length).head? = true :=
            (Bool.and_eq_true_iff.mp hc).2
          show (if (Lexicon.usual .paramsStart).toList.isPrefixOf ((c.skipWhile isBlank).advance _).rest then _ else none) = none
          rw [rest_advance]
          refine if_neg fun hp => ?_
          obtain ⟨rest, hrest⟩ := List.isPrefixOf_iff_prefix.mp hp
          rw [show c.ahead.drop (Lexicon.usual s).length = _ from hrest.symm] at hb
          cases hb
        · cases hk
      · cases h
  · exact parametrized_eq_none (operator_of_read hs ht hne h)

/-- An operator without parameters is not read where the word ahead has some. -/
theorem plainReader_of_opens (hs : s ∈ operatorSymbols) (ht : t ∈ operatorSymbols) (hw : w.Opens t) (h : Past w c c') :
    plainReader .standard s c = none := by
  by_cases hne : s = t
  · subst hne
    exact bind_of_none (hw.keyword_joined h)
  · exact bind_of_none (operator_of_other hs ht hne (.inr hw) h)

/-- A join without a condition is read. -/
theorem joinReader_of_plain {op : String} (ht : t = .join ∨ t = .naturalJoin)
    (h : caselessKeyword true (Lexicon.usual t) c = some (op, c')) :
    joinReader .extended .standard c = some (.plain op, c') := by
  have hto : t ∈ operatorSymbols := by rcases ht with rfl | rfl <;> decide
  have hread : plainReader .standard t c = some (.plain op, c') := bind_of_some h
  have hplain : ∀ s ∈ operatorSymbols, plainReader .standard s c = none ∨
      plainReader .standard s c = some (.plain op, c') := by
    intro s hs
    by_cases hne : s = t
    · subst hne
      exact .inr hread
    · exact .inl (bind_of_none (operator_of_read hs hto hne h))
  have hparam : ∀ {α : Type} (params : Reader α), ∀ s ∈ operatorSymbols,
      UnaryOp.parametrized .standard s params c = none := fun _ s hs => parametrized_of_plain hs hto h
  rw [joinReader_eq]
  refine longestOf_of_mem (p := plainReader .standard t) ?_ hread fun q hq => ?_
  · rcases ht with rfl | rfl <;> simp [joinReaders]
  · simp only [joinReaders, List.mem_cons, List.not_mem_nil, or_false] at hq
    rcases hq with rfl | rfl | rfl | rfl | rfl | rfl
    · exact hplain .join (by decide)
    · exact hplain .naturalJoin (by decide)
    · exact .inl ((longest_of_none_left (bind_of_none (hparam _ .thetaJoin (by decide)))).trans
        (bind_of_none (hparam _ .join (by decide))))
    · exact .inl (bind_of_none (hparam _ .fullOuterJoin (by decide)))
    · exact .inl (bind_of_none (hparam _ .leftOuterJoin (by decide)))
    · exact .inl (bind_of_none (hparam _ .rightOuterJoin (by decide)))

/-- The symbol that a join with a condition is kept under: a plain join with a condition is a theta join. -/
def keptUnder (t : Symbol) : Symbol := if t = .join then .thetaJoin else t

/-- A join with a condition is read. -/
theorem joinReader_of_opens {clause : Clause} {d e : Cursor} (ht : t ∈ joinSymbols) (hn : t ≠ .naturalJoin)
    (hw : w.Opens t) (h₁ : Past w c d) (hp : Clause.reader .extended .standard d = some (clause, e))
    (h₂ : Past (.mark '\x7d' rfl) e c') :
    joinReader .extended .standard c = some (.conditioned (Lexicon.usual (keptUnder t)) clause, c') := by
  have hto := joinSymbols_subset t ht
  have hself : UnaryOp.parametrized .standard t (Clause.reader .extended .standard) c
      = some ((Lexicon.usual t, clause), c') := parametrized_of_past hto hw h₁ hp h₂
  have hother : ∀ s ∈ operatorSymbols, s ≠ t →
      UnaryOp.parametrized .standard s (Clause.reader .extended .standard) c = none :=
    fun s hs hne => parametrized_eq_none (operator_of_other hs hto hne (.inr hw) h₁)
  have hconditioned : ∀ s ∈ operatorSymbols, s ≠ .join → conditionedReader .extended .standard s c = none ∨
      conditionedReader .extended .standard s c = some (.conditioned (Lexicon.usual (keptUnder t)) clause, c') := by
    intro s hs hj
    by_cases hne : s = t
    · subst hne
      rw [keptUnder, if_neg hj]
      exact .inr (bind_of_some hself)
    · exact .inl (bind_of_none (hother s hs hne))
  -- the theta join is looked for under both words
  have htheta : thetaReader .extended .standard c =
      if t = .join ∨ t = .thetaJoin then some (.conditioned (Lexicon.usual (keptUnder t)) clause, c') else none := by
    by_cases hj : t = .join
    · subst hj
      exact (longest_of_none_left (bind_of_none (hother .thetaJoin (by decide) (by decide)))).trans (bind_of_some hself)
    · refine (longest_of_none_right (bind_of_none (hother .join (by decide) (Ne.symm hj)))).trans ?_
      by_cases hth : t = .thetaJoin
      · subst hth
        exact bind_of_some hself
      · rw [if_neg (by simp [hj, hth])]
        exact bind_of_none (hother .thetaJoin (by decide) (Ne.symm hth))
  have hex : ∃ p ∈ joinReaders, p c = some (.conditioned (Lexicon.usual (keptUnder t)) clause, c') := by
    by_cases hj : t = .join ∨ t = .thetaJoin
    · exact ⟨thetaReader .extended .standard, by simp [joinReaders], by rw [htheta, if_pos hj]⟩
    · rw [not_or] at hj
      have hread : conditionedReader .extended .standard t c
          = some (.conditioned (Lexicon.usual (keptUnder t)) clause, c') := by
        rw [keptUnder, if_neg hj.1]
        exact bind_of_some hself
      refine ⟨conditionedReader .extended .standard t, ?_, hread⟩
      simp only [joinSymbols, List.mem_cons, List.not_mem_nil, or_false] at ht
      rcases ht with rfl | rfl | rfl | rfl | rfl | rfl
      · exact absurd rfl hj.1
      · exact absurd rfl hn
      · exact absurd rfl hj.2
      all_goals simp [joinReaders]
  obtain ⟨p, hp, hr⟩ := hex
  rw [joinReader_eq]
  refine longestOf_of_mem hp hr fun q hq => ?_
  simp only [joinReaders, List.mem_cons, List.not_mem_nil, or_false] at hq
  rcases hq with rfl | rfl | rfl | rfl | rfl | rfl
  · exact .inl (plainReader_of_opens (by decide) hto hw h₁)
  · exact .inl (plainReader_of_opens (by decide) hto hw h₁)
  · rw [htheta]
    split
    · exact .inr rfl
    · exact .inl rfl
  · exact hconditioned .fullOuterJoin (by decide) (by decide)
  · exact hconditioned .leftOuterJoin (by decide) (by decide)
  · exact hconditioned .rightOuterJoin (by decide) (by decide)

/-- An operator with two operands is read by the reader of its rank. -/
theorem rankReader_of_writes {k : Nat} {f : Term → Term → Term} {us : List Lexeme} (h : Term.BinaryWrites k f us)
    (hp : Passes us c c') : ∃ op, rankReader k c = some (op, c') ∧ op.Denotes .extended f := by
  have hone : ∀ {w : Lexeme}, Passes [w] c c' → Past w c c' := by
    intro w hp
    obtain ⟨d, h, hp⟩ := Passes.cons_iff.mp hp
    cases hp
    exact h
  cases h with
  | cross hw => exact ⟨_, joinReader_of_plain (.inl rfl) (hw.keyword (hone hp) (by decide) true), .cross⟩
  | natural hw => exact ⟨_, joinReader_of_plain (.inr rfl) (hw.keyword (hone hp) (by decide) true), .natural rfl⟩
  | @conditional s kind condition w ws hs hw h =>
    obtain ⟨d, e, h₁, h₂, h₃⟩ := hp.parameters
    obtain ⟨clause, hparams, hd⟩ := h.reader h₂ h₃ rfl
    have hall : ∀ p ∈ Build.conditionalJoins, p.1 ∈ joinSymbols ∧ p.1 ≠ .naturalJoin ∧ keptUnder p.1 = p.1 := by decide
    obtain ⟨hj, hn, hk⟩ := hall _ hs
    have hr := joinReader_of_opens hj hn hw h₁ hparams h₃
    rw [hk] at hr
    exact ⟨_, hr, .conditioned rfl hs hd⟩
  | theta hw h =>
    obtain ⟨d, e, h₁, h₂, h₃⟩ := hp.parameters
    obtain ⟨clause, hparams, hd⟩ := h.reader h₂ h₃ rfl
    exact ⟨_, joinReader_of_opens (by decide) (by decide) hw h₁ hparams h₃, .conditioned rfl (by decide) hd⟩
  | intersect hw => exact ⟨_, plainReader_of_past (by decide) hw (hone hp), .intersect rfl⟩
  | union hw => exact ⟨_, orElse_of_some (plainReader_of_past (by decide) hw (hone hp)), .union⟩
  | difference hw =>
    have hunion : caselessKeyword true (Lexicon.usual .union) c = none :=
      operator_of_other (by decide) (by decide) (by decide) (.inl hw) (hone hp)
    exact ⟨_, (orElse_of_none (bind_of_none hunion)).trans (plainReader_of_past (by decide) hw (hone hp)), .difference⟩

/-- No operator with two operands is read where no backslash is ahead. -/
theorem rankReader_of_head (k : Nat) (hc : c.ahead.head? ≠ some '\\') :
    rankReader k c = none := by
  have hnone : ∀ s ∈ operatorSymbols, ∀ joined, caselessKeyword joined (Lexicon.usual s) c = none :=
    fun s hs joined => operator_of_head hs hc
  match k with
  | 0 => exact joinReader_eq_none fun s hs => hnone s (joinSymbols_subset s hs)
  | 1 => exact bind_of_none (hnone .intersect (by decide) true)
  | 2 =>
    exact (orElse_of_none (bind_of_none (hnone .union (by decide) true))).trans
      (bind_of_none (hnone .difference (by decide) true))
  | _ + 3 => rfl

/-- The reader of a tighter rank refuses an operator. -/
theorem rankReader_of_lt {j k : Nat} {f : Term → Term → Term} {us : List Lexeme} (h : Term.BinaryWrites k f us)
    (hj : j < k) (hp : Passes us c c') : rankReader j c = none := by
  -- only operators without parameters have a tighter rank below them
  obtain ⟨w, d, t, h₁, hw, ht, hr⟩ : ∃ w d t, Past w c d ∧ w.Spells t ∧ t ∈ [Symbol.intersect, .union, .difference] ∧
      (t = .intersect → k = 1) := by
    cases h with
    | cross | natural | conditional | theta => exact absurd hj (Nat.not_lt_zero j)
    | intersect hw =>
      obtain ⟨d, h₁, -⟩ := Passes.cons_iff.mp hp
      exact ⟨_, d, _, h₁, hw, by decide, fun _ => rfl⟩
    | union hw | difference hw =>
      obtain ⟨d, h₁, -⟩ := Passes.cons_iff.mp hp
      exact ⟨_, d, _, h₁, hw, by decide, nofun⟩
  have hk : k ≤ 2 := by cases h <;> decide
  have hall : ∀ t ∈ [Symbol.intersect, .union, .difference], t ∈ operatorSymbols ∧ ∀ s ∈ joinSymbols, s ≠ t := by decide
  obtain ⟨hto, hjoin⟩ := hall t ht
  have hother : ∀ s ∈ operatorSymbols, s ≠ t → ∀ joined, caselessKeyword joined (Lexicon.usual s) c = none :=
    fun s hs hne joined => operator_of_other hs hto hne (.inl hw) h₁
  match j, hj with
  | 0, _ => exact joinReader_eq_none fun s hs => hother s (joinSymbols_subset s hs) (hjoin s hs)
  | 1, hj =>
    refine bind_of_none (hother .intersect (by decide) ?_ true)
    intro e
    have := hr e.symm
    omega
  | j + 2, hj => omega

end Surface.BinaryOp

end RelAlg
