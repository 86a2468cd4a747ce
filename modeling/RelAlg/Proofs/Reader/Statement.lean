import RelAlg.Dialect
import RelAlg.Proofs.Reader.Expression

/-!
# From text to tree

Every text that writes a term in the extended language is accepted, and the node made of it is the node of that term, made
from the bottom up and from left to right; where making a node fails, the text fails in the same way (`forest_of_writes`). So
the written form has one meaning: what binds tighter, how operators of one rank group, where parentheses stand that are not
needed, how blanks are set and how a theta join is spelled are all settled by the term.
-/

namespace RelAlg

open Surface Reader Cursor

/-! ## A term is no assignment -/

/-- The word of an operator starts with a backslash. -/
theorem first_of_operator {w : Lexeme} {s : Symbol} (hs : s ∈ operatorSymbols) (hw : w.Spells s ∨ w.Opens s) :
    w.first = '\\' := by
  obtain ⟨word, rest, hc, hword⟩ : ∃ word rest, w.chars = word ++ rest ∧ Spells word (Lexicon.usual s) := by
    rcases hw with hw | ⟨word, hc, hword⟩
    · exact ⟨w.chars, [], (List.append_nil _).symm, hw⟩
    · exact ⟨word, _, hc, hword⟩
  have hall : ∀ s ∈ operatorSymbols, (Lexicon.usual s).toList.head? = some '\\' := by decide
  cases word with
  | nil =>
    have := hall s hs
    rw [← hword] at this
    cases this
  | cons x word =>
    have hx : x.toLower = '\\' := by
      have := hall s hs
      rw [← hword] at this
      exact Option.some.inj this
    rw [show w.first = x from (List.cons.inj hc).1]
    have ha : x.toNat < 128 := toNat_lt_of_toLower (by rw [hx]; decide)
    exact of_toNat_lt (P := fun x => x.toLower = '\\' → x = '\\') (by decide) ha hx

/-- An operator with one operand is written with a backslash first. -/
theorem Term.UnaryWrites.first {f : Term → Term} {w : Lexeme} {ws : List Lexeme} (h : UnaryWrites f (w :: ws)) :
    w.first = '\\' := by
  cases h with
  | project hw | select hw | rename hw => exact first_of_operator (by decide) (.inr hw)

/-- An operator with two operands is written with a backslash first. -/
theorem Term.BinaryWrites.first {k : Nat} {f : Term → Term → Term} {w : Lexeme} {ws : List Lexeme}
    (h : BinaryWrites k f (w :: ws)) : w.first = '\\' := by
  cases h with
  | cross hw | natural hw | intersect hw | union hw | difference hw => exact first_of_operator (by decide) (.inl hw)
  | theta hw => exact first_of_operator (by decide) (.inr hw)
  | conditional hs hw =>
    have hall : ∀ p ∈ Build.conditionalJoins, p.1 ∈ operatorSymbols := by decide
    exact first_of_operator (hall _ hs) (.inr hw)

/-- A term starts with no letter, or with a relation name that an operator follows if anything does. -/
theorem Term.Writes.start {k : Nat} {t : Term} {us : List Lexeme} (h : Writes k t us) :
    ∃ w rest, us = w :: rest ∧ (isNameStart w.first = false ∨
      (∃ name, w.Names name) ∧ ∀ v ∈ rest.head?, v.first = '\\') := by
  induction h with
  | relation hw => exact ⟨_, [], rfl, .inr ⟨⟨_, hw⟩, nofun⟩⟩
  | @unary f t us ws hf _ _ =>
    obtain ⟨w, us, rfl⟩ := hf.exists_cons
    exact ⟨w, us ++ ws, rfl, .inl (by rw [hf.first]; rfl)⟩
  | parens _ _ => exact ⟨_, _, rfl, .inl rfl⟩
  | @binary k f t u ls os rs _ hf _ ih _ =>
    obtain ⟨w, rest, rfl, hw⟩ := ih
    refine ⟨w, rest ++ (os ++ rs), rfl, hw.imp_right fun ⟨hn, hv⟩ => ⟨hn, ?_⟩⟩
    cases rest with
    | nil =>
      obtain ⟨v, os, rfl⟩ := hf.exists_cons
      rintro _ ⟨⟩
      exact hf.first
    | cons v rest => exact hv
  | loose _ ih => exact ih

/-- Where the assignment is read a colon is ahead. -/
theorem head_of_assign {c : Cursor} {r : String × Cursor} (h : keyword (Lexicon.usual .assign) c = some r) :
    c.ahead.head? = some ':' := by
  have h' : (if (Lexicon.usual .assign).toList.isPrefixOf c.ahead && _ && _ then _ else none) = some r := h
  split at h'
  · rename_i hc
    simp only [Bool.and_eq_true] at hc
    obtain ⟨rest, ha⟩ := List.isPrefixOf_iff_prefix.mp hc.1.1
    rw [← ha]
    rfl
  · cases h'

/-- An assignment is not read where a term and the terminator are ahead. -/
theorem assignReader_eq_none {t : Term} {ws : List Lexeme} (h : t.Writes 3 ws) {c c' : Cursor}
    (hp : Passes (ws ++ [.mark ';' rfl]) c c') : Statement.assignReader .extended .standard c = none := by
  obtain ⟨w, rest, rfl, hw⟩ := h.start
  obtain ⟨d, h₁, hp⟩ := Passes.cons_iff.mp hp
  rcases hw with hw | ⟨⟨name, hname⟩, hv⟩
  · refine bind_of_none (name_eq_none ?_)
    rw [h₁.ahead]
    simpa [Lexeme.chars] using hw
  · -- behind the name stands an operator or the terminator, so neither new attributes nor the assignment
    obtain ⟨v, d', h₂, hfirst⟩ : ∃ v d', Past v d d' ∧ v.first ≠ '(' ∧ v.first ≠ ':' := by
      cases rest with
      | nil =>
        obtain ⟨d', h₂, -⟩ := Passes.cons_iff.mp hp
        exact ⟨_, d', h₂, by decide⟩
      | cons v rest =>
        obtain ⟨d', h₂, -⟩ := Passes.cons_iff.mp hp
        exact ⟨v, d', h₂, by rw [hv v rfl]; decide⟩
    have hd : d.ahead = v.first :: (v.others ++ d'.rest) := h₂.ahead
    have hattributes : UnaryOp.attributeNames .standard d = none :=
      attributeNames_eq_none (by rw [hd]; exact fun e => hfirst.1 (Option.some.inj e))
    have hassign : keyword (Lexicon.usual .assign) d = none := by
      cases hk : keyword (Lexicon.usual .assign) d with
      | none => rfl
      | some r =>
        have hcolon := head_of_assign hk
        rw [hd] at hcolon
        exact absurd (Option.some.inj hcolon) hfirst.2
    exact (bind_of_some (hname.name h₁)).trans
      ((bind_of_some (opt_of_none hattributes)).trans (bind_of_none hassign))

/-! ## Texts -/

/-- The end of a text is where nothing is ahead. -/
theorem atEnd_apply (c : Cursor) :
    atEnd c = if c.ahead = [] then some ((), c.skipWhile isBlank) else none := by
  show (if c.ahead.isEmpty = true then _ else _) = _
  cases c.ahead <;> rfl

/-- A value is what a whole text is read as if it is read off its start and only blanks are left. -/
theorem readText_eq_some_iff {α : Type} {p : Reader α} {a : α} {text : String} : readText p true text = some a ↔
    ∃ c', p (Cursor.start (Text.expandTabs text.toList)) = some (a, c') ∧ c'.ahead = [] := by
  have hread : readText p true text = ((do let a ← p; atEnd; pure a : Reader α)
      (Cursor.start (Text.expandTabs text.toList))).map (·.1) := rfl
  rw [hread]
  constructor
  · intro h
    cases hp : p (Cursor.start (Text.expandTabs text.toList)) with
    | none =>
      rw [bind_of_none hp] at h
      cases h
    | some r =>
      obtain ⟨b, c'⟩ := r
      rw [bind_of_some hp, bind_apply, atEnd_apply] at h
      by_cases hc : c'.ahead = []
      · rw [if_pos hc] at h
        cases h
        exact ⟨c', rfl, hc⟩
      · rw [if_neg hc] at h
        cases h
  · rintro ⟨c', hp, hc⟩
    rw [bind_of_some hp, bind_apply, atEnd_apply, if_pos hc]
    rfl

/-- A text is accepted just if statements are read off it to its end. -/
theorem parse_eq (level : Level) (text : String) :
    parse level .standard text = (readText (statements level .standard) true text).elim (.error .unreadable) .ok := by
  have hpieces : (Statement.pieces level).findSome? (Piece.problem? .standard) = none := by cases level <;> decide
  unfold parse readRule
  rw [hpieces]
  cases readText (statements level .standard) true text <;> rfl

/-- Every rule can be made where each symbol is set to a text with a character. -/
theorem problem?_eq_none {lex : Lexicon} (h : ∀ s, ∃ t : String, lex.setting s = .text t ∧ t.isEmpty = false) (piece : Piece) :
    piece.problem? lex = none := by
  have htext : ∀ s, (lex.setting s).isText = true := by
    intro s
    obtain ⟨t, ht, -⟩ := h s
    rw [ht]
    rfl
  cases piece with
  | keyword s | exactKeyword s | literal s | mark s =>
    obtain ⟨t, ht, hn⟩ := h s
    simp [Piece.problem?, Piece.keywordProblem?, Piece.exactKeywordProblem?, Piece.literalProblem?, Piece.markProblem?, ht, hn]
  | parentheses => simp [Piece.problem?, htext]
  | comparators => simp [Piece.problem?, Piece.choiceProblem?, htext]

/-- The statements of a text without tabs are those that are read off it to its end. -/
theorem parse_eq_ok_iff {level : Level} {lex : Lexicon} {text : String} {ss : List Statement}
    (hlex : ∀ s, ∃ t : String, lex.setting s = .text t ∧ t.isEmpty = false) (ht : '\t' ∉ text.toList) :
    parse level lex text = .ok ss ↔
      ∃ c', (do let ss ← statements level lex; atEnd; pure ss : Reader _) (Cursor.start text.toList) = some (ss, c') := by
  have hpieces : (Statement.pieces level).findSome? (Piece.problem? lex) = none := by
    rw [List.findSome?_eq_none_iff]
    exact fun piece _ => problem?_eq_none hlex piece
  have hread : readText (statements level lex) true text =
      ((do let ss ← statements level lex; atEnd; pure ss : Reader _) (Cursor.start text.toList)).map Prod.fst := by
    rw [readText, if_pos rfl, Text.expandTabs, Text.expandTabsFrom_of_not_mem 0 _ ht]
    rfl
  unfold parse readRule
  rw [hpieces, hread]
  cases (do let ss ← statements level lex; atEnd; pure ss : Reader _) (Cursor.start text.toList) with
  | none => simp
  | some r => simp [Prod.ext_iff]

/-- A text has words just if the level has statements and accepts it. -/
theorem Dialect.phrases_eq_ok_iff {level : Level} {lex : Lexicon} {text : String} {ps : List Phrase} :
    phrases ⟨level, lex⟩ text = .ok ps ↔
      level.includes .core = true ∧ ∃ ss, parse level lex text = .ok ss ∧ ps = ss.map Statement.phrase := by
  unfold phrases
  cases hl : level.includes .core with
  | false => simp
  | true =>
    cases hp : parse level lex text with
    | error e => simp [bind, Except.bind]
    | ok ss => simp [bind, Except.bind, pure, Except.pure, eq_comm]

/-- No statement is read where nothing is ahead. -/
theorem statementReader_of_end {level : Level} {c : Cursor} (hc : c.ahead = []) :
    Statement.reader level .standard c = none := by
  have hname : Reader.name c = none := name_eq_none (by rw [hc]; rfl)
  have hassign : Statement.assignReader level .standard c = none := bind_of_none hname
  have halgebra : Statement.algebraReader level .standard c = none :=
    bind_of_none ((longest_of_none_left hassign).trans (bind_of_none (Expression.reader_of_end hc)))
  have hliteral : ∀ s ∈ Symbol.dependencies, literalReader .standard s c = none := by
    intro s hs
    have hne : (Lexicon.usual s).toList.isPrefixOf [] = false := by revert s; decide
    have hmark : markReader .standard s c = none := by rw [markReader_apply, hc, hne]; rfl
    exact bind_of_none hmark
  have hdeclare : Statement.declareReader level .standard c = none := by
    refine bind_of_none (bind_of_none ?_)
    refine (orElse_of_none (bind_of_none (hliteral .primaryKey (by decide)))).trans ?_
    refine (orElse_of_none (bind_of_none (hliteral .multivalued (by decide)))).trans ?_
    refine (orElse_of_none (bind_of_none (hliteral .functional (by decide)))).trans ?_
    refine (orElse_of_none (bind_of_none (hliteral .inclusionEquivalence (by decide)))).trans ?_
    exact (orElse_of_none (bind_of_none (hliteral .inclusionSubsumption (by decide)))).trans rfl
  unfold Statement.reader
  split
  · exact (orElse_of_none hdeclare).trans halgebra
  · exact halgebra

/-- A text that writes a term is read as one statement, whose expression stands for the term. -/
theorem parse_of_writes {t : Term} {ws : List Lexeme} {text : String} (h : t.Writes 3 ws)
    (hl : Laid (ws ++ [.mark ';' rfl]) text.toList) :
    ∃ e : Expression, parse .extended .standard text = .ok [.query e] ∧ e.Denotes .extended t := by
  obtain ⟨c', hp, hend⟩ := exists_passes (hl.expandTabs 0) (show (Cursor.start _).rest = _ from rfl) rfl
  have hassign := assignReader_eq_none h hp
  obtain ⟨d, h₁, hp⟩ := Passes.append.mp hp
  obtain ⟨d', h₂, hp⟩ := Passes.cons_iff.mp hp
  cases hp
  obtain ⟨e, he, hd⟩ := Expression.reader_of_writes h h₁ h₂ rfl
  refine ⟨e, ?_, hd⟩
  have hstatement : Statement.reader .extended .standard (Cursor.start (Text.expandTabs text.toList))
      = some (.query e, c') :=
    (bind_of_some ((longest_of_none_left hassign).trans (bind_of_some he))).trans
      (bind_of_some (markReader_of_past h₂ rfl))
  have hahead := ahead_of_blanks hend
  have hmany : many (Statement.reader .extended .standard) c' = some ([], c') :=
    many_of_runs (.nil c') (statementReader_of_end hahead)
  have hs : statements .extended .standard (Cursor.start (Text.expandTabs text.toList)) = some ([.query e], c') :=
    (bind_of_some hstatement).trans (bind_of_some hmany)
  have hread : readText (statements .extended .standard) true text = some [.query e] :=
    readText_eq_some_iff.mpr ⟨c', hs, hahead⟩
  rw [parse_eq, hread]
  rfl

namespace Build

/-- Running what makes one node more of nothing is running it. -/
theorem attempt_single (b : Build Node) (w : Workspace) :
    ((do let n ← b; return [n] : Build (List Node)).attempt w).1 = (b.attempt w).1.map fun n => [n] := by
  rcases h : (ExceptT.run b).run w with ⟨_ | n, v⟩ <;> simp [attempt, h] <;> rfl

end Build

/-- Every text that writes a term is accepted, and the tree made of it is the node of the term, or it fails as making that
node fails. -/
theorem forest_of_writes (schema : Schema) {t : Term} {ws : List Lexeme} {text : String} (ht : t.Writes 3 ws)
    (hl : Laid (ws ++ [.mark ';' rfl]) text.toList) :
    (∃ e : Expression, parse .extended .standard text = .ok [.query e]) ∧
      Dialect.forest ⟨.extended, .standard⟩ schema text
        = ((t.build).attempt (.start schema)).1.map fun n => [n] := by
  obtain ⟨e, he, hd⟩ := parse_of_writes ht hl
  refine ⟨⟨e, he⟩, ?_⟩
  have hnodes : Build.program .extended .standard text = do let n ← t.build; return [n] := by
    rw [Build.program, he, ← Build.node_phrase e hd]
    rfl
  show ((Build.program .extended .standard text).attempt (.start schema)).1 = _
  rw [hnodes, Build.attempt_single]

/-- Operators of all ranks, a join with a condition, parentheses that are needed, a tab, and words that touch marks. -/
def mixedText : String := "a \\union \\project_\x7b X\x7d (b \\join_\x7bx='y'\x7d C)\t\\intersect d;"

/-- What the text means: the union is outermost, and the intersection is its right operand. -/
def mixedTerm : Term :=
  .combine .union (.relation "a")
    (.combine .intersect
      (.project ["x"]
        (.join (.conditional .theta (.binary .equal (.operand "x") (.operand "'y'"))) (.relation "b") (.relation "c")))
      (.relation "d"))

/-- The lexeme of a first character and the letters after it. -/
def Lexeme.spelled (first : Char) (letters : String) (hv : isBlank first = false)
    (ht : letters.toList.contains '\t' = false) : Lexeme :=
  ⟨first, letters.toList, hv, fun hm => Bool.false_ne_true (ht.symm.trans (List.contains_iff_mem.mpr hm))⟩

/-- A word that starts with a backslash. -/
def backslashed (letters : String) (h : letters.toList.contains '\t' = false) : Lexeme := .spelled '\\' letters rfl h

theorem isBlank_parenLeft : isBlank '(' = false := rfl

theorem isBlank_parenRight : isBlank ')' = false := rfl

/-- The lexemes of the text. -/
def mixedLexemes : List Lexeme :=
  [.mark 'a' rfl, backslashed "union" rfl, backslashed "project_\x7b" rfl, .mark 'X' rfl, .mark '\x7d' rfl,
    .mark '(' isBlank_parenLeft, .mark 'b' rfl, backslashed "join_\x7b" rfl, .mark 'x' rfl, .mark '=' rfl,
    .spelled '\'' "y'" rfl rfl, .mark '\x7d' rfl, .mark 'C' rfl, .mark ')' isBlank_parenRight,
    backslashed "intersect" rfl, .mark 'd' rfl]

theorem mixedTerm_writes : mixedTerm.Writes 3 mixedLexemes := by
  have ha : (Lexeme.mark 'a' rfl).Names "a" := ⟨by decide, by decide⟩
  have hb : (Lexeme.mark 'b' rfl).Names "b" := ⟨by decide, by decide⟩
  have hc : (Lexeme.mark 'C' rfl).Names "c" := ⟨by decide, by decide⟩
  have hd : (Lexeme.mark 'd' rfl).Names "d" := ⟨by decide, by decide⟩
  have hx : (Lexeme.mark 'x' rfl).Names "x" := ⟨by decide, by decide⟩
  have hX : (Lexeme.mark 'X' rfl).Names "x" := ⟨by decide, by decide⟩
  have hy : (Lexeme.spelled '\'' "y'" rfl rfl).IsOperand "'y'" :=
    @Lexeme.IsOperand.quoted _ ['y'] rfl (.plain (by decide) .nil)
  have hcondition : Condition.Writes 0 (.binary .equal (.operand "x") (.operand "'y'")) [.mark 'x' rfl, .mark '=' rfl, _] :=
    .compare (s := .equal) (.reference (.name hx)) (by decide) (by decide) rfl hy
  have hjoin := Term.Writes.binary (.loose (.relation hb))
    (.theta (w := backslashed "join_\x7b" rfl) ⟨"\\join".toList, rfl, rfl⟩ (.loose hcondition)) (.relation hc)
  have hproject := Term.Writes.unary
    (.project (w := backslashed "project_\x7b" rfl) ⟨"\\project".toList, rfl, rfl⟩ (.single (.name hX)))
    (.parens (.loose (.loose hjoin)))
  have hmeet := Term.Writes.binary (.loose (.loose hproject)) (.intersect (w := backslashed "intersect" rfl) rfl)
    (.loose (.relation hd))
  exact .binary (.loose (.loose (.loose (.relation ha)))) (.union (w := backslashed "union" rfl) rfl) hmeet

theorem forest_of_mixedText : mixedTerm.Writes 3 mixedLexemes ∧ Laid (mixedLexemes ++ [.mark ';' rfl]) mixedText.toList ∧
    (∃ e : Expression, parse .extended .standard mixedText = .ok [.query e]) ∧
      Dialect.forest ⟨.extended, .standard⟩ [("a", ["x"]), ("b", ["x"]), ("c", ["y"]), ("d", ["x"])] mixedText
        = ((mixedTerm.build).attempt (.start [("a", ["x"]), ("b", ["x"]), ("c", ["y"]), ("d", ["x"])])).1.map
          fun n => [n] := by
  have hl : Laid (mixedLexemes ++ [.mark ';' rfl]) mixedText.toList := by decide +kernel
  exact ⟨mixedTerm_writes, hl, forest_of_writes _ mixedTerm_writes hl⟩

end RelAlg
