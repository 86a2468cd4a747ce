import RelAlg.Proofs.Reader.SinglyQuoted
import RelAlg.Proofs.Reader.Statement
import RelAlg.Proofs.Sql.ConditionText

/-!
# SQL conditions that are read again

SQL writes a condition of the core language with parentheses around every comparison and every link, so its text is a layout
of lexemes that write the condition (`Condition.Printed`). Where all operands spell themselves these are the lexemes that the
reader takes off the text, and it finds the same condition. Main statement: `condition_of_sqlText`.
-/

namespace RelAlg

open Reader Surface Cursor

/-! ## Layouts with more text behind them -/

/-- A blank may stand before a layout. -/
theorem Laid.blank {ws : List Lexeme} {text : List Char} (h : Laid ws text) : Laid ws (' ' :: text) := by
  cases h with
  | nil hg => exact .nil hg
  | @cons gap rest w ws hg hp hr => exact @Laid.cons (' ' :: gap) rest w ws hg hp hr

/-- A lexeme may stand right before a layout if it is parted from it. -/
theorem Laid.next {w : Lexeme} {ws : List Lexeme} {text : List Char} (hp : parted w.chars.getLast? text = true)
    (h : Laid ws text) : Laid (w :: ws) (w.chars ++ text) :=
  @Laid.cons [] text w ws rfl hp h

/-- The text is a layout of the lexemes also where a layout follows that starts with a blank or a closing parenthesis. -/
def LaidBefore (ws : List Lexeme) (text : List Char) : Prop :=
  ∀ vs rest, Stops rest → Laid vs rest → Laid (ws ++ vs) (text ++ rest)

theorem parted_of_stops {rest : List Char} (before : Option Char) (h : Stops rest) : parted before rest = true := by
  have hb : rest.head?.all isBreak = true := by
    cases hr : rest.head? with
    | none => rfl
    | some x =>
      rcases h x hr with rfl | rfl
      · rfl
      · rfl
  rw [parted, hb, Bool.or_true]

theorem laidBefore_lexeme (w : Lexeme) : LaidBefore [w] w.chars := by
  intro vs rest hs h
  exact h.next (parted_of_stops _ hs)

/-- Two parts with an operator between them, all between parentheses. -/
theorem laidBefore_binary {ls rs : List Lexeme} {l r : List Char} {o : Lexeme} (hl : LaidBefore ls l)
    (hr : LaidBefore rs r) {vs : List Lexeme} {rest : List Char} (h : Laid vs rest) :
    Laid (.mark '(' rfl :: (ls ++ o :: (rs ++ .mark ')' rfl :: vs)))
      ('(' :: (l ++ ' ' :: (o.chars ++ ' ' :: (r ++ ')' :: rest)))) := by
  have hclose : Laid (.mark ')' rfl :: vs) (')' :: rest) := h.next (w := .mark ')' rfl) rfl
  have hright := (hr _ _ (stops_paren rest) hclose).blank
  have hop : Laid (o :: (rs ++ .mark ')' rfl :: vs)) (o.chars ++ ' ' :: (r ++ ')' :: rest)) :=
    hright.next (parted_of_stops _ (stops_blank _))
  exact (hl _ _ (stops_blank _) hop.blank).next (w := .mark '(' rfl) rfl

/-! ## Conditions as SQL writes them -/

namespace Condition

/-- The lexemes write the condition, which is one of the core language, and its SQL text is a layout of them. -/
structure Printed (c : Condition) (ws : List Lexeme) : Prop where
  isWritten : c.IsWritten
  hasTest : c.hasTest = false
  writes : c.Writes 0 ws
  laid : LaidBefore ws c.sqlText.toList

/-- SQL spells a comparison as one of the symbols that are read. -/
theorem exists_comparator {k : Connective} (h : k.isComparison = true) : ∃ (s : Symbol) (o : Lexeme),
    s ∈ comparatorSymbols ∧ (s, k) ∈ Connective.binarySymbols ∧ o.chars = (Lexicon.usual s).toList ∧
      o.chars = k.sqlWord.toList := by
  cases k with
  | not | defined | and | or => cases h
  | equal => exact ⟨.equal, ⟨'=', [], rfl, by decide⟩, by decide, by decide, rfl, rfl⟩
  | notEqual => exact ⟨.notEqual, ⟨'!', ['='], rfl, by decide⟩, by decide, by decide, rfl, rfl⟩
  | less => exact ⟨.less, ⟨'<', [], rfl, by decide⟩, by decide, by decide, rfl, rfl⟩
  | lessEqual => exact ⟨.lessEqual, ⟨'<', ['='], rfl, by decide⟩, by decide, by decide, rfl, rfl⟩
  | greater => exact ⟨.greater, ⟨'>', [], rfl, by decide⟩, by decide, by decide, rfl, rfl⟩
  | greaterEqual => exact ⟨.greaterEqual, ⟨'>', ['='], rfl, by decide⟩, by decide, by decide, rfl, rfl⟩

/-- SQL spells a link in capital letters. -/
theorem exists_linkWord {k : Connective} (h : k = .and ∨ k = .or) : ∃ (s : Symbol) (w : Lexeme),
    (s, k) ∈ Connective.linkSymbols ∧ w.Spells s ∧ w.chars = k.sqlWord.toList := by
  rcases h with rfl | rfl
  · exact ⟨.and, ⟨'A', ['N', 'D'], rfl, by decide⟩, by decide, rfl, rfl⟩
  · exact ⟨.or, ⟨'O', ['R'], rfl, by decide⟩, by decide, rfl, rfl⟩

theorem printed_compare {k : Connective} {x y : Operand} (hk : k.isComparison = true) (hx : x.SpellsItself)
    (hy : y.SpellsItself) (hxo : IsOperand x.text) (hyo : IsOperand y.text) :
    ∃ ws, (binary k (operand x.text) (operand y.text)).Printed ws := by
  obtain ⟨l, hlc, hl⟩ := hx
  obtain ⟨r, hrc, hr⟩ := hy
  obtain ⟨s, o, hs, hop, hoc, how⟩ := exists_comparator hk
  refine ⟨_, .compare hk hxo hyo, rfl, .parens (.loose (.compare hl hs hop hoc hr)), ?_⟩
  intro vs rest _ h
  rw [toList_binary, sqlText, sqlText, ← hlc, ← hrc, ← how]
  exact laidBefore_binary (laidBefore_lexeme l) (laidBefore_lexeme r) h

theorem Printed.link {k : Connective} {c d : Condition} {ls rs : List Lexeme} (hl : c.Printed ls)
    (hk : k = .and ∨ k = .or) (hr : d.Printed rs) : ∃ ws, (binary k c d).Printed ws := by
  obtain ⟨s, w, hop, hw, hwc⟩ := exists_linkWord hk
  refine ⟨_, .link hk hl.isWritten hr.isWritten, ?_, .parens (.link hl.writes hop hw (.loose hr.writes)), ?_⟩
  · rw [Condition.hasTest, hl.hasTest, hr.hasTest]
    rfl
  · intro vs rest _ h
    have hlaid := laidBefore_binary (o := w) hl.laid hr.laid h
    rw [toList_binary, ← hwc]
    simpa using hlaid

theorem Printed.negate {c : Condition} {ws : List Lexeme} (h : c.Printed ws) : ∃ vs, (unary .not c).Printed vs := by
  refine ⟨_, .negate h.isWritten, h.hasTest, .negate (w := ⟨'N', ['O', 'T'], rfl, by decide⟩) rfl h.writes, ?_⟩
  intro vs rest hs hlaid
  rw [toList_not]
  exact (h.laid vs rest hs hlaid).blank.next (w := ⟨'N', ['O', 'T'], rfl, by decide⟩) (parted_of_stops _ (stops_blank _))

end Condition

/-- A clause of the core language whose operands spell themselves stands for a condition that SQL writes with lexemes that
write it. -/
theorem Surface.Clause.IsSpelled.exists_printed {clause : Clause} (hs : clause.IsSpelled .core)
    (ho : clause.Over Operand.SpellsItself) : ∃ c ws, clause.Denotes c ∧ c.Printed ws := by
  induction hs with
  | @compare left right op hl hop hr =>
    obtain ⟨k, hk, hb⟩ := exists_comparison hop
    obtain ⟨ws, hw⟩ := Condition.printed_compare hk (ho left (by simp [operands])) (ho right (by simp [operands])) hl hr
    exact ⟨_, ws, denotes_compare hb, hw⟩
  | defined hl _ => cases hl
  | negate _ ih =>
    obtain ⟨c, ws, hd, hw⟩ := ih ho
    obtain ⟨vs, hv⟩ := hw.negate
    exact ⟨_, vs, hd.negate, hv⟩
  | link _ hop _ ihl ihr =>
    obtain ⟨c, ls, hdl, hl⟩ := ihl fun o h => ho o (List.mem_append_left _ h)
    obtain ⟨d, rs, hdr, hr⟩ := ihr fun o h => ho o (List.mem_append_right _ h)
    obtain ⟨k, hk, hb⟩ := exists_link hop
    obtain ⟨ws, hw⟩ := hl.link hk hr
    exact ⟨_, ws, hdl.link hdr hb, hw⟩

/-! ## Reading the text of a condition -/

/-- A clause is what a text is if it is read off its start and only blanks are left. -/
theorem Surface.Clause.parse_eq_ok_iff {text : String} {clause : Clause} : Clause.parse .core .standard text = .ok clause ↔
    ∃ c', Clause.reader .core .standard (Cursor.start (Text.expandTabs text.toList)) = some (clause, c') ∧
      c'.ahead = [] := by
  have hpieces : (Clause.pieces .core).findSome? (Piece.problem? .standard) = none := by decide
  rw [← readText_eq_some_iff]
  unfold Clause.parse readRule
  rw [if_pos (show Level.core.includes .condition = true from rfl), hpieces]
  cases readText (Clause.reader .core .standard) true text <;> simp

/-- The condition is read off its own SQL text. -/
theorem Condition.Printed.parse {c : Condition} {ws : List Lexeme} (h : c.Printed ws) :
    ∃ clause, Clause.parse .core .standard c.sqlText = .ok clause ∧ clause.Denotes c := by
  have hlaid : Laid ws c.sqlText.toList := by
    have hend := h.laid [] [] stops_nil (.nil rfl)
    rwa [List.append_nil, List.append_nil] at hend
  obtain ⟨c', hp, hblank⟩ := exists_passes (hlaid.expandTabs 0) (show (Cursor.start _).rest = _ from rfl) rfl
  have hahead := ahead_of_blanks hblank
  have hto : Clause.ReadTo (Clause.tightReader .core .standard) _ c' 1 c :=
    Clause.readTo_of_writes (.loose h.writes) (fun ht => absurd (h.hasTest.symm.trans ht) (by decide)) (.refl _ _) hp
  obtain ⟨clause, hread, hd⟩ := hto.linkedReader (by rw [hahead]; rfl)
  exact ⟨clause, Clause.parse_eq_ok_iff.mpr ⟨c', hread, hahead⟩, hd⟩

/-- A condition of the core language whose literals are all between single quotes is read again from its SQL text: the text is
accepted, and it stands for the same condition, with the same references. -/
theorem condition_of_sqlText (text : String) (clause : Clause) (hq : singlyQuoted .outside text.toList = true)
    (h : Clause.parse .core .standard text = .ok clause) :
    ∃ (c c' : Condition) (p : Sql.Predicate) (clause' : Clause),
      Condition.ofPhrase .read .standard clause.phrase = .ok c ∧ Sql.Predicate.ofCondition c = .ok p ∧
      Clause.parse .core .standard p.text = .ok clause' ∧
      Condition.ofPhrase .read .standard clause'.phrase = .ok c' ∧ c' = c ∧ c'.references = c.references := by
  obtain ⟨c', hread, -⟩ := Clause.parse_eq_ok_iff.mp h
  have hexpanded : singlyQuoted .outside (Text.expandTabs text.toList) = true :=
    (singlyQuoted_expandTabs .outside 0 text.toList).trans hq
  have hover := over_spellsItself hexpanded (not_mem_expandTabs 0 text.toList) hread
  obtain ⟨c, ws, hd, hp⟩ := (Clause.gives_spelled .core _ _ _ hread).exists_printed hover
  obtain ⟨p, hpred⟩ := Sql.Predicate.exists_ofCondition hp.isWritten
  obtain ⟨clause', hparse, hd'⟩ := hp.parse
  refine ⟨c, c, p, clause', hd, hpred, ?_, hd', rfl, rfl⟩
  rw [Condition.text_of_writes (Sql.Predicate.writes_of_ofCondition hpred)]
  exact hparse

/-- A negation of an attribute named like it, a literal that holds both kinds of quotes, and two spellings of one comparison. -/
theorem condition_of_sqlText_nested : ∃ (clause clause' : Clause) (c : Condition) (p : Sql.Predicate),
    Clause.parse .core .standard "not Not=1 and (A.x <> 'say \"it''s\"' or\ty!=-2.5)" = .ok clause
    ∧ Condition.ofPhrase .read .standard clause.phrase = .ok c ∧ Sql.Predicate.ofCondition c = .ok p
    ∧ p.text = "(NOT (not = 1) AND ((a.x != 'say \"it''s\"') OR (y != -2.5)))"
    ∧ Clause.parse .core .standard p.text = .ok clause'
    ∧ Condition.ofPhrase .read .standard clause'.phrase = .ok c := by
  obtain ⟨clause, hclause, htext⟩ := exists_ok_of_any
    (x := Clause.parse .core .standard "not Not=1 and (A.x <> 'say \"it''s\"' or\ty!=-2.5)")
    (p := fun clause => ((Condition.ofPhrase .read .standard clause.phrase).bind Sql.Predicate.ofCondition).toOption.any
      fun p => p.text = "(NOT (not = 1) AND ((a.x != 'say \"it''s\"') OR (y != -2.5)))") (by decide +kernel)
  obtain ⟨c, c', p, clause', hc, hp, hagain, hc', rfl, -⟩ := condition_of_sqlText _ clause (by decide) hclause
  rw [hc] at htext
  simp only [Except.bind, hp, Except.toOption, Option.any_some, decide_eq_true_eq] at htext
  exact ⟨clause, clause', c', p, hclause, hc, hp, htext, hagain, hc'⟩

end RelAlg
