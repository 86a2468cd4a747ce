import RelAlg.Surface.Rule
import RelAlg.Proofs.Compared
import RelAlg.Proofs.Reader.Alike
import RelAlg.Proofs.Reader.SinglyQuoted
import RelAlg.Proofs.Reader.Statement

/-!
# Conditions read off whole texts

The rule for conditions accepts every layout of lexemes that write a condition, and its words are those of that condition
(`condition_of_layout`); an attribute may be named like any word of the language. The attribute references of a text can be
had in two ways: from the reader, which knows an operand's kind when it reads it (`attributeReferences`), or from the
condition, whose operands are only texts (`Condition.references`). Both agree, since the kind of an operand that was read
shows in its text (`Operand.IsEvident`).
-/

namespace RelAlg

open Reader Surface Cursor

/-! ## Rules on whole texts -/

/-- What a rule reads off a whole text, where every piece of it can be made. -/
theorem Surface.Rule.read_eq_ok_iff {level : Level} {lex : Lexicon} {title text : String} {rule : Rule} {ps : List Phrase}
    (hf : find? level title = some rule) (hp : (rule.pieces level).findSome? (Piece.problem? lex) = none) :
    read level lex title true text = .ok ps ↔
      ∃ c', rule.reader level lex (Cursor.start (Text.expandTabs text.toList)) = some (ps, c') ∧ c'.ahead = [] := by
  rw [← readText_eq_some_iff]
  unfold read readRule
  simp only [hf, hp]
  cases readText (rule.reader level lex) true text <;> simp

/-- The title of the rule for conditions. -/
def conditionsTitle : String := "conditions"

/-- The rule for conditions reads one clause and gives its words. -/
theorem readConditions_eq_ok_iff {level : Level} (hl : level.includes .condition = true) {text : String} {ps : List Phrase} :
    Rule.read level .standard conditionsTitle true text = .ok ps ↔
      ∃ clause c', Clause.reader level .standard (Cursor.start (Text.expandTabs text.toList)) = some (clause, c') ∧
        c'.ahead = [] ∧ ps = [clause.phrase] := by
  have hfind : Rule.find? level conditionsTitle = some ⟨conditionsTitle, .condition, Clause.pieces,
      fun level lex => Rule.words (Clause.reader level lex) fun c => [c.phrase]⟩ := by
    cases level with
    | base => cases hl
    | condition | core | extended | dependency => rfl
  have hpieces : (Clause.pieces level).findSome? (Piece.problem? .standard) = none := by cases level <;> decide
  rw [Rule.read_eq_ok_iff hfind hpieces]
  constructor
  · rintro ⟨c', hread, hend⟩
    obtain ⟨clause, d, hc, hs⟩ := bind_eq_some hread
    obtain ⟨rfl, rfl⟩ := Prod.mk.inj (Option.some.inj hs)
    exact ⟨clause, d, hc, hend, rfl⟩
  · rintro ⟨clause, c', hc, hend, rfl⟩
    exact ⟨c', bind_of_some hc, hend⟩

/-! ## Layouts of conditions -/

/-- However a condition is written, with the parentheses that it needs and any others, the rule for conditions of the
extended language accepts the whole text, and its words are those of that condition. -/
theorem condition_of_layout {c : Condition} {ws : List Lexeme} {text : String} (hw : c.Writes 1 ws)
    (hl : Laid ws text.toList) : ∃ p, Rule.read .extended .standard conditionsTitle true text = .ok [p] ∧
      Condition.ofPhrase .read .standard p = .ok c := by
  obtain ⟨c', hp, hblank⟩ := exists_passes (hl.expandTabs 0) (show (Cursor.start _).rest = _ from rfl) rfl
  have hend := ahead_of_blanks hblank
  have hto : Clause.ReadTo (Clause.tightReader .extended .standard) _ c' 1 c :=
    Clause.readTo_of_writes hw (fun _ => rfl) (.refl _ _) hp
  obtain ⟨clause, hread, hd⟩ := hto.linkedReader (by rw [hend]; rfl)
  exact ⟨clause.phrase, (readConditions_eq_ok_iff rfl).mpr ⟨clause, c', hread, hend, rfl⟩, hd⟩

/-- Every attribute in the text is named like a word of the language. -/
def keywordText : String := "not not=1 And\t((defined(or) OR and.Not <> 'it''s')) or not NOT Defined>=-2.5 "

/-- The condition of the text. -/
def keywordCondition : Condition :=
  .binary .and (.unary .not (.binary .equal (.operand "not") (.operand "1")))
    (.binary .or
      (.binary .or (.unary .defined (.operand "or")) (.binary .notEqual (.operand "and.not") (.operand "'it''s'")))
      (.unary .not (.unary .not (.binary .greaterEqual (.operand "defined") (.operand "-2.5")))))

theorem keywordText_laid : ∃ ws, keywordCondition.Writes 1 ws ∧ Laid ws keywordText.toList := by
  have hone : (Lexeme.mark '1' rfl).IsOperand "1" :=
    .number ⟨[], by decide, ['1'], rfl, .whole (List.forall_mem_singleton.mpr rfl) (by decide)⟩
  have hnegative : (Lexeme.spelled '-' "2.5" rfl rfl).IsOperand "-2.5" :=
    .number ⟨['-'], by decide, "2.5".toList, rfl, @IsUnsigned.fraction ['2'] ['5']
      (List.forall_mem_singleton.mpr rfl) (List.forall_mem_singleton.mpr rfl) (by decide)⟩
  have hquoted : (Lexeme.spelled '\'' "it''s'" rfl rfl).IsOperand "'it''s'" :=
    @Lexeme.IsOperand.quoted _ "it''s".toList rfl
      (.plain (by decide) (.plain (by decide) (.pair (by decide) (.plain (by decide) .nil))))
  have hfirst : Condition.Writes 0 (.unary .not (.binary .equal (.operand "not") (.operand "1")))
      [.spelled 'n' "ot" rfl rfl, .spelled 'n' "ot" rfl rfl, .mark '=' rfl, .mark '1' rfl] :=
    .negate rfl (.compare (s := .equal) (.reference (.name ⟨by decide, by decide⟩)) (by decide) (by decide) rfl hone)
  have hdefined : Condition.Writes 0 (.unary .defined (.operand "or"))
      [.spelled 'd' "efined" rfl rfl, .mark '(' rfl, .spelled 'o' "r" rfl rfl, .mark ')' rfl] :=
    .defined rfl (.reference (.name ⟨by decide, by decide⟩))
  have hother : Condition.Writes 0 (.binary .notEqual (.operand "and.not") (.operand "'it''s'"))
      [.spelled 'a' "nd.Not" rfl rfl, .spelled '<' ">" rfl rfl, .spelled '\'' "it''s'" rfl rfl] :=
    .compare (s := .notEqualAlt) (.reference (@Lexeme.Refers.qualified _ "and".toList "Not".toList rfl rfl rfl))
      (by decide) (by decide) rfl hquoted
  have hlast : Condition.Writes 0 (.unary .not (.unary .not (.binary .greaterEqual (.operand "defined") (.operand "-2.5"))))
      [.spelled 'n' "ot" rfl rfl, .spelled 'N' "OT" rfl rfl, .spelled 'D' "efined" rfl rfl, .spelled '>' "=" rfl rfl,
        .spelled '-' "2.5" rfl rfl] :=
    .negate rfl (.negate rfl
      (.compare (s := .greaterEqual) (.reference (.name ⟨by decide, by decide⟩)) (by decide) (by decide) rfl hnegative))
  have hand : (Symbol.and, Connective.and) ∈ Connective.linkSymbols := by decide
  have hor : (Symbol.or, Connective.or) ∈ Connective.linkSymbols := by decide
  have hgroup := Condition.Writes.parens (.loose (.parens (.link (w := .spelled 'O' "R" rfl rfl) hdefined hor rfl
    (.loose hother))))
  have hall := Condition.Writes.link (w := .spelled 'A' "nd" rfl rfl) hfirst hand rfl
    (.link (w := .spelled 'o' "r" rfl rfl) hgroup hor rfl (.loose hlast))
  exact ⟨_, hall, by decide +kernel⟩

theorem condition_of_keywords : ∃ ws, keywordCondition.Writes 1 ws ∧ Laid ws keywordText.toList ∧
    ∃ p, Rule.read .extended .standard conditionsTitle true keywordText = .ok [p] ∧
      Condition.ofPhrase .read .standard p = .ok keywordCondition := by
  obtain ⟨ws, hw, hl⟩ := keywordText_laid
  exact ⟨ws, hw, hl, condition_of_layout hw hl⟩

/-! ## Attribute references -/

namespace Surface

/-- The kind of the operand shows in its text: it was read as a reference just if its text looks like one. -/
def Operand.IsEvident (o : Operand) : Prop := o.references = [o.text].filter Condition.isReference

/-- A text between quotes does not look like a reference. -/
theorem gives_quoted_isReference : quoted.Gives fun s => Condition.isReference s = false := by
  refine gives_quoted.mono fun s h => ?_
  obtain ⟨body, rfl⟩ := h
  exact isReference_of_head (c := '\'') (by simp) (by decide)

/-- A numeral does not look like a reference. -/
theorem gives_number_isReference : number.Gives fun s => Condition.isReference s = false := by
  refine gives_number.mono fun s h => ?_
  obtain ⟨c, cs, hs⟩ : ∃ c cs, s.toList = c :: cs := by
    obtain ⟨sign, -, ds, hs, hd⟩ := h
    exact List.exists_cons_of_ne_nil (by simp [hs, hd.ne_nil])
  have hc : isNumeralChar c = true := h.isNumeralChar c (by simp [hs])
  refine isReference_of_head (c := c) (by simp [hs]) ?_
  exact of_toNat_lt (P := fun c => isNumeralChar c = true → Condition.startsReference c = false) (by decide)
    (toNat_lt_of_isNumeralChar hc) hc

/-- The kind of every operand that is read shows in its text. -/
theorem gives_evident : Operand.reader.Gives Operand.IsEvident := by
  refine gives_firstOf fun p hp => ?_
  simp only [List.mem_cons, List.not_mem_nil, or_false] at hp
  rcases hp with rfl | rfl | rfl
  · refine gives_bind gives_reference fun s h => gives_pure ?_
    simp [Operand.IsEvident, Operand.references, Operand.text, h.2]
  · refine gives_bind gives_quoted_isReference fun s h => gives_pure ?_
    simp [Operand.IsEvident, Operand.references, Operand.text, h]
  · refine gives_bind gives_number_isReference fun s h => gives_pure ?_
    simp [Operand.IsEvident, Operand.references, Operand.text, h]

namespace Clause

variable {ψ : Operand → Prop}

/-- What holds of the operands of tight clauses holds of those of linked ones. -/
theorem gives_over_linked {tight : Reader Clause} (h : tight.Gives (Over ψ)) : (linkedReader .standard tight).Gives (Over ψ) := by
  have hp : (do let op ← linker .standard; let next ← tight; pure (op, next) : Reader (String × Clause)).Gives
      fun p => p.2.Over ψ := gives_skip fun op => gives_bind h fun next hn => gives_pure hn
  exact gives_bind h fun first hf => gives_bind (gives_many hp) fun others ho => gives_pure (over_linkAll hf ho)

/-- What holds of operands holds of those of a comparison or a test. -/
theorem gives_over_simple (h : Operand.reader.Gives ψ) (level : Level) : (simple level .standard).Gives (Over ψ) := by
  have hcompare : (comparison .standard).Gives (Over ψ) :=
    gives_bind h fun l hl => gives_skip fun op => gives_bind h fun r hr => gives_pure (by simp [Over, operands, hl, hr])
  have htest : (definedTest .standard).Gives (Over ψ) :=
    gives_skip fun op => gives_skip fun _ => gives_bind h fun o ho => gives_skip fun _ =>
      gives_pure (by simp [Over, operands, ho])
  unfold simple
  split
  · exact gives_orElse hcompare htest
  · exact hcompare

/-- What holds of every operand that is read holds of the operands of every clause that is read. -/
theorem gives_over (h : Operand.reader.Gives ψ) (level : Level) : (reader level .standard).Gives (Over ψ) := by
  refine gives_over_linked (gives_recursive fun tight ht => gives_orElse ?_
    (gives_orElse (gives_over_simple h level) (gives_parenthesized (gives_over_linked ht))))
  exact gives_skip fun op => gives_bind ht fun body hb => gives_pure hb

/-- The references of a clause are those of its operands. -/
theorem references_eq_flatMap (clause : Clause) : clause.references = clause.operands.flatMap Operand.references := by
  induction clause with
  | compare left op right => simp [references, operands]
  | defined op operand => simp [references, operands]
  | negate op body ih => exact ih
  | link left op right ihl ihr => simp [references, operands, ihl, ihr]

end Clause

end Surface

/-- The references of a condition are the operands that look like references. -/
theorem Condition.references_eq_filter (c : Condition) : c.references = c.operands.filter isReference := by
  induction c with
  | operand text => simp [references, operands, List.filter_cons]
  | unary op child ih => exact ih
  | binary op left right ihl ihr => simp [references, operands, ihl, ihr]

/-- A clause with evident operands has the references of the condition that it stands for. -/
theorem Surface.Clause.Denotes.references_eq {clause : Clause} {c : Condition} (h : clause.Denotes c)
    (ho : clause.Over Operand.IsEvident) : clause.references = c.references := by
  calc clause.references
      = clause.operands.flatMap Operand.references := clause.references_eq_flatMap
    _ = clause.operands.flatMap fun o => [o.text].filter Condition.isReference := List.flatMap_congr ho
    _ = (clause.operands.map Operand.text).filter Condition.isReference := by
      rw [List.map_eq_flatMap, List.filter_flatMap]
    _ = c.references := by rw [c.references_eq_filter, h.operands_eq]

/-- For every text that the rule for conditions accepts, the references that the reader gives are those of the condition. -/
theorem attributeReferences_eq_references {text : String} {ps : List Phrase}
    (h : Rule.read .condition .standard conditionsTitle true text = .ok ps) :
    ∃ p c, ps = [p] ∧ Condition.ofPhrase .read .standard p = .ok c ∧ attributeReferences text = some c.references := by
  obtain ⟨clause, c', hread, -, rfl⟩ := (readConditions_eq_ok_iff rfl).mp h
  obtain ⟨c, hd, -⟩ := Clause.gives_reader .condition _ _ _ hread
  refine ⟨clause.phrase, c, rfl, hd, ?_⟩
  rw [attributeReferences, readStart, hread, ← hd.references_eq (Clause.gives_over gives_evident .condition _ _ _ hread)]
  rfl

/-- References with a point and without, numbers with a sign and a point, and quoted texts that look like references. -/
def mixedConditions : String := "not (R.A <> 'b.c' or -2.5 >= x_2) and Not=+.5 or \"d\"=d"

theorem attributeReferences_of_mixed : ∃ ps, Rule.read .condition .standard conditionsTitle true mixedConditions = .ok ps ∧
    ∃ p c, ps = [p] ∧ Condition.ofPhrase .read .standard p = .ok c ∧ attributeReferences mixedConditions = some c.references ∧
      c.references = ["r.a", "x_2", "not", "d"] := by
  obtain ⟨ps, hps, -⟩ := exists_ok_of_any (p := fun _ => true)
    (x := Rule.read .condition .standard conditionsTitle true mixedConditions) (by decide +kernel)
  obtain ⟨p, c, hp, hc, hr⟩ := attributeReferences_eq_references hps
  have hgiven : attributeReferences mixedConditions = some ["r.a", "x_2", "not", "d"] := by decide +kernel
  exact ⟨ps, hps, p, c, hp, hc, hr, Option.some.inj (hr.symm.trans hgiven)⟩

end RelAlg
