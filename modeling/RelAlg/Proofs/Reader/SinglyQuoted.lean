import RelAlg.Proofs.Reader.UsualFrame
import RelAlg.Proofs.Schema

/-!
# Texts with single quotes only

`singlyQuoted` scans a text for double quotes outside of texts between single quotes. A part that is taken off such a text
leaves such a text, and expanding tabs changes nothing. So every operand that is read off it spells itself: a reader of
operands gives it back from its own characters (`over_spellsItself`). A text between double quotes need not do so, for it
may hold a single quote.
-/

namespace RelAlg

open Reader Surface

/-! ## Scanning for quotes -/

/-- Where a scan for quotes stands: outside of them, between single ones, or behind a backslash between them. -/
inductive QuotePlace where
  | outside
  | within
  | escaped
  deriving DecidableEq, Repr

/-- No double quote stands outside of the texts between single quotes, from a place on. -/
@[simp] def singlyQuoted : QuotePlace → List Char → Bool
  | _, [] => true
  | .outside, c :: cs => c ≠ '"' && singlyQuoted (if c = '\'' then .within else .outside) cs
  | .within, c :: cs => singlyQuoted (if c = '\'' then .outside else if c = '\\' then .escaped else .within) cs
  | .escaped, _ :: cs => singlyQuoted .within cs

/-- Ordinary characters leave the scan where it is. -/
theorem singlyQuoted_ordinary {part : List Char} (h : ∀ x ∈ part, isOrdinary x = true) (rest : List Char) :
    singlyQuoted .outside (part ++ rest) = singlyQuoted .outside rest := by
  induction part with
  | nil => rfl
  | cons c part ih =>
    have hc := h c List.mem_cons_self
    simp only [isOrdinary, Bool.and_eq_true, decide_eq_true_eq] at hc
    rw [List.cons_append, singlyQuoted, if_neg hc.1.2, ih fun x hx => h x (List.mem_cons_of_mem c hx)]
    simp [hc.1.1]

/-- Between quotes the scan goes on as the text does: two quotes lead out and in again. -/
theorem singlyQuoted_body {body : List Char} (h : Quoted.IsBody '\'' body) (rest : List Char) :
    singlyQuoted .within (body ++ rest) = singlyQuoted .within rest := by
  induction h with
  | nil => rfl
  | @plain c cs hc _ ih =>
    simp only [Quoted.isPlain, Bool.and_eq_true, decide_eq_true_eq, ne_eq] at hc
    rw [List.cons_append, singlyQuoted, if_neg hc.1.1.1, if_neg hc.2, ih]
  | @pair c d cs hp _ ih =>
    simp only [Quoted.isPair, Bool.or_eq_true, Bool.and_eq_true, decide_eq_true_eq] at hp
    rcases hp with ⟨rfl, rfl⟩ | ⟨rfl, -⟩
    · simp [singlyQuoted, ih]
    · simp [singlyQuoted, ih]

/-- What is left of a text with single quotes when a part is taken off it is such a text. -/
theorem singlyQuoted_of_isPart {part rest : List Char} (hp : IsPart part rest)
    (h : singlyQuoted .outside (part ++ rest) = true) : singlyQuoted .outside rest = true := by
  cases hp with
  | ordinary ho => rwa [singlyQuoted_ordinary ho] at h
  | @literal quote body _ hq hb hr =>
    rcases hq with rfl | rfl
    · cases h
    · rw [List.cons_append, List.append_assoc, singlyQuoted, if_pos rfl, singlyQuoted_body hb, Bool.and_eq_true] at h
      exact h.2

/-- Blanks are scanned like one of them. -/
theorem singlyQuoted_blanks (p : QuotePlace) (n : Nat) (rest : List Char) :
    singlyQuoted p (List.replicate (n + 1) ' ' ++ rest) = singlyQuoted p ('\t' :: rest) := by
  have hwithin : ∀ n, singlyQuoted .within (List.replicate n ' ' ++ rest) = singlyQuoted .within rest := by
    intro n
    induction n with
    | zero => rfl
    | succ n ih => simpa [List.replicate_succ, singlyQuoted] using ih
  have houtside : ∀ n, singlyQuoted .outside (List.replicate n ' ' ++ rest) = singlyQuoted .outside rest := by
    intro n
    induction n with
    | zero => rfl
    | succ n ih => simpa [List.replicate_succ, singlyQuoted] using ih
  rw [List.replicate_succ, List.cons_append]
  cases p <;> simp [singlyQuoted, hwithin, houtside]

/-- Blanks in the place of tabs change nothing for the scan. -/
theorem singlyQuoted_expandTabs (p : QuotePlace) (column : Nat) (cs : List Char) :
    singlyQuoted p (Text.expandTabsFrom column cs) = singlyQuoted p cs := by
  have hstep : ∀ (c : Char) (xs ys : List Char), (∀ p, singlyQuoted p xs = singlyQuoted p ys) →
      ∀ p, singlyQuoted p (c :: xs) = singlyQuoted p (c :: ys) := by
    intro c xs ys h p
    cases p <;> simp only [singlyQuoted, h]
  induction cs generalizing p column with
  | nil => rfl
  | cons c cs ih =>
    rw [Text.expandTabsFrom]
    split
    · rename_i hc
      subst hc
      have hpos := Nat.mod_lt column (show 0 < Text.tabWidth by decide)
      obtain ⟨n, hn⟩ : ∃ n, Text.tabWidth - column % Text.tabWidth = n + 1 := Nat.exists_eq_add_of_le' (by omega)
      simp only [hn]
      rw [singlyQuoted_blanks]
      exact hstep '\t' _ _ (fun p => ih p _) p
    · split
      · exact hstep c _ _ (fun p => ih p _) p
      · exact hstep c _ _ (fun p => ih p _) p

/-- No tab is left. -/
theorem not_mem_expandTabs (column : Nat) (cs : List Char) : '\t' ∉ Text.expandTabsFrom column cs := by
  induction cs generalizing column with
  | nil => exact List.not_mem_nil
  | cons c cs ih =>
    rw [Text.expandTabsFrom]
    split
    · intro h
      rcases List.mem_append.mp h with h | h
      · cases List.eq_of_mem_replicate h
      · exact ih _ h
    · rename_i hc
      split
      · exact List.not_mem_cons_of_ne_of_not_mem (Ne.symm hc) (ih _)
      · exact List.not_mem_cons_of_ne_of_not_mem (Ne.symm hc) (ih _)

/-! ## Operands that spell themselves -/

/-- The operand is written by the characters of its own text. -/
def Surface.Operand.SpellsItself (o : Operand) : Prop := ∃ w : Lexeme, w.chars = o.text.toList ∧ w.IsOperand o.text

/-- Characters of which the first can be seen and none is a tab are a lexeme. -/
theorem exists_lexeme {x : Char} {xs : List Char} (hx : isBlank x = false) (ht : '\t' ∉ xs) :
    ∃ w : Lexeme, w.chars = x :: xs :=
  ⟨⟨x, xs, hx, ht⟩, rfl⟩

/-- A character of a word is no blank. -/
theorem isBlank_of_isWordChar {c : Char} (h : isWordChar c = true) : isBlank c = false := by
  cases hb : isBlank c with
  | false => rfl
  | true =>
    simp only [isBlank, Bool.or_eq_true, decide_eq_true_eq] at hb
    rcases hb with ((rfl | rfl) | rfl) | rfl <;> cases h

/-- A word is a lexeme. -/
theorem exists_lexeme_of_isWord {s : String} (h : isWord s = true) : ∃ w : Lexeme, w.chars = s.toList := by
  rw [isWord, Bool.and_eq_true, List.all_eq_true] at h
  obtain ⟨hn, hw⟩ := h
  cases hs : s.toList with
  | nil =>
    rw [hs] at hn
    cases hn
  | cons x xs =>
    rw [hs] at hw
    refine exists_lexeme (isBlank_of_isWordChar (hw x List.mem_cons_self)) fun ht => ?_
    cases isBlank_of_isWordChar (hw _ (List.mem_cons_of_mem x ht))

/-- A name is an identifier. -/
theorem isIdentifier_of_isName {s : String} (h : isName s = true) : isIdentifier (String.ofList s.toList) = true := by
  unfold isName at h
  split at h
  · cases h
  · rename_i x xs hs
    rw [Bool.and_eq_true, List.all_eq_true] at h
    rw [hs, isIdentifier_cons, Bool.and_eq_true, List.all_eq_true]
    refine ⟨?_, fun c hc => isNameChar_of_isSmall (h.2 c hc)⟩
    simp [isNameStart, Char.isAlpha, h.1]

/-- A reference that was read is written by its own characters. -/
theorem gives_reference_refers : reference.Gives fun s => ∃ w : Lexeme, w.chars = s.toList ∧ w.Refers s := by
  have hlow : ∀ {s : String}, isName s = true → s.toList.map Char.toLower = s.toList := fun h =>
    Text.map_toLower_of_isSmall (isSmall_of_isName h)
  refine gives_bind gives_name fun first h₁ => gives_skip fun o => ?_
  cases o with
  | none =>
    obtain ⟨w, hw⟩ := exists_lexeme_of_isWord (isWord_of_isName h₁)
    refine gives_pure ⟨w, hw, .name ⟨?_, ?_⟩⟩
    · rw [hw]
      exact isIdentifier_of_isName h₁
    · rw [hw, lowered, hlow h₁, String.ofList_toList]
  | some _ =>
    refine gives_bind gives_bareName fun second h₂ => gives_pure ?_
    have hchars : (first ++ "." ++ second).toList = first.toList ++ '.' :: second.toList := by simp
    obtain ⟨w, hw⟩ := exists_lexeme_of_isWord (isWord_qualified h₁ h₂)
    have hs : first ++ "." ++ second = lowered w.chars := by
      rw [hw, hchars, lowered, List.map_append, List.map_cons, hlow h₁, hlow h₂]
      rw [show Char.toLower '.' = '.' from rfl, ← hchars, String.ofList_toList]
    refine ⟨w, hw, ?_⟩
    rw [hs]
    exact .qualified (hw.trans hchars) (isIdentifier_of_isName h₁) (isIdentifier_of_isName h₂)

/-- A text between quotes that is read off a text with single quotes is written by its own characters. -/
theorem quoted_of_singlyQuoted {c c' : Cursor} {s : String} (hc : singlyQuoted .outside c.ahead = true)
    (ht : '\t' ∉ c.ahead) (h : quoted c = some (s, c')) : ∃ w : Lexeme, w.chars = s.toList ∧ w.IsOperand s := by
  have hdouble : quotedBy '"' c = none := by
    cases hq : quotedBy '"' c with
    | none => rfl
    | some r =>
      obtain ⟨-, -, rest, hr, -⟩ := exists_of_quotation (c := c.skipWhile isBlank) (.inl rfl) hq
      rw [Cursor.ahead, hr] at hc
      cases hc
  rw [quoted, bind_apply, orElse_of_none hdouble] at h
  cases hq : quotedBy '\'' c with
  | none =>
    rw [hq] at h
    cases h
  | some r =>
    obtain ⟨body, d⟩ := r
    rw [hq] at h
    obtain ⟨rfl, -⟩ := Prod.mk.inj (Option.some.inj h)
    obtain ⟨hb, -, rest, hr, -⟩ := exists_of_quotation (c := c.skipWhile isBlank) (.inr rfl) hq
    have huntabbed : '\t' ∉ body ++ ['\''] := by
      intro hm
      refine ht ?_
      rw [Cursor.ahead, hr]
      simp only [List.mem_append, List.mem_cons, List.not_mem_nil, or_false] at hm ⊢
      exact .inr (hm.imp_right .inl)
    obtain ⟨w, hw⟩ := exists_lexeme (x := '\'') rfl huntabbed
    refine ⟨w, hw.trans String.toList_ofList.symm, ?_⟩
    have hop := Lexeme.IsOperand.quoted hw hb
    rwa [hw] at hop

/-! ## Reading texts with single quotes -/

/-- The texts are the same, with single quotes only and without tabs. -/
theorem Matching.singlyQuoted :
    Matching fun r r' => r = r' ∧ (RelAlg.singlyQuoted .outside r = true ∧ '\t' ∉ r) :=
  .of_kept fun _ _ hp h => ⟨singlyQuoted_of_isPart hp h.1, fun hm => h.2 (List.mem_append_right _ hm)⟩

/-- An operand that is read off a text with single quotes spells itself. -/
theorem spellsItself_of_reader {c c' : Cursor} {o : Operand} (hc : singlyQuoted .outside c.ahead = true)
    (ht : '\t' ∉ c.ahead) (h : Operand.reader c = some (o, c')) : o.SpellsItself := by
  rw [operandReader_apply] at h
  cases hr : reference c with
  | some r =>
    rw [hr] at h
    cases h
    obtain ⟨w, hw, href⟩ := gives_reference_refers c r.1 r.2 hr
    exact ⟨w, hw, .reference href⟩
  | none =>
    cases hq : quoted c with
    | some r =>
      rw [hr, hq] at h
      cases h
      exact quoted_of_singlyQuoted hc ht hq
    | none =>
      cases hn : number c with
      | some r =>
        rw [hr, hq, hn] at h
        cases h
        have hnum : IsNumeral r.1.toList := gives_number c r.1 r.2 hn
        obtain ⟨w, hw⟩ := exists_lexeme_of_isWord hnum.isWord
        rw [← hw] at hnum
        have hop := Lexeme.IsOperand.number hnum
        rw [hw, String.ofList_toList] at hop
        exact ⟨w, hw, hop⟩
      | none =>
        rw [hr, hq, hn] at h
        cases h

/-- Every operand of a clause that is read off a text with single quotes spells itself. -/
theorem over_spellsItself {level : Level} {cs : List Char} {clause : Clause} {c' : Cursor}
    (hs : singlyQuoted .outside cs = true) (ht : '\t' ∉ cs)
    (h : Clause.reader level .standard (Cursor.start cs) = some (clause, c')) : clause.Over Operand.SpellsItself := by
  let F := TokenFrame.ofMatching Matching.singlyQuoted 0
  let G := F.usual.telling (χ := Operand.SpellsItself)
    fun ws c d o c' hcd hr => spellsItself_of_reader hcd.text.2.1 hcd.text.2.2 hr
  have hstart : F.here (Cursor.start cs) (Cursor.start cs) :=
    F.here_of_later _ _ ⟨⟨rfl, hs, ht⟩, rfl, .refl _⟩
  cases G.clause [] _ _ hstart with
  | refuse hp _ =>
    rw [h] at hp
    cases hp
  | read hp _ hclause _ _ _ =>
    rw [h] at hp
    cases hp
    exact hclause.2

end RelAlg
