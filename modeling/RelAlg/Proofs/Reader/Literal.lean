import RelAlg.Surface.Rule
import RelAlg.Proofs.Reader.SinglyQuoted
import RelAlg.Proofs.Reader.Statement

/-!
# Literals that are read again

A text between quotes comes out between single quotes, with what stands between them unchanged. What comes out is a literal
again exactly if no single quote in it stands alone: each is written twice or follows a backslash (`Quoted.guarded`). Between
single quotes that is always so; between double quotes a single quote needs no guard, and then the literal that comes out
ends early (`lone_quote_refused`).
-/

namespace RelAlg

open Reader Surface

namespace Quoted

/-- The characters between single quotes. -/
def enclosed (body : List Char) : String := String.ofList ('\'' :: body ++ ['\''])

/-- Every such quote is written twice or follows a backslash. -/
def guarded (quote : Char) : List Char → Bool
  | [] => true
  | [c] => c ≠ quote
  | c :: d :: cs =>
    if c = '\\' then guarded quote cs
    else if c = quote then d = quote && guarded quote cs
    else guarded quote (d :: cs)

/-- The characters may stand between quotes of some kind: they hold no end of a line, and what follows a backslash may do
so. -/
inductive IsEscaped : List Char → Prop where
  | nil : IsEscaped []
  | plain {c : Char} {cs : List Char} (h : c ≠ '\n' ∧ c ≠ '\r' ∧ c ≠ '\\') (hs : IsEscaped cs) : IsEscaped (c :: cs)
  | escape {d : Char} {cs : List Char} (h : d ≠ 'x' ∨ cs.head?.any isHexDigit = true) (hs : IsEscaped cs) :
      IsEscaped ('\\' :: d :: cs)

variable {quote : Char} {body : List Char}

/-- What may stand between quotes of a kind may stand between quotes of some kind. -/
theorem IsBody.isEscaped (hq : quote = '"' ∨ quote = '\'') (h : IsBody quote body) : IsEscaped body := by
  have hplain : quote ≠ '\n' ∧ quote ≠ '\r' ∧ quote ≠ '\\' := by rcases hq with rfl | rfl <;> decide
  induction h with
  | nil => exact .nil
  | plain hc _ ih =>
    simp only [isPlain, Bool.and_eq_true, decide_eq_true_eq, ne_eq] at hc
    exact .plain ⟨hc.1.1.2, hc.1.2, hc.2⟩ ih
  | pair hp _ ih =>
    simp only [isPair, Bool.or_eq_true, Bool.and_eq_true, decide_eq_true_eq] at hp
    rcases hp with ⟨rfl, rfl⟩ | ⟨rfl, hd⟩
    · exact .plain hplain (.plain hplain ih)
    · exact .escape hd ih

/-- A character that is no quote and no backslash guards nothing and needs no guard. -/
theorem guarded_cons {c : Char} {cs : List Char} (hc : c ≠ quote) (hb : c ≠ '\\') :
    guarded quote (c :: cs) = guarded quote cs := by
  cases cs with
  | nil => simp [guarded, hc]
  | cons d cs => simp [guarded, hc, hb]

/-- Between quotes every quote of that kind is guarded. -/
theorem IsBody.guarded (hq : quote ≠ '\\') (h : IsBody quote body) : guarded quote body = true := by
  induction h with
  | nil => rfl
  | plain hc _ ih =>
    simp only [isPlain, Bool.and_eq_true, decide_eq_true_eq, ne_eq] at hc
    rw [guarded_cons hc.1.1.1 hc.2, ih]
  | pair hp _ ih =>
    simp only [isPair, Bool.or_eq_true, Bool.and_eq_true, decide_eq_true_eq] at hp
    rcases hp with ⟨rfl, rfl⟩ | ⟨rfl, -⟩
    · simp [Quoted.guarded, hq, ih]
    · simp [Quoted.guarded, ih]

/-- Guarded quotes are all that a text between quotes needs to be one between quotes of the other kind. -/
theorem isBody_of_guarded (h : IsEscaped body) (hg : Quoted.guarded quote body = true) : IsBody quote body := by
  have hself : ∀ {c : Char}, c ≠ '\n' ∧ c ≠ '\r' ∧ c ≠ '\\' → c ≠ quote → isPlain quote c = true :=
    fun h hc => by simp [isPlain, h, hc]
  fun_induction Quoted.guarded quote body with
  | case1 => exact .nil
  | case2 c =>
    cases h with
    | plain hc _ => exact .plain (hself hc (of_decide_eq_true hg)) .nil
  | case3 d cs ih =>
    cases h with
    | plain hc _ => exact absurd rfl hc.2.2
    | escape hd hs => exact .pair (by simpa [isPair] using .inr hd) (ih hs hg)
  | case4 d cs hb ih =>
    rw [Bool.and_eq_true, decide_eq_true_eq] at hg
    obtain ⟨rfl, hg⟩ := hg
    cases h with
    | plain _ hs =>
      cases hs with
      | plain _ hs => exact .pair (by simp [isPair]) (ih hs hg)
      | escape => exact absurd rfl hb
    | escape => exact absurd rfl hb
  | case5 c d cs hb hc ih =>
    cases h with
    | plain hp hs => exact .plain (hself hp hc) (ih hs hg)
    | escape => exact absurd rfl hb

/-- A text that may stand between quotes of one kind may stand between single quotes just if its single quotes are
guarded. -/
theorem IsBody.isBody_iff_guarded (hq : quote = '"' ∨ quote = '\'') (h : IsBody quote body) :
    IsBody '\'' body ↔ Quoted.guarded '\'' body = true :=
  ⟨fun hs => hs.guarded (by decide), isBody_of_guarded (h.isEscaped hq)⟩

/-- Where no such quote stands there is none to guard. -/
theorem guarded_of_not_mem (h : quote ∉ body) : Quoted.guarded quote body = true := by
  fun_induction Quoted.guarded quote body with
  | case1 => rfl
  | case2 c =>
    rw [List.mem_singleton] at h
    exact decide_eq_true (Ne.symm h)
  | case3 d cs ih => exact ih fun hm => h (List.mem_cons_of_mem _ (List.mem_cons_of_mem _ hm))
  | case4 d cs hb ih => exact absurd List.mem_cons_self h
  | case5 c d cs hb hc ih => exact ih fun hm => h (List.mem_cons_of_mem _ hm)

/-- Quotes around a text are taken off in one way. -/
theorem enclosed_inj {body body' : List Char} (h : enclosed body = enclosed body') : body = body' := by
  have hl := (List.cons.inj (String.ofList_inj.mp h)).2
  exact List.append_cancel_right hl

end Quoted

/-! ## The rule for literals -/

/-- The title of the rule for texts between quotes. -/
def literalTitle : String := "string_literal"

namespace Reader

/-- A text between quotes that was read comes out between single quotes. -/
theorem exists_of_quoted {s : String} {c c' : Cursor} (h : quoted c = some (s, c')) :
    ∃ quote body, (quote = '"' ∨ quote = '\'') ∧ Quoted.IsBody quote body ∧ s = Quoted.enclosed body ∧
      c.ahead = quote :: (body ++ quote :: c'.rest) ∧ c'.rest.head? ≠ some quote := by
  have hby : ∀ {quote body d}, quote = '"' ∨ quote = '\'' → quotedBy quote c = some (body, d) →
      Quoted.IsBody quote body ∧ c.ahead = quote :: (body ++ quote :: d.rest) ∧ d.rest.head? ≠ some quote := by
    intro quote body d hq hr
    obtain ⟨hb, rfl, rest, hc, hne⟩ := exists_of_quotation (c := c.skipWhile isBlank) hq hr
    have hlen : (quote :: (body ++ [quote])).length = body.length + 2 := by simp
    have hrest : ((c.skipWhile isBlank).advance (body.length + 2)).rest = rest := by
      rw [Cursor.rest_advance, hc, ← hlen, show quote :: (body ++ quote :: rest) = quote :: (body ++ [quote]) ++ rest by simp,
        List.drop_left]
    rw [hrest]
    exact ⟨hb, hc, hne⟩
  obtain ⟨body, d, hr, hs⟩ := bind_eq_some h
  obtain ⟨rfl, rfl⟩ := Prod.mk.inj (Option.some.inj hs)
  rcases orElse_eq_some hr with hr | ⟨-, hr⟩
  · obtain ⟨hb, hc⟩ := hby (.inl rfl) hr
    exact ⟨'"', body, .inl rfl, hb, rfl, hc⟩
  · obtain ⟨hb, hc⟩ := hby (.inr rfl) hr
    exact ⟨'\'', body, .inr rfl, hb, rfl, hc⟩

/-- What may stand between single quotes is read between them. -/
theorem quoted_of_enclosed {body : List Char} {c : Cursor} (hb : Quoted.IsBody '\'' body)
    (hc : c.rest = (Quoted.enclosed body).toList) : ∃ c', quoted c = some (Quoted.enclosed body, c') ∧ c'.rest = [] := by
  rw [Quoted.enclosed, String.toList_ofList] at hc
  have ha : c.skipWhile isBlank = c := by simp [Cursor.skipWhile, hc, isBlank, Cursor.advance]
  have h₁ : quotedBy '"' c = none := quotedBy_eq_none (by rw [Cursor.ahead, ha, hc]; simp)
  have h₂ : quotedBy '\'' c = some (body, c.advance (body.length + 2)) := by
    rw [quotedBy_eq, bind_of_some (p := blanks) rfl, ha]
    exact @quotation_of_rest _ _ [] _ (.inr rfl) hb (by simp) (by simpa using hc)
  refine ⟨c.advance (body.length + 2), (bind_of_some ((orElse_of_none h₁).trans h₂)).trans rfl, ?_⟩
  rw [Cursor.rest_advance, hc]
  simp

end Reader

/-- What the rule reads off a whole text. -/
theorem readLiteral_eq_ok_iff {level : Level} {lex : Lexicon} {text : String} {ps : List Phrase} :
    Rule.read level lex literalTitle true text = .ok ps ↔
      ∃ s c', quoted (Cursor.start (Text.expandTabs text.toList)) = some (s, c') ∧ c'.ahead = [] ∧ ps = [.word s] := by
  have hfind : Rule.find? level literalTitle
      = some ⟨literalTitle, .base, Rule.fixed [], fun _ _ => Rule.wordOf quoted⟩ := by cases level <;> rfl
  have hread : Rule.read level lex literalTitle true text
      = (readText (Rule.wordOf quoted) true text).elim (.error .unreadable) .ok := by
    unfold Rule.read
    rw [hfind]
    show readRule lex [] (Rule.wordOf quoted) true text = _
    unfold readRule
    cases readText (Rule.wordOf quoted) true text <;> rfl
  rw [hread]
  constructor
  · intro h
    cases hr : readText (Rule.wordOf quoted) true text with
    | none =>
      rw [hr] at h
      cases h
    | some a =>
      rw [hr] at h
      cases h
      obtain ⟨c', hp, hend⟩ := readText_eq_some_iff.mp hr
      obtain ⟨s, d, hq, hs⟩ := bind_eq_some hp
      obtain ⟨rfl, rfl⟩ := Prod.mk.inj (Option.some.inj hs)
      exact ⟨s, d, hq, hend, rfl⟩
  · rintro ⟨s, c', hq, hend, rfl⟩
    have hp : Rule.wordOf quoted (Cursor.start (Text.expandTabs text.toList)) = some ([.word s], c') := bind_of_some hq
    rw [readText_eq_some_iff.mpr ⟨c', hp, hend⟩]
    rfl

/-- A literal without tabs is read as itself just if it may stand between single quotes. -/
theorem readLiteral_enclosed_iff {level : Level} {lex : Lexicon} {body : List Char} (ht : '\t' ∉ body) :
    Rule.read level lex literalTitle true (Quoted.enclosed body) = .ok [.word (Quoted.enclosed body)] ↔
      Quoted.IsBody '\'' body := by
  have htabs : Text.expandTabs (Quoted.enclosed body).toList = (Quoted.enclosed body).toList := by
    refine Text.expandTabsFrom_of_not_mem 0 _ ?_
    simp [Quoted.enclosed, ht]
  rw [readLiteral_eq_ok_iff, htabs]
  constructor
  · rintro ⟨s, c', hq, -, hs⟩
    obtain ⟨quote, body', hquote, hb, rfl, ha, -⟩ := exists_of_quoted hq
    obtain rfl : body = body' := Quoted.enclosed_inj (by simpa using hs)
    -- the quote that was read is the first character of the literal
    have hfirst : (Cursor.start (Quoted.enclosed body).toList).ahead.head? = some '\'' := by
      simp [Cursor.ahead, Cursor.start, Cursor.skipWhile, Cursor.advance, Quoted.enclosed, isBlank]
    rw [ha] at hfirst
    obtain rfl : quote = '\'' := Option.some.inj hfirst
    exact hb
  · intro hb
    obtain ⟨c', hq, hend⟩ := quoted_of_enclosed (c := Cursor.start (Quoted.enclosed body).toList) hb rfl
    exact ⟨_, c', hq, by simp [Cursor.ahead, Cursor.skipWhile, Cursor.advance, hend], rfl⟩

/-- A literal that is read is a body between two quotes of one kind, with blanks around it, and comes out as the same body
between single quotes. It is then read as itself exactly if every single quote in it is written twice or follows a backslash;
that is so if it was written between single quotes or has none in it. Tabs are blanks before anything is read. -/
theorem literal_read_again_iff (level : Level) (lex : Lexicon) {text : String} {ps : List Phrase}
    (h : Rule.read level lex literalTitle true text = .ok ps) :
    ∃ quote body gap, (quote = '"' ∨ quote = '\'') ∧
      (Text.expandTabs text.toList).dropWhile isBlank = quote :: (body ++ quote :: gap) ∧ gap.all isBlank = true ∧
      ps = [.word (Quoted.enclosed body)] ∧
      (Rule.read level lex literalTitle true (Quoted.enclosed body) = .ok [.word (Quoted.enclosed body)] ↔
        Quoted.guarded '\'' body = true) ∧
      (quote = '\'' ∨ '\'' ∉ body → Quoted.guarded '\'' body = true) := by
  obtain ⟨s, c', hq, hend, rfl⟩ := readLiteral_eq_ok_iff.mp h
  obtain ⟨quote, body, hquote, hb, rfl, ha, -⟩ := exists_of_quoted hq
  have htabs : '\t' ∉ body := by
    intro hm
    have hahead : '\t' ∈ (Cursor.start (Text.expandTabs text.toList)).ahead := by
      rw [ha]
      exact List.mem_cons_of_mem _ (List.mem_append_left _ hm)
    rw [Cursor.ahead, Cursor.skipWhile, Cursor.rest_advance] at hahead
    exact not_mem_expandTabs 0 text.toList (List.mem_of_mem_drop hahead)
  have hblank : c'.rest.all isBlank = true := (Cursor.ahead_eq_nil_iff c').mp hend
  rw [Cursor.ahead_eq_dropWhile] at ha
  refine ⟨quote, body, c'.rest, hquote, ha, hblank, rfl,
    (readLiteral_enclosed_iff htabs).trans (hb.isBody_iff_guarded hquote), ?_⟩
  rintro (rfl | hm)
  · exact hb.guarded (by decide)
  · exact Quoted.guarded_of_not_mem hm

/-- A literal between double quotes, with a double quote written twice, a single quote written twice and one behind a
backslash. -/
def guardedText : String := " \"a\"\"b''c\\'\"\n"

theorem literal_read_again_of_guarded :
    Rule.read .base .standard literalTitle true guardedText = .ok [.word "'a\"\"b''c\\''"] ∧
      ∃ quote body gap, (quote = '"' ∨ quote = '\'') ∧
        (Text.expandTabs guardedText.toList).dropWhile isBlank = quote :: (body ++ quote :: gap) ∧ gap.all isBlank = true ∧
        [Phrase.word "'a\"\"b''c\\''"] = [.word (Quoted.enclosed body)] ∧
        (Rule.read .base .standard literalTitle true (Quoted.enclosed body) = .ok [.word (Quoted.enclosed body)] ↔
          Quoted.guarded '\'' body = true) ∧
        (quote = '\'' ∨ '\'' ∉ body → Quoted.guarded '\'' body = true) := by
  have h : Rule.read .base .standard literalTitle true guardedText = .ok [.word "'a\"\"b''c\\''"] := rfl
  exact ⟨h, literal_read_again_iff .base .standard h⟩

/-- Between double quotes a single quote may stand alone, and the literal that comes out ends at it. -/
theorem lone_quote_refused : Rule.read .base .standard literalTitle true "\"it's\"" = .ok [.word "'it's'"] ∧
    Rule.read .base .standard literalTitle true "'it's'" = .error .unreadable :=
  ⟨rfl, rfl⟩

end RelAlg
