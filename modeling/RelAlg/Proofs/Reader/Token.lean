import RelAlg.Proofs.Reader.Operand

/-!
# What a token takes off a text

A token takes ordinary characters, none of them a quote or the end of a statement, or a text between quotes as a whole
(`IsPart`). Whether it is there depends on what it takes, on the character before it and on what comes right after:
`Takes` says so of a reader that skips no blanks, and every token of the language is such a reader.
-/

namespace RelAlg

open Reader

/-! ## Parts of a text -/

/-- A character that opens no text between quotes and ends no statement. -/
def isOrdinary (c : Char) : Bool := c ≠ '"' && c ≠ '\'' && c ≠ ';'

/-- The characters are a part of a text that goes on with `rest`: ordinary characters, or a text between quotes that ends at
its closing quote. -/
inductive IsPart : List Char → List Char → Prop where
  | ordinary {part rest : List Char} (h : ∀ x ∈ part, isOrdinary x = true) : IsPart part rest
  | literal {quote : Char} {body rest : List Char} (hq : quote = '"' ∨ quote = '\'') (hb : Quoted.IsBody quote body)
      (hr : rest.head? ≠ some quote) : IsPart (quote :: (body ++ [quote])) rest

/-- Two texts start alike as far as a token before them can see: a numeral looks past a point. -/
def SameStart (s s' : List Char) : Prop := s.head? = s'.head? ∧ (s.head? = some '.' → s.tail.head? = s'.tail.head?)

/-- A keyword may stand behind both or behind neither. -/
def SameEdge (b b' : Option Char) : Prop :=
  (∀ joined, caselessBoundary joined b = caselessBoundary joined b') ∧ boundary b = boundary b'

theorem SameStart.refl (s : List Char) : SameStart s s := ⟨rfl, fun _ => rfl⟩

/-- To start alike is symmetric. -/
theorem SameStart.symm {s s' : List Char} (h : SameStart s s') : SameStart s' s :=
  ⟨h.1.symm, fun he => (h.2 (h.1.trans he)).symm⟩

/-- Of texts that start alike both have come to an end or neither has. -/
theorem SameStart.nil_iff {s s' : List Char} (h : SameStart s s') : s = [] ↔ s' = [] := by
  rw [← List.head?_eq_none_iff, h.1, List.head?_eq_none_iff]

theorem SameEdge.refl (b : Option Char) : SameEdge b b := ⟨fun _ => rfl, rfl⟩

/-- To be the same edge is symmetric. -/
theorem SameEdge.symm {b b' : Option Char} (h : SameEdge b b') : SameEdge b' b := ⟨fun j => (h.1 j).symm, h.2.symm⟩

namespace Reader

variable {α : Type}

/-- The part is the first `n` characters of a text, or all there are. -/
def Spans (n : Nat) (part rest : List Char) : Prop := n = part.length ∨ part.length ≤ n ∧ rest = []

/-- The characters that are spanned are the part. -/
theorem Spans.take {n : Nat} {part rest : List Char} (h : Spans n part rest) : (part ++ rest).take n = part := by
  rcases h with rfl | ⟨hl, rfl⟩
  · exact List.take_left
  · rw [List.append_nil, List.take_of_length_le hl]

/-- Behind the characters that are spanned there is the rest. -/
theorem Spans.drop {n : Nat} {part rest : List Char} (h : Spans n part rest) : (part ++ rest).drop n = rest := by
  rcases h with rfl | ⟨hl, rfl⟩
  · exact List.drop_left
  · rw [List.append_nil, List.drop_eq_nil_iff]
    exact hl

/-- A part spans as many characters in front of a text that starts alike. -/
theorem Spans.of_sameStart {n : Nat} {part rest rest' : List Char} (h : Spans n part rest) (hs : SameStart rest rest') :
    Spans n part rest' :=
  h.imp_right fun h => ⟨h.1, hs.nil_iff.mp h.2⟩

/-- The first characters of a text span as many, even where there are fewer. -/
theorem spans_take (n : Nat) (cs : List Char) : Spans n (cs.take n) (cs.drop n) := by
  rw [Spans, List.length_take, List.drop_eq_nil_iff]
  omega

/-- The reader takes `part` off the text at the place, over `n` characters, and does so wherever `part` stands in the same
surroundings. -/
structure Taken (t : Reader α) (c : Cursor) (a : α) (n : Nat) (part rest : List Char) : Prop where
  text : c.rest = part ++ rest
  ne_nil : part ≠ []
  isPart : IsPart part rest
  spans : Spans n part rest
  again : ∀ d rest', d.rest = part ++ rest' → SameStart rest rest' → SameEdge c.before d.before → t d = some (a, d.advance n)

/-- Whatever the reader takes is a part, and what it does depends on the part and its surroundings only. -/
def Takes (t : Reader α) : Prop := ∀ c a c', t c = some (a, c') → ∃ n part rest, c' = c.advance n ∧ Taken t c a n part rest

/-! ## Texts and keywords -/

/-- A spelling of ordinary characters. -/
def isSpelling (s : String) : Bool := !s.toList.isEmpty && s.toList.all isOrdinary

/-- A spelling of ordinary ASCII characters. -/
def isWordSpelling (s : String) : Bool := isSpelling s && s.toList.all fun c => c.toNat < 128

/-- A spelling has characters, and all of them are ordinary. -/
theorem isSpelling_iff {s : String} : isSpelling s = true ↔ s.toList ≠ [] ∧ ∀ c ∈ s.toList, isOrdinary c = true := by
  simp [isSpelling]

/-- A fixed text is taken as a part. -/
theorem takes_exactly {s : String} (hs : isSpelling s = true) : Takes (exactly s) := by
  obtain ⟨hn, ho⟩ := isSpelling_iff.mp hs
  intro c a c' h
  unfold exactly at h
  split at h
  · rename_i hp
    obtain ⟨rest, hr⟩ := List.isPrefixOf_iff_prefix.mp hp
    obtain ⟨-, rfl⟩ := Prod.mk.inj (Option.some.inj h)
    refine ⟨_, s.toList, rest, rfl, hr.symm, hn, .ordinary ho, .inl String.length_toList.symm, ?_⟩
    intro d rest' hd _ _
    unfold exactly
    rw [hd, if_pos (by simp)]
  · cases h

/-- What is touched of a keyword in any letter case. -/
def word (joined : Bool) (spelling : String) : Reader String := fun c =>
  if Text.upper (c.rest.take spelling.length) = Text.upper spelling.toList
      && caselessBoundary joined c.before
      && caselessBoundary joined (c.rest.drop spelling.length).head?
  then some (spelling, c.advance spelling.length) else none

/-- What is touched of a keyword in exactly its spelling. -/
def exactWord (spelling : String) : Reader String := fun c =>
  if spelling.toList.isPrefixOf c.rest && boundary c.before && boundary (c.rest.drop spelling.length).head?
  then some (spelling, c.advance spelling.length) else none

/-- A keyword in any letter case is blanks and what is touched of it. -/
theorem caselessKeyword_eq (joined : Bool) (spelling : String) :
    caselessKeyword joined spelling = (do blanks; word joined spelling) := rfl

/-- A keyword in exactly its spelling is blanks and what is touched of it. -/
theorem keyword_eq (spelling : String) : keyword spelling = (do blanks; exactWord spelling) := rfl

/-- Characters with an ordinary capital form are ordinary. -/
theorem isOrdinary_of_upper {cs : List Char} (h : ∀ u ∈ Text.upper cs, isOrdinary u = true) :
    ∀ c ∈ cs, isOrdinary c = true := by
  intro c hc
  cases ho : isOrdinary c with
  | true => rfl
  | false =>
    have hu : Text.upperChar c = [c] := by
      simp only [isOrdinary, Bool.and_eq_false_iff, decide_eq_false_iff_not, ne_eq, Decidable.not_not] at ho
      rcases ho with (rfl | rfl) | rfl <;> decide
    have hm : c ∈ Text.upper cs := List.mem_flatMap.mpr ⟨c, hc, by rw [hu]; exact List.mem_singleton_self c⟩
    exact ho.symm.trans (h c hm)

/-- The spelling of a word is ASCII. -/
theorem ascii_of_isWordSpelling {s : String} (hs : isWordSpelling s = true) : ∀ c ∈ s.toList, c.toNat < 128 := by
  rw [isWordSpelling, Bool.and_eq_true, List.all_eq_true] at hs
  exact fun c hc => of_decide_eq_true (hs.2 c hc)

/-- The capital form of a word has ordinary characters only. -/
theorem isOrdinary_upper {s : String} (hs : isWordSpelling s = true) : ∀ u ∈ Text.upper s.toList, isOrdinary u = true := by
  obtain ⟨-, ho⟩ := isSpelling_iff.mp (Bool.and_eq_true_iff.mp hs).1
  have ha := ascii_of_isWordSpelling hs
  rw [upper_of_ascii ha]
  intro u hu
  obtain ⟨c, hc, rfl⟩ := List.mem_map.mp hu
  exact of_toNat_lt (P := fun c => isOrdinary c = true → isOrdinary c.toUpper = true) (by decide) (ha c hc) (ho c hc)

/-- A keyword in any letter case is taken as a part, up to characters with more than one capital form. -/
theorem takes_word {joined : Bool} {s : String} (hs : isWordSpelling s = true) : Takes (word joined s) := by
  have hn := (isSpelling_iff.mp (Bool.and_eq_true_iff.mp hs).1).1
  intro c a c' h
  unfold word at h
  split at h
  · rename_i hw
    simp only [Bool.and_eq_true, decide_eq_true_eq] at hw
    obtain ⟨⟨hu, hb⟩, hr⟩ := hw
    obtain ⟨rfl, rfl⟩ := Prod.mk.inj (Option.some.inj h)
    have ho : ∀ x ∈ c.rest.take s.length, isOrdinary x = true := by
      refine isOrdinary_of_upper ?_
      rw [hu]
      exact isOrdinary_upper hs
    have hne : c.rest.take s.length ≠ [] := by
      intro he
      obtain ⟨x, xs, hx⟩ := List.exists_cons_of_ne_nil hn
      rw [he, upper_of_ascii (ascii_of_isWordSpelling hs), hx] at hu
      cases hu
    have hsp := spans_take s.length c.rest
    refine ⟨_, c.rest.take s.length, c.rest.drop s.length, rfl, (List.take_append_drop _ _).symm, hne, .ordinary ho, hsp, ?_⟩
    intro d rest' hd hst hed
    have hsp' := hsp.of_sameStart hst
    unfold word
    rw [hd, hsp'.take, hsp'.drop, hu, ← hed.1, ← hst.1, hb, hr]
    simp
  · cases h

/-- A keyword in exactly its spelling is taken as a part. -/
theorem takes_exactWord {s : String} (hs : isSpelling s = true) : Takes (exactWord s) := by
  obtain ⟨hn, ho⟩ := isSpelling_iff.mp hs
  intro c a c' h
  unfold exactWord at h
  split at h
  · rename_i hw
    simp only [Bool.and_eq_true] at hw
    obtain ⟨⟨hp, hb⟩, hr⟩ := hw
    obtain ⟨rfl, rfl⟩ := Prod.mk.inj (Option.some.inj h)
    obtain ⟨rest, hc⟩ := List.isPrefixOf_iff_prefix.mp hp
    have hdrop : ∀ r : List Char, (s.toList ++ r).drop s.length = r := by
      intro r
      rw [← String.length_toList, List.drop_left]
    rw [← hc, hdrop] at hr
    refine ⟨_, s.toList, rest, rfl, hc.symm, hn, .ordinary ho, .inl String.length_toList.symm, ?_⟩
    intro d rest' hd hst hed
    unfold exactWord
    rw [hd, hdrop, ← hed.2, ← hst.1, hb, hr]
    simp
  · cases h

/-! ## Names and numerals -/

/-- The characters of names are ordinary. -/
theorem isOrdinary_of_isNameChar {c : Char} (h : isNameChar c = true) : isOrdinary c = true :=
  of_toNat_lt (P := fun c => isNameChar c = true → isOrdinary c = true) (by decide) (toNat_lt_of_isNameChar h) h

/-- A name is taken as a part. -/
theorem takes_bareName : Takes bareName := by
  intro c a c' h
  unfold bareName at h
  split at h
  · rename_i x xs hc
    split at h
    · rename_i hx
      obtain ⟨rfl, rfl⟩ := Prod.mk.inj (Option.some.inj h)
      have hid : isIdentifier (String.ofList (x :: xs.takeWhile isNameChar)) = true := by
        rw [isIdentifier_cons, hx, Bool.true_and]
        exact List.all_takeWhile
      have hr := head?_dropWhile_all isNameChar xs
      refine ⟨_, x :: xs.takeWhile isNameChar, xs.dropWhile isNameChar, rfl, ?_, List.cons_ne_nil _ _, .ordinary ?_, .inl rfl, ?_⟩
      · rw [hc, List.cons_append, List.takeWhile_append_dropWhile]
      · exact fun y hy => isOrdinary_of_isNameChar (isNameChar_of_isIdentifier hid y hy)
      · intro d rest' hd hst _
        rw [hst.1] at hr
        exact bareName_of_rest hd hid hr
    · cases h
  · cases h

/-- What is touched of a number. -/
def numeral : Reader String := fun c =>
  let sign := signPart c.rest
  let digits := unsignedPart (c.rest.drop sign.length)
  if digits.isEmpty then none
  else some (String.ofList (sign ++ digits), c.advance (sign.length + digits.length))

theorem number_eq : number = (do blanks; numeral) := rfl

/-- The digits at the start of a text are found again where the text goes on alike. -/
theorem unsignedPart_cases {cs : List Char} (h : unsignedPart cs ≠ []) :
    ∃ rest, cs = unsignedPart cs ++ rest ∧ IsUnsigned (unsignedPart cs) ∧
      ∀ rest', SameStart rest rest' → unsignedPart (unsignedPart cs ++ rest') = unsignedPart cs := by
  have hw : ∀ d ∈ cs.takeWhile Char.isDigit, d.isDigit = true := fun d hd => List.all_eq_true.mp List.all_takeWhile d hd
  have hsplit : cs = cs.takeWhile Char.isDigit ++ cs.dropWhile Char.isDigit := List.takeWhile_append_dropWhile.symm
  have hend := head?_dropWhile_all Char.isDigit cs
  generalize cs.takeWhile Char.isDigit = whole at hw hsplit
  generalize cs.dropWhile Char.isDigit = tail at hsplit hend
  subst hsplit
  by_cases hp : tail.head? = some '.' → tail.tail.head?.all (fun x => !x.isDigit) = true
  · have hu := unsignedPart_whole hw hend hp
    rw [hu] at h ⊢
    refine ⟨tail, rfl, .whole hw h, fun rest' hst => ?_⟩
    rw [hst.1] at hend hp
    exact unsignedPart_whole hw hend fun he => by rw [← hst.2 (hst.1.trans he)]; exact hp he
  · -- a point with a digit after it
    obtain ⟨hpoint, hdigit⟩ := Classical.not_imp.mp hp
    obtain ⟨after, rfl⟩ : ∃ after, tail = '.' :: after := by
      cases tail with
      | nil => cases hpoint
      | cons x after => exact ⟨after, by rw [Option.some.inj hpoint]⟩
    have hf : ∀ d ∈ after.takeWhile Char.isDigit, d.isDigit = true :=
      fun d hd => List.all_eq_true.mp List.all_takeWhile d hd
    have hn : after.takeWhile Char.isDigit ≠ [] := by
      cases after with
      | nil => exact absurd rfl hdigit
      | cons x after =>
        have hx : x.isDigit = true := by simpa using hdigit
        rw [List.takeWhile_cons_of_pos hx]
        exact List.cons_ne_nil _ _
    have hafter : after = after.takeWhile Char.isDigit ++ after.dropWhile Char.isDigit :=
      List.takeWhile_append_dropWhile.symm
    have hstop := head?_dropWhile_all Char.isDigit after
    generalize after.takeWhile Char.isDigit = fraction at hf hn hafter
    generalize after.dropWhile Char.isDigit = rest at hafter hstop
    subst hafter
    rw [unsignedPart_fraction hw hf hn hstop]
    refine ⟨rest, by simp, .fraction hw hf hn, fun rest' hst => ?_⟩
    rw [hst.1] at hstop
    rw [List.append_assoc, List.cons_append]
    exact unsignedPart_fraction hw hf hn hstop

/-- The characters of numerals are ordinary. -/
theorem isOrdinary_of_isNumeralChar {c : Char} (h : isNumeralChar c = true) : isOrdinary c = true := by
  obtain ⟨hm, -, hd, hs, -⟩ := of_isNumeralChar h
  have ht : c ≠ ';' := by
    rintro rfl
    cases hm
  simp [isOrdinary, hd, hs, ht]

/-- A numeral is taken as a part; it looks past a point for a digit. -/
theorem takes_numeral : Takes numeral := by
  intro c a c' h
  unfold numeral at h
  obtain ⟨hs, tail, hc⟩ := signPart_cases c.rest
  generalize signPart c.rest = sign at h hs hc
  simp only [hc, List.drop_left] at h
  by_cases hn : unsignedPart tail = []
  · simp [hn] at h
  · obtain ⟨rest, ht, hu, hagain⟩ := unsignedPart_cases hn
    generalize unsignedPart tail = digits at h hn ht hu hagain
    rw [if_neg (by simpa using hn)] at h
    obtain ⟨rfl, rfl⟩ := Prod.mk.inj (Option.some.inj h)
    have hnum : IsNumeral (sign ++ digits) := ⟨sign, hs, digits, rfl, hu⟩
    refine ⟨_, sign ++ digits, rest, rfl, ?_, ?_, .ordinary ?_, .inl List.length_append.symm, ?_⟩
    · rw [hc, ht, List.append_assoc]
    · simp [hn]
    · exact fun x hx => isOrdinary_of_isNumeralChar (hnum.isNumeralChar x hx)
    · intro d rest' hd hst _
      unfold numeral
      have he : digits.isEmpty = false := by simpa using hn
      rw [hd, List.append_assoc, signPart_append hs hu]
      simp only [List.drop_left, hagain rest' hst, he, Bool.false_eq_true, if_false]

end Reader

/-! ## Texts between quotes -/

namespace Quoted

/-- A hexadecimal digit stands for itself between quotes. -/
theorem isPlain_of_isHexDigit {quote c : Char} (hq : quote = '"' ∨ quote = '\'') (h : isHexDigit c = true) :
    isPlain quote c = true := by
  cases hp : isPlain quote c with
  | true => rfl
  | false =>
    simp only [isPlain, ne_eq, Bool.and_eq_false_iff, decide_eq_false_iff_not, Decidable.not_not] at hp
    rcases hp with ((rfl | rfl) | rfl) | rfl
    · rcases hq with rfl | rfl <;> cases h
    all_goals cases h

/-- What is divided off at a closing quote starts with the first character, if that is plain. -/
theorem head?_split {quote c : Char} {cs : List Char} (h : isPlain quote c = true) :
    (split quote (c :: cs)).1.head? = some c := by
  cases cs <;> simp [split, h]

/-- What is divided off may stand between quotes. -/
theorem isBody_split {quote : Char} (hq : quote = '"' ∨ quote = '\'') (cs : List Char) : IsBody quote (split quote cs).1 := by
  fun_induction split quote cs with
  | case1 => exact .nil
  | case2 c h => exact .plain h .nil
  | case3 c h => exact .nil
  | case4 c d rest h r ih => exact .plain h ih
  | case5 c d rest h hp r ih =>
    refine .pair ?_ ih
    simp only [isPair, Bool.or_eq_true, Bool.and_eq_true] at hp ⊢
    refine hp.imp_right fun hp => ⟨hp.1, hp.2.imp_right fun hx => ?_⟩
    cases rest with
    | nil => cases hx
    | cons y rest => rwa [head?_split (isPlain_of_isHexDigit hq hx)]
  | case6 c d rest h hp => exact .nil

/-- The quote that closes a text is not written twice. -/
theorem head?_of_split {quote : Char} {cs rest : List Char} (h : (split quote cs).2 = quote :: rest) :
    rest.head? ≠ some quote := by
  fun_induction split quote cs with
  | case1 => cases h
  | case2 c hc => cases h
  | case3 c hc =>
    cases h
    simp
  | case4 c d rest hc r ih => exact ih h
  | case5 c d rest hc hp r ih => exact ih h
  | case6 c d rest' hc hp =>
    cases h
    intro he
    have hd : d = quote := Option.some.inj he
    simp [isPair, hd] at hp

end Quoted

namespace Reader

/-- What is read between quotes is a body, with its quotes around it and no further quote behind. -/
theorem exists_of_quotation {quote : Char} {body : List Char} {c c' : Cursor} (hq : quote = '"' ∨ quote = '\'')
    (h : quotation quote c = some (body, c')) :
    Quoted.IsBody quote body ∧ c' = c.advance (body.length + 2) ∧
      ∃ rest, c.rest = quote :: (body ++ quote :: rest) ∧ rest.head? ≠ some quote := by
  unfold quotation at h
  split at h
  · rename_i q cs hc
    split at h
    · rename_i hquote
      subst hquote
      split at h
      · rename_i body' q' rest hs
        split at h
        · rename_i hquote
          subst hquote
          obtain ⟨rfl, rfl⟩ := Prod.mk.inj (Option.some.inj h)
          have hb := Quoted.isBody_split hq cs
          have happ := Quoted.split_append q' cs
          rw [hs] at hb happ
          exact ⟨hb, rfl, rest, by rw [hc, ← happ], Quoted.head?_of_split (by rw [hs])⟩
        · cases h
      · cases h
    · cases h
  · cases h

/-- A text between quotes is taken as a part. -/
theorem takes_quotation {quote : Char} (hq : quote = '"' ∨ quote = '\'') : Takes (quotation quote) := by
  intro c body c' h
  obtain ⟨hb, rfl, rest, hc, hr⟩ := exists_of_quotation hq h
  refine ⟨_, quote :: (body ++ [quote]), rest, rfl, ?_, List.cons_ne_nil _ _, .literal hq hb hr, .inl ?_, ?_⟩
  · simp [hc]
  · simp
  · intro d rest' hd hst _
    rw [hst.1] at hr
    exact quotation_of_rest hq hb hr (by simp [hd])

end Reader

end RelAlg
