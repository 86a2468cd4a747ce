import RelAlg.Proofs.Reader.Lexeme

/-!
# Operands that are read

Numerals and texts between single quotes as lexemes, and with references the operands of comparisons: `IsOperand.reader` says
that the reader of operands takes any of them off a layout. A comparison operator is read as a whole, whatever shorter one it
starts with (`comparator_of_past`).
-/

namespace RelAlg

open Reader Surface

/-! ## Numerals -/

/-- The characters of numerals. -/
def isNumeralChar (c : Char) : Bool := c.isDigit || c = '.' || c = '+' || c = '-'

/-- Numerals are written in ASCII. -/
theorem toNat_lt_of_isNumeralChar {c : Char} (h : isNumeralChar c = true) : c.toNat < 128 := by
  simp only [isNumeralChar, Bool.or_eq_true, decide_eq_true_eq] at h
  rcases h with ((h | rfl) | rfl) | rfl
  · exact toNat_lt_of_isNameChar (by simp [isNameChar, Char.isAlphanum, h])
  all_goals decide

/-- A character of a numeral starts no name and no text between quotes, and it ends no word. -/
theorem of_isNumeralChar {c : Char} (h : isNumeralChar c = true) :
    isMark c = false ∧ isNameStart c = false ∧ c ≠ '"' ∧ c ≠ '\'' ∧ startsLike (Lexicon.usual .not) c = false := by
  have ha := toNat_lt_of_isNumeralChar h
  revert h
  exact of_toNat_lt (P := fun c => isNumeralChar c = true →
    isMark c = false ∧ isNameStart c = false ∧ c ≠ '"' ∧ c ≠ '\'' ∧ startsLike (Lexicon.usual .not) c = false) (by decide) ha

/-- Digits may stand in numerals. -/
theorem isNumeralChar_of_isDigit {c : Char} (h : c.isDigit = true) : isNumeralChar c = true := by simp [isNumeralChar, h]

/-- A numeral without a sign has characters of numerals only. -/
theorem IsUnsigned.isNumeralChar {ds : List Char} (h : IsUnsigned ds) : ∀ c ∈ ds, isNumeralChar c = true := by
  intro c hc
  cases h with
  | whole hd hn => exact isNumeralChar_of_isDigit (hd c hc)
  | fraction hd hf hn =>
    rcases List.mem_append.mp hc with hc | hc
    · exact isNumeralChar_of_isDigit (hd c hc)
    · rcases List.mem_cons.mp hc with rfl | hc
      · decide
      · exact isNumeralChar_of_isDigit (hf c hc)

/-- A numeral has characters of numerals only. -/
theorem IsNumeral.isNumeralChar {cs : List Char} (h : IsNumeral cs) : ∀ c ∈ cs, isNumeralChar c = true := by
  obtain ⟨sign, hs, ds, rfl, hd⟩ := h
  intro c hc
  rcases List.mem_append.mp hc with hc | hc
  · simp only [List.mem_cons, List.not_mem_nil, or_false] at hs
    rcases hs with rfl | rfl | rfl
    · cases hc
    · rw [List.mem_singleton.mp hc]; decide
    · rw [List.mem_singleton.mp hc]; decide
  · exact hd.isNumeralChar c hc

/-- Digits are divided from what ends them: no digit, and no point with a digit after it. -/
theorem unsignedPart_whole {ds rest : List Char} (hd : ∀ d ∈ ds, d.isDigit = true)
    (hr : rest.head?.all (fun x => !x.isDigit) = true)
    (hp : rest.head? = some '.' → rest.tail.head?.all (fun x => !x.isDigit) = true) : unsignedPart (ds ++ rest) = ds := by
  rw [unsignedPart, takeWhile_append_of_head hd hr, dropWhile_append_of_head hd hr]
  split
  · rename_i after
    have hf : ([] ++ after).takeWhile Char.isDigit = [] := takeWhile_append_of_head nofun (hp rfl)
    rw [List.nil_append] at hf
    simp [hf]
  · rfl

/-- Digits around a point are divided from what ends them. -/
theorem unsignedPart_fraction {ds fs rest : List Char} (hd : ∀ d ∈ ds, d.isDigit = true) (hf : ∀ d ∈ fs, d.isDigit = true)
    (hn : fs ≠ []) (hr : rest.head?.all (fun x => !x.isDigit) = true) :
    unsignedPart (ds ++ '.' :: (fs ++ rest)) = ds ++ '.' :: fs := by
  have hpoint : ('.' :: (fs ++ rest)).head?.all (fun x => !x.isDigit) = true := rfl
  rw [unsignedPart, takeWhile_append_of_head hd hpoint, dropWhile_append_of_head hd hpoint]
  simp [takeWhile_append_of_head hf hr, hn]

/-- The digits are divided from what ends the numeral. -/
theorem unsignedPart_append {ds rest : List Char} (h : IsUnsigned ds) (hr : rest.head?.all isBreak = true) :
    unsignedPart (ds ++ rest) = ds := by
  have hb : ∀ {P : Char → Bool}, (" \n\t\r(),;\x7b\x7d=!<>".toList.all P) = true → rest.head?.all P = true := by
    intro P hP
    cases rest with
    | nil => rfl
    | cons x rest => exact of_isBreak hr hP
  have hdig : rest.head?.all (fun x => !x.isDigit) = true := hb (by decide)
  cases h with
  | whole hd hn =>
    refine unsignedPart_whole hd hdig fun he => ?_
    have := hb (P := fun x => x ≠ '.') (by decide)
    rw [he] at this
    cases this
  | fraction hd hf hn =>
    rw [List.append_assoc, List.cons_append, unsignedPart_fraction hd hf hn hdig]

/-- The sign is divided from the digits. -/
theorem signPart_append {sign ds rest : List Char} (hs : sign ∈ [[], ['+'], ['-']]) (hd : IsUnsigned ds) :
    signPart (sign ++ (ds ++ rest)) = sign := by
  simp only [List.mem_cons, List.not_mem_nil, or_false] at hs
  rcases hs with rfl | rfl | rfl
  · -- no sign: the first character is a digit or a point
    have hc : ∀ x xs, ds = x :: xs → x ≠ '+' ∧ x ≠ '-' := by
      intro x xs he
      cases hd with
      | whole hw _ =>
        have := hw x (by rw [he]; exact List.mem_cons_self)
        constructor <;> rintro rfl <;> cases this
      | @fraction ws fs hw _ _ =>
        cases ws with
        | nil => rw [← (List.cons.inj he).1]; decide
        | cons y ws =>
          have := hw y List.mem_cons_self
          rw [← (List.cons.inj he).1]
          constructor <;> rintro rfl <;> cases this
    obtain ⟨x, xs, rfl⟩ := List.exists_cons_of_ne_nil hd.ne_nil
    have hx := hc x xs rfl
    simp only [List.nil_append, List.cons_append, signPart]
    split
    · rename_i h; exact absurd (List.cons.inj h).1 hx.1
    · rename_i h; exact absurd (List.cons.inj h).1 hx.2
    · rfl
  · rfl
  · rfl

namespace Lexeme

variable {w : Lexeme} {c c' : Cursor}

/-- A numeral is passed by its reader. -/
theorem number_of_past (hw : IsNumeral w.chars) (h : Cursor.Past w c c') :
    number c = some (String.ofList w.chars, c') := by
  have hb := h.head_isBreak fun x hx => (of_isNumeralChar (hw.isNumeralChar x hx)).1
  obtain ⟨sign, hs, ds, hc, hd⟩ := hw
  have ha : c.ahead = sign ++ (ds ++ c'.rest) := by rw [h.ahead, hc, List.append_assoc]
  show (let sign := signPart c.ahead
    let digits := unsignedPart (c.ahead.drop sign.length)
    if digits.isEmpty then none
    else some (String.ofList (sign ++ digits), (c.skipWhile isBlank).advance (sign.length + digits.length))) = _
  have he : ds.isEmpty = false := by simpa using hd.ne_nil
  rw [ha, signPart_append hs hd]
  simp only [List.drop_left, unsignedPart_append hd hb, he, Bool.false_eq_true, if_false]
  rw [h.eq_advance, hc, List.length_append]

end Lexeme

/-! ## Texts between single quotes -/

/-- The characters may stand between quotes: each stands for itself, or two stand together. -/
inductive Quoted.IsBody (quote : Char) : List Char → Prop where
  | nil : IsBody quote []
  | plain {c : Char} {cs : List Char} (h : isPlain quote c = true) (hs : IsBody quote cs) : IsBody quote (c :: cs)
  | pair {c d : Char} {cs : List Char} (h : isPair quote c d cs = true) (hs : IsBody quote cs) : IsBody quote (c :: d :: cs)

/-- What starts two characters that stand together does not stand for itself. -/
theorem Quoted.isPlain_of_isPair {quote c d : Char} {cs : List Char} (h : isPair quote c d cs = true) :
    isPlain quote c = false := by
  rw [isPair, Bool.or_eq_true, Bool.and_eq_true, Bool.and_eq_true] at h
  rcases h with ⟨h, -⟩ | ⟨h, -⟩ <;> simp_all [isPlain]

/-- A text between quotes is divided at the quote that closes it. -/
theorem Quoted.split_of_isBody {quote : Char} {body rest : List Char} (hq : quote ≠ '\\') (h : IsBody quote body)
    (hr : rest.head? ≠ some quote) : split quote (body ++ quote :: rest) = (body, quote :: rest) := by
  have hself : isPlain quote quote = false := by simp [isPlain]
  induction h with
  | nil =>
    cases rest with
    | nil => rw [List.nil_append, split, hself]; rfl
    | cons d rest =>
      have hd : d ≠ quote := fun e => hr (by rw [e]; rfl)
      have hp : isPair quote quote d rest = false := by simp [isPair, hd, hq]
      rw [List.nil_append, split, hself, hp]
      rfl
  | @plain c cs hc _ ih =>
    obtain ⟨y, ys, hy⟩ : ∃ y ys, cs ++ quote :: rest = y :: ys := by cases cs <;> exact ⟨_, _, rfl⟩
    rw [List.cons_append, hy, split, if_pos hc, ← hy, ih]
  | @pair c d cs hp _ ih =>
    -- what `x` needs after it does not change when the closing quote follows
    have hp' : isPair quote c d (cs ++ quote :: rest) = true := by
      cases cs with
      | nil =>
        simp only [isPair, List.head?_nil, Option.any_none, Bool.or_false, Bool.or_eq_true, Bool.and_eq_true] at hp ⊢
        exact hp.imp_right fun h => ⟨h.1, .inl h.2⟩
      | cons y cs => exact hp
    rw [List.cons_append, List.cons_append, split, isPlain_of_isPair hp, hp', if_neg (by simp), if_pos rfl, ih]

/-- Two texts between quotes of one kind that stand at the same place are the same: both end at the first quote that closes. -/
theorem Quoted.IsBody.append_inj {quote : Char} {body body' rest rest' : List Char} (h : IsBody quote body)
    (hq : quote = '"' ∨ quote = '\'') (h' : IsBody quote body') (hr : rest.head? ≠ some quote) (hr' : rest'.head? ≠ some quote)
    (he : body ++ quote :: rest = body' ++ quote :: rest') : body = body' ∧ rest = rest' := by
  have hne : quote ≠ '\\' := by rcases hq with rfl | rfl <;> decide
  have hs := congrArg (split quote) he
  rw [split_of_isBody hne h hr, split_of_isBody hne h' hr'] at hs
  obtain ⟨hbody, hrest⟩ := Prod.mk.inj hs
  exact ⟨hbody, (List.cons.inj hrest).2⟩

namespace Reader

/-- What is touched of a text between quotes of one kind. -/
def quotation (quote : Char) : Reader (List Char) := fun c =>
  match c.rest with
  | q :: rest =>
    if q = quote then
      match Quoted.split quote rest with
      | (body, q' :: _) => if q' = quote then some (body, c.advance (body.length + 2)) else none
      | (_, []) => none
    else none
  | [] => none

theorem quotedBy_eq (quote : Char) : quotedBy quote = (do blanks; quotation quote) := rfl

/-- A body between quotes is read, up to its closing quote. -/
theorem quotation_of_rest {quote : Char} {body rest : List Char} {c : Cursor} (hq : quote = '"' ∨ quote = '\'')
    (hb : Quoted.IsBody quote body) (hr : rest.head? ≠ some quote) (hc : c.rest = quote :: (body ++ quote :: rest)) :
    quotation quote c = some (body, c.advance (body.length + 2)) := by
  have hs := Quoted.split_of_isBody (by rcases hq with rfl | rfl <;> decide) hb hr
  unfold quotation
  simp only [hc, if_true, hs]

/-- No text between quotes is read where its quote is not ahead. -/
theorem quotedBy_eq_none {quote : Char} {c : Cursor} (h : c.ahead.head? ≠ some quote) : quotedBy quote c = none := by
  rw [Cursor.ahead] at h
  rw [quotedBy_eq, bind_of_some (p := blanks) rfl, quotation]
  split
  · rename_i q rest hr
    exact if_neg fun e => h (by rw [hr, e]; rfl)
  · rfl

end Reader

namespace Lexeme

variable {w : Lexeme} {s : String} {c c' : Cursor}

/-- A text between single quotes is passed by its reader. -/
theorem quoted_of_past {body : List Char} (hw : w.chars = '\'' :: (body ++ ['\''])) (hb : Quoted.IsBody '\'' body)
    (h : Cursor.Past w c c') : quoted c = some (String.ofList w.chars, c') := by
  have hl : w.chars.getLast? = some '\'' := by
    rw [hw, ← List.cons_append, List.getLast?_append]
    rfl
  have hr : c'.rest.head? ≠ some '\'' := by
    intro he
    have := h.after
    rw [hl, parted, he] at this
    cases this
  have ha : c.ahead = '\'' :: (body ++ '\'' :: c'.rest) := by rw [h.ahead, hw]; simp
  have h₁ : quotedBy '"' c = none := quotedBy_eq_none (by rw [ha]; simp)
  have h₂ : quotedBy '\'' c = some (body, c') := by
    rw [quotedBy_eq, bind_of_some (p := blanks) rfl, quotation_of_rest (.inr rfl) hb hr ha, h.eq_advance, hw]
    simp
  simp only [quoted, bind_apply, orElse_apply, h₁, h₂, Option.none_or, pure_apply, hw]
  rfl

/-- The lexeme writes the operand: a reference, a text between single quotes or a numeral. -/
inductive IsOperand : Lexeme → String → Prop where
  | reference {w : Lexeme} {s : String} (h : w.Refers s) : IsOperand w s
  | quoted {w : Lexeme} {body : List Char} (hw : w.chars = '\'' :: (body ++ ['\''])) (hb : Quoted.IsBody '\'' body) :
      IsOperand w (String.ofList w.chars)
  | number {w : Lexeme} (h : IsNumeral w.chars) : IsOperand w (String.ofList w.chars)

end Lexeme

/-! ## Reading operands -/

/-- No reference is read where no character is ahead that may start one. -/
theorem reference_eq_none {c : Cursor} (hc : c.ahead.head?.all (fun x => !isNameStart x) = true) : reference c = none := by
  simp only [reference, bind_apply, name_eq_none hc]

/-- A text between quotes is not read where no quote is ahead. -/
theorem quoted_eq_none {c : Cursor} (hc : c.ahead.head?.all (fun x => x ≠ '"' && x ≠ '\'') = true) : quoted c = none := by
  have h₁ : quotedBy '"' c = none := quotedBy_eq_none fun he => by rw [he] at hc; cases hc
  have h₂ : quotedBy '\'' c = none := quotedBy_eq_none fun he => by rw [he] at hc; cases hc
  simp only [quoted, bind_apply, orElse_apply, h₁, h₂, Option.or_none]

/-- A numeral is read behind blanks: a sign, if there is one, and what follows it. -/
theorem number_apply (c : Cursor) :
    number c = if (unsignedPart (c.ahead.drop (signPart c.ahead).length)).isEmpty then none
      else some (String.ofList (signPart c.ahead ++ unsignedPart (c.ahead.drop (signPart c.ahead).length)),
        (c.skipWhile isBlank).advance
          ((signPart c.ahead).length + (unsignedPart (c.ahead.drop (signPart c.ahead).length)).length)) := rfl

/-- No digits are read where there is no digit, with a point before it or without. -/
theorem number_eq_none {c : Cursor} (hs : signPart c.ahead = []) (hd : unsignedPart c.ahead = []) : number c = none := by
  rw [number_apply, hs, List.length_nil, List.drop_zero, hd]
  rfl

/-- A number is not read where no character of a numeral is ahead. -/
theorem number_of_head {c : Cursor} (hc : c.ahead.head?.all (fun x => !isNumeralChar x) = true) : number c = none := by
  cases ha : c.ahead with
  | nil => exact number_eq_none (by rw [ha]; rfl) (by rw [ha]; rfl)
  | cons x rest =>
    rw [ha, List.head?_cons, Option.all_some] at hc
    simp only [isNumeralChar, Bool.not_or, Bool.and_eq_true, Bool.not_eq_true', decide_eq_false_iff_not] at hc
    obtain ⟨⟨⟨hd, hp⟩, hplus⟩, hminus⟩ := hc
    refine number_eq_none ?_ ?_
    · rw [ha, signPart]
      · exact fun _ h => hplus (List.cons.inj h).1
      · exact fun _ h => hminus (List.cons.inj h).1
    · simp [ha, unsignedPart, hd, hp]

/-- An operand is a reference, else a text between quotes, else a numeral. -/
theorem operandReader_apply (c : Cursor) :
    Operand.reader c = (((reference c).map fun r => (Operand.reference r.1, r.2)).or
      (((quoted c).map fun r => (Operand.quoted r.1, r.2)).or ((number c).map fun r => (Operand.number r.1, r.2)))) := by
  simp only [Operand.reader, firstOf, orElse_apply, bind_apply]
  cases reference c <;> cases quoted c <;> cases number c <;> rfl

/-- An operand is passed by its reader. -/
theorem Lexeme.IsOperand.reader {w : Lexeme} {s : String} {c c' : Cursor} (hw : w.IsOperand s) (h : Cursor.Past w c c') :
    ∃ o : Operand, o.text = s ∧ Operand.reader c = some (o, c') := by
  rw [operandReader_apply]
  cases hw with
  | reference hw => exact ⟨.reference s, rfl, by rw [hw.reference h]; rfl⟩
  | quoted hw hb =>
    have hr : Reader.reference c = none := reference_eq_none (by rw [h.ahead, hw]; rfl)
    exact ⟨.quoted _, rfl, by rw [hr, Lexeme.quoted_of_past hw hb h]; rfl⟩
  | number hw =>
    have hc : c.ahead.head? = some w.first := by rw [h.ahead]; rfl
    obtain ⟨-, hn, hq, hq', -⟩ := of_isNumeralChar (hw.isNumeralChar w.first List.mem_cons_self)
    have hr : Reader.reference c = none := reference_eq_none (by rw [hc, Option.all_some, hn]; rfl)
    have hu : Reader.quoted c = none := quoted_eq_none (by rw [hc]; simp [hq, hq'])
    exact ⟨.number _, rfl, by rw [hr, hu, Lexeme.number_of_past hw h]; rfl⟩

/-- An operand starts with no character of a comparison operator. -/
theorem Lexeme.IsOperand.first_ne {w : Lexeme} {s : String} (hw : w.IsOperand s) : w.first ≠ '=' ∧ w.first ≠ '>' := by
  have hm : isMark w.first = false := by
    cases hw with
    | reference h => exact h.isMark_eq_false w.first List.mem_cons_self
    | quoted hw _ => rw [show w.first = '\'' from (List.cons.inj hw).1]; decide
    | number h => exact (of_isNumeralChar (h.isNumeralChar w.first List.mem_cons_self)).1
  constructor <;> intro h <;> rw [h] at hm <;> cases hm

/-- What stands right before an operand, or before the blanks before it, is not followed by a comparison operator. -/
theorem Lexeme.IsOperand.head_ne {w : Lexeme} {s : String} {c c' : Cursor} (hw : w.IsOperand s) (h : Cursor.Past w c c') :
    c.rest.head?.all (fun x => x ≠ '=' && x ≠ '>') = true := by
  cases hr : c.rest with
  | nil => rfl
  | cons x rest =>
    cases hx : isBlank x with
    | true =>
      have hne : x ≠ '=' ∧ x ≠ '>' := by constructor <;> rintro rfl <;> cases hx
      simpa using hne
    | false =>
      have ha := h.ahead
      rw [Cursor.ahead, Cursor.skipWhile, hr, List.takeWhile_cons_of_neg (by simp [hx])] at ha
      have hf : x = w.first := (List.cons.inj (hr.symm.trans ha)).1
      rw [hf]
      simpa using hw.first_ne

/-! ## Comparison operators -/

/-- A symbol is read behind blanks where it is ahead. -/
theorem symbol_apply (text : String) (c : Cursor) :
    symbol text c = if text.toList.isPrefixOf c.ahead
      then some (text, (c.skipWhile isBlank).advance text.length) else none := by
  have he : Reader.literal text c = if text.toList.isPrefixOf c.ahead
      then some ((), (c.skipWhile isBlank).advance text.length) else none := rfl
  rw [symbol, bind_apply, he]
  by_cases hp : text.toList.isPrefixOf c.ahead = true
  · rw [if_pos hp, if_pos hp]
    rfl
  · rw [if_neg hp, if_neg hp]

/-- The longest match is one of the texts that are ahead. -/
theorem longestOf_symbol {texts : List String} {c : Cursor} {r : String × Cursor}
    (h : longestOf (texts.map symbol) c = some r) :
    ∃ t ∈ texts, t.toList.isPrefixOf c.ahead = true ∧ r = (t, (c.skipWhile isBlank).advance t.length) := by
  have hone : ∀ t, symbol t c = some r →
      t.toList.isPrefixOf c.ahead = true ∧ r = (t, (c.skipWhile isBlank).advance t.length) := by
    intro t ht
    rw [symbol_apply] at ht
    split at ht
    · exact ⟨‹_›, (Option.some.inj ht).symm⟩
    · cases ht
  induction texts with
  | nil => cases h
  | cons t texts ih =>
    cases texts with
    | nil => exact ⟨t, List.mem_cons_self, hone t h⟩
    | cons u more =>
      have hl : longest (symbol t) (longestOf ((u :: more).map symbol)) c = some r := h
      unfold longest at hl
      rcases ht : symbol t c with _ | ⟨a, c₁⟩ <;> rcases hu : longestOf ((u :: more).map symbol) c with _ | ⟨b, c₂⟩ <;>
        simp only [ht, hu] at hl
      · cases hl
      · obtain ⟨v, hv, hp⟩ := ih (hu.trans hl)
        exact ⟨v, List.mem_cons_of_mem t hv, hp⟩
      · exact ⟨t, List.mem_cons_self, hone t (ht.trans hl)⟩
      · split at hl
        · obtain ⟨v, hv, hp⟩ := ih (hu.trans hl)
          exact ⟨v, List.mem_cons_of_mem t hv, hp⟩
        · exact ⟨t, List.mem_cons_self, hone t (ht.trans hl)⟩

/-- Among texts the one that is ahead is read if no longer one is. -/
theorem longestOf_symbol_eq {texts : List String} {c : Cursor} {t : String} (ht : t ∈ texts)
    (hp : t.toList.isPrefixOf c.ahead = true)
    (hmax : ∀ u ∈ texts, u.toList.isPrefixOf c.ahead = true → u.length < t.length ∨ u = t) :
    longestOf (texts.map symbol) c = some (t, (c.skipWhile isBlank).advance t.length) := by
  have hself : symbol t c = some (t, (c.skipWhile isBlank).advance t.length) := by rw [symbol_apply, if_pos hp]
  induction texts with
  | nil => cases ht
  | cons u texts ih =>
    cases texts with
    | nil => rw [← List.mem_singleton.mp ht]; exact hself
    | cons v more =>
      show longest (symbol u) (longestOf ((v :: more).map symbol)) c = _
      unfold longest
      by_cases hm : t ∈ v :: more
      · -- the match is among the others: the first text is shorter, or the same
        rw [ih hm fun u' hu' => hmax u' (List.mem_cons_of_mem u hu'), symbol_apply]
        by_cases hu : u.toList.isPrefixOf c.ahead = true
        · rw [if_pos hu]
          rcases hmax u List.mem_cons_self hu with hlt | rfl
          · simp [Cursor.offset_advance, hlt]
          · simp
        · rw [if_neg hu]
      · obtain rfl : t = u := (List.mem_cons.mp ht).resolve_right hm
        rw [hself]
        cases hr : longestOf ((v :: more).map symbol) c with
        | none => rfl
        | some r =>
          obtain ⟨b, hb, hbp, rfl⟩ := longestOf_symbol hr
          rcases hmax b (List.mem_cons_of_mem t hb) hbp with hlt | rfl
          · simp only [Cursor.offset_advance]
            rw [if_neg (by omega)]
          · exact absurd hb hm

/-- The texts of the comparison operators. -/
def comparatorTexts : List String := ["=", "!=", "<>", "<", "<=", ">", ">="]

theorem comparator_apply (c : Cursor) :
    Clause.comparator .standard c = longestOf (comparatorTexts.map symbol) c := rfl

/-- A comparison operator that starts with another goes on with `=` or `>`. -/
theorem comparatorTexts_longer : ∀ t ∈ comparatorTexts, ∀ u ∈ comparatorTexts,
    (u.toList.isPrefixOf t.toList = true → u.length < t.length ∨ u = t) ∧
      (u.toList.isPrefixOf t.toList = false → t.toList.isPrefixOf u.toList = true →
        (u.toList.drop t.length).head?.any (fun x => x = '=' || x = '>') = true) := by decide

/-- A comparison operator is read as a whole where nothing follows that would make it longer. -/
theorem comparator_of_past {w : Lexeme} {s : Symbol} {c c' : Cursor} (hs : s ∈ comparatorSymbols)
    (hw : w.chars = (Lexicon.usual s).toList) (h : Cursor.Past w c c')
    (hr : c'.rest.head?.all (fun x => x ≠ '=' && x ≠ '>') = true) :
    Clause.comparator .standard c = some (Lexicon.usual s, c') := by
  have ha : c.ahead = (Lexicon.usual s).toList ++ c'.rest := by rw [h.ahead, hw]
  have ht : Lexicon.usual s ∈ comparatorTexts := List.mem_map_of_mem hs
  rw [comparator_apply, longestOf_symbol_eq ht (by rw [ha]; simp) ?_, h.eq_advance, hw, String.length_toList]
  intro u hu hp
  obtain ⟨h₁, h₂⟩ := comparatorTexts_longer _ ht u hu
  cases hup : u.toList.isPrefixOf (Lexicon.usual s).toList with
  | true => exact h₁ hup
  | false =>
    -- a longer one would need its next character here
    rw [List.isPrefixOf_iff_prefix, ha] at hp
    have hsu : (Lexicon.usual s).toList <+: u.toList := by
      rcases List.prefix_or_prefix_of_prefix hp (List.prefix_append _ c'.rest) with hus | hsu
      · rw [List.isPrefixOf_iff_prefix.mpr hus] at hup
        cases hup
      · exact hsu
    have hd := h₂ hup (List.isPrefixOf_iff_prefix.mpr hsu)
    obtain ⟨v, hv⟩ := hsu
    rw [← hv, ← String.length_toList, List.drop_left] at hd
    rw [← hv, List.prefix_append_right_inj] at hp
    obtain ⟨rest, hrest⟩ := hp
    rw [← hrest] at hr
    cases v with
    | nil => cases hd
    | cons x v =>
      have hx : x = '=' ∨ x = '>' := by simpa using hd
      rcases hx with rfl | rfl <;> simp at hr

/-- Where a comparison operator was read one of four characters is ahead. -/
theorem head_of_comparator {c : Cursor} {r : String × Cursor} (h : Clause.comparator .standard c = some r) :
    ∃ x ∈ "=!<>".toList, c.ahead.head? = some x := by
  obtain ⟨t, ht, hp, -⟩ := longestOf_symbol h
  obtain ⟨rest, ha⟩ := List.isPrefixOf_iff_prefix.mp hp
  have hfirst : ∀ t ∈ comparatorTexts, t.toList.head?.any (· ∈ "=!<>".toList) = true := by decide
  have hany := hfirst t ht
  cases hh : t.toList.head? with
  | none =>
    rw [hh] at hany
    cases hany
  | some x =>
    rw [hh] at hany
    exact ⟨x, of_decide_eq_true hany, by rw [← ha, List.head?_append, hh]; rfl⟩

/-- No comparison operator is read where no character of one is ahead. -/
theorem comparator_eq_none {c : Cursor} (hc : c.ahead.head?.all (fun x => !"=!<>".toList.contains x) = true) :
    Clause.comparator .standard c = none := by
  cases hr : Clause.comparator .standard c with
  | none => rfl
  | some r =>
    obtain ⟨x, hx, hh⟩ := head_of_comparator hr
    rw [hh, Option.all_some, List.contains_iff_mem.mpr hx] at hc
    cases hc

end RelAlg
