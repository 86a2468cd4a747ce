import RelAlg.Proofs.Reader.Token

/-!
# Tokens by longest match

What the tokens of a text are in the usual spelling of the extended language, said without its rules. `Scan.reading?`
gives the words that a token is read as: none for a mark, its spelling for a word of the language, small letters for a
name. `Scan.pieces` divides a text, taking the longest token wherever one starts and single characters elsewhere, and
`Scan.words` is what its tokens are read as in their order; a join right before parameters is read as a theta join.
`Scan.Longest` says that no longer token starts at a place. It is shown here for every kind of token from what may come
after it.
-/

namespace RelAlg

open Reader Surface

namespace Scan

/-! ## Tokens -/

/-- The kinds of tokens. -/
inductive Kind where
  /-- Punctuation. -/
  | mark
  /-- A keyword or an operator. -/
  | word
  /-- A name, or two with a point between them. -/
  | name
  /-- A text between quotes. -/
  | literal
  | numeral
  deriving DecidableEq, Repr

/-- All kinds of tokens. -/
def kinds : List Kind := [.mark, .word, .name, .literal, .numeral]

/-- The symbols that are dropped. -/
def marks : List Symbol := [.paramsStart, .paramsStop, .parenLeft, .parenRight, .delimiter, .terminator]

/-- The symbols that are kept. -/
def keywords : List Symbol := (Symbol.ofLevel .extended).filter fun s => s ∉ marks

/-- Letter by letter the characters are the spelling of the symbol in any letter case. -/
def spells (w : List Char) (s : Symbol) : Bool := w.map Text.upperChar = (Lexicon.usual s).toList.map Text.upperChar

/-- A name, or two with a point between them. -/
def isReference (w : List Char) : Bool :=
  isIdentifier (String.ofList w) ||
    isIdentifier (String.ofList (w.takeWhile (· ≠ '.'))) && isIdentifier (String.ofList ((w.dropWhile (· ≠ '.')).drop 1))

/-- The characters may stand between quotes. -/
def isBody (quote : Char) : List Char → Bool
  | [] => true
  | [c] => Quoted.isPlain quote c
  | c :: d :: cs =>
    Quoted.isPlain quote c && isBody quote (d :: cs) || Quoted.isPair quote c d cs && isBody quote cs

/-- A text between quotes of one kind. -/
def isLiteral (w : List Char) : Bool :=
  (w.head? = some '"' || w.head? = some '\'') && w.tail.getLast? = w.head? && isBody (w.headD ' ') w.tail.dropLast

/-- Digits, with a point and digits after it or without. -/
def isUnsigned (w : List Char) : Bool :=
  match w.dropWhile Char.isDigit with
  | [] => !w.isEmpty
  | c :: fraction => c = '.' && !fraction.isEmpty && fraction.all Char.isDigit

/-- A numeral. -/
def isNumeral : List Char → Bool
  | [] => false
  | c :: cs => isUnsigned (c :: cs) || (c = '+' || c = '-') && isUnsigned cs

/-- The words that a token of the kind is read as. -/
def Kind.reading? : Kind → List Char → Option (List String)
  | .mark, w => if marks.any fun s => w = (Lexicon.usual s).toList then some [] else none
  | .word, w => (keywords.find? (spells w)).map fun s => [Lexicon.usual s]
  | .name, w => if isReference w then some [lowered w] else none
  | .literal, w => if isLiteral w then some [String.ofList ('\'' :: w.tail.dropLast ++ ['\''])] else none
  | .numeral, w => if isNumeral w then some [String.ofList w] else none

/-- The words that a token is read as; nothing else is read. -/
def reading? (w : List Char) : Option (List String) :=
  [Kind.mark, .word, .name, .literal, .numeral].findSome? (·.reading? w)

/-! ## The tokens of a text -/

/-- The length of the longest token of at most `n` characters at the start of a text, zero if there is none. -/
def tokenLength : Nat → List Char → Nat
  | 0, _ => 0
  | n + 1, cs => if (reading? (cs.take (n + 1))).isSome then n + 1 else tokenLength n cs

/-- The tokens and the single characters between them, behind `k` characters of a token that is listed already. -/
def piecesAfter : Nat → List Char → List (List Char)
  | _, [] => []
  | k + 1, _ :: cs => piecesAfter k cs
  | 0, c :: cs =>
    let n := tokenLength (c :: cs).length (c :: cs)
    (c :: cs).take (max n 1) :: piecesAfter (n - 1) cs

/-- A text divided into its tokens and the single characters between them. -/
def pieces (cs : List Char) : List (List Char) := piecesAfter 0 cs

/-- The words of a piece in front of a text: none for a blank, and a theta join for a join right before parameters. -/
def wordsBefore (w after : List Char) : Option (List String) :=
  if w.all isBlank then some []
  else if spells w .join && (Lexicon.usual .paramsStart).toList.isPrefixOf after then some [Lexicon.usual .thetaJoin]
  else reading? w

/-- The words of pieces in their order, in front of a text. -/
def wordsOf (after : List Char) : List (List Char) → Option (List String)
  | [] => some []
  | w :: ws => do
    let first ← wordsBefore w (ws.flatten ++ after)
    let rest ← wordsOf after ws
    pure (first ++ rest)

/-- The words that the tokens of a text are read as, if there is nothing but tokens and blanks. -/
def words (text : String) : Option (List String) := wordsOf [] (pieces text.toList)

/-! ## What the kinds are -/

/-- A reference is a name, or a relation name and a column name with a point between them. -/
theorem isReference_iff {w : List Char} : isReference w = true ↔ isIdentifier (String.ofList w) = true ∨
    ∃ relation column, isIdentifier (String.ofList relation) = true ∧ isIdentifier (String.ofList column) = true ∧
      w = relation ++ '.' :: column := by
  rw [isReference, Bool.or_eq_true, Bool.and_eq_true]
  refine or_congr Iff.rfl ⟨?_, ?_⟩
  · rintro ⟨hr, hc⟩
    refine ⟨_, _, hr, hc, ?_⟩
    obtain ⟨x, xs, hx, -⟩ := exists_cons_of_isIdentifier hc
    have hhead := head?_dropWhile_all (· ≠ '.') w
    cases hd : w.dropWhile (· ≠ '.') with
    | nil =>
      rw [hd] at hx
      cases hx
    | cons y ys =>
      rw [hd] at hhead
      obtain rfl : y = '.' := by simpa using hhead
      rw [List.drop_one, List.tail_cons, ← hd, List.takeWhile_append_dropWhile]
  · rintro ⟨relation, column, hr, hc, rfl⟩
    have hp : ∀ x ∈ relation, decide (x ≠ '.') = true := by
      intro x hx
      have hn := isNameChar_of_isIdentifier hr x hx
      rw [decide_eq_true_eq]
      rintro rfl
      cases hn
    rw [takeWhile_append_of_head hp rfl, dropWhile_append_of_head hp rfl]
    exact ⟨hr, hc⟩

/-- What may stand between quotes can be found out. -/
theorem isBody_iff {quote : Char} {w : List Char} : isBody quote w = true ↔ Quoted.IsBody quote w := by
  constructor
  · intro h
    fun_induction isBody quote w with
    | case1 => exact .nil
    | case2 c => exact .plain h .nil
    | case3 c d cs ih₁ ih₂ =>
      rw [Bool.or_eq_true, Bool.and_eq_true, Bool.and_eq_true] at h
      rcases h with ⟨hc, h⟩ | ⟨hp, h⟩
      · exact .plain hc (ih₁ h)
      · exact .pair hp (ih₂ h)
  · intro h
    induction h with
    | nil => rfl
    | @plain c cs hc _ ih =>
      cases cs with
      | nil => exact hc
      | cons d cs => simp [isBody, hc, ih]
    | pair hp _ ih => simp [isBody, hp, ih]

/-- A literal is a body between two quotes of one kind. -/
theorem isLiteral_iff {w : List Char} : isLiteral w = true ↔ ∃ quote body, (quote = '"' ∨ quote = '\'') ∧
    Quoted.IsBody quote body ∧ w = quote :: (body ++ [quote]) := by
  constructor
  · intro h
    cases w with
    | nil => cases h
    | cons quote cs =>
      simp only [isLiteral, List.head?_cons, Option.some.injEq, Bool.or_eq_true, Bool.and_eq_true, decide_eq_true_eq,
        List.tail_cons, List.headD_cons, isBody_iff] at h
      obtain ⟨⟨hq, hl⟩, hb⟩ := h
      have hcs : cs = cs.dropLast ++ [quote] := (List.dropLast_append_getLast? quote (of_decide_eq_true hl)).symm
      exact ⟨quote, cs.dropLast, hq, hb, by rw [← hcs]⟩
  · rintro ⟨quote, body, hq, hb, rfl⟩
    simpa [isLiteral, isBody_iff, hb] using hq

/-- Numerals without a sign can be found out. -/
theorem isUnsigned_iff {w : List Char} : isUnsigned w = true ↔ IsUnsigned w := by
  constructor
  · intro h
    have hsplit : w = w.takeWhile Char.isDigit ++ w.dropWhile Char.isDigit := List.takeWhile_append_dropWhile.symm
    have hw : ∀ d ∈ w.takeWhile Char.isDigit, d.isDigit = true := fun d hd => List.all_eq_true.mp List.all_takeWhile d hd
    unfold isUnsigned at h
    split at h
    · rename_i hd
      rw [hd, List.append_nil] at hsplit
      rw [← hsplit] at hw
      exact .whole hw (by simpa using h)
    · rename_i c fraction hd
      simp only [Bool.and_eq_true, decide_eq_true_eq, Bool.not_eq_true', List.isEmpty_eq_false_iff, List.all_eq_true] at h
      rw [hsplit, hd, h.1.1]
      exact .fraction hw h.2 h.1.2
  · intro h
    unfold isUnsigned
    cases h with
    | whole hd hn => simpa [List.dropWhile_eq_nil_iff.mpr hd] using hn
    | fraction hd hf hn =>
      rw [dropWhile_append_of_head hd rfl]
      simpa [hn] using hf

/-- Numerals can be found out. -/
theorem isNumeral_iff {w : List Char} : isNumeral w = true ↔ IsNumeral w := by
  constructor
  · intro h
    cases w with
    | nil => cases h
    | cons c cs =>
      simp only [isNumeral, Bool.or_eq_true, Bool.and_eq_true, decide_eq_true_eq, isUnsigned_iff] at h
      rcases h with h | ⟨rfl | rfl, h⟩
      · exact ⟨[], by simp, _, rfl, h⟩
      · exact ⟨['+'], by simp, _, rfl, h⟩
      · exact ⟨['-'], by simp, _, rfl, h⟩
  · rintro ⟨sign, hs, ds, rfl, hd⟩
    have hu := isUnsigned_iff.mpr hd
    simp only [List.mem_cons, List.not_mem_nil, or_false] at hs
    rcases hs with rfl | rfl | rfl
    · obtain ⟨d, ds, rfl⟩ := List.exists_cons_of_ne_nil hd.ne_nil
      simp [isNumeral, hu]
    · simp [isNumeral, hu]
    · simp [isNumeral, hu]

/-- The letters of words of the language are ASCII and small, and no points; a word that starts with a letter has letters only.
The capital form of a first letter is neither of those that characters beyond ASCII have too. -/
theorem keywords_letters : ∀ s ∈ keywords, ((Lexicon.usual s).toList.all fun z => z.toNat < 128 && z.toUpper ≠ '.') = true ∧
    ((Lexicon.usual s).toList.head?.all (fun z => z.toUpper.isAlpha) = true →
      (Lexicon.usual s).toList.all (fun z => z.toUpper.isAlpha) = true) ∧
    (Lexicon.usual s).toList.map Char.toLower = (Lexicon.usual s).toList ∧
    (Lexicon.usual s).toList.head?.any (fun y => y.toNat < 128 && "ADNO=!<>:\\".toList.contains y.toUpper && y.toUpper ≠ 'I'
      && y.toUpper ≠ 'S' && y.toUpper.toNat < 128) = true := by
  decide +kernel

/-- The capital forms of words of the language are different, and only a comparison operator starts with another one. -/
theorem keywords_apart : ∀ s ∈ keywords, ∀ t ∈ keywords,
    ((Lexicon.usual s).toList.map Text.upperChar).isPrefixOf ((Lexicon.usual t).toList.map Text.upperChar) = true →
      s = t ∨ s ∈ comparatorSymbols ∧ t ∈ comparatorSymbols ∧
        (Lexicon.usual s).toList.map Text.upperChar ≠ (Lexicon.usual t).toList.map Text.upperChar := by
  decide +kernel

/-- Only one word of the language is spelled by the characters. -/
theorem spells_unique {w : List Char} {s t : Symbol} (hs : s ∈ keywords) (ht : t ∈ keywords) (h : spells w s = true)
    (h' : spells w t = true) : s = t := by
  have he := (of_decide_eq_true h).symm.trans (of_decide_eq_true h')
  rcases keywords_apart s hs t ht (by rw [he]; simp) with rfl | ⟨-, -, hne⟩
  · rfl
  · exact absurd he hne

variable {k k' : Kind} {w v : List Char} {ss ss' : List String}

/-- A mark is one of the symbols that are dropped, and is read as nothing. -/
theorem reading?_mark : Kind.mark.reading? w = some ss ↔ ss = [] ∧ ∃ s ∈ marks, w = (Lexicon.usual s).toList := by
  simp only [Kind.reading?, Option.ite_none_right_eq_some, List.any_eq_true, decide_eq_true_eq, Option.some.injEq]
  tauto

/-- A word of the language is one in any letter case, and is read as its usual spelling. -/
theorem reading?_word : Kind.word.reading? w = some ss ↔ ∃ s ∈ keywords, spells w s = true ∧ ss = [Lexicon.usual s] := by
  rw [Kind.reading?, Option.map_eq_some_iff]
  constructor
  · rintro ⟨s, hs, rfl⟩
    exact ⟨s, List.mem_of_find?_eq_some hs, List.find?_some hs, rfl⟩
  · rintro ⟨s, hs, hw, rfl⟩
    cases hf : keywords.find? (spells w) with
    | none => exact absurd hw (List.find?_eq_none.mp hf s hs)
    | some t => exact ⟨t, rfl, by rw [spells_unique (List.mem_of_find?_eq_some hf) hs (List.find?_some hf) hw]⟩

/-- A name is a reference, and is read in small letters. -/
theorem reading?_name : Kind.name.reading? w = some ss ↔ isReference w = true ∧ ss = [lowered w] := by
  simp only [Kind.reading?, Option.ite_none_right_eq_some, Option.some.injEq]
  tauto

/-- A literal is read between single quotes, whatever its own quotes are. -/
theorem reading?_literal : Kind.literal.reading? w = some ss ↔ ∃ quote body, (quote = '"' ∨ quote = '\'') ∧
    Quoted.IsBody quote body ∧ w = quote :: (body ++ [quote]) ∧ ss = [String.ofList ('\'' :: body ++ ['\''])] := by
  simp only [Kind.reading?, Option.ite_none_right_eq_some, Option.some.injEq, isLiteral_iff]
  constructor
  · rintro ⟨⟨quote, body, hq, hb, rfl⟩, rfl⟩
    exact ⟨quote, body, hq, hb, rfl, by simp⟩
  · rintro ⟨quote, body, hq, hb, rfl, rfl⟩
    exact ⟨⟨quote, body, hq, hb, rfl⟩, by simp⟩

/-- A numeral is read as it stands. -/
theorem reading?_numeral : Kind.numeral.reading? w = some ss ↔ IsNumeral w ∧ ss = [String.ofList w] := by
  simp only [Kind.reading?, Option.ite_none_right_eq_some, Option.some.injEq, isNumeral_iff]
  tauto

/-! ## How tokens start -/

/-- A token of the kind may start with the character. -/
def starts : Kind → Char → Bool
  | .mark, x => "_\x7d(),;".toList.contains x
  | .word, x => x.toNat < 128 && "ADNO=!<>:\\".toList.contains x.toUpper
  | .name, x => isNameStart x
  | .literal, x => x = '"' || x = '\''
  | .numeral, x => isNumeralChar x

/-- Beyond ASCII only a dotless i and a long s have a capital form of one ASCII character. -/
theorem eq_of_upperChar {x u : Char} (hx : ¬ x.toNat < 128) (hu : u.toNat < 128) (h : Text.upperChar x = [u]) :
    u = 'I' ∨ u = 'S' := by
  have hl : ∀ e ∈ Text.capitalExpansions, e.2.length ≠ 1 := by decide +kernel
  have hs : ∀ s ∈ Text.capitalSpans, 128 ≤ s.image ∨ s.first = s.last ∧ (s.image = 73 ∨ s.image = 83) := by decide +kernel
  have hv : ∀ s ∈ Text.capitalSpans, s.image + (s.last - s.first) < 0xd800 ∨
      0xdfff < s.image ∧ s.image + (s.last - s.first) < 0x110000 := by decide +kernel
  rw [Text.upperChar, if_neg hx] at h
  obtain ⟨e, he, hm⟩ | ⟨s, hmem, _, hi, hm⟩ | hm := Text.mapCase_cases Text.capitalSpans Text.capitalExpansions x <;>
    rw [hm] at h
  · exact absurd (by simpa using congrArg List.length h) (hl e he)
  · obtain ⟨hin, rfl⟩ := Text.CaseSpan.of_image? hi
    obtain rfl := (List.cons.inj h).1
    have hvalid : (s.image + (x.toNat - s.first)).isValidChar := by
      have := hv s hmem
      simp only [Nat.isValidChar]
      omega
    rw [Char.toNat_ofNat, if_pos hvalid] at hu
    rcases hs s hmem with hn | ⟨hf, hn | hn⟩
    · omega
    · exact .inl (by rw [show s.image + (x.toNat - s.first) = 73 by omega])
    · exact .inr (by rw [show s.image + (x.toNat - s.first) = 83 by omega])
  · obtain rfl := (List.cons.inj h).1
    exact absurd hu hx

/-- The first letter of a word of the language has a capital form that no character beyond ASCII has. -/
theorem starts_word {s : Symbol} {x y : Char} {ys : List Char} (hs : s ∈ keywords) (hy : (Lexicon.usual s).toList = y :: ys)
    (h : Text.upperChar x = Text.upperChar y) : starts .word x = true := by
  have hfirst := (keywords_letters s hs).2.2.2
  simp only [hy, List.head?_cons, Option.any_some, Bool.and_eq_true, decide_eq_true_eq] at hfirst
  obtain ⟨⟨⟨⟨ha, hm⟩, hi⟩, hs⟩, hu⟩ := hfirst
  rw [show Text.upperChar y = [y.toUpper] from if_pos ha] at h
  by_cases hx : x.toNat < 128
  · rw [show Text.upperChar x = [x.toUpper] from if_pos hx] at h
    rw [starts, (List.cons.inj h).1, hm, decide_eq_true hx]
    rfl
  · rcases eq_of_upperChar hx hu h with he | he
    · exact absurd he hi
    · exact absurd he hs

/-- A token starts with a character that its kind may start with. -/
theorem exists_cons (h : k.reading? w = some ss) : ∃ x cs, w = x :: cs ∧ starts k x = true := by
  cases k with
  | mark =>
    obtain ⟨-, s, hs, rfl⟩ := reading?_mark.mp h
    have hall : ∀ s ∈ marks, (Lexicon.usual s).toList.head?.any (starts .mark) = true := by decide
    have hs := hall s hs
    cases hw : (Lexicon.usual s).toList with
    | nil => rw [hw] at hs; cases hs
    | cons x cs => rw [hw] at hs; exact ⟨x, cs, rfl, hs⟩
  | word =>
    obtain ⟨s, hs, hw, -⟩ := reading?_word.mp h
    obtain ⟨y, ys, hy⟩ : ∃ y ys, (Lexicon.usual s).toList = y :: ys := by
      refine List.exists_cons_of_ne_nil fun he => ?_
      have hfirst := (keywords_letters s hs).2.2.2
      rw [he] at hfirst
      cases hfirst
    have hw := of_decide_eq_true hw
    rw [hy] at hw
    cases w with
    | nil => cases hw
    | cons x cs => exact ⟨x, cs, rfl, starts_word hs hy (List.cons.inj hw).1⟩
  | name =>
    rcases isReference_iff.mp (reading?_name.mp h).1 with hi | ⟨relation, column, hi, -, rfl⟩
    · obtain ⟨x, cs, rfl, hx, -⟩ := exists_cons_of_isIdentifier hi
      exact ⟨x, cs, rfl, hx⟩
    · obtain ⟨x, cs, rfl, hx, -⟩ := exists_cons_of_isIdentifier hi
      exact ⟨x, _, rfl, hx⟩
  | literal =>
    obtain ⟨quote, body, hq, -, rfl, -⟩ := reading?_literal.mp h
    exact ⟨quote, _, rfl, by simpa [starts] using hq⟩
  | numeral =>
    have hn := (reading?_numeral.mp h).1
    obtain ⟨x, cs, rfl⟩ : ∃ x cs, w = x :: cs := by
      obtain ⟨sign, -, ds, rfl, hd⟩ := hn
      exact List.exists_cons_of_ne_nil (by simp [hd.ne_nil])
    exact ⟨x, cs, rfl, hn.isNumeralChar x List.mem_cons_self⟩

/-- Every token starts with an ASCII character. -/
theorem toNat_lt_of_starts {x : Char} (h : starts k x = true) : x.toNat < 128 := by
  cases k with
  | mark =>
    have hall : ("_\x7d(),;".toList.all fun x => x.toNat < 128) = true := by decide
    exact of_decide_eq_true (List.all_eq_true.mp hall x (List.contains_iff_mem.mp h))
  | word => exact of_decide_eq_true (Bool.and_eq_true_iff.mp h).1
  | name => exact toNat_lt_of_isNameChar (isNameChar_of_isNameStart h)
  | literal => rcases (by simpa [starts] using h : x = '"' ∨ x = '\'') with rfl | rfl <;> decide
  | numeral => exact toNat_lt_of_isNumeralChar h

/-- There are no kinds but these. -/
theorem mem_kinds (k : Kind) : k ∈ kinds := by cases k <;> decide

/-- No blank starts a token, and only words of the language and names start alike. -/
theorem starts_apart : ∀ n : Fin 128, ∀ k ∈ kinds, starts k (Char.ofNat n) = true → isBlank (Char.ofNat n) = false ∧
    ∀ k' ∈ kinds, starts k' (Char.ofNat n) = true → k = k' ∨ k = .word ∧ k' = .name ∨ k = .name ∧ k' = .word := by
  decide +kernel

/-- The first character tells the kind of a token, but for words and names. -/
theorem starts_agree {x : Char} (h : starts k x = true) (h' : starts k' x = true) :
    k = k' ∨ k = .word ∧ k' = .name ∨ k = .name ∧ k' = .word := by
  have ha := toNat_lt_of_starts h
  revert h h'
  exact of_toNat_lt (P := fun x => starts k x = true → starts k' x = true →
    k = k' ∨ k = .word ∧ k' = .name ∨ k = .name ∧ k' = .word)
    (fun n h h' => (starts_apart n k (mem_kinds k) h).2 k' (mem_kinds k') h') ha

/-- No token starts with a blank. -/
theorem not_isBlank_of_starts {x : Char} (h : starts k x = true) : isBlank x = false := by
  have ha := toNat_lt_of_starts h
  revert h
  exact of_toNat_lt (P := fun x => starts k x = true → isBlank x = false)
    (fun n h => (starts_apart n k (mem_kinds k) h).1) ha

/-- A token and one that goes on after it start with the same character. -/
theorem exists_first (h : k.reading? w = some ss) (h' : k'.reading? (w ++ v) = some ss') :
    ∃ x cs, w = x :: cs ∧ starts k x = true ∧ starts k' x = true := by
  obtain ⟨x, cs, rfl, hx⟩ := exists_cons h
  obtain ⟨y, ds, he, hy⟩ := exists_cons h'
  obtain ⟨rfl, -⟩ := List.cons.inj he
  exact ⟨x, cs, rfl, hx, hy⟩

/-- A token and one that goes on after it are of one kind, or both of letters. -/
theorem kinds_agree (h : k.reading? w = some ss) (h' : k'.reading? (w ++ v) = some ss') :
    k = k' ∨ k = .word ∧ k' = .name ∨ k = .name ∧ k' = .word := by
  obtain ⟨x, cs, -, hx, hx'⟩ := exists_first h h'
  exact starts_agree hx hx'

/-! ## Tokens are read in one way -/

/-- A reference has characters of names and points only. -/
theorem isNameChar_of_isReference (h : isReference w = true) : ∀ x ∈ w, isNameChar x = true ∨ x = '.' := by
  intro x hx
  rcases isReference_iff.mp h with hi | ⟨relation, column, hr, hc, rfl⟩
  · exact .inl (isNameChar_of_isIdentifier hi x hx)
  · rcases List.mem_append.mp hx with hx | hx
    · exact .inl (isNameChar_of_isIdentifier hr x hx)
    · rcases List.mem_cons.mp hx with rfl | hx
      · exact .inr rfl
      · exact .inl (isNameChar_of_isIdentifier hc x hx)

/-- References are written in ASCII. -/
theorem toNat_lt_of_isReference (h : isReference w = true) : ∀ x ∈ w, x.toNat < 128 := by
  intro x hx
  rcases isNameChar_of_isReference h x hx with hn | rfl
  · exact toNat_lt_of_isNameChar hn
  · decide

/-- A name that is a word of the language is read as it is spelled. -/
theorem lowered_of_spells {s : Symbol} (hs : s ∈ keywords) (hw : ∀ c ∈ w, c.toNat < 128) (h : spells w s = true) :
    lowered w = Lexicon.usual s := by
  obtain ⟨hletters, -, hl, -⟩ := keywords_letters s hs
  have ha : ∀ c ∈ (Lexicon.usual s).toList, c.toNat < 128 := fun c hc =>
    of_decide_eq_true (Bool.and_eq_true_iff.mp (List.all_eq_true.mp hletters c hc)).1
  have hsmall : ∀ cs : List Char, (∀ c ∈ cs, c.toNat < 128) →
      cs.map Char.toLower = (cs.map Text.upperChar).map fun u => (u.headD ' ').toLower := by
    intro cs hcs
    rw [List.map_map]
    refine List.map_congr_left fun c hc => ?_
    rw [Function.comp, show Text.upperChar c = [c.toUpper] from if_pos (hcs c hc)]
    exact of_toNat_lt (P := fun c => c.toLower = c.toUpper.toLower) (by decide) (hcs c hc)
  rw [← String.toList_inj, lowered, String.toList_ofList, hsmall w hw, of_decide_eq_true h, ← hsmall _ ha, hl]

/-- A token that is of two kinds is read as the same words in both. -/
theorem reading_unique (h : k.reading? w = some ss) (h' : k'.reading? w = some ss') : ss = ss' := by
  have hname : ∀ {ss ss'}, Kind.word.reading? w = some ss → Kind.name.reading? w = some ss' → ss = ss' := by
    intro ss ss' h h'
    obtain ⟨s, hs, hw, rfl⟩ := reading?_word.mp h
    obtain ⟨hr, rfl⟩ := reading?_name.mp h'
    rw [lowered_of_spells hs (toNat_lt_of_isReference hr) hw]
  have hagree := kinds_agree h (v := []) (by rwa [List.append_nil])
  rcases hagree with rfl | ⟨rfl, rfl⟩ | ⟨rfl, rfl⟩
  · exact Option.some.inj (h.symm.trans h')
  · exact hname h h'
  · exact (hname h' h).symm

/-- What is read is a token of some kind. -/
theorem exists_kind (h : reading? w = some ss) : ∃ k : Kind, k.reading? w = some ss := by
  obtain ⟨k, -, hk⟩ := List.exists_of_findSome?_eq_some h
  exact ⟨k, hk⟩

/-- A token of any kind is read. -/
theorem reading?_of_kind (h : k.reading? w = some ss) : reading? w = some ss := by
  cases hr : reading? w with
  | none =>
    have hk : k ∈ [Kind.mark, .word, .name, .literal, .numeral] := by cases k <;> decide
    rw [List.findSome?_eq_none_iff.mp hr k hk] at h
    cases h
  | some ss' =>
    obtain ⟨k', hk'⟩ := exists_kind hr
    rw [reading_unique h hk']

/-! ## Longest tokens -/

/-- No longer token starts where this one does in front of the text. -/
def Longest (w after : List Char) : Prop := ∀ v rest, v ≠ [] → after = v ++ rest → reading? (w ++ v) = none

/-- A token is the longest if there is no longer one of a kind that starts like it. -/
theorem longest_of_kinds {after : List Char} (h : k.reading? w = some ss)
    (hk : ∀ k', k = k' ∨ k = .word ∧ k' = .name ∨ k = .name ∧ k' = .word → ∀ x v rest ss', after = x :: (v ++ rest) →
      k'.reading? (w ++ x :: v) ≠ some ss') : Longest w after := by
  intro v rest hv ha
  obtain ⟨x, v, rfl⟩ := List.exists_cons_of_ne_nil hv
  cases hr : reading? (w ++ x :: v) with
  | none => rfl
  | some ss' =>
    obtain ⟨k', hk'⟩ := exists_kind hr
    exact absurd hk' (hk k' (kinds_agree h hk') x v rest ss' ha)

/-- No token goes on behind a mark. -/
theorem longest_mark {s : Symbol} (hs : s ∈ marks) (after : List Char) : Longest (Lexicon.usual s).toList after := by
  have h : Kind.mark.reading? (Lexicon.usual s).toList = some [] := reading?_mark.mpr ⟨rfl, s, hs, rfl⟩
  refine longest_of_kinds h ?_
  rintro k' (rfl | ⟨h, -⟩ | ⟨h, -⟩) x v rest ss' - h'
  · obtain ⟨-, t, ht, he⟩ := reading?_mark.mp h'
    have hall : ∀ s ∈ marks, ∀ t ∈ marks, (Lexicon.usual s).toList.isPrefixOf (Lexicon.usual t).toList = true →
        (Lexicon.usual s).toList.length = (Lexicon.usual t).toList.length := by decide
    have := hall s hs t ht (by rw [← he]; simp)
    rw [← he] at this
    simp at this
  · cases h
  · cases h

/-- The quote that closes a text between quotes is the first that is not written twice. -/
theorem head?_of_isBody_append {quote : Char} {body others : List Char} (hq : quote ≠ '\\') (h : Quoted.IsBody quote body)
    (ha : Quoted.IsBody quote (body ++ quote :: others)) : others.head? = some quote := by
  have hcons : ∀ {c cs}, Quoted.IsBody quote (c :: cs) → Quoted.isPlain quote c = true ∧ Quoted.IsBody quote cs ∨
      ∃ d ds, cs = d :: ds ∧ Quoted.isPair quote c d ds = true ∧ Quoted.IsBody quote ds := by
    intro c cs h
    cases h with
    | plain hc h => exact .inl ⟨hc, h⟩
    | pair hp h => exact .inr ⟨_, _, rfl, hp, h⟩
  induction h with
  | nil =>
    rcases hcons ha with ⟨hc, -⟩ | ⟨d, ds, rfl, hp, -⟩
    · simp [Quoted.isPlain] at hc
    · simpa [Quoted.isPair, hq] using hp
  | plain hc _ ih =>
    rcases hcons ha with ⟨-, h⟩ | ⟨d, ds, -, hp, -⟩
    · exact ih h
    · rw [Quoted.isPlain_of_isPair hp] at hc
      cases hc
  | pair hp _ ih =>
    rcases hcons ha with ⟨hc, -⟩ | ⟨d, ds, he, -, h⟩
    · rw [Quoted.isPlain_of_isPair hp] at hc
      cases hc
    · obtain ⟨rfl, rfl⟩ := List.cons.inj he
      exact ih h

/-- A literal is the longest token if no further quote follows. -/
theorem longest_literal {quote : Char} {body after : List Char} (hq : quote = '"' ∨ quote = '\'')
    (hb : Quoted.IsBody quote body) (ha : after.head? ≠ some quote) : Longest (quote :: (body ++ [quote])) after := by
  have h : Kind.literal.reading? (quote :: (body ++ [quote])) = some [String.ofList ('\'' :: body ++ ['\''])] :=
    reading?_literal.mpr ⟨quote, body, hq, hb, rfl, rfl⟩
  refine longest_of_kinds h ?_
  rintro k' (rfl | ⟨h, -⟩ | ⟨h, -⟩) x v rest ss' rfl h'
  · obtain ⟨quote', body', -, hb', he, -⟩ := reading?_literal.mp h'
    obtain ⟨rfl, he⟩ := List.cons.inj he
    -- the longer text between quotes holds the closing quote of the shorter one
    have hbody : body' = body ++ quote :: (x :: v).dropLast := by
      have hlast := congrArg List.dropLast (show body ++ (quote :: x :: v) = body' ++ [quote] by simpa using he)
      rw [List.dropLast_concat, List.dropLast_append_of_ne_nil (by simp)] at hlast
      exact hlast.symm
    rw [hbody] at hb'
    have hhead := head?_of_isBody_append (by rcases hq with rfl | rfl <;> decide) hb hb'
    cases v with
    | nil => cases hhead
    | cons y v => exact ha hhead
  · cases h
  · cases h

/-- The digits at the start of a text are as many as there can be. -/
theorem length_le_unsignedPart {cs : List Char} (hw : IsUnsigned w) (h : w <+: cs) : w.length ≤ (unsignedPart cs).length := by
  obtain ⟨rest, rfl⟩ := h
  cases hw with
  | whole hd hn =>
    have hle : ∀ cs, (cs.takeWhile Char.isDigit).length ≤ (unsignedPart cs).length := by
      intro cs
      unfold unsignedPart
      dsimp only
      split
      · split
        · exact Nat.le_refl _
        · simp
      · exact Nat.le_refl _
    have htake := hle (w ++ rest)
    rw [List.takeWhile_append_of_pos hd, List.length_append] at htake
    omega
  | @fraction ds fs hd hf hn =>
    have hpoint : ('.' :: (fs ++ rest)).head?.all (fun x => !x.isDigit) = true := rfl
    have hne : fs ++ rest.takeWhile Char.isDigit ≠ [] := by simp [hn]
    rw [List.append_assoc, List.cons_append, unsignedPart, takeWhile_append_of_head hd hpoint,
      dropWhile_append_of_head hd hpoint]
    simp only [List.takeWhile_append_of_pos hf, List.isEmpty_iff, hne, if_false]
    simp

/-- A number that was read is a numeral that cannot be longer. -/
theorem exists_of_numeral {c c' : Cursor} {a : String} (h : numeral c = some (a, c')) :
    ∃ w, IsNumeral w ∧ c.rest = w ++ c'.rest ∧ a = String.ofList w ∧ c' = c.advance w.length ∧ Longest w c'.rest := by
  unfold numeral at h
  obtain ⟨hs, tail, hc⟩ := signPart_cases c.rest
  have hsign : ∀ sign' ds' rest', sign' ∈ [[], ['+'], ['-']] → IsUnsigned ds' → c.rest = sign' ++ (ds' ++ rest') →
      sign' = signPart c.rest := by
    intro sign' ds' rest' hs' hd' hc'
    rw [hc', signPart_append hs' hd']
  generalize signPart c.rest = sign at h hs hc hsign
  simp only [hc, List.drop_left] at h
  by_cases hn : unsignedPart tail = []
  · simp [hn] at h
  · obtain ⟨rest, ht, hu, -⟩ := unsignedPart_cases hn
    rw [if_neg (by simpa using hn)] at h
    obtain ⟨rfl, rfl⟩ := Prod.mk.inj (Option.some.inj h)
    have hnum : IsNumeral (sign ++ unsignedPart tail) := ⟨sign, hs, _, rfl, hu⟩
    have hall : c.rest = (sign ++ unsignedPart tail) ++ rest := by rw [hc, List.append_assoc, ← ht]
    have hrest : (c.advance (sign.length + (unsignedPart tail).length)).rest = rest := by
      rw [Cursor.rest_advance, hall, ← List.length_append, List.drop_left]
    refine ⟨sign ++ unsignedPart tail, hnum, by rw [hrest, hall], rfl, by rw [List.length_append], ?_⟩
    rw [hrest]
    refine longest_of_kinds (reading?_numeral.mpr ⟨hnum, rfl⟩) ?_
    rintro k' (rfl | ⟨h, -⟩ | ⟨h, -⟩) x v rest' ss' rfl h'
    · -- a longer numeral has the same sign, and more digits than there are
      obtain ⟨sign', hs', ds', he, hd'⟩ := (reading?_numeral.mp h').1
      have hc' : c.rest = sign' ++ (ds' ++ rest') := by
        rw [hall, ← List.append_assoc sign', ← he]
        simp
      obtain rfl := hsign sign' ds' rest' hs' hd' hc'
      rw [List.append_assoc] at he
      have hds := List.append_cancel_left he
      have hle := length_le_unsignedPart hd' (show ds' <+: tail from ⟨rest', by rw [ht, ← hds]; simp⟩)
      rw [← hds, List.length_append, List.length_cons] at hle
      omega
    · cases h
    · cases h

/-! ## Words and names -/

/-- An ASCII character of a spelled word has the capital form of a letter of the word. -/
theorem exists_letter {s : Symbol} {x : Char} (hs : s ∈ keywords) (h : spells w s = true) (hx : x ∈ w) (ha : x.toNat < 128) :
    ∃ z ∈ (Lexicon.usual s).toList, x.toUpper = z.toUpper := by
  have hm : Text.upperChar x ∈ (Lexicon.usual s).toList.map Text.upperChar := of_decide_eq_true h ▸ List.mem_map_of_mem hx
  obtain ⟨z, hz, he⟩ := List.mem_map.mp hm
  have hz' := List.all_eq_true.mp (keywords_letters s hs).1 z hz
  rw [Bool.and_eq_true, decide_eq_true_eq] at hz'
  rw [show Text.upperChar x = [x.toUpper] from if_pos ha, show Text.upperChar z = [z.toUpper] from if_pos hz'.1] at he
  exact ⟨z, hz, (List.cons.inj he).1.symm⟩

/-- No word of the language has a point in it. -/
theorem point_not_mem {s : Symbol} (hs : s ∈ keywords) (h : spells w s = true) : '.' ∉ w := by
  intro hm
  obtain ⟨z, hz, he⟩ := exists_letter hs h hm (by decide)
  have hz' := List.all_eq_true.mp (keywords_letters s hs).1 z hz
  rw [Bool.and_eq_true, decide_eq_true_eq, decide_eq_true_eq] at hz'
  exact hz'.2 he.symm

/-- An ASCII letter stays one in capital form, and nothing else becomes one. -/
theorem isAlpha_toUpper {x : Char} (h : x.toNat < 128) : x.toUpper.isAlpha = x.isAlpha :=
  of_toNat_lt (P := fun x => x.toUpper.isAlpha = x.isAlpha) (by decide) h

/-- A word of the language that starts with a letter has no other ASCII characters. -/
theorem isAlpha_of_spells {s : Symbol} {x y : Char} {cs : List Char} (hs : s ∈ keywords) (h : spells (x :: cs) s = true)
    (hx : x.isAlpha = true) (hy : y ∈ x :: cs) (ha : y.toNat < 128) : y.isAlpha = true := by
  have hax : x.toNat < 128 := toNat_lt_of_isNameChar (isNameChar_of_isNameStart hx)
  have hall : (Lexicon.usual s).toList.all (fun z => z.toUpper.isAlpha) = true := by
    refine (keywords_letters s hs).2.1 ?_
    have hmap := of_decide_eq_true h
    cases hl : (Lexicon.usual s).toList with
    | nil => rfl
    | cons z zs =>
      rw [hl] at hmap
      have hz := List.all_eq_true.mp (keywords_letters s hs).1 z (by rw [hl]; exact List.mem_cons_self)
      rw [Bool.and_eq_true, decide_eq_true_eq] at hz
      have he : [x.toUpper] = [z.toUpper] := by
        rw [← show Text.upperChar x = [x.toUpper] from if_pos hax, ← show Text.upperChar z = [z.toUpper] from if_pos hz.1]
        exact (List.cons.inj hmap).1
      rw [List.head?_cons, Option.all_some, ← (List.cons.inj he).1, isAlpha_toUpper hax, hx]
  obtain ⟨z, hz, he⟩ := exists_letter hs h hy ha
  rw [← isAlpha_toUpper ha, he]
  exact List.all_eq_true.mp hall z hz

/-- The token is the longest, or it is a name in front of a point or of a character beyond ASCII, so that this depends on what
comes after that. -/
def Settled (w after : List Char) : Prop :=
  Longest w after ∨
    isIdentifier (String.ofList w) = true ∧ ∃ x rest, after = x :: rest ∧ (x = '.' ∨ ¬ x.toNat < 128)

/-- A name is settled if no character of a name follows. -/
theorem settled_name {after : List Char} (hw : isIdentifier (String.ofList w) = true)
    (ha : after.head?.all (fun x => !isNameChar x) = true) : Settled w after := by
  by_cases hopen : ∃ x rest, after = x :: rest ∧ (x = '.' ∨ ¬ x.toNat < 128)
  · exact .inr ⟨hw, hopen⟩
  · refine .inl (longest_of_kinds (reading?_name.mpr ⟨isReference_iff.mpr (.inl hw), rfl⟩) ?_)
    rintro k' hk x v rest ss' rfl h'
    have hx : isNameChar x = false := by simpa using ha
    have hmem : x ∈ w ++ x :: v := by simp
    push Not at hopen
    obtain ⟨hpoint, hascii⟩ := hopen x _ rfl
    rcases hk with rfl | ⟨h, -⟩ | ⟨-, rfl⟩
    · rcases isNameChar_of_isReference (reading?_name.mp h').1 x hmem with hn | hn
      · rw [hx] at hn
        cases hn
      · exact hpoint hn
    · cases h
    · obtain ⟨s, hs, hsp, -⟩ := reading?_word.mp h'
      obtain ⟨y, ys, rfl, hy, -⟩ := exists_cons_of_isIdentifier hw
      have halpha := isAlpha_of_spells hs hsp hy hmem hascii
      rw [isNameChar, Char.isAlphanum, halpha] at hx
      cases hx

/-- The first point of a text divides it in one way. -/
theorem eq_of_first_point {cs ds rest rest' : List Char} (hc : '.' ∉ cs) (hd : '.' ∉ ds)
    (h : cs ++ '.' :: rest = ds ++ '.' :: rest') : cs = ds := by
  have hpart : ∀ {cs rest : List Char}, '.' ∉ cs → (cs ++ '.' :: rest).takeWhile (· ≠ '.') = cs := by
    intro cs rest hc
    refine takeWhile_append_of_head (fun y hy => ?_) rfl
    rw [decide_eq_true_eq]
    rintro rfl
    exact hc hy
  rw [← hpart hc, h, hpart hd]

/-- A name has no point in it. -/
theorem point_not_mem_identifier (h : isIdentifier (String.ofList w) = true) : '.' ∉ w := by
  intro hm
  cases isNameChar_of_isIdentifier h '.' hm

/-- A name with a qualifier is the longest token if no character of a name follows. -/
theorem longest_qualified {relation column after : List Char} (hr : isIdentifier (String.ofList relation) = true)
    (hc : isIdentifier (String.ofList column) = true) (ha : after.head?.all (fun x => !isNameChar x) = true) :
    Longest (relation ++ '.' :: column) after := by
  have href : isReference (relation ++ '.' :: column) = true := isReference_iff.mpr (.inr ⟨relation, column, hr, hc, rfl⟩)
  refine longest_of_kinds (reading?_name.mpr ⟨href, rfl⟩) ?_
  rintro k' hk x v rest ss' rfl h'
  have hx : isNameChar x = false := by simpa using ha
  rcases hk with rfl | ⟨h, -⟩ | ⟨-, rfl⟩
  · have hlonger := (reading?_name.mp h').1
    rcases isNameChar_of_isReference hlonger x (by simp) with hn | rfl
    · rw [hx] at hn
      cases hn
    · -- a second point
      rcases isReference_iff.mp hlonger with hi | ⟨relation', column', hr', hc', he⟩
      · exact point_not_mem_identifier hi (by simp)
      · rw [List.append_assoc, List.cons_append] at he
        obtain rfl := eq_of_first_point (point_not_mem_identifier hr) (point_not_mem_identifier hr') he
        have hcol := (List.cons.inj (List.append_cancel_left he)).2
        exact point_not_mem_identifier hc' (by rw [← hcol]; simp)
  · cases h
  · obtain ⟨s, hs, hsp, -⟩ := reading?_word.mp h'
    exact point_not_mem hs hsp (by simp)

/-- A word of the language that is no comparison operator is the longest token, if no character of a name follows where it is made
of letters. -/
theorem settled_word {s : Symbol} {after : List Char} (hs : s ∈ keywords) (hc : s ∉ comparatorSymbols) (hw : spells w s = true)
    (ha : w.head?.any isNameStart = true → after.head?.all (fun x => !isNameChar x) = true) : Settled w after := by
  by_cases hopen : isIdentifier (String.ofList w) = true ∧ ∃ x rest, after = x :: rest ∧ (x = '.' ∨ ¬ x.toNat < 128)
  · exact .inr hopen
  · have hread := reading?_word.mpr ⟨s, hs, hw, rfl⟩
    refine .inl (longest_of_kinds hread ?_)
    rintro k' hk x v rest ss' rfl h'
    rcases hk with rfl | ⟨-, rfl⟩ | ⟨h, -⟩
    · obtain ⟨t, ht, hsp, -⟩ := reading?_word.mp h'
      have hmap := of_decide_eq_true hsp
      rw [List.map_append, of_decide_eq_true hw] at hmap
      rcases keywords_apart s hs t ht (by rw [← hmap]; simp) with rfl | ⟨hcs, -⟩
      · have := congrArg List.length hmap
        simp at this
      · exact hc hcs
    · have href := (reading?_name.mp h').1
      obtain ⟨y, ys, rfl, -, hstart⟩ := exists_first hread h'
      have hx : isNameChar x = false := by simpa using ha hstart
      rcases isNameChar_of_isReference href x (by simp) with hn | rfl
      · rw [hx] at hn
        cases hn
      · refine hopen ⟨?_, '.', _, rfl, .inl rfl⟩
        rcases isReference_iff.mp href with hi | ⟨relation, column, hr, -, he⟩
        · exact absurd (by simp) (point_not_mem_identifier hi)
        · rwa [eq_of_first_point (point_not_mem hs hw) (point_not_mem_identifier hr) he]
    · cases h

/-- A comparison operator is the longest token where no longer one is ahead. -/
theorem longest_comparator {s : Symbol} {after : List Char} (hs : s ∈ comparatorSymbols)
    (ha : ∀ t ∈ comparatorSymbols, (Lexicon.usual t).toList <+: (Lexicon.usual s).toList ++ after →
      (Lexicon.usual t).length ≤ (Lexicon.usual s).length) : Longest (Lexicon.usual s).toList after := by
  have hkey : ∀ s ∈ comparatorSymbols, s ∈ keywords ∧ (Lexicon.usual s).toList.head?.any isNameStart = false ∧
      ((Lexicon.usual s).toList.all fun z => z.toNat < 128 && !z.isAlpha && z.toUpper = z) = true := by decide
  obtain ⟨hk, hstart, -⟩ := hkey s hs
  have hread := reading?_word.mpr ⟨s, hk, decide_eq_true rfl, rfl⟩
  refine longest_of_kinds hread ?_
  rintro k' hkinds x v rest ss' rfl h'
  rcases hkinds with rfl | ⟨-, rfl⟩ | ⟨h, -⟩
  · obtain ⟨t, ht, hsp, -⟩ := reading?_word.mp h'
    have hmap := of_decide_eq_true hsp
    rw [List.map_append] at hmap
    rcases keywords_apart s hk t ht (by rw [← hmap]; simp) with rfl | ⟨-, hct, -⟩
    · have := congrArg List.length hmap
      simp at this
    · -- what is no letter has itself for a capital form only
      have heq : (Lexicon.usual s).toList ++ x :: v = (Lexicon.usual t).toList := by
        rw [← List.map_append] at hmap
        have hletters := List.all_eq_true.mp (hkey t hct).2.2
        generalize (Lexicon.usual s).toList ++ x :: v = cs at hmap
        generalize (Lexicon.usual t).toList = ds at hmap hletters
        induction ds generalizing cs with
        | nil => simpa using hmap
        | cons d ds ih =>
          cases cs with
          | nil => cases hmap
          | cons c cs =>
            rw [List.map_cons, List.map_cons] at hmap
            obtain ⟨hc, hcs⟩ := List.cons.inj hmap
            have hd := hletters d List.mem_cons_self
            simp only [Bool.and_eq_true, decide_eq_true_eq, Bool.not_eq_true'] at hd
            rw [show Text.upperChar d = [d.toUpper] from if_pos hd.1.1, hd.2] at hc
            have hcd : c = d := eq_of_mem_upperChar (by rw [hc]; exact List.mem_singleton_self d) hd.1.1 hd.1.2
            rw [hcd, ih cs hcs fun y hy => hletters y (List.mem_cons_of_mem d hy)]
      have hle := ha t hct ⟨rest, by rw [← heq]; simp⟩
      rw [← String.length_toList, ← heq, List.length_append, String.length_toList, List.length_cons] at hle
      omega
  · obtain ⟨y, ys, hy, -, hname⟩ := exists_first hread h'
    rw [hy] at hstart
    exact absurd hname (by simpa [starts] using hstart)
  · cases h

end Scan

end RelAlg
