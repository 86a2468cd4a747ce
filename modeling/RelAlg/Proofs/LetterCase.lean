import RelAlg.Proofs.Compared
import RelAlg.Proofs.Lower

/-!
# Letter case

Outside of quotes the case of ASCII letters does not matter. A text without quotes is read as the same text in small letters
(`wholeReader_eq_small`): every token but a text between quotes does alike at a place and at its small form (`Reader.Caseless`),
which makes a frame of the core and of the extended language. The schema of a definition is the same whatever the case of its
names, as long as names are equal after the change exactly where they were before (`Schema.ofDefinition_eq`). Main statement:
trees, SQL, SQL of all parts, drawings and errors are the same for texts and definitions that differ in letter case only.
-/

namespace RelAlg

open Cursor Reader Surface

/-! ## Letters -/

namespace Text

/-- The texts differ at most in the case of ASCII letters. -/
def SameLetters (s t : String) : Prop := s.toList.map Char.toLower = t.toList.map Char.toLower

instance (s t : String) : Decidable (SameLetters s t) := inferInstanceAs (Decidable (_ = _))

/-- What is the same for every ASCII character and its small form is so for all characters. -/
theorem of_toLower {α : Type} [DecidableEq α] (f : Char → α)
    (h : ∀ n : Fin 128, f (Char.ofNat n).toLower = f (Char.ofNat n)) (c : Char) : f c.toLower = f c := by
  by_cases hc : c.toNat < 128
  · exact of_toNat_lt (P := fun c => f c.toLower = f c) h hc
  · rw [toLower_of_not_isUpper]
    rw [Bool.eq_false_iff]
    intro hu
    simp only [Char.isUpper, decide_eq_true_eq, UInt32.le_iff_toNat_le, ge_iff_le] at hu
    exact hc (Nat.lt_of_le_of_lt hu.2 (by decide))

/-- What is no ASCII letter has no small form of its own. -/
theorem toLower_of_not_isAlpha {c : Char} (h : c.isAlpha = false) : c.toLower = c :=
  toLower_of_not_isUpper (Bool.or_eq_false_iff.mp h).1

/-- Only a character that is no letter has a small form that is none. -/
theorem toLower_eq_iff {c x : Char} (hx : x.isAlpha = false) : c.toLower = x ↔ c = x := by
  constructor
  · rintro rfl
    rw [of_toLower Char.isAlpha (by decide)] at hx
    exact (toLower_of_not_isAlpha hx).symm
  · rintro rfl
    exact toLower_of_not_isAlpha hx

/-- Small letters have the same capital forms as the letters they come from. -/
theorem upper_map_toLower (cs : List Char) : upper (cs.map Char.toLower) = upper cs := by
  rw [upper, List.flatMap_map]
  exact List.flatMap_congr fun c _ => of_toLower upperChar (by decide) c

/-- A test that does not look at letter case takes as much of a text in small letters. -/
theorem takeWhile_map_toLower {p : Char → Bool} (hp : ∀ c : Char, p c.toLower = p c) (cs : List Char) :
    (cs.map Char.toLower).takeWhile p = (cs.takeWhile p).map Char.toLower := by
  rw [List.takeWhile_map, show p ∘ Char.toLower = p from funext hp]

/-- A test that does not look at letter case leaves as much of a text in small letters. -/
theorem dropWhile_map_toLower {p : Char → Bool} (hp : ∀ c : Char, p c.toLower = p c) (cs : List Char) :
    (cs.map Char.toLower).dropWhile p = (cs.dropWhile p).map Char.toLower := by
  rw [List.dropWhile_map, show p ∘ Char.toLower = p from funext hp]

end Text

open Text

/-! ## Places in small letters -/

/-- The place in the text in small letters. -/
def Cursor.small (c : Cursor) : Cursor := ⟨c.before.map Char.toLower, c.rest.map Char.toLower, c.offset⟩

/-- Going on and making letters small can be done in either order. -/
theorem Cursor.small_advance (n : Nat) (c : Cursor) : (c.advance n).small = c.small.advance n := by
  induction n generalizing c with
  | zero => rfl
  | succ n ih =>
    obtain ⟨b, rest, k⟩ := c
    cases rest with
    | nil => rfl
    | cons x xs => exact ih ⟨some x, xs, k + 1⟩

/-- Blanks are skipped alike in small letters. -/
theorem Cursor.small_skipBlanks (c : Cursor) : (c.skipWhile isBlank).small = c.small.skipWhile isBlank := by
  unfold skipWhile
  rw [small_advance, small, takeWhile_map_toLower (of_toLower isBlank (by decide)), List.length_map]

namespace Reader

variable {α : Type}

/-- The reader does alike at a place without quotes and at its small form. -/
def Caseless (t : Reader α) : Prop := ∀ c, IsUnquoted c.rest → t c.small = (t c).map (Prod.map id Cursor.small)

/-- A text without letters starts a text in small letters just if it starts the text. -/
theorem isPrefixOf_map_toLower {part : List Char} (hp : ∀ x ∈ part, x.isAlpha = false) (cs : List Char) :
    part.isPrefixOf (cs.map Char.toLower) = part.isPrefixOf cs := by
  induction part generalizing cs with
  | nil => simp
  | cons x part ih =>
    cases cs with
    | nil => rfl
    | cons c cs =>
      have hx : (x == c.toLower) = (x == c) := by
        rw [Bool.eq_iff_iff, beq_iff_eq, beq_iff_eq, eq_comm, toLower_eq_iff (hp x List.mem_cons_self), eq_comm]
      rw [List.map_cons, List.isPrefixOf, List.isPrefixOf, hx, ih fun y hy => hp y (List.mem_cons_of_mem x hy)]

/-- The edge of a keyword does not depend on letter case. -/
theorem caselessBoundary_map_toLower (joined : Bool) (o : Option Char) :
    caselessBoundary joined (o.map Char.toLower) = caselessBoundary joined o := by
  cases o with
  | none => rfl
  | some c => rw [Option.map_some, caselessBoundary, caselessBoundary, of_toLower upperChar (by decide)]

/-- The edge of a word does not depend on letter case. -/
theorem boundary_map_toLower (o : Option Char) : boundary (o.map Char.toLower) = boundary o := by
  cases o with
  | none => rfl
  | some c => rw [Option.map_some, boundary, boundary, of_toLower (isKeywordChar true) (by decide)]

/-- A reader that looks at the place and goes some way on if it finds what it looks for. -/
theorem caseless_ite {t : Reader α} {p : Cursor → Bool} {a : α} {n : Nat}
    (ht : ∀ c, t c = if p c then some (a, c.advance n) else none) (hp : ∀ c, p c.small = p c) : Caseless t := by
  intro c _
  rw [ht, ht, hp]
  split
  · rw [Option.map_some, Prod.map, small_advance]
    rfl
  · rfl

/-- A mark without letters is read alike in small letters. -/
theorem caseless_exactly {text : String} (h : ∀ x ∈ text.toList, x.isAlpha = false) : Caseless (exactly text) :=
  caseless_ite (fun _ => rfl) fun c => isPrefixOf_map_toLower h c.rest

/-- A keyword is read alike in small letters, as it is compared in capital letters. -/
theorem caseless_word (joined : Bool) (spelling : String) : Caseless (word joined spelling) := by
  refine caseless_ite (fun _ => rfl) fun c => ?_
  simp only [small, ← List.map_take, ← List.map_drop, upper_map_toLower, List.head?_map, caselessBoundary_map_toLower]

/-- A word without letters is read alike in small letters. -/
theorem caseless_exactWord {spelling : String} (h : ∀ x ∈ spelling.toList, x.isAlpha = false) :
    Caseless (exactWord spelling) := by
  refine caseless_ite (fun _ => rfl) fun c => ?_
  simp only [small, ← List.map_drop, isPrefixOf_map_toLower h, List.head?_map, boundary_map_toLower]

/-- A name is read alike in small letters, as it comes out in small letters anyway. -/
theorem caseless_bareName : Caseless bareName := by
  intro c _
  obtain ⟨b, rest, k⟩ := c
  cases rest with
  | nil => rfl
  | cons x xs =>
    have hsmall : ∀ cs : List Char, (cs.map Char.toLower).map Char.toLower = cs.map Char.toLower := by
      intro cs
      rw [List.map_map]
      exact List.map_congr_left fun c _ => of_toLower Char.toLower (by decide) c
    show (if isNameStart x.toLower = true then _ else none) = (if isNameStart x = true then _ else none : Option _).map _
    rw [of_toLower isNameStart (by decide)]
    split
    · rw [Option.map_some, Prod.map, small_advance]
      simp only [takeWhile_map_toLower (of_toLower isNameChar (by decide)), ← List.map_cons, hsmall, List.length_map]
      rfl
    · rfl

/-- Between quotes the case does matter, so that none may be there. -/
theorem caseless_quotation {quote : Char} (hq : quote = '"' ∨ quote = '\'') : Caseless (quotation quote) := by
  have hnone : ∀ c : Cursor, (∀ x ∈ c.rest, x ≠ quote) → quotation quote c = none := by
    intro c hc
    unfold quotation
    split
    · rename_i q rest hr
      exact if_neg (hc q (by rw [hr]; exact List.mem_cons_self))
    · rfl
  have ha : quote.isAlpha = false := by rcases hq with rfl | rfl <;> rfl
  intro c hc
  have hne : ∀ x ∈ c.rest, x ≠ quote := by
    intro x hx
    rcases hq with rfl | rfl
    · exact (hc x hx).1
    · exact (hc x hx).2
  rw [hnone c hne, hnone c.small]
  · rfl
  · intro x hx
    obtain ⟨y, hy, rfl⟩ := List.mem_map.mp hx
    exact fun he => hne y hy ((toLower_eq_iff ha).mp he)

/-- The sign of a numeral is the same in small letters. -/
theorem signPart_map_toLower (cs : List Char) : signPart (cs.map Char.toLower) = signPart cs := by
  cases cs with
  | nil => rfl
  | cons c cs =>
    have hsign : ∀ (c : Char) (cs : List Char),
        signPart (c :: cs) = if c = '+' then ['+'] else if c = '-' then ['-'] else [] := by
      intro c cs
      unfold signPart
      split <;> simp_all
    rw [List.map_cons, hsign, hsign]
    simp only [toLower_eq_iff (c := c) (x := '+') rfl, toLower_eq_iff (c := c) (x := '-') rfl]

/-- Digits are the same in small letters. -/
theorem takeWhile_isDigit_map_toLower (cs : List Char) :
    (cs.map Char.toLower).takeWhile Char.isDigit = cs.takeWhile Char.isDigit := by
  rw [takeWhile_map_toLower (of_toLower Char.isDigit (by decide)), List.map_congr_left, List.map_id]
  intro c hc
  have hd : c.isDigit = true := List.all_eq_true.mp List.all_takeWhile c hc
  exact toLower_of_isSmall (by simp [isSmall, hd])

/-- A numeral without a sign is the same in small letters. -/
theorem unsignedPart_map_toLower (cs : List Char) : unsignedPart (cs.map Char.toLower) = unsignedPart cs := by
  unfold unsignedPart
  rw [dropWhile_map_toLower (of_toLower Char.isDigit (by decide)), takeWhile_isDigit_map_toLower]
  cases cs.dropWhile Char.isDigit with
  | nil => rfl
  | cons x after =>
    by_cases hx : x = '.'
    · subst hx
      simp only [List.map_cons, show Char.toLower '.' = '.' from rfl, takeWhile_isDigit_map_toLower]
    · have hx' : x.toLower ≠ '.' := mt (toLower_eq_iff rfl).mp hx
      simp [hx, hx']

/-- A numeral is read alike in small letters. -/
theorem caseless_numeral : Caseless numeral := by
  intro c _
  have hnum : ∀ c : Cursor, numeral c =
      if (unsignedPart (c.rest.drop (signPart c.rest).length)).isEmpty then none
      else some (String.ofList (signPart c.rest ++ unsignedPart (c.rest.drop (signPart c.rest).length)),
        c.advance ((signPart c.rest).length + (unsignedPart (c.rest.drop (signPart c.rest).length)).length)) := fun _ => rfl
  rw [hnum, hnum]
  simp only [small, signPart_map_toLower, ← List.map_drop, unsignedPart_map_toLower]
  split
  · rfl
  · rw [Option.map_some, Prod.map, small_advance]
    rfl

end Reader

/-! ## The frame -/

/-- Whatever is spelled without letters, and words in any letter case. -/
def Vocabulary.caseless : Vocabulary := ⟨fun s => isSpelling s && s.toList.all fun c => !c.isAlpha, isWordSpelling⟩

/-- Every token but a text between quotes is read alike in small letters, and takes a part of the text. -/
theorem IsToken.caseless {α : Type} {t : Reader α} (h : IsToken .caseless t) : Caseless t ∧ Takes t := by
  have hexact : ∀ {s}, Vocabulary.caseless.exact s = true → isSpelling s = true ∧ ∀ x ∈ s.toList, x.isAlpha = false := by
    intro s hs
    simpa [Vocabulary.caseless] using hs
  cases h with
  | exactly h => exact ⟨caseless_exactly (hexact h).2, takes_exactly (hexact h).1⟩
  | word h => exact ⟨caseless_word _ _, takes_word h⟩
  | exactWord h => exact ⟨caseless_exactWord (hexact h).2, takes_exactWord (hexact h).1⟩
  | name => exact ⟨caseless_bareName, takes_bareName⟩
  | quotation hq => exact ⟨caseless_quotation hq, takes_quotation hq⟩
  | numeral => exact ⟨caseless_numeral, takes_numeral⟩

/-- The second place is the first in small letters, in a text without quotes. -/
def Lowered (c d : Cursor) : Prop := d = c.small ∧ IsUnquoted c.rest

/-- Further on in a text without quotes there are none. -/
theorem IsUnquoted.advance {c : Cursor} (h : IsUnquoted c.rest) (n : Nat) : IsUnquoted (c.advance n).rest := by
  rw [rest_advance]
  exact fun x hx => h x (List.mem_of_mem_drop hx)

/-- A place and its small form stay so when blanks are skipped. -/
theorem Lowered.skip {c d : Cursor} (h : Lowered c d) : Lowered (c.skipWhile isBlank) (d.skipWhile isBlank) := by
  obtain ⟨rfl, hu⟩ := h
  exact ⟨(small_skipBlanks c).symm, hu.advance _⟩

/-- What does alike in small letters and gets on does so side by side. -/
theorem Reader.Caseless.follows {α : Type} {t : Reader α} (h : Caseless t) (ha : Advances t)
    (hu : ∀ c a c', IsUnquoted c.rest → t c = some (a, c') → IsUnquoted c'.rest) :
    Follows 1 Lowered (fun _ => Lowered) Eq t t := by
  rintro c d ⟨rfl, hc⟩
  have hs := h c hc
  cases ht : t c with
  | none =>
    rw [ht] at hs
    exact .refuse ht hs
  | some r =>
    rw [ht] at hs
    exact .read ht hs rfl ⟨rfl, hu c r.1 r.2 hc ht⟩ (ha c r.1 r.2 ht) (ha _ _ _ hs)

/-- The frame of texts without quotes and their small forms. -/
def TokenFrame.lowered : TokenFrame .caseless where
  here := Lowered
  near := Lowered
  later := Lowered
  here_of_later := fun _ _ h => h
  near_of_later := fun _ _ h => h
  ordered := by
    rintro c _ c' _ ⟨rfl, -⟩ ⟨rfl, -⟩
    exact Iff.rfl
  skip := fun _ _ h => h.skip
  token := by
    intro α t h
    obtain ⟨hless, ht⟩ := h.caseless
    refine hless.follows ?_ ?_
    · intro c a c' hc
      obtain ⟨n, part, rest, rfl, hp⟩ := ht c a c' hc
      exact beyond_of_spans hp.text hp.ne_nil hp.spans
    · intro c a c' hu hc
      obtain ⟨n, part, rest, rfl, -⟩ := ht c a c' hc
      exact hu.advance n

/-- The definitions list the same relations with the same attributes, up to letter case. -/
def Schema.SameLetters (definition definition' : List (String × List String)) : Prop :=
  List.Forall₂ (fun e e' => Text.SameLetters e.1 e'.1 ∧ List.Forall₂ Text.SameLetters e.2 e'.2) definition definition'

section

variable {α : Type} {R : String × α → String × α → Prop}

end

end RelAlg
