import RelAlg.Proofs.Reader.Layout
import RelAlg.Proofs.Written

/-!
# Lexemes that are read

What each kind of lexeme looks like in the usual spelling, and that the token readers take it off a layout as a whole: words
of the language, marks, names and references, in any letter case. Where something else is ahead the readers refuse; two words
of the language that differ at some letter are told apart (`clash`).
-/

namespace RelAlg

open Reader Surface

/-! ## Characters -/

/-- What holds of each of the few characters that end a word holds of every one. -/
theorem of_isBreak {P : Char → Bool} {c : Char} (h : isBreak c = true)
    (hP : (" \n\t\r(),;\x7b\x7d=!<>".toList.all P) = true) : P c = true := by
  refine List.all_eq_true.mp hP c ?_
  simpa [isBreak, isBlank, isMark, or_assoc] using h

/-- What ends a word ends it also if it is a keyword. -/
theorem caselessBoundary_of_isBreak (joined : Bool) {o : Option Char} (h : o.all isBreak = true) :
    caselessBoundary joined o = true := by
  cases o with
  | none => rfl
  | some c => cases joined <;> exact of_isBreak (P := fun c => caselessBoundary _ (some c)) h (by decide)

/-- What holds of every ASCII character by looking at each holds of them all. -/
theorem of_toNat_lt {P : Char → Prop} [DecidablePred P] (hP : ∀ n : Fin 128, P (Char.ofNat n)) {c : Char}
    (h : c.toNat < 128) : P c := by
  have hc := hP ⟨c.toNat, h⟩
  rwa [Char.ofNat_toNat] at hc

/-- A character with a small form in ASCII is ASCII itself. -/
theorem toNat_lt_of_toLower {c : Char} (h : c.toLower.toNat < 128) : c.toNat < 128 := by
  by_cases hu : c.isUpper = true
  · simp only [Char.isUpper, decide_eq_true_eq, UInt32.le_iff_toNat_le, ge_iff_le] at hu
    exact Nat.lt_of_le_of_lt hu.2 (by decide)
  · have hn : c.toLower = c := by
      unfold Char.toLower
      exact dif_neg (by simpa [Char.isUpper] using hu)
    rwa [hn] at h

/-- A character and its small form have the same capital form, and both or neither are marks. -/
theorem toUpper_toLower {c : Char} (h : c.toLower.toNat < 128) :
    c.toLower.toUpper = c.toUpper ∧ isMark c.toLower = isMark c :=
  of_toNat_lt (P := fun c => c.toLower.toUpper = c.toUpper ∧ isMark c.toLower = isMark c) (by decide)
    (toNat_lt_of_toLower h)

/-- The capital form of ASCII characters is theirs one by one. -/
theorem upper_of_ascii {cs : List Char} (h : ∀ c ∈ cs, c.toNat < 128) : Text.upper cs = cs.map Char.toUpper := by
  induction cs with
  | nil => rfl
  | cons c cs ih =>
    have hc : Text.upperChar c = [c.toUpper] := if_pos (h c List.mem_cons_self)
    have hs : Text.upper cs = cs.map Char.toUpper := ih fun d hd => h d (List.mem_cons_of_mem c hd)
    rw [Text.upper, List.flatMap_cons, hc, ← Text.upper, hs, List.map_cons, List.singleton_append]

/-- The capital form of a character beyond ASCII has characters beyond ASCII and capital letters only. -/
theorem isUpper_of_mem_upperChar {c d : Char} (hc : ¬ c.toNat < 128) (h : d ∈ Text.upperChar c) :
    d.toNat < 128 → d.isUpper = true := by
  have hcode : ∀ n : Nat, n.isValidChar → (128 ≤ n ∨ 65 ≤ n ∧ n ≤ 90) →
      (Char.ofNat n).toNat < 128 → (Char.ofNat n).isUpper = true := by
    intro n hv hn hd
    rw [Char.toNat_ofNat, if_pos hv] at hd
    have hall : ∀ n : Fin 128, 65 ≤ n.val ∧ n.val ≤ 90 → (Char.ofNat n).isUpper = true := by decide
    exact hall ⟨n, hd⟩ (by simp only; omega)
  have hl : ∀ e ∈ Text.capitalExpansions, ∀ n ∈ e.2, n.isValidChar ∧ (128 ≤ n ∨ 65 ≤ n ∧ n ≤ 90) := by decide +kernel
  have hs : ∀ s ∈ Text.capitalSpans, (s.image + (s.last - s.first) < 0xd800 ∨
      0xdfff < s.image ∧ s.image + (s.last - s.first) < 0x110000) ∧
      (128 ≤ s.image ∨ s.first = s.last ∧ 65 ≤ s.image ∧ s.image ≤ 90) := by decide +kernel
  rw [Text.upperChar, if_neg hc] at h
  obtain ⟨e, he, hm⟩ | ⟨s, hmem, _, hi, hm⟩ | hm := Text.mapCase_cases Text.capitalSpans Text.capitalExpansions c <;>
    rw [hm] at h
  · obtain ⟨n, hn, rfl⟩ := List.mem_map.mp h
    exact hcode n (hl e he n hn).1 (hl e he n hn).2
  · obtain ⟨hin, rfl⟩ := Text.CaseSpan.of_image? hi
    obtain ⟨hv, hn⟩ := hs s hmem
    rw [List.mem_singleton.mp h]
    refine hcode _ ?_ (by omega)
    simp only [Nat.isValidChar]
    omega
  · rw [List.mem_singleton.mp h]
    exact fun hd => absurd hd hc

/-- What is no letter is in the capital form of itself only. -/
theorem eq_of_mem_upperChar {c d : Char} (h : d ∈ Text.upperChar c) (hd : d.toNat < 128) (hl : d.isAlpha = false) :
    c = d := by
  by_cases hc : c.toNat < 128
  · rw [Text.upperChar, if_pos hc, List.mem_singleton] at h
    revert hl
    rw [h]
    exact of_toNat_lt (P := fun c => c.toUpper.isAlpha = false → c = c.toUpper) (by decide) hc
  · have := isUpper_of_mem_upperChar hc h hd
    simp [Char.isAlpha, this] at hl

/-- Every character has a capital form. -/
theorem upperChar_ne_nil (c : Char) : Text.upperChar c ≠ [] := by
  unfold Text.upperChar
  split
  · simp
  · exact Text.mapCase_ne_nil (by decide +kernel) c

/-! ## Words of the language -/

/-- A spelling of ASCII characters that are no marks. -/
def isKeyword (spelling : String) : Bool :=
  !spelling.toList.isEmpty && spelling.toList.all fun c => c.toNat < 128 && !isMark c

/-- The characters are the spelling in any letter case. -/
def Spells (word : List Char) (spelling : String) : Prop := word.map Char.toLower = spelling.toList

/-- The spelling of a keyword has characters, all of them ASCII and none of them a mark. -/
theorem isKeyword_iff {spelling : String} :
    isKeyword spelling = true ↔
      spelling.toList ≠ [] ∧ ∀ c ∈ spelling.toList, c.toNat < 128 ∧ isMark c = false := by
  simp [isKeyword]

namespace Spells

variable {word : List Char} {spelling : String}

/-- A word has as many characters as its spelling. -/
theorem length_eq (h : Spells word spelling) : word.length = spelling.length := by
  have := congrArg List.length h
  rwa [List.length_map, String.length_toList] at this

/-- The small form of every character of a word is in its spelling. -/
theorem mem (h : Spells word spelling) {c : Char} (hc : c ∈ word) : c.toLower ∈ spelling.toList :=
  h ▸ List.mem_map_of_mem hc

/-- A word of the language is written in ASCII. -/
theorem ascii (h : Spells word spelling) (hk : isKeyword spelling = true) : ∀ c ∈ word, c.toNat < 128 :=
  fun _ hc => toNat_lt_of_toLower ((isKeyword_iff.mp hk).2 _ (h.mem hc)).1

/-- A word of the language has no mark in it. -/
theorem isMark_eq_false (h : Spells word spelling) (hk : isKeyword spelling = true) : ∀ c ∈ word, isMark c = false := by
  intro c hc
  obtain ⟨ha, hm⟩ := (isKeyword_iff.mp hk).2 _ (h.mem hc)
  rw [← (toUpper_toLower ha).2, hm]

/-- A word and its spelling have the same capital letters. -/
theorem map_toUpper (h : Spells word spelling) (hk : isKeyword spelling = true) :
    word.map Char.toUpper = spelling.toList.map Char.toUpper := by
  rw [← h, List.map_map]
  refine List.map_congr_left fun c hc => ?_
  exact (toUpper_toLower ((isKeyword_iff.mp hk).2 _ (h.mem hc)).1).1.symm

/-- A word and its spelling have the same capital form. -/
theorem upper_eq (h : Spells word spelling) (hk : isKeyword spelling = true) :
    Text.upper word = Text.upper spelling.toList := by
  rw [upper_of_ascii (h.ascii hk), h.map_toUpper hk, upper_of_ascii fun c hc => ((isKeyword_iff.mp hk).2 c hc).1]

end Spells

/-- A keyword is read behind blanks, where the capital forms are the same and edges are on both sides. -/
theorem caselessKeyword_apply (joined : Bool) (spelling : String) (c : Cursor) :
    caselessKeyword joined spelling c =
      if Text.upper (c.ahead.take spelling.length) = Text.upper spelling.toList
          && caselessBoundary joined (c.skipWhile isBlank).before
          && caselessBoundary joined (c.ahead.drop spelling.length).head?
      then some (spelling, (c.skipWhile isBlank).advance spelling.length) else none := rfl

/-- A keyword is read where it stands alone. -/
theorem caselessKeyword_of_ahead {joined : Bool} {spelling : String} {word rest : List Char} {c : Cursor}
    (hc : c.ahead = word ++ rest) (hw : Spells word spelling) (hk : isKeyword spelling = true)
    (hb : (c.skipWhile isBlank).before.all isBreak = true) (hr : caselessBoundary joined rest.head? = true) :
    caselessKeyword joined spelling c = some (spelling, (c.skipWhile isBlank).advance word.length) := by
  rw [caselessKeyword_apply, hc, ← hw.length_eq, List.take_left, List.drop_left, hw.upper_eq hk, hr,
    caselessBoundary_of_isBreak joined hb]
  simp

/-- The spelling of one word differs from the spelling of another at some letter that both have. -/
def clash (spelling other : String) : Bool :=
  (other.toList.map Char.toUpper).take spelling.length ≠ (spelling.toList.map Char.toUpper).take other.length

/-- A keyword is not read where the characters ahead are others. -/
theorem caselessKeyword_eq_none {joined : Bool} {spelling : String} {part rest : List Char} {c : Cursor}
    (hc : c.ahead = part ++ rest) (hk : isKeyword spelling = true) (hp : ∀ x ∈ part, x.toNat < 128)
    (hne : (part.map Char.toUpper).take spelling.length ≠ (spelling.toList.map Char.toUpper).take part.length) :
    caselessKeyword joined spelling c = none := by
  rw [caselessKeyword_apply, if_neg]
  intro h
  simp only [Bool.and_eq_true, decide_eq_true_eq] at h
  have hu := h.1.1
  rw [hc, List.take_append, Text.upper, List.flatMap_append, ← Text.upper, ← Text.upper,
    upper_of_ascii fun x hx => hp x (List.mem_of_mem_take hx),
    upper_of_ascii fun x hx => ((isKeyword_iff.mp hk).2 x hx).1] at hu
  have ht := congrArg (List.take (min spelling.length part.length)) hu
  rw [List.take_append_of_le_length (by simp), List.take_of_length_le (by simp)] at ht
  apply hne
  rw [← List.map_take, ht]
  rcases Nat.le_total spelling.length part.length with hl | hl
  · have hs : (spelling.toList.map Char.toUpper).length = spelling.length := by
      rw [List.length_map, String.length_toList]
    rw [Nat.min_eq_left hl, List.take_of_length_le (by omega), List.take_of_length_le (by omega)]
  · rw [Nat.min_eq_right hl]

/-- A keyword is not read where another one is ahead. -/
theorem caselessKeyword_of_clash {joined : Bool} {spelling other : String} {word rest : List Char} {c : Cursor}
    (hc : c.ahead = word ++ rest) (hw : Spells word other) (hk : isKeyword spelling = true)
    (ho : isKeyword other = true) (hd : clash spelling other = true) : caselessKeyword joined spelling c = none := by
  refine caselessKeyword_eq_none hc hk (hw.ascii ho) ?_
  rw [hw.map_toUpper ho, hw.length_eq]
  exact of_decide_eq_true hd

/-- The characters ahead of a keyword that was read are its letters in any letter case. -/
theorem upper_of_keyword {joined : Bool} {spelling : String} {c : Cursor} {r : String × Cursor}
    (hk : isKeyword spelling = true) (h : caselessKeyword joined spelling c = some r) :
    Text.upper (c.ahead.take spelling.length) = spelling.toList.map Char.toUpper := by
  rw [caselessKeyword_apply] at h
  split at h
  · rename_i hc
    simp only [Bool.and_eq_true, decide_eq_true_eq] at hc
    rw [hc.1.1, upper_of_ascii fun x hx => ((isKeyword_iff.mp hk).2 x hx).1]
  · cases h

/-- The capital form of fewer characters is the start of that of more. -/
theorem upper_take_prefix (cs : List Char) {n m : Nat} (h : n ≤ m) : Text.upper (cs.take n) <+: Text.upper (cs.take m) := by
  obtain ⟨rest, hr⟩ := List.take_prefix_take_left (l := cs) h
  rw [← hr, Text.upper, Text.upper, List.flatMap_append]
  exact List.prefix_append _ _

/-- Where a keyword was read, no keyword is read that differs from it at some letter. -/
theorem caselessKeyword_of_other {joined joined' : Bool} {spelling other : String} {c : Cursor} {r : String × Cursor}
    (h : caselessKeyword joined' other c = some r) (hk : isKeyword spelling = true) (ho : isKeyword other = true)
    (hd : clash spelling other = true) : caselessKeyword joined spelling c = none := by
  cases h' : caselessKeyword joined spelling c with
  | none => rfl
  | some r' =>
    refine absurd ?_ (of_decide_eq_true hd)
    have hs := upper_of_keyword hk h'
    have hu := upper_of_keyword ho h
    -- one of the two takes up the start of what the other does
    rcases Nat.le_total spelling.length other.length with hl | hl
    · have hp := upper_take_prefix c.ahead hl
      rw [hs, hu, List.prefix_iff_eq_take, List.length_map, String.length_toList] at hp
      rw [← hp, List.take_of_length_le (by rwa [List.length_map, String.length_toList])]
    · have hp := upper_take_prefix c.ahead hl
      rw [hs, hu, List.prefix_iff_eq_take, List.length_map, String.length_toList] at hp
      rw [← hp, List.take_of_length_le (by rwa [List.length_map, String.length_toList])]

/-- The first letter of the spelling, in any letter case. -/
def startsLike (spelling : String) (c : Char) : Bool :=
  !(c.toNat < 128) || spelling.toList.head?.map Char.toUpper = some c.toUpper

/-- A keyword is not read where a character is ahead that it does not start with, or nothing. -/
theorem caselessKeyword_of_head {joined : Bool} {spelling : String} {c : Cursor} (hk : isKeyword spelling = true)
    (hc : c.ahead.head?.all (fun x => !startsLike spelling x) = true) : caselessKeyword joined spelling c = none := by
  obtain ⟨hn, hs⟩ := isKeyword_iff.mp hk
  obtain ⟨y, ys, hy⟩ := List.exists_cons_of_ne_nil hn
  have hl : spelling.length = ys.length + 1 := by rw [← String.length_toList, hy, List.length_cons]
  cases ha : c.ahead with
  | nil =>
    rw [caselessKeyword_apply, ha, List.take_nil, upper_of_ascii fun x hx => (hs x hx).1, hy]
    rfl
  | cons x rest =>
    rw [ha, List.head?_cons, Option.all_some, startsLike, hy] at hc
    simp only [Bool.not_or, Bool.not_not, Bool.and_eq_true, decide_eq_true_eq, List.head?_cons, Option.map_some,
      Option.some.injEq, Bool.not_eq_true', decide_eq_false_iff_not] at hc
    refine caselessKeyword_eq_none (show c.ahead = [x] ++ rest from ha) hk (by simpa using hc.1) ?_
    rw [hy, hl]
    simpa using fun e => hc.2 e.symm

/-- Where a keyword was read its first letter is ahead. -/
theorem head_of_keyword {joined : Bool} {spelling : String} {c : Cursor} {r : String × Cursor} (hk : isKeyword spelling = true)
    (h : caselessKeyword joined spelling c = some r) : ∃ x, c.ahead.head? = some x ∧ startsLike spelling x = true := by
  by_contra hn
  rw [caselessKeyword_of_head hk] at h
  · cases h
  · cases hx : c.ahead.head? with
    | none => rfl
    | some x =>
      cases hs : startsLike spelling x with
      | false => rw [Option.all_some, hs]; rfl
      | true => exact absurd ⟨x, hx, hs⟩ hn

namespace Lexeme

/-- The lexeme is a symbol of the usual spelling, in any letter case. -/
def Spells (w : Lexeme) (s : Symbol) : Prop := RelAlg.Spells w.chars (Lexicon.usual s)

/-- The lexeme is an operator of the usual spelling, in any letter case, with the mark that opens its parameters. -/
def Opens (w : Lexeme) (s : Symbol) : Prop :=
  ∃ word, w.chars = word ++ (Lexicon.usual .paramsStart).toList ∧ RelAlg.Spells word (Lexicon.usual s)

variable {w : Lexeme} {s : Symbol} {c c' : Cursor}

/-- A keyword is passed by its reader. -/
theorem Spells.keyword (hw : w.Spells s) (h : Cursor.Past w c c') (hk : isKeyword (Lexicon.usual s) = true)
    (joined : Bool) : caselessKeyword joined (Lexicon.usual s) c = some (Lexicon.usual s, c') := by
  have hm := RelAlg.Spells.isMark_eq_false hw hk
  rw [caselessKeyword_of_ahead h.ahead hw hk (h.before (hm _ List.mem_cons_self))
    (caselessBoundary_of_isBreak joined (h.head_isBreak hm)), h.eq_advance]

/-- An operator with parameters is passed by its keyword and the mark that touches it. -/
theorem Opens.keyword (hw : w.Opens s) (h : Cursor.Past w c c') (hk : isKeyword (Lexicon.usual s) = true) :
    ∃ d, caselessKeyword false (Lexicon.usual s) c = some (Lexicon.usual s, d) ∧
      touchingMark .standard .paramsStart d = some ((), c') := by
  obtain ⟨word, hc, hs⟩ := hw
  have ha : c.ahead = word ++ ((Lexicon.usual .paramsStart).toList ++ c'.rest) := by
    rw [h.ahead, hc, List.append_assoc]
  have hm : isMark w.first = false := by
    obtain ⟨x, word, rfl⟩ : ∃ x xs, word = x :: xs := by
      cases word with
      | nil => exact absurd hs.symm (isKeyword_iff.mp hk).1
      | cons x word => exact ⟨x, word, rfl⟩
    have hx : w.first = x := (List.cons.inj hc).1
    rw [hx]
    exact hs.isMark_eq_false hk x List.mem_cons_self
  refine ⟨_, caselessKeyword_of_ahead ha hs hk (h.before hm) rfl, ?_⟩
  have hr : ((c.skipWhile isBlank).advance word.length).rest = (Lexicon.usual .paramsStart).toList ++ c'.rest := by
    rw [Cursor.rest_advance, show (c.skipWhile isBlank).rest = _ from ha, List.drop_left]
  show (if (Lexicon.usual .paramsStart).toList.isPrefixOf _ then _ else _) = _
  rw [hr, if_pos (by simp), Cursor.advance_advance, h.eq_advance, hc, List.length_append]
  rfl

/-- The keyword alone is not read where its parameters touch it. -/
theorem Opens.keyword_joined (hw : w.Opens s) (h : Cursor.Past w c c') :
    caselessKeyword true (Lexicon.usual s) c = none := by
  obtain ⟨word, hc, hs⟩ := hw
  have ha : c.ahead = word ++ '_' :: '\x7b' :: c'.rest := by
    rw [h.ahead, hc, List.append_assoc]
    rfl
  rw [caselessKeyword_apply, ha, ← hs.length_eq, List.drop_left, if_neg]
  simp only [List.head?_cons, show caselessBoundary true (some '_') = false from rfl, Bool.and_false]
  decide

/-- A keyword or an operator with parameters starts with a word of the language. -/
theorem exists_word (hw : w.Spells s ∨ w.Opens s) (h : Cursor.Past w c c') :
    ∃ word rest, c.ahead = word ++ rest ∧ RelAlg.Spells word (Lexicon.usual s) := by
  rcases hw with hw | ⟨word, hc, hs⟩
  · exact ⟨w.chars, c'.rest, h.ahead, hw⟩
  · exact ⟨word, _, by rw [h.ahead, hc, List.append_assoc], hs⟩

/-- A keyword is not read where another one is ahead, with parameters or without. -/
theorem keyword_of_clash {joined : Bool} {t : Symbol} (hw : w.Spells t ∨ w.Opens t) (h : Cursor.Past w c c')
    (hk : isKeyword (Lexicon.usual s) = true) (ht : isKeyword (Lexicon.usual t) = true)
    (hd : clash (Lexicon.usual s) (Lexicon.usual t) = true) : caselessKeyword joined (Lexicon.usual s) c = none := by
  obtain ⟨word, rest, hc, hs⟩ := exists_word hw h
  exact caselessKeyword_of_clash hc hs hk ht hd

end Lexeme

/-! ## Marks -/

/-- A mark is read behind blanks where its spelling is ahead. -/
theorem markReader_apply (s : Symbol) (c : Cursor) :
    markReader .standard s c =
      if (Lexicon.usual s).toList.isPrefixOf c.ahead
      then some ((), (c.skipWhile isBlank).advance (Lexicon.usual s).length) else none := rfl

/-- A symbol is passed by the reader of its text. -/
theorem markReader_of_past {s : Symbol} {w : Lexeme} {c c' : Cursor} (h : Cursor.Past w c c')
    (hw : w.chars = (Lexicon.usual s).toList) : markReader .standard s c = some ((), c') := by
  rw [markReader_apply, h.ahead, hw, if_pos (by simp), h.eq_advance, hw, String.length_toList]

/-- The same where the text is kept. -/
theorem literalReader_of_past {s : Symbol} {w : Lexeme} {c c' : Cursor} (h : Cursor.Past w c c')
    (hw : w.chars = (Lexicon.usual s).toList) : literalReader .standard s c = some (Lexicon.usual s, c') :=
  bind_of_some (markReader_of_past h hw)

/-- A symbol is not read where its first character is not ahead. -/
theorem markReader_eq_none {s : Symbol} {y : Char} {c : Cursor} (hs : (Lexicon.usual s).toList.head? = some y)
    (hc : c.ahead.head? ≠ some y) : markReader .standard s c = none := by
  rw [markReader_apply, if_neg]
  rw [List.isPrefixOf_iff_prefix]
  rintro ⟨rest, ha⟩
  rw [← ha, List.head?_append, hs] at hc
  exact hc rfl

/-- A symbol that was read was ahead. -/
theorem ahead_of_mark {s : Symbol} {u : Unit} {c c' : Cursor} (h : markReader .standard s c = some (u, c')) :
    c.ahead = (Lexicon.usual s).toList ++ c'.rest := by
  rw [markReader_apply] at h
  split at h
  · rename_i hp
    obtain ⟨rest, ha⟩ := List.isPrefixOf_iff_prefix.mp hp
    obtain ⟨-, rfl⟩ := Prod.mk.inj (Option.some.inj h)
    rw [Cursor.rest_advance, show (c.skipWhile isBlank).rest = c.ahead from rfl, ← ha, ← String.length_toList, List.drop_left]
  · cases h

/-- A mark that has to touch is right at the place. -/
theorem rest_of_touchingMark {s : Symbol} {u : Unit} {c c' : Cursor} (h : touchingMark .standard s c = some (u, c')) :
    c.rest = (Lexicon.usual s).toList ++ c'.rest := by
  have h' : (if (Lexicon.usual s).toList.isPrefixOf c.rest
      then some ((), c.advance (Lexicon.usual s).length) else none) = some (u, c') := h
  split at h'
  · rename_i hp
    obtain ⟨rest, hr⟩ := List.isPrefixOf_iff_prefix.mp hp
    obtain ⟨-, rfl⟩ := Prod.mk.inj (Option.some.inj h')
    rw [Cursor.rest_advance, ← hr, ← String.length_toList, List.drop_left]
  · cases h'

/-! ## Names and references -/

/-- The characters in small letters, as a text. -/
def lowered (cs : List Char) : String := String.ofList (cs.map Char.toLower)

/-- A name is a character that may start one and characters that may go on in one. -/
theorem isIdentifier_cons (x : Char) (xs : List Char) :
    isIdentifier (String.ofList (x :: xs)) = (isNameStart x && xs.all isNameChar) := by
  rw [isIdentifier, String.toList_ofList]

/-- An identifier starts with a letter. -/
theorem exists_cons_of_isIdentifier {cs : List Char} (h : isIdentifier (String.ofList cs) = true) :
    ∃ x xs, cs = x :: xs ∧ isNameStart x = true ∧ ∀ c ∈ xs, isNameChar c = true := by
  cases cs with
  | nil => cases h
  | cons x xs =>
    rw [isIdentifier_cons, Bool.and_eq_true, List.all_eq_true] at h
    exact ⟨x, xs, rfl, h⟩

/-- A name has characters of names only. -/
theorem isNameChar_of_isIdentifier {cs : List Char} (h : isIdentifier (String.ofList cs) = true) :
    ∀ c ∈ cs, isNameChar c = true := by
  obtain ⟨x, xs, rfl, hx, hxs⟩ := exists_cons_of_isIdentifier h
  intro c hc
  rcases List.mem_cons.mp hc with rfl | hc
  · exact isNameChar_of_isNameStart hx
  · exact hxs c hc

/-- No character of a name ends a word. -/
theorem isBreak_of_isNameChar {c : Char} (h : isNameChar c = true) : isBreak c = false := by
  cases hb : isBreak c with
  | false => rfl
  | true =>
    have := of_isBreak (P := fun c => !isNameChar c) hb (by decide)
    simp [h] at this

/-- What ends no word is no mark. -/
theorem isMark_of_isBreak {c : Char} (h : isBreak c = false) : isMark c = false := by
  rw [isBreak, Bool.or_eq_false_iff] at h
  exact h.2

/-- A run of characters of a class ends where one of another class follows. -/
theorem takeWhile_append_of_head {p : Char → Bool} {part rest : List Char} (h : ∀ x ∈ part, p x = true)
    (hr : rest.head?.all (fun x => !p x) = true) : (part ++ rest).takeWhile p = part := by
  rw [List.takeWhile_append_of_pos h]
  cases rest with
  | nil => simp
  | cons x rest => rw [List.takeWhile_cons_of_neg (by simpa using hr), List.append_nil]

/-- A part of which all is taken is dropped up to what follows. -/
theorem dropWhile_append_of_head {p : Char → Bool} {part rest : List Char} (h : ∀ x ∈ part, p x = true)
    (hr : rest.head?.all (fun x => !p x) = true) : (part ++ rest).dropWhile p = rest := by
  rw [List.dropWhile_append_of_pos h]
  cases rest with
  | nil => rfl
  | cons x rest => rw [List.dropWhile_cons_of_neg (by simpa using hr)]

/-- A run of characters of a class goes on as far as it can. -/
theorem head?_dropWhile_all (p : Char → Bool) (cs : List Char) : (cs.dropWhile p).head?.all (fun x => !p x) = true := by
  have h := List.head?_dropWhile_not p cs
  cases hd : (cs.dropWhile p).head? with
  | none => rfl
  | some x =>
    rw [hd] at h
    simpa using h

/-- A name is read up to the character that ends it. -/
theorem bareName_of_rest {c : Cursor} {word rest : List Char} (hc : c.rest = word ++ rest)
    (hw : isIdentifier (String.ofList word) = true) (hr : rest.head?.all (fun x => !isNameChar x) = true) :
    bareName c = some (lowered word, c.advance word.length) := by
  obtain ⟨x, xs, rfl, hx, hxs⟩ := exists_cons_of_isIdentifier hw
  have ht := takeWhile_append_of_head hxs hr
  simp only [bareName, hc, List.cons_append, hx, if_true, ht]
  rfl

/-- A name is not read where no letter is ahead. -/
theorem name_eq_none {c : Cursor} (hc : c.ahead.head?.all (fun x => !isNameStart x) = true) : name c = none := by
  show bareName (c.skipWhile isBlank) = none
  unfold bareName
  split
  · rename_i x xs hr
    rw [Cursor.ahead, hr, List.head?_cons, Option.all_some, Bool.not_eq_true'] at hc
    rw [hc]
    rfl
  · rfl

/-- A name that was read is an identifier in small letters, and it is as long as it can be. -/
theorem exists_of_bareName {c c' : Cursor} {s : String} (h : bareName c = some (s, c')) :
    ∃ word, isIdentifier (String.ofList word) = true ∧ c.rest = word ++ c'.rest ∧ s = lowered word ∧
      c' = c.advance word.length ∧ c'.rest.head?.all (fun x => !isNameChar x) = true := by
  unfold bareName at h
  split at h
  · rename_i x xs hc
    split at h
    · rename_i hx
      obtain ⟨rfl, rfl⟩ := Prod.mk.inj (Option.some.inj h)
      have hrest : (c.advance (x :: xs.takeWhile isNameChar).length).rest = xs.dropWhile isNameChar := by
        rw [Cursor.rest_advance, hc, List.length_cons, List.drop_succ_cons]
        calc xs.drop (xs.takeWhile isNameChar).length
            = (xs.takeWhile isNameChar ++ xs.dropWhile isNameChar).drop (xs.takeWhile isNameChar).length := by
              rw [List.takeWhile_append_dropWhile]
          _ = xs.dropWhile isNameChar := List.drop_left
      refine ⟨x :: xs.takeWhile isNameChar, ?_, ?_, rfl, rfl, ?_⟩
      · rw [isIdentifier_cons, hx, Bool.true_and]
        exact List.all_takeWhile
      · rw [hrest, hc, List.cons_append, List.takeWhile_append_dropWhile]
      · rw [hrest]
        exact head?_dropWhile_all isNameChar xs
    · cases h
  · cases h

/-- A name that was read stands ahead in some letter case, up to where no character of a name follows. -/
theorem exists_of_name {c c' : Cursor} {s : String} (h : name c = some (s, c')) :
    ∃ word, isIdentifier (String.ofList word) = true ∧ c.ahead = word ++ c'.rest ∧ s = lowered word ∧
      c' = (c.skipWhile isBlank).advance word.length ∧ c'.rest.head?.all (fun x => !isNameChar x) = true :=
  exists_of_bareName (c := c.skipWhile isBlank) h

/-- A reference that was read is a name with no point behind it, or two names with a point between them. -/
theorem exists_of_reference {c c' : Cursor} {s : String} (h : reference c = some (s, c')) :
    (∃ word, isIdentifier (String.ofList word) = true ∧ c.ahead = word ++ c'.rest ∧ s = lowered word ∧
      c' = (c.skipWhile isBlank).advance word.length ∧ c'.rest.head?.all (fun x => !isNameChar x && x ≠ '.') = true) ∨
    ∃ relation column, isIdentifier (String.ofList relation) = true ∧ isIdentifier (String.ofList column) = true ∧
      c.ahead = relation ++ '.' :: (column ++ c'.rest) ∧ s = lowered (relation ++ '.' :: column) ∧
      c' = (c.skipWhile isBlank).advance (relation ++ '.' :: column).length ∧
      c'.rest.head?.all (fun x => !isNameChar x) = true := by
  obtain ⟨first, d, hn, h⟩ := bind_eq_some h
  obtain ⟨word, hw, hc, rfl, rfl, hr⟩ := exists_of_name hn
  obtain ⟨o, e, ho, h⟩ := bind_eq_some h
  rcases opt_eq_some ho with ⟨u, rfl, hp⟩ | ⟨rfl, rfl, hp⟩
  · right
    obtain ⟨second, e', hs, h⟩ := bind_eq_some h
    obtain ⟨rfl, rfl⟩ := Prod.mk.inj (Option.some.inj h)
    obtain ⟨column, hw', hc', rfl, rfl, hr'⟩ := exists_of_bareName hs
    unfold exactly at hp
    split at hp
    · rename_i hpre
      obtain ⟨rest, hrest⟩ := List.isPrefixOf_iff_prefix.mp hpre
      obtain ⟨-, rfl⟩ := Prod.mk.inj (Option.some.inj hp)
      rw [Cursor.rest_advance, ← hrest] at hc'
      have hcol : rest = column ++ _ := hc'
      refine ⟨word, column, hw, hw', ?_, ?_, ?_, hr'⟩
      · rw [hc, ← hrest, hcol]
        rfl
      · rw [← String.toList_inj]
        simp [lowered]
      · rw [Cursor.advance_advance, Cursor.advance_advance, List.length_append, List.length_cons]
        congr 1
        have : ".".length = 1 := rfl
        omega
    · cases hp
  · left
    obtain ⟨rfl, rfl⟩ := Prod.mk.inj (Option.some.inj h)
    refine ⟨word, hw, hc, rfl, rfl, ?_⟩
    unfold exactly at hp
    split at hp
    · cases hp
    · rename_i hpre
      cases hx : ((c.skipWhile isBlank).advance word.length).rest with
      | nil => rfl
      | cons x rest =>
        rw [hx] at hr hpre
        have hdot : x ≠ '.' := by
          rintro rfl
          exact hpre rfl
        simpa [hdot] using hr

/-- What ends a word does not belong to a name. -/
theorem not_isNameChar_of_isBreak {o : Option Char} (h : o.all isBreak = true) :
    o.all (fun x => !isNameChar x) = true := by
  cases o with
  | none => rfl
  | some c => exact of_isBreak (P := fun c => !isNameChar c) h (by decide)

namespace Lexeme

/-- The lexeme writes the name, in any letter case. -/
def Names (w : Lexeme) (s : String) : Prop := isIdentifier (String.ofList w.chars) = true ∧ s = lowered w.chars

/-- The lexeme writes the reference, in any letter case: an attribute name, or a relation name, a point and an attribute
name. -/
inductive Refers : Lexeme → String → Prop where
  | name {w : Lexeme} {s : String} (h : w.Names s) : Refers w s
  | qualified {w : Lexeme} {relation column : List Char} (hw : w.chars = relation ++ '.' :: column)
      (hr : isIdentifier (String.ofList relation) = true) (ha : isIdentifier (String.ofList column) = true) :
      Refers w (lowered w.chars)

/-- A word of letters is a name too. -/
theorem Spells.isIdentifier {w : Lexeme} {s : Symbol} (hw : w.Spells s)
    (hs : ((Lexicon.usual s).toList.all fun c => c.isAlpha && c.toNat < 128) = true) :
    isIdentifier (String.ofList w.chars) = true := by
  have hc : ∀ c ∈ w.chars, isNameStart c = true := by
    intro c hc
    have h := List.all_eq_true.mp hs _ (RelAlg.Spells.mem hw hc)
    rw [Bool.and_eq_true, decide_eq_true_eq] at h
    exact of_toNat_lt (P := fun c => c.toLower.isAlpha = true → isNameStart c = true) (by decide)
      (toNat_lt_of_toLower h.2) h.1
  rw [chars, isIdentifier_cons, Bool.and_eq_true, List.all_eq_true]
  exact ⟨hc _ List.mem_cons_self, fun c h => isNameChar_of_isNameStart (hc c (List.mem_cons_of_mem _ h))⟩

variable {w : Lexeme} {s : String} {c c' : Cursor}

/-- A name has no mark in it. -/
theorem Names.isMark_eq_false (hw : w.Names s) : ∀ x ∈ w.chars, isMark x = false :=
  fun x hx => isMark_of_isBreak (isBreak_of_isNameChar (isNameChar_of_isIdentifier hw.1 x hx))

/-- A name is passed by its reader. -/
theorem Names.name (hw : w.Names s) (h : Cursor.Past w c c') : Reader.name c = some (s, c') := by
  have hb := not_isNameChar_of_isBreak (h.head_isBreak hw.isMark_eq_false)
  show bareName (c.skipWhile isBlank) = _
  rw [bareName_of_rest h.ahead hw.1 hb, hw.2, h.eq_advance]

/-- What ends a word is no point. -/
theorem exactly_point_of_isBreak (h : c.rest.head?.all isBreak = true) : opt (exactly ".") c = some (none, c) := by
  have he : exactly "." c = none := by
    cases hr : c.rest with
    | nil => simp [exactly, hr]
    | cons x rest =>
      rw [hr, List.head?_cons, Option.all_some] at h
      have hx : ('.' == x) = false := by
        have := of_isBreak (P := fun x => !('.' == x)) h (by decide)
        simpa using this
      simp [exactly, hr, List.isPrefixOf, hx]
  simp [opt, orElse_apply, bind_apply, he]

/-- A reference has no mark in it. -/
theorem Refers.isMark_eq_false (hw : w.Refers s) : ∀ x ∈ w.chars, isMark x = false := by
  cases hw with
  | name h => exact h.isMark_eq_false
  | qualified hw hr ha =>
    intro x hx
    rw [hw] at hx
    rcases List.mem_append.mp hx with hx | hx
    · exact isMark_of_isBreak (isBreak_of_isNameChar (isNameChar_of_isIdentifier hr x hx))
    · rcases List.mem_cons.mp hx with rfl | hx
      · decide
      · exact isMark_of_isBreak (isBreak_of_isNameChar (isNameChar_of_isIdentifier ha x hx))

/-- A reference is passed by its reader. -/
theorem Refers.reference (hw : w.Refers s) (h : Cursor.Past w c c') : Reader.reference c = some (s, c') := by
  have hb := h.head_isBreak hw.isMark_eq_false
  cases hw with
  | name hw =>
    simp only [Reader.reference, bind_apply, hw.name h, exactly_point_of_isBreak hb, pure_apply]
  | @qualified relation column hw hr ha =>
    have hc : (c.skipWhile isBlank).rest = relation ++ '.' :: (column ++ c'.rest) := by
      show c.ahead = _
      rw [h.ahead, hw, List.append_assoc]
      rfl
    have h₁ : Reader.name c = some (lowered relation, (c.skipWhile isBlank).advance relation.length) :=
      bareName_of_rest hc hr rfl
    generalize hd : (c.skipWhile isBlank).advance relation.length = d at h₁
    have hdr : d.rest = '.' :: (column ++ c'.rest) := by rw [← hd, Cursor.rest_advance, hc, List.drop_left]
    have h₂ : opt (exactly ".") d = some (some (), d.advance 1) := by
      simp [opt, orElse_apply, bind_apply, exactly, hdr, show ".".length = 1 from rfl]
    have h₃ : bareName (d.advance 1) = some (lowered column, c') := by
      rw [bareName_of_rest (by rw [Cursor.rest_advance, hdr, List.drop_one, List.tail_cons]) ha
        (not_isNameChar_of_isBreak hb), h.eq_advance, ← hd, Cursor.advance_advance, Cursor.advance_advance, hw]
      rw [List.length_append, List.length_cons, Nat.add_comm column.length]
    have hs : lowered relation ++ "." ++ lowered column = lowered w.chars := by
      rw [hw, ← String.toList_inj]
      simp [lowered]
    simp only [Reader.reference, bind_apply, h₁, h₂, h₃, pure_apply, hs]

end Lexeme

end RelAlg
