import RelAlg.Proofs.LetterCase
import RelAlg.Proofs.Reader.Pieces

/-!
# Texts in other spellings

A `Script` is a way to write the operators of the algebra: how they are spelled, and which characters are written in the place of
one that was read. No operator of a script is read where another one is written (`Script.word_of_other`). A text is a list of
atoms, plain characters, texts between quotes and operators (`Atom`), and the same atoms are written in every script. Side by side
two scripts make a frame, so that what is read of a text in one is read in the other. Main statement: an accepted text stays
accepted when each of its operators is spelled otherwise, and its statements are the same up to that (`parse_respelled`).
-/

namespace RelAlg

open Cursor Reader Surface

/-! ## Other spellings of the operators -/

namespace Lexicon

/-- Other spellings of the operators: a backslash and one or more letters, and no two the same up to letter case. -/
structure IsRespelling (spell : Symbol → String) : Prop where
  letters : ∀ s ∈ operatorSymbols, ∃ letters, (spell s).toList = '\\' :: letters ∧ letters ≠ [] ∧ letters.all Char.isAlpha = true
  apart : ∀ s ∈ operatorSymbols, ∀ t ∈ operatorSymbols, Text.SameLetters (spell s) (spell t) → s = t

/-- The usual lexicon with other spellings of the operators. -/
def respelled (spell : Symbol → String) : Lexicon :=
  { standard with setting := fun s => .text (if s ∈ operatorSymbols then spell s else usual s) }

/-- Everything but the operators keeps its usual spelling. -/
theorem respelled_common (spell : Symbol → String) : (respelled spell).IsCommon := by
  intro s hs
  show Setting.text (if s ∈ operatorSymbols then spell s else usual s) = _
  rw [if_neg hs]

/-- Operators have their other spelling. -/
theorem respelled_apply {spell : Symbol → String} {s : Symbol} (hs : s ∈ operatorSymbols) : respelled spell s = spell s := by
  show (if s ∈ operatorSymbols then spell s else usual s) = spell s
  rw [if_pos hs]

end Lexicon

/-- A piece of a text with its operator spelled otherwise, if it is one. -/
def Scan.respelledPiece (spell : Symbol → String) (w : List Char) : List Char :=
  match operatorSymbols.find? (Scan.spells w) with
  | some s => (spell s).toList
  | none => w

/-- The text with each of its operators spelled otherwise. -/
def Scan.respelled (spell : Symbol → String) (text : String) : String :=
  String.ofList ((pieces text.toList).flatMap (respelledPiece spell))

/-! ## Scripts -/

/-- The characters have the capital forms of the spelling one by one. -/
def Capitals (v : List Char) (spelling : String) : Prop := v.map Text.upperChar = spelling.toList.map Text.upperChar

/-- What may stand behind an operator: an ASCII character that is no letter or digit, or nothing. -/
def isGap (o : Option Char) : Bool := o.all fun x => x.toNat < 128 && !x.isAlphanum

/-- A way to write the operators: how they are spelled, and what is written in the place of one that was read. Where a
spelling starts with another a letter or digit follows. -/
structure Script where
  spelling : Symbol → String
  write : Symbol → List Char → List Char
  slash : ∀ s ∈ operatorSymbols, (spelling s).toList.head? = some '\\'
  ascii : ∀ s ∈ operatorSymbols, ∀ z ∈ (spelling s).toList, z.toNat < 128
  apart : ∀ s ∈ operatorSymbols, ∀ t ∈ operatorSymbols, ∀ more,
    (spelling s).toList.map Char.toUpper ++ more = (spelling t).toList.map Char.toUpper →
      s = t ∨ more.head?.any Char.isAlphanum = true
  capitals : ∀ s ∈ operatorSymbols, ∀ w, Scan.spells w s = true → Capitals (write s w) (spelling s)
  last : ∀ s ∈ operatorSymbols, ∀ w, Scan.spells w s = true → ∃ x, (write s w).getLast? = some x ∧ x.isAlphanum = true

/-- An ASCII letter or digit stays one in capital form, and nothing else becomes one. -/
theorem isAlphanum_toUpper {x : Char} (h : x.toNat < 128) : x.toUpper.isAlphanum = x.isAlphanum :=
  of_toNat_lt (P := fun x => x.toUpper.isAlphanum = x.isAlphanum) (by decide) h

/-- Every operator is usually spelled with a backslash first and with a plain letter or digit last. -/
theorem operators_spelled : ∀ s ∈ operatorSymbols, s ∈ Scan.keywords ∧ (Lexicon.usual s).toList.head? = some '\\' ∧
    (Lexicon.usual s).toList.getLast?.any (fun z => z.toNat < 128 && z.isAlphanum && z.toUpper.toNat < 128 && z.toUpper ≠ 'I'
      && z.toUpper ≠ 'S') = true := by
  decide

/-- The usual spelling, with operators in the letter case in which they were read. -/
def Script.usual : Script where
  spelling := Lexicon.usual
  write := fun _ w => w
  slash := fun s hs => (operators_spelled s hs).2.1
  ascii := fun s hs => Scan.keywords_ascii (operators_spelled s hs).1
  apart := by
    have hall : ∀ s ∈ operatorSymbols, ∀ t ∈ operatorSymbols,
        ((Lexicon.usual s).toList.map Char.toUpper).isPrefixOf ((Lexicon.usual t).toList.map Char.toUpper) = true → s = t := by
      decide +kernel
    exact fun s hs t ht more h => .inl (hall s hs t ht (by rw [← h, List.isPrefixOf_iff_prefix]; exact List.prefix_append _ _))
  capitals := fun _ _ _ hw => show _ = _ from of_decide_eq_true hw
  last := by
    intro s hs w hw
    have hlast := (operators_spelled s hs).2.2
    have hmap := congrArg List.getLast? (of_decide_eq_true hw)
    rw [List.getLast?_map, List.getLast?_map] at hmap
    cases hz : (Lexicon.usual s).toList.getLast? with
    | none =>
      rw [hz] at hlast
      cases hlast
    | some z =>
      simp only [hz, Option.any_some, Bool.and_eq_true, decide_eq_true_eq] at hlast
      obtain ⟨⟨⟨⟨hascii, halnum⟩, hupper⟩, hi⟩, hs⟩ := hlast
      rw [hz, Option.map_some, Option.map_eq_some_iff] at hmap
      obtain ⟨x, hx, he⟩ := hmap
      rw [show Text.upperChar z = [z.toUpper] from if_pos hascii] at he
      -- the last letter is none that a character beyond ASCII has for its capital form
      have hxa : x.toNat < 128 := by
        by_contra hxa
        exact (Scan.eq_of_upperChar hxa hupper he).elim hi hs
      rw [show Text.upperChar x = [x.toUpper] from if_pos hxa] at he
      exact ⟨x, hx, by rw [← isAlphanum_toUpper hxa, (List.cons.inj he).1, isAlphanum_toUpper hascii, halnum]⟩

/-- Letters are ASCII. -/
theorem toNat_lt_of_isAlpha {x : Char} (h : x.isAlpha = true) : x.toNat < 128 :=
  toNat_lt_of_isNameChar (isNameChar_of_isNameStart h)

/-- Other spellings are written in ASCII. -/
theorem Lexicon.IsRespelling.ascii {spell : Symbol → String} (h : IsRespelling spell) {s : Symbol} (hs : s ∈ operatorSymbols) :
    ∀ z ∈ (spell s).toList, z.toNat < 128 := by
  intro z hz
  obtain ⟨letters, he, -, hl⟩ := h.letters s hs
  rw [he] at hz
  rcases List.mem_cons.mp hz with rfl | hz
  · decide
  · exact toNat_lt_of_isAlpha (List.all_eq_true.mp hl z hz)

/-- Other spellings, as they are spelled. -/
def Script.other {spell : Symbol → String} (h : Lexicon.IsRespelling spell) : Script where
  spelling := spell
  write := fun s _ => (spell s).toList
  slash := by
    intro s hs
    obtain ⟨letters, he, -, -⟩ := h.letters s hs
    rw [he]
    rfl
  ascii := fun _ => h.ascii
  apart := by
    intro s hs t ht more hm
    obtain ⟨letters, he, -, -⟩ := h.letters s hs
    obtain ⟨letters', he', -, hl'⟩ := h.letters t ht
    have hm' := hm
    rw [he, he', List.map_cons, List.map_cons, List.cons_append] at hm'
    cases more with
    | nil =>
      have hsmall : ∀ cs : List Char, (∀ z ∈ cs, z.toNat < 128) →
          cs.map Char.toLower = (cs.map Char.toUpper).map Char.toLower := by
        intro cs hcs
        rw [List.map_map]
        exact List.map_congr_left fun z hz =>
          of_toNat_lt (P := fun z => z.toLower = z.toUpper.toLower) (by decide) (hcs z hz)
      refine .inl (h.apart s hs t ht ?_)
      rw [Text.SameLetters, hsmall _ (h.ascii hs), hsmall _ (h.ascii ht), ← hm, List.append_nil]
    | cons y ys =>
      have hy : y ∈ letters'.map Char.toUpper := by
        rw [← (List.cons.inj hm').2]
        exact List.mem_append_right _ List.mem_cons_self
      obtain ⟨x, hx, rfl⟩ := List.mem_map.mp hy
      have hx := List.all_eq_true.mp hl' x hx
      refine .inr ?_
      rw [List.head?_cons, Option.any_some, Char.isAlphanum, Scan.isAlpha_toUpper (toNat_lt_of_isAlpha hx), hx]
      rfl
  capitals := fun _ _ _ _ => rfl
  last := by
    intro s hs w _
    obtain ⟨letters, he, hn, hl⟩ := h.letters s hs
    obtain ⟨others, x, rfl⟩ := (List.eq_nil_or_concat letters).resolve_left hn
    have hx := List.all_eq_true.mp hl x (by simp)
    refine ⟨x, ?_, by rw [Char.isAlphanum, hx]; rfl⟩
    rw [he, List.concat_eq_append, ← List.cons_append, List.getLast?_concat]

variable {p q : Script} {s t : Symbol} {v r : List Char} {c d : Cursor} {joined : Bool} {n : Nat}

/-! ## Operators where they are written -/

/-- Characters with the capital forms of a spelling are as many. -/
theorem Capitals.length_eq {spelling : String} (h : Capitals v spelling) : v.length = spelling.length := by
  have := congrArg List.length h
  rwa [List.length_map, List.length_map, String.length_toList] at this

/-- Characters with the capital forms of a spelling have its capital form as a whole. -/
theorem Capitals.upper_eq {spelling : String} (h : Capitals v spelling) : Text.upper v = Text.upper spelling.toList := by
  rw [Text.upper, Text.upper, List.flatMap, List.flatMap, h]

namespace Script

/-- An operator is read where it is written, if a keyword may stand there. -/
theorem word_of_written (joined : Bool) (hv : Capitals v (p.spelling s)) (hc : c.rest = v ++ r) :
    word joined (p.spelling s) c = if caselessBoundary joined c.before && caselessBoundary joined r.head? then
      some (p.spelling s, c.advance v.length) else none := by
  unfold word
  rw [hc, ← hv.length_eq, List.take_left, List.drop_left, hv.upper_eq]
  simp

/-- An operator is not read where another one is written. -/
theorem word_of_other (hs : s ∈ operatorSymbols) (ht : t ∈ operatorSymbols) (hne : s ≠ t) (hv : Capitals v (p.spelling t))
    (hc : c.rest = v ++ r) (hr : isGap r.head? = true) : word joined (p.spelling s) c = none := by
  unfold word
  rw [if_neg]
  intro h
  simp only [Bool.and_eq_true, decide_eq_true_eq] at h
  obtain ⟨⟨hu, -⟩, hb⟩ := h
  rw [upper_of_ascii (p.ascii s hs), hc] at hu
  rw [hc] at hb
  have hascii := p.ascii t ht
  rcases Nat.le_total (p.spelling s).length v.length with hl | hl
  · -- the other one starts with it, and a letter or digit follows
    rw [List.take_append_of_le_length hl] at hu
    rw [List.drop_append_of_le_length hl] at hb
    generalize (p.spelling s).length = n at hu hb
    have htake : Text.upper (v.take n) = ((p.spelling t).toList.take n).map Char.toUpper := by
      rw [Text.upper, List.flatMap, List.map_take, show v.map Text.upperChar = _ from hv, ← List.map_take, ← List.flatMap,
        ← Text.upper, upper_of_ascii fun z hz => hascii z (List.mem_of_mem_take hz)]
    have hmore := p.apart s hs t ht (((p.spelling t).toList.drop n).map Char.toUpper)
      (by rw [← hu, htake, ← List.map_append, List.take_append_drop])
    have hdrop : (v.drop n).map Text.upperChar = ((p.spelling t).toList.drop n).map Text.upperChar := by
      rw [List.map_drop, show v.map Text.upperChar = _ from hv, ← List.map_drop]
    have hany := hmore.resolve_left hne
    cases hz : (p.spelling t).toList.drop n with
    | nil =>
      rw [hz] at hany
      cases hany
    | cons z zs =>
      have hzascii : z.toNat < 128 := hascii z (List.mem_of_mem_drop (hz ▸ List.mem_cons_self))
      rw [hz] at hany hdrop
      cases hy : v.drop n with
      | nil =>
        rw [hy] at hdrop
        cases hdrop
      | cons y ys =>
        rw [hy, List.map_cons, List.map_cons] at hdrop
        have hupper : Text.upperChar y = [z.toUpper] := (List.cons.inj hdrop).1.trans (if_pos hzascii)
        have halnum : z.toUpper.isAlphanum = true := hany
        rw [hy, List.cons_append, List.head?_cons, caselessBoundary, hupper] at hb
        simp [isKeywordChar, halnum] at hb
  · -- it starts with the other one, and a letter or digit has to follow
    rw [List.take_append, List.take_of_length_le hl, Text.upper, List.flatMap_append, ← Text.upper, ← Text.upper, hv.upper_eq,
      upper_of_ascii hascii] at hu
    have hany := (p.apart t ht s hs _ hu).resolve_left hne.symm
    cases r with
    | nil =>
      rw [List.take_nil] at hany
      cases hany
    | cons x xs =>
      cases hn : (p.spelling s).length - v.length with
      | zero =>
        rw [hn] at hany
        cases hany
      | succ m =>
        simp only [isGap, List.head?_cons, Option.all_some, Bool.and_eq_true, decide_eq_true_eq] at hr
        rw [hn, List.take_succ_cons, Text.upper, List.flatMap_cons, show Text.upperChar x = [x.toUpper] from if_pos hr.1,
          List.singleton_append, List.head?_cons, Option.any_some, isAlphanum_toUpper hr.1] at hany
        simp [hany] at hr

/-- An operator is not read where no backslash is ahead. -/
theorem word_of_head (hs : s ∈ operatorSymbols) (hc : c.rest.head? ≠ some '\\') : word joined (p.spelling s) c = none := by
  unfold word
  rw [if_neg]
  intro h
  simp only [Bool.and_eq_true, decide_eq_true_eq] at h
  have hu := h.1.1
  obtain ⟨zs, hz⟩ := List.head?_eq_some_iff.mp (p.slash s hs)
  rw [upper_of_ascii (p.ascii s hs), hz, List.map_cons] at hu
  obtain ⟨x, xs, hx⟩ : ∃ x xs, c.rest.take (p.spelling s).length = x :: xs := by
    cases hx : c.rest.take (p.spelling s).length with
    | nil =>
      rw [hx] at hu
      cases hu
    | cons x xs => exact ⟨x, xs, rfl⟩
  have hhead : c.rest.head? = some x := by
    rw [← List.take_append_drop (p.spelling s).length c.rest, hx]
    rfl
  obtain ⟨u, us, hux⟩ := List.exists_cons_of_ne_nil (upperChar_ne_nil x)
  rw [hx, Text.upper, List.flatMap_cons, hux, List.cons_append] at hu
  have hm : '\\' ∈ Text.upperChar x := by
    rw [hux, (List.cons.inj hu).1]
    exact List.mem_cons_self
  rw [hhead, eq_of_mem_upperChar hm (by decide) (by decide)] at hc
  exact hc rfl

end Script

/-! ## Atoms -/

/-- A part of a text: a plain character, a text between quotes, or an operator with the characters that it was read as. -/
inductive Atom where
  | char (x : Char)
  | literal (quote : Char) (body : List Char)
  | operator (s : Symbol) (w : List Char)

/-- The characters of an atom in a script. -/
def Atom.text (p : Script) : Atom → List Char
  | char x => [x]
  | literal quote body => quote :: (body ++ [quote])
  | operator s w => p.write s w

/-- The characters of atoms one after the other. -/
def Script.text (p : Script) (atoms : List Atom) : List Char := atoms.flatMap (Atom.text p)

/-- The atom may stand in front of the next character: an operator has a gap behind it, a text between quotes has no further quote
behind it, and no other atom starts with a backslash or a quote. -/
def Atom.Fits (next : Option Char) : Atom → Prop
  | char x => x ≠ '\\' ∧ x ≠ '"' ∧ x ≠ '\''
  | literal quote body => (quote = '"' ∨ quote = '\'') ∧ Quoted.IsBody quote body ∧ next ≠ some quote
  | operator s w => s ∈ operatorSymbols ∧ Scan.spells w s = true ∧ isGap next = true

/-- Every atom fits in front of the next one. -/
inductive Fitting : List Atom → Prop where
  | nil : Fitting []
  | cons {a : Atom} {atoms : List Atom} (ha : a.Fits (Script.usual.text atoms).head?) (h : Fitting atoms) : Fitting (a :: atoms)

variable {a : Atom} {A A' A₀ : List Atom} {next : Option Char}

/-- The last atoms of a fitting text fit. -/
theorem Fitting.suffix (h : Fitting A) (hs : A' <:+ A) : Fitting A' := by
  induction h with
  | nil => exact List.suffix_nil.mp hs ▸ .nil
  | cons ha h ih =>
    rcases List.suffix_cons_iff.mp hs with rfl | hs
    · exact .cons ha h
    · exact ih hs

namespace Script

/-- The text of atoms is that of the first and then that of the others. -/
theorem text_cons (p : Script) (a : Atom) (A : List Atom) : p.text (a :: A) = a.text p ++ p.text A := rfl

/-- An operator is written with a backslash in front, in every script. -/
theorem head?_write (p : Script) {w : List Char} (hs : s ∈ operatorSymbols) (hw : Scan.spells w s = true) :
    (p.write s w).head? = some '\\' := Scan.head?_of_upper (p.capitals s hs w hw) (p.slash s hs)

/-- Atoms are written with the same first character in every script. -/
theorem head?_atom (p q : Script) (h : a.Fits next) : (a.text p).head? = (a.text q).head? ∧ (a.text p).head? ≠ none := by
  cases a with
  | char x => exact ⟨rfl, nofun⟩
  | literal quote body => exact ⟨rfl, nofun⟩
  | operator s w =>
    obtain ⟨hs, hw, -⟩ := h
    rw [Atom.text, Atom.text, p.head?_write hs hw, q.head?_write hs hw]
    exact ⟨rfl, nofun⟩

/-- Text starts with the same character in every script, as every operator starts with a backslash. -/
theorem head?_text (p q : Script) (h : Fitting A) : (p.text A).head? = (q.text A).head? := by
  cases h with
  | nil => rfl
  | @cons a A ha h =>
    obtain ⟨he, hn⟩ := head?_atom p q ha
    obtain ⟨x, hx⟩ := Option.ne_none_iff_exists'.mp hn
    rw [text_cons, text_cons, List.head?_append, List.head?_append, ← he, hx]
    rfl

/-- Text starts with a backslash where an operator is written. -/
theorem head?_text_operator (p : Script) {w : List Char} (h : (Atom.operator s w).Fits next) (A : List Atom) :
    (p.text (.operator s w :: A)).head? = some '\\' := by
  rw [text_cons, List.head?_append, Atom.text, p.head?_write h.1 h.2.1]
  rfl

/-- Texts of the same atoms start alike, also behind a point. -/
theorem sameStart (p q : Script) (h : Fitting A) : SameStart (p.text A) (q.text A) := by
  refine ⟨head?_text p q h, fun hpoint => ?_⟩
  cases h with
  | nil => cases hpoint
  | @cons a A ha h =>
    cases a with
    | char x => exact head?_text p q h
    | literal quote body =>
      obtain ⟨hq, -⟩ := ha
      cases hpoint
      rcases hq with hq | hq <;> cases hq
    | operator s w =>
      rw [p.head?_text_operator ha] at hpoint
      cases hpoint

/-- Only no atoms are no text. -/
theorem text_eq_nil_iff (p : Script) (h : Fitting A) : p.text A = [] ↔ A = [] := by
  refine ⟨fun ht => ?_, fun hA => hA ▸ rfl⟩
  cases h with
  | nil => rfl
  | @cons a A ha h =>
    refine absurd ?_ (head?_atom p p ha).2
    rw [(List.append_eq_nil_iff.mp ht).1]
    rfl

/-- Ordinary characters without a backslash can be taken off a text in every script. -/
theorem take_ordinary (p q : Script) {part rest : List Char} (h : Fitting A) (ht : p.text A = part ++ rest)
    (ho : ∀ x ∈ part, isOrdinary x = true) (hslash : '\\' ∉ part) :
    ∃ A', A' <:+ A ∧ p.text A' = rest ∧ q.text A = part ++ q.text A' := by
  induction part generalizing A with
  | nil => exact ⟨A, List.suffix_refl A, ht, rfl⟩
  | cons x part ih =>
    cases h with
    | nil => cases ht
    | @cons a A ha h =>
      cases a with
      | char y =>
        obtain ⟨rfl, hpart⟩ := List.cons.inj ht
        obtain ⟨A', hA', hr, hq⟩ := ih h hpart (fun z hz => ho z (List.mem_cons_of_mem y hz))
          fun hm => hslash (List.mem_cons_of_mem y hm)
        exact ⟨A', hA'.trans (List.suffix_cons _ _), hr, by rw [text_cons, Atom.text, hq]; rfl⟩
      | literal quote body =>
        obtain ⟨rfl, -⟩ := List.cons.inj ht
        have := ho quote List.mem_cons_self
        rcases ha.1 with rfl | rfl <;> cases this
      | operator s w =>
        have hhead := p.head?_text_operator ha A
        rw [ht] at hhead
        obtain rfl := Option.some.inj hhead
        exact absurd List.mem_cons_self hslash

/-- A literal can be taken off a text in every script: it is an atom, and ends at the same quote. -/
theorem take_literal (p q : Script) {quote : Char} {body rest : List Char} (h : Fitting A)
    (ht : p.text A = quote :: (body ++ [quote]) ++ rest) (hq : quote = '"' ∨ quote = '\'') (hb : Quoted.IsBody quote body)
    (hr : rest.head? ≠ some quote) :
    ∃ A', A' <:+ A ∧ p.text A' = rest ∧ q.text A = quote :: (body ++ [quote]) ++ q.text A' := by
  cases h with
  | nil => cases ht
  | @cons a A ha h =>
    cases a with
    | char y =>
      obtain ⟨rfl, -⟩ := List.cons.inj ht
      rcases hq with rfl | rfl
      · exact absurd rfl ha.2.1
      · exact absurd rfl ha.2.2
    | literal quote' body' =>
      simp only [text_cons, Atom.text, List.cons_append, List.append_assoc, List.nil_append] at ht
      obtain ⟨rfl, ht⟩ := List.cons.inj ht
      have hhead : (p.text A).head? ≠ some quote' := by rw [head?_text p usual h]; exact ha.2.2
      obtain ⟨rfl, rfl⟩ := ha.2.1.append_inj hq hb hhead hr ht
      exact ⟨A, List.suffix_cons _ _, rfl, rfl⟩
    | operator s w =>
      have hhead := p.head?_text_operator ha A
      rw [ht] at hhead
      obtain rfl := Option.some.inj hhead
      rcases hq with hq | hq <;> cases hq

/-- A part that can be taken off a text in one script can be taken off in every other, if it holds no backslash outside
of quotes. -/
theorem take_part (p q : Script) {part rest : List Char} (h : Fitting A) (ht : p.text A = part ++ rest) (hp : IsPart part rest)
    (hslash : '\\' ∈ part → part.head? = some '"' ∨ part.head? = some '\'') :
    ∃ A', A' <:+ A ∧ p.text A' = rest ∧ q.text A = part ++ q.text A' := by
  cases hp with
  | ordinary ho =>
    refine take_ordinary p q h ht ho fun hm => ?_
    rcases hslash hm with hq | hq
    · cases ho _ (List.mem_of_mem_head? hq)
    · cases ho _ (List.mem_of_mem_head? hq)
  | literal hq hb hr => exact take_literal p q h ht hq hb hr

end Script

/-! ## Two scripts side by side -/

/-- The places are before the same atoms of a text in two scripts. Where the end has been passed it is passed by as much on both
sides. -/
structure At (p q : Script) (A₀ A : List Atom) (c d : Cursor) : Prop where
  suffix : A <:+ A₀
  left : c.rest = p.text A
  right : d.rest = q.text A
  offset : ∃ e, c.offset + (p.text A).length = (p.text A₀).length + e ∧ d.offset + (q.text A).length = (q.text A₀).length + e ∧
    (e = 0 ∨ A = [])
  edge : SameEdge c.before d.before

/-- The places are beside one another: before the same atoms, whichever they are. -/
def Beside (p q : Script) (A₀ : List Atom) (c d : Cursor) : Prop := ∃ A, At p q A₀ A c d

/-- Two scripts side by side may be exchanged. -/
theorem At.symm (h : At p q A₀ A c d) : At q p A₀ A d c := by
  obtain ⟨e, hc, hd, he⟩ := h.offset
  exact ⟨h.suffix, h.right, h.left, ⟨e, hd, hc, he⟩, h.edge.symm⟩

/-- Both scripts start with all atoms ahead. -/
theorem at_start (p q : Script) (A₀ : List Atom) : At p q A₀ A₀ (Cursor.start (p.text A₀)) (Cursor.start (q.text A₀)) where
  suffix := List.suffix_refl A₀
  left := rfl
  right := rfl
  offset := ⟨0, by simp [Cursor.start], by simp [Cursor.start], .inl rfl⟩
  edge := .refl _

/-- Behind parts of the two texts the places are before the same atoms again, if the parts are passed by as much. -/
theorem At.advance (h : At p q A₀ A c d) (hf : Fitting A₀) {part part' : List Char} {n n' : Nat} (hs : A' <:+ A)
    (hp : p.text A = part ++ p.text A') (hq : q.text A = part' ++ q.text A') (hn : Spans n part (p.text A'))
    (hn' : Spans n' part' (q.text A')) (he : n + part'.length = n' + part.length)
    (hedge : SameEdge (part.getLast?.or c.before) (part'.getLast?.or d.before)) :
    At p q A₀ A' (c.advance n) (d.advance n') := by
  have hc := h.left.trans hp
  have hd := h.right.trans hq
  have hA' := (hf.suffix h.suffix).suffix hs
  have hle : part.length ≤ n := by rcases hn with rfl | hn; exacts [Nat.le_refl _, hn.1]
  refine ⟨hs.trans h.suffix, ?_, ?_, ?_, ?_⟩
  · rw [rest_advance, hc, hn.drop]
  · rw [rest_advance, hd, hn'.drop]
  · obtain ⟨e, hoc, hod, hoe⟩ := h.offset
    rw [hp, List.length_append] at hoc
    rw [hq, List.length_append] at hod
    refine ⟨e + (n - part.length), ?_, ?_, ?_⟩
    · rw [offset_advance]
      omega
    · rw [offset_advance]
      omega
    · rcases hoe with rfl | rfl
      · rcases hn with rfl | ⟨-, hnil⟩
        · exact .inl (by omega)
        · exact .inr ((p.text_eq_nil_iff hA').mp hnil)
      · exact .inr (List.suffix_nil.mp hs)
  · rw [before_of_spans hc hn, before_of_spans hd hn']
    exact hedge

/-- Fewer of the last atoms are less text. -/
theorem length_text_lt (p : Script) (hf : Fitting A) (hs : A' <:+ A) (hne : A' ≠ A) : (p.text A').length < (p.text A).length := by
  induction hf with
  | nil => exact absurd (List.suffix_nil.mp hs) hne
  | @cons a A ha h ih =>
    have hpos : 0 < (a.text p).length := by
      rw [List.length_pos_iff]
      intro hnil
      exact (Script.head?_atom p p ha).2 (by rw [hnil]; rfl)
    rw [Script.text_cons, List.length_append]
    rcases List.suffix_cons_iff.mp hs with rfl | hs
    · exact absurd rfl hne
    · by_cases he : A' = A
      · subst he
        omega
      · have := ih hs he
        omega

/-- Of two pairs of places both are in the same order. -/
theorem Beside.ordered (hf : Fitting A₀) {c' d' : Cursor} (h : Beside p q A₀ c d) (h' : Beside p q A₀ c' d') :
    c.offset < c'.offset ↔ d.offset < d'.offset := by
  obtain ⟨A, h⟩ := h
  obtain ⟨A', h'⟩ := h'
  obtain ⟨e, hc, hd, he⟩ := h.offset
  obtain ⟨e', hc', hd', he'⟩ := h'.offset
  by_cases hA : A = A'
  · subst hA
    omega
  · rcases List.suffix_or_suffix_of_suffix h.suffix h'.suffix with hs | hs
    · have hp := length_text_lt p (hf.suffix h'.suffix) hs hA
      have hq := length_text_lt q (hf.suffix h'.suffix) hs hA
      have : A' ≠ [] := by
        rintro rfl
        exact hA (List.suffix_nil.mp hs)
      have := he'.resolve_right this
      omega
    · have hp := length_text_lt p (hf.suffix h.suffix) hs (Ne.symm hA)
      have hq := length_text_lt q (hf.suffix h.suffix) hs (Ne.symm hA)
      have : A ≠ [] := by
        rintro rfl
        exact hA (List.suffix_nil.mp hs).symm
      have := he.resolve_right this
      omega

/-- Behind a part that both texts start with. -/
theorem At.part (h : At p q A₀ A c d) (hf : Fitting A₀) {part rest : List Char}
    (hc : c.rest = part ++ rest) (hp : IsPart part rest)
    (hslash : '\\' ∈ part → part.head? = some '"' ∨ part.head? = some '\'') :
    ∃ A' rest', d.rest = part ++ rest' ∧ SameStart rest rest' ∧
      ∀ n, Spans n part rest → At p q A₀ A' (c.advance n) (d.advance n) := by
  obtain ⟨A', hs, rfl, hq⟩ := Script.take_part p q (hf.suffix h.suffix) (h.left.symm.trans hc) hp hslash
  have hstart := Script.sameStart p q ((hf.suffix h.suffix).suffix hs)
  refine ⟨A', q.text A', h.right.trans hq, hstart, fun n hn => ?_⟩
  exact h.advance hf hs (h.left.symm.trans hc) hq hn (hn.of_sameStart hstart) rfl (h.edge.or _)

/-- Places stay beside one another when blanks are skipped. -/
theorem Beside.skip (hf : Fitting A₀) (h : Beside p q A₀ c d) : Beside p q A₀ (c.skipWhile isBlank) (d.skipWhile isBlank) := by
  obtain ⟨A, h⟩ := h
  have hc : c.rest = c.rest.takeWhile isBlank ++ c.rest.dropWhile isBlank := List.takeWhile_append_dropWhile.symm
  obtain ⟨A', rest', hd, hst, hn⟩ := h.part hf hc (isPart_blanks c.rest) fun hm => by cases isBlank_of_mem_takeWhile _ hm
  unfold skipWhile
  rw [takeWhile_of_sameStart hd hst]
  exact ⟨A', hn _ (.inl rfl)⟩

/-! ## Tokens without a backslash -/

/-- Whatever is spelled without a backslash. -/
def Vocabulary.plain : Vocabulary :=
  ⟨fun s => isSpelling s && !s.toList.contains '\\', fun s => isWordSpelling s && !s.toList.contains '\\'⟩

/-- The reader takes no backslash, unless it takes a text between quotes. -/
def Reader.IsPlain {α : Type} (t : Reader α) : Prop :=
  ∀ c a c' part, t c = some (a, c') → c.rest = part ++ c'.rest → '\\' ∈ part → part.head? = some '"' ∨ part.head? = some '\''

/-- A reader that takes a given part is plain if the part has no backslash. -/
theorem Reader.IsPlain.of_part {α : Type} {t : Reader α}
    (h : ∀ c a c', t c = some (a, c') → ∃ part, c.rest = part ++ c'.rest ∧ '\\' ∉ part) : t.IsPlain := by
  intro c a c' part ht hc hm
  obtain ⟨part', hc', hn⟩ := h c a c' ht
  rw [hc', List.append_cancel_right_eq] at hc
  exact absurd (hc ▸ hm) hn

/-- A reader that takes a text without a backslash is plain. -/
theorem isPlain_of_starts {α : Type} {t : Reader α} {text : String} (hs : '\\' ∉ text.toList)
    (h : ∀ c a c', t c = some (a, c') → text.toList.isPrefixOf c.rest = true ∧ c' = c.advance text.length) : t.IsPlain := by
  refine .of_part fun c a c' ht => ⟨text.toList, ?_, hs⟩
  obtain ⟨hp, rfl⟩ := h c a c' ht
  obtain ⟨rest, hr⟩ := List.isPrefixOf_iff_prefix.mp hp
  rw [rest_advance, ← hr, ← String.length_toList, List.drop_left]

/-- A keyword without a backslash takes none, in any letter case. -/
theorem isPlain_word {spelling : String} (hs : '\\' ∉ spelling.toList) : (word joined spelling).IsPlain := by
  refine .of_part fun c a c' ht => ?_
  unfold word at ht
  split at ht
  · rename_i hc
    simp only [Bool.and_eq_true, decide_eq_true_eq] at hc
    obtain ⟨-, rfl⟩ := Prod.mk.inj (Option.some.inj ht)
    refine ⟨c.rest.take spelling.length, by rw [rest_advance, List.take_append_drop], fun hm => ?_⟩
    -- only a backslash has a backslash for its capital form
    have hup : '\\' ∈ Text.upper spelling.toList := by
      rw [← hc.1.1]
      exact List.mem_flatMap.mpr ⟨'\\', hm, by decide⟩
    obtain ⟨z, hz, he⟩ := List.mem_flatMap.mp hup
    exact hs (eq_of_mem_upperChar he (by decide) (by decide) ▸ hz)
  · cases ht

/-- A text between quotes starts with its quote. -/
theorem isPlain_quotation {quote : Char} (hq : quote = '"' ∨ quote = '\'') : (quotation quote).IsPlain := by
  intro c a c' part ht hc hm
  obtain ⟨-, rfl, rest, hr, -⟩ := exists_of_quotation hq ht
  obtain ⟨x, xs, rfl⟩ := List.exists_cons_of_ne_nil (List.ne_nil_of_mem hm)
  rw [hr] at hc
  obtain ⟨rfl, -⟩ := List.cons.inj hc
  exact hq.imp (congrArg some) (congrArg some)

/-- Every token that is spelled without a backslash is plain, and takes a part of the text. -/
theorem IsToken.isPlain {α : Type} {t : Reader α} (h : IsToken .plain t) : t.IsPlain ∧ Takes t := by
  have hexact : ∀ {s}, Vocabulary.plain.exact s = true → isSpelling s = true ∧ '\\' ∉ s.toList := by
    intro s hs
    simpa [Vocabulary.plain] using hs
  have hword : ∀ {s}, Vocabulary.plain.word s = true → isWordSpelling s = true ∧ '\\' ∉ s.toList := by
    intro s hs
    simpa [Vocabulary.plain] using hs
  cases h with
  | exactly h =>
    refine ⟨isPlain_of_starts (hexact h).2 fun c a c' ht => ?_, takes_exactly (hexact h).1⟩
    unfold Reader.exactly at ht
    split at ht
    · exact ⟨‹_›, (Prod.mk.inj (Option.some.inj ht)).2.symm⟩
    · cases ht
  | word h => exact ⟨isPlain_word (hword h).2, takes_word (hword h).1⟩
  | exactWord h =>
    refine ⟨isPlain_of_starts (hexact h).2 fun c a c' ht => ?_, takes_exactWord (hexact h).1⟩
    unfold Reader.exactWord at ht
    split at ht
    · rename_i hp
      simp only [Bool.and_eq_true] at hp
      exact ⟨hp.1.1, (Prod.mk.inj (Option.some.inj ht)).2.symm⟩
    · cases ht
  | name =>
    refine ⟨.of_part fun c a c' ht => ?_, takes_bareName⟩
    obtain ⟨word, hw, hc, -⟩ := exists_of_bareName ht
    exact ⟨word, hc, fun hm => by cases isNameChar_of_isIdentifier hw _ hm⟩
  | quotation hq => exact ⟨isPlain_quotation hq, takes_quotation hq⟩
  | numeral =>
    refine ⟨.of_part fun c a c' ht => ?_, takes_numeral⟩
    obtain ⟨w, hw, hc, -⟩ := Scan.exists_of_numeral ht
    exact ⟨w, hc, fun hm => by cases hw.isNumeralChar _ hm⟩

/-- A token without a backslash does the same in two scripts. -/
theorem IsToken.beside {α : Type} {t : Reader α} (h : IsToken .plain t) (hf : Fitting A₀) :
    Follows 1 (Beside p q A₀) (fun _ => Beside p q A₀) Eq t t := by
  obtain ⟨hplain, ht⟩ := h.isPlain
  have hpart : ∀ {c a n part rest}, t c = some (a, c.advance n) → Taken t c a n part rest →
      '\\' ∈ part → part.head? = some '"' ∨ part.head? = some '\'' := by
    intro c a n part rest hc hp
    refine hplain c a _ part hc ?_
    rw [rest_advance, hp.text, hp.spans.drop]
  refine ht.follows_of (fun ⟨_, hA⟩ => hA.edge) ?_ ?_
  · rintro c d a n part rest ⟨A, hA⟩ hc hp
    obtain ⟨A', rest', hd, hst, hadv⟩ := hA.part hf hp.text hp.isPart (hpart hc hp)
    exact ⟨rest', hd, hst, A', hadv n hp.spans⟩
  · rintro c d a n part rest ⟨A, hA⟩ hd hp
    obtain ⟨A', rest', hc, hst, -⟩ := hA.symm.part hf hp.text hp.isPart (hpart hd hp)
    exact ⟨rest', hc, hst⟩

/-- Two scripts side by side, for tokens without a backslash. -/
def TokenFrame.beside (p q : Script) (hf : Fitting A₀) : TokenFrame .plain where
  here := Beside p q A₀
  near := Beside p q A₀
  later := Beside p q A₀
  here_of_later := fun _ _ h => h
  near_of_later := fun _ _ h => h
  ordered := fun _ _ _ _ h h' => h.ordered hf h'
  skip := fun _ _ h => h.skip hf
  token := fun ht => ht.beside hf

/-! ## Operators in two scripts -/

/-- Letters and digits are alike on the edge of a keyword. -/
theorem sameEdge_of_isAlphanum {x y : Char} (hx : x.isAlphanum = true) (hy : y.isAlphanum = true) :
    SameEdge (some x) (some y) := by
  have hone : ∀ {x : Char}, x.isAlphanum = true →
      (∀ joined, caselessBoundary joined (some x) = false) ∧ boundary (some x) = false := by
    intro x hx
    have hascii := toNat_lt_of_isNameChar (show isNameChar x = true by rw [isNameChar, hx]; rfl)
    refine ⟨fun joined => ?_, ?_⟩
    · rw [caselessBoundary, show Text.upperChar x = [x.toUpper] from if_pos hascii]
      simp [isKeywordChar, isAlphanum_toUpper hascii, hx]
    · simp [boundary, isKeywordChar, hx]
  exact ⟨fun joined => by rw [(hone hx).1, (hone hy).1], by rw [(hone hx).2, (hone hy).2]⟩

/-- An operator is read in both scripts or in neither. -/
theorem word_beside (hf : Fitting A₀) (hs : s ∈ operatorSymbols) :
    Follows 1 (Beside p q A₀) (fun _ => Beside p q A₀) (fun a b => a = p.spelling s ∧ b = q.spelling s)
      (word joined (p.spelling s)) (word joined (q.spelling s)) := by
  rintro c d ⟨A, hA⟩
  have hfit := hf.suffix hA.suffix
  have hc := hA.left
  have hd := hA.right
  have hhead := Script.head?_text p q hfit
  by_cases hslash : (p.text A).head? = some '\\'
  · obtain ⟨t, w, A', rfl, ht⟩ : ∃ t w A', A = .operator t w :: A' ∧ Atom.Fits (Script.usual.text A').head? (.operator t w) := by
      cases hfit with
      | nil => cases hslash
      | @cons a A' ha h =>
        cases a with
        | char x => exact absurd (Option.some.inj hslash) ha.1
        | literal quote body =>
          obtain rfl : quote = '\\' := Option.some.inj hslash
          rcases ha.1 with hq | hq <;> cases hq
        | operator t w => exact ⟨t, w, A', rfl, ha⟩
    obtain ⟨htm, hw, hgap⟩ := ht
    have hfit' := hfit.suffix (List.suffix_cons _ _)
    have hhead' := Script.head?_text p q hfit'
    have hp := p.capitals t htm w hw
    have hq := q.capitals t htm w hw
    by_cases hst : s = t
    · subst hst
      have hwp := Script.word_of_written joined hp (hc.trans (Script.text_cons p _ _))
      have hwq := Script.word_of_written joined hq (hd.trans (Script.text_cons q _ _))
      rw [hhead', hA.edge.1 joined] at hwp
      split at hwq
      · rename_i hb
        rw [if_pos hb] at hwp
        obtain ⟨x, hx, hxa⟩ := p.last s htm w hw
        obtain ⟨y, hy, hya⟩ := q.last s htm w hw
        have hedge : SameEdge ((p.write s w).getLast?.or c.before) ((q.write s w).getLast?.or d.before) := by
          rw [hx, hy]
          exact sameEdge_of_isAlphanum hxa hya
        refine .read hwp hwq ⟨rfl, rfl⟩ ⟨A', hA.advance hf (List.suffix_cons _ _) rfl rfl (.inl rfl) (.inl rfl)
          (Nat.add_comm _ _) hedge⟩ ?_ ?_
        · exact beyond_of_spans hc (List.ne_nil_of_mem (List.mem_of_mem_getLast? hx)) (.inl rfl)
        · exact beyond_of_spans hd (List.ne_nil_of_mem (List.mem_of_mem_getLast? hy)) (.inl rfl)
      · rename_i hb
        rw [if_neg hb] at hwp
        exact .refuse hwp hwq
    · refine .refuse (Script.word_of_other hs htm hst hp (hc.trans (Script.text_cons p _ _)) ?_)
        (Script.word_of_other hs htm hst hq (hd.trans (Script.text_cons q _ _)) ?_)
      · rwa [Script.head?_text p .usual hfit']
      · rwa [Script.head?_text q .usual hfit']
  · refine .refuse (Script.word_of_head hs (by rwa [hc])) (Script.word_of_head hs ?_)
    rw [hd, ← hhead]
    exact hslash

/-! ## The language in two scripts -/

/-- Marks and comparators are spelled without a backslash. -/
theorem Vocabulary.plain_exact : ∀ s ∈ Symbol.paramsStart :: .assign :: innerMarks ++ comparatorSymbols,
    Vocabulary.plain.exact (Lexicon.usual s) = true := by decide

/-- Words that are no operators are spelled without a backslash. -/
theorem Vocabulary.plain_word : ∀ s ∈ wordSymbols, s ∉ operatorSymbols → Vocabulary.plain.word (Lexicon.usual s) = true := by
  decide

variable {spell : Symbol → String}

/-- The keyword of an operator is read on both sides or on neither, each in its script. -/
theorem keyword_beside (h : Lexicon.IsRespelling spell) (hf : Fitting A₀) (hs : s ∈ operatorSymbols) :
    Follows 1 (Beside .usual (.other h) A₀) (fun _ => Beside .usual (.other h) A₀) (SpellBoth (.respelled spell) s)
      (caselessKeyword joined (Lexicon.usual s)) (caselessKeyword joined (Lexicon.respelled spell s)) := by
  rw [caselessKeyword_eq, caselessKeyword_eq, Lexicon.respelled_apply hs]
  refine (TokenFrame.beside .usual (.other h) hf).blanks.after fun _ _ _ => (word_beside hf hs).giving fun a b hab => ?_
  exact ⟨hab.1, hab.2.trans (Lexicon.respelled_apply hs).symm⟩

/-- A text in the usual spelling beside the same text with other spellings of the operators. -/
def Frame.beside (h : Lexicon.IsRespelling spell) (hf : Fitting A₀) : Frame (.respelled spell) where
  here := fun _ => Beside .usual (.other h) A₀
  later := fun _ => Beside .usual (.other h) A₀
  known := fun _ => True
  common := Lexicon.respelled_common spell
  here_of_later := fun _ _ _ h => h
  ordered := fun _ _ _ _ _ _ h h' => h.ordered hf h'
  mark := fun s hs _ => (TokenFrame.beside .usual (.other h) hf).mark (Vocabulary.plain_exact s (by simp [hs]))
  word := by
    intro s hs _
    by_cases ho : s ∈ operatorSymbols
    · exact keyword_beside h hf ho
    · rw [(Lexicon.respelled_common spell).spelling_eq ho]
      have hspelling := ((Lexicon.respelled_common spell).spelling_eq ho).symm
      exact ((TokenFrame.beside .usual (.other h) hf).keyword_spells (Vocabulary.plain_word s hs ho)).giving
        fun a b hab => ⟨hab.1, hab.2.trans hspelling⟩
  opening := by
    intro s hs _
    have hall : ∀ s ∈ openingSymbols, s ∈ operatorSymbols := by decide
    unfold openingReader
    rw [(Lexicon.respelled_common spell).touchingMark_eq (by decide)]
    exact (keyword_beside h hf (hall s hs)).bind fun _ _ ho =>
      ((TokenFrame.beside .usual (.other h) hf).touching (.exactly (Vocabulary.plain_exact .paramsStart (by simp)))).bind
        fun _ _ _ => .pure ho fun _ _ h => h
  assignment := fun _ => (TokenFrame.beside .usual (.other h) hf).exactKeyword (Vocabulary.plain_exact .assign (by simp))
  name := fun _ => (TokenFrame.beside .usual (.other h) hf).name
  reference := fun _ => (TokenFrame.beside .usual (.other h) hf).reference (by decide)
  operand := fun _ => ((TokenFrame.beside .usual (.other h) hf).operand (by decide)).giving fun _ _ h => ⟨h, trivial⟩
  comparator := fun _ => (TokenFrame.beside .usual (.other h) hf).comparator fun s hs =>
    Vocabulary.plain_exact s (List.mem_append_right _ hs)

/-- The end of a statement is read alike in two scripts. -/
theorem terminator_beside (hf : Fitting A₀) :
    Follows 1 (Beside p q A₀) (fun _ => Beside p q A₀) Eq (markReader .standard .terminator)
      (markReader .standard .terminator) := by
  intro c d h
  obtain ⟨A, hA⟩ := h.skip hf
  have hfit := hf.suffix hA.suffix
  have hhead : c.ahead.head? = d.ahead.head? := by
    rw [show c.ahead = _ from hA.left, show d.ahead = _ from hA.right]
    exact Script.head?_text p q hfit
  by_cases hc : c.ahead.head? = some ';'
  · have hp := (terminator_apply c).trans (if_pos hc)
    have hq := (terminator_apply d).trans (if_pos (hhead.symm.trans hc))
    obtain ⟨A', rfl⟩ : ∃ A', A = .char ';' :: A' := by
      rw [show c.ahead = _ from hA.left] at hc
      cases hfit with
      | nil => cases hc
      | @cons a A' ha _ =>
        cases a with
        | char x =>
          obtain rfl := Option.some.inj hc
          exact ⟨A', rfl⟩
        | literal quote body =>
          obtain rfl := Option.some.inj hc
          rcases ha.1 with hq | hq <;> cases hq
        | operator t w =>
          rw [p.head?_text_operator ha] at hc
          cases hc
    have hsplit : ∀ r : Script, r.text (.char ';' :: A') = [';'] ++ r.text A' := fun _ => rfl
    refine .read hp hq rfl ⟨A', hA.advance hf (List.suffix_cons _ _) (hsplit p) (hsplit q) (.inl rfl) (.inl rfl) rfl
      (.refl _)⟩ ?_ ?_
    · exact advances_terminator _ _ _ hp
    · exact advances_terminator _ _ _ hq
  · refine .refuse ?_ ?_
    · rw [terminator_apply, if_neg hc]
    · rw [terminator_apply, if_neg (hhead ▸ hc)]

/-- The end of the text is reached alike in two scripts. -/
theorem atEnd_beside (hf : Fitting A₀) : Follows 0 (Beside p q A₀) (fun _ => Beside p q A₀) Eq atEnd atEnd := by
  intro c d h
  obtain ⟨A, hA⟩ := h.skip hf
  have hnil : c.ahead = [] ↔ d.ahead = [] := by
    rw [show c.ahead = _ from hA.left, show d.ahead = _ from hA.right, p.text_eq_nil_iff (hf.suffix hA.suffix),
      q.text_eq_nil_iff (hf.suffix hA.suffix)]
  by_cases hc : c.ahead = []
  · have hp : atEnd c = some ((), c.skipWhile isBlank) := by rw [atEnd_apply, if_pos hc]
    have hq : atEnd d = some ((), d.skipWhile isBlank) := by rw [atEnd_apply, if_pos (hnil.mp hc)]
    exact .read hp hq rfl ⟨A, hA⟩ (beyond_advance _ _) (beyond_advance _ _)
  · refine .refuse ?_ ?_
    · rw [atEnd_apply, if_neg hc]
    · rw [atEnd_apply, if_neg (mt hnil.mpr hc)]

/-! ## The atoms of a text -/

namespace Scan

/-- A piece that starts with no backslash is no operator. -/
theorem respelledPiece_of_head {w : List Char} (h : w.head? ≠ some '\\') : respelledPiece spell w = w := by
  have hnone : operatorSymbols.find? (spells w) = none := by
    rw [List.find?_eq_none]
    exact fun s hs hw => h (head?_of_upper (of_decide_eq_true hw) (operators_spelled s hs).2.1)
  rw [respelledPiece, hnone]

/-- A piece that spells an operator is replaced by its other spelling. -/
theorem respelledPiece_of_spells {w : List Char} (hs : s ∈ operatorSymbols) (hw : spells w s = true) :
    respelledPiece spell w = (spell s).toList := by
  have hsome : operatorSymbols.find? (spells w) = some s := by
    cases hf : operatorSymbols.find? (spells w) with
    | none => exact absurd hw (List.find?_eq_none.mp hf s hs)
    | some t =>
      have ht := operators_spelled t (List.mem_of_find?_eq_some hf)
      rw [spells_unique (operators_spelled s hs).1 ht.1 hw (List.find?_some hf)]
  rw [respelledPiece, hsome]

/-- A token is an operator, a text between quotes, or made of characters that start neither. -/
theorem token_cases {w : List Char} (h : (reading? w).isSome = true) :
    (∃ s ∈ operatorSymbols, spells w s = true) ∨
      (∃ quote body, (quote = '"' ∨ quote = '\'') ∧ Quoted.IsBody quote body ∧ w = quote :: (body ++ [quote])) ∨
      ∀ x ∈ w, x ≠ '\\' ∧ x ≠ '"' ∧ x ≠ '\'' := by
  obtain ⟨ss, hr⟩ := Option.isSome_iff_exists.mp h
  obtain ⟨k, hk⟩ := exists_kind hr
  cases k with
  | mark =>
    obtain ⟨-, s, hs, rfl⟩ := reading?_mark.mp hk
    have hall : ∀ s ∈ marks, (Lexicon.usual s).toList.all (fun x => x ≠ '\\' && x ≠ '"' && x ≠ '\'') = true := by decide
    exact .inr (.inr fun x hx => by simpa [and_assoc] using List.all_eq_true.mp (hall s hs) x hx)
  | word =>
    obtain ⟨s, hs, hw, -⟩ := reading?_word.mp hk
    by_cases ho : s ∈ operatorSymbols
    · exact .inl ⟨s, ho, hw⟩
    · have hall : ∀ s ∈ keywords, s ∉ operatorSymbols → (Lexicon.usual s).toList.all
          (fun z => z.toUpper ≠ '\\' && z.toUpper ≠ '"' && z.toUpper ≠ '\'') = true := by decide +kernel
      refine .inr (.inr fun x hx => ⟨?_, ?_, ?_⟩)
      all_goals
        rintro rfl
        obtain ⟨z, hz, he⟩ := exists_letter hs hw hx (by decide)
        have := List.all_eq_true.mp (hall s hs ho) z hz
        rw [← he] at this
        cases this
  | name =>
    refine .inr (.inr fun x hx => ?_)
    have := isNameChar_of_isReference (reading?_name.mp hk).1 x hx
    refine ⟨?_, ?_, ?_⟩ <;> rintro rfl <;> exact absurd this (by decide)
  | literal =>
    obtain ⟨quote, body, hq, hb, rfl, -⟩ := reading?_literal.mp hk
    exact .inr (.inl ⟨quote, body, hq, hb, rfl⟩)
  | numeral =>
    refine .inr (.inr fun x hx => ?_)
    have := (reading?_numeral.mp hk).1.isNumeralChar x hx
    refine ⟨?_, ?_, ?_⟩ <;> rintro rfl <;> cases this

end Scan

/-- Plain characters in front of atoms that fit. -/
theorem Fitting.chars (hA : Fitting A) {w : List Char} (hw : ∀ x ∈ w, x ≠ '\\' ∧ x ≠ '"' ∧ x ≠ '\'') :
    Fitting (w.map .char ++ A) := by
  induction w with
  | nil => exact hA
  | cons x w ih => exact .cons (hw x List.mem_cons_self) (ih fun y hy => hw y (List.mem_cons_of_mem x hy))

/-- Plain characters are the same in every script. -/
theorem Script.text_chars (p : Script) (w : List Char) (A : List Atom) : p.text (w.map .char ++ A) = w ++ p.text A := by
  induction w with
  | nil => rfl
  | cons x w ih => rw [List.map_cons, List.cons_append, text_cons, ih]; rfl

/-- A character of ASCII that may stand next to an operator is no letter or digit. -/
theorem isGap_of_boundary {o : Option Char} (h : caselessBoundary false o = true) (ha : ∀ x, o = some x → x.toNat < 128) :
    isGap o = true := by
  cases o with
  | none => rfl
  | some x =>
    have hascii := ha x rfl
    rw [caselessBoundary, show Text.upperChar x = [x.toUpper] from if_pos hascii] at h
    simpa [isGap, hascii, isKeywordChar, isAlphanum_toUpper hascii] using h

/-- The pieces of a text are atoms one after the other, in the usual spelling and in any other. -/
theorem exists_atoms (h : Lexicon.IsRespelling spell) {ws : List (List Char)} {ss : List String} (hw : Scan.Scanned [] ws ss) :
    ∃ A, Fitting A ∧ Script.usual.text A = ws.flatten ∧ (Script.other h).text A = ws.flatMap (Scan.respelledPiece spell) := by
  induction hw with
  | nil => exact ⟨[], .nil, rfl, rfl⟩
  | @blank b ws ss hb _ ih =>
    obtain ⟨A, hA, hu, ho⟩ := ih
    have hplain : b ≠ '\\' ∧ b ≠ '"' ∧ b ≠ '\'' := by refine ⟨?_, ?_, ?_⟩ <;> rintro rfl <;> cases hb
    refine ⟨.char b :: A, .cons hplain hA, by rw [Script.text_cons, hu]; rfl, ?_⟩
    rw [Script.text_cons, ho, List.flatMap_cons, Scan.respelledPiece_of_head (by simpa using hplain.1)]
    rfl
  | @token w ws us ss hw _ hp _ hrest ih =>
    obtain ⟨A, hA, hu, ho⟩ := ih
    rw [List.append_nil, ← hu] at hp
    rcases Scan.token_cases hw with ⟨s, hs, hsp⟩ | ⟨quote, body, hq, hb, rfl⟩ | hplain
    · have hhead := Script.usual.head?_write hs hsp
      have hgap := isGap_of_boundary (hp.1 hhead) fun x hx => by
        obtain ⟨cs, hcs⟩ := List.head?_eq_some_iff.mp hx
        exact (hrest.head (hu.symm.trans hcs)).1
      refine ⟨.operator s w :: A, .cons ⟨hs, hsp, hgap⟩ hA, by rw [Script.text_cons, hu]; rfl, ?_⟩
      rw [Script.text_cons, ho, List.flatMap_cons, Scan.respelledPiece_of_spells hs hsp]
      rfl
    · have hnext : (Script.usual.text A).head? ≠ some quote := by
        refine hp.2 ?_
        rcases hq with rfl | rfl
        · exact .inl rfl
        · exact .inr rfl
      have hhead : (quote :: (body ++ [quote])).head? ≠ some '\\' := by rcases hq with rfl | rfl <;> simp
      refine ⟨.literal quote body :: A, .cons ⟨hq, hb, hnext⟩ hA, by rw [Script.text_cons, hu]; rfl, ?_⟩
      rw [Script.text_cons, ho, List.flatMap_cons, Scan.respelledPiece_of_head hhead]
      rfl
    · have hhead : w.head? ≠ some '\\' := fun he => (hplain _ (List.mem_of_mem_head? he)).1 rfl
      refine ⟨w.map .char ++ A, hA.chars hplain, by rw [Script.text_chars, hu]; rfl, ?_⟩
      rw [Script.text_chars, ho, List.flatMap_cons, Scan.respelledPiece_of_head hhead]

/-! ## The respelled text -/

/-- Every symbol of a respelled lexicon has a spelling that is not empty. -/
theorem respelled_setting (h : Lexicon.IsRespelling spell) (s : Symbol) :
    ∃ t : String, (Lexicon.respelled spell).setting s = .text t ∧ t.isEmpty = false := by
  refine ⟨_, rfl, ?_⟩
  split
  · rename_i hs
    obtain ⟨letters, he, -⟩ := h.letters s hs
    rw [Bool.eq_false_iff, Ne, String.isEmpty_iff]
    intro hn
    rw [hn] at he
    cases he
  · cases s <;> rfl

/-- Spelling operators otherwise brings no tabs in. -/
theorem tab_not_mem_respelled (h : Lexicon.IsRespelling spell) {ws : List (List Char)} (ht : '\t' ∉ ws.flatten) :
    '\t' ∉ ws.flatMap (Scan.respelledPiece spell) := by
  intro hm
  obtain ⟨w, hw, hx⟩ := List.mem_flatMap.mp hm
  unfold Scan.respelledPiece at hx
  split at hx
  · rename_i s hs
    obtain ⟨letters, he, -, hl⟩ := h.letters s (List.mem_of_find?_eq_some hs)
    rw [he] at hx
    rcases List.mem_cons.mp hx with hx | hx
    · cases hx
    · cases List.all_eq_true.mp hl _ hx
  · exact ht (List.mem_flatten.mpr ⟨w, hw, hx⟩)

/-- An accepted text without tabs is accepted when its operators are spelled otherwise, and what is read is the same up
to that. -/
theorem parse_respelled (h : Lexicon.IsRespelling spell) {level : Level} {text : String} {ss : List Statement}
    (hl : level.includes .dependency = false) (ht : '\t' ∉ text.toList) (hp : parse level .standard text = .ok ss) :
    ∃ ss', parse level (.respelled spell) (Scan.respelled spell text) = .ok ss' ∧
      List.Forall₂ (Statement.Like (.respelled spell)) ss ss' := by
  obtain ⟨ws, hws, hscan⟩ := Scan.reached_of_parse hl ht hp
  rw [List.append_nil] at hws
  obtain ⟨A, hA, hu, ho⟩ := exists_atoms h hscan
  have hother : (Scan.respelled spell text).toList = (Script.other h).text A := by
    rw [Scan.respelled, String.toList_ofList, hws, hscan.pieces_eq.1, ho]
  let F := Frame.beside h hA
  have hs := F.statement level (V := F.later) (fun _ => terminator_beside hA) fun hd => by rw [hl] at hd; cases hd
  have hwhole := Frame.whole F.here_of_later hs (W := F.later) (fun _ => atEnd_beside hA) [] _ _ ⟨A, at_start .usual (.other h) A⟩
  obtain ⟨c', hread⟩ := (parse_eq_ok_iff (fun s => ⟨_, rfl, by cases s <;> rfl⟩) ht).mp hp
  rw [hws, ← hu] at hread
  cases hwhole with
  | refuse hn _ =>
    rw [hread] at hn
    cases hn
  | read hr hr' hlike _ _ _ =>
    rw [hread] at hr
    cases hr
    refine ⟨_, (parse_eq_ok_iff (respelled_setting h) ?_).mpr ⟨_, by rw [hother]; exact hr'⟩, hlike.imp fun _ _ h => h.1⟩
    rw [hother, ho]
    exact tab_not_mem_respelled h (hws ▸ ht)

end RelAlg
