import RelAlg.Proofs.Reader.Append
import RelAlg.Proofs.Reader.Found
import RelAlg.Proofs.Reader.Literal
import RelAlg.Proofs.Reader.Scan

/-!
# The words of a reading are those of the tokens

Along every run of the grammar the text that has been read is divided into tokens and blanks, each token as long as it
can be as far as the text behind it tells (`Scan.Scanned`), and the words that have been recorded are those of the
tokens. This makes a frame of a text with itself. At the end of the text the division is the one by longest match
(`Scan.Scanned.pieces_eq`). Main statement: the words of a text that is accepted, read off its nested lists from left to
right, are those of its tokens (`words_of_phrases`).
-/

namespace RelAlg

open Cursor Reader Surface

namespace Scan

variable {k : Kind} {w v after rest : List Char} {ss us : List String} {ws : List (List Char)}

/-! ## Division by longest match -/

/-- No text is no token. -/
theorem reading?_nil : reading? [] = none := by
  cases h : reading? [] with
  | none => rfl
  | some ss =>
    obtain ⟨k, hk⟩ := exists_kind h
    obtain ⟨x, cs, he, -⟩ := exists_cons hk
    cases he

/-- The longest match at a token that is as long as it can be is the token. -/
theorem tokenLength_of_longest (hw : reading? w = some ss) (hl : Longest w after) {n : Nat} (hn : w.length ≤ n)
    (hle : n ≤ (w ++ after).length) : tokenLength n (w ++ after) = w.length := by
  induction n with
  | zero =>
    rw [List.length_eq_zero_iff.mp (Nat.le_zero.mp hn), reading?_nil] at hw
    cases hw
  | succ n ih =>
    rw [tokenLength]
    rcases Nat.lt_or_ge n w.length with hlt | hge
    · have he : n + 1 = w.length := by omega
      rw [he, List.take_left, hw, Option.isSome_some, if_pos rfl]
    · have hne : after.take (n + 1 - w.length) ≠ [] := by
        rw [List.length_append] at hle
        rw [Ne, List.take_eq_nil_iff, ← List.length_eq_zero_iff]
        omega
      have hnone := hl (after.take (n + 1 - w.length)) (after.drop (n + 1 - w.length)) hne (List.take_append_drop _ _).symm
      rw [List.take_append, List.take_of_length_le (by omega : w.length ≤ n + 1), hnone]
      exact ih hge (by omega)

/-- No token starts with a blank. -/
theorem tokenLength_of_blank {b : Char} (hb : isBlank b = true) (n : Nat) (cs : List Char) :
    tokenLength n (b :: cs) = 0 := by
  induction n with
  | zero => rfl
  | succ n ih =>
    rw [tokenLength, ih]
    cases h : reading? ((b :: cs).take (n + 1)) with
    | none => rfl
    | some ss =>
      obtain ⟨k, hk⟩ := exists_kind h
      obtain ⟨x, xs, he, hx⟩ := exists_cons hk
      obtain ⟨rfl, -⟩ := List.cons.inj he
      rw [not_isBlank_of_starts hx] at hb
      cases hb

/-- Behind a part that is skipped the division starts anew. -/
theorem piecesAfter_append (v cs : List Char) : piecesAfter v.length (v ++ cs) = pieces cs := by
  induction v with
  | nil => rfl
  | cons x v ih => exact ih

/-- A token that is as long as it can be is a piece. -/
theorem pieces_token (hw : reading? w = some ss) (hl : Longest w after) : pieces (w ++ after) = w :: pieces after := by
  cases w with
  | nil =>
    rw [reading?_nil] at hw
    cases hw
  | cons x w =>
    have hn : tokenLength (x :: (w ++ after)).length (x :: (w ++ after)) = w.length + 1 :=
      tokenLength_of_longest hw hl (by simp) (Nat.le_refl _)
    rw [List.cons_append, pieces, piecesAfter, hn, Nat.max_eq_left (Nat.le_add_left 1 _), Nat.add_sub_cancel,
      piecesAfter_append]
    simp

/-- A blank is a piece by itself. -/
theorem pieces_blank {b : Char} (hb : isBlank b = true) (cs : List Char) : pieces (b :: cs) = [b] :: pieces cs := by
  rw [pieces, piecesAfter, tokenLength_of_blank hb]
  rfl

/-! ## Divisions along a run -/

/-- No letter or digit follows an operator, and no further quote a text between quotes. -/
def Parted (w after : List Char) : Prop :=
  (w.head? = some '\\' → caselessBoundary false after.head? = true) ∧
    (w.head? = some '"' ∨ w.head? = some '\'' → after.head? ≠ w.head?)

/-- The pieces are blanks and tokens, each as long as it can be in front of what follows and parted from it, and they are read as
the words. -/
inductive Scanned (rest : List Char) : List (List Char) → List String → Prop where
  | nil : Scanned rest [] []
  | blank {b : Char} {ws : List (List Char)} {ss : List String} (hb : isBlank b = true) (h : Scanned rest ws ss) :
      Scanned rest ([b] :: ws) ss
  | token {w : List Char} {ws : List (List Char)} {us ss : List String} (hw : (reading? w).isSome = true)
      (hs : Settled w (ws.flatten ++ rest)) (hp : Parted w (ws.flatten ++ rest))
      (hr : wordsBefore w (ws.flatten ++ rest) = some us) (h : Scanned rest ws ss) : Scanned rest (w :: ws) (us ++ ss)

/-- Two divisions one behind the other are a division. -/
theorem Scanned.append {ws' : List (List Char)} (h : Scanned (ws'.flatten ++ rest) ws ss) (h' : Scanned rest ws' us) :
    Scanned rest (ws ++ ws') (ss ++ us) := by
  induction h with
  | nil => exact h'
  | blank hb _ ih => exact .blank hb ih
  | token hw hs hp hr _ ih =>
    rw [List.cons_append, List.append_assoc]
    refine .token hw ?_ ?_ ?_ ih
    all_goals rwa [List.flatten_append, List.append_assoc]

/-- The text up to the place has been read as the words. -/
def Reached (text : List Char) (ss : List String) (rest : List Char) : Prop :=
  ∃ ws, text = ws.flatten ++ rest ∧ Scanned rest ws ss

/-- Behind a token the words read so far are those before it and its own. -/
theorem Reached.token {text : List Char} (h : Reached text ss (w ++ rest)) (hw : (reading? w).isSome = true)
    (hs : Settled w rest) (hp : Parted w rest) (hr : wordsBefore w rest = some us) : Reached text (ss ++ us) rest := by
  obtain ⟨ws, rfl, h⟩ := h
  have hone : Scanned rest [w] us := by
    have := @Scanned.token rest w [] us [] hw hs hp hr .nil
    rwa [List.append_nil] at this
  exact ⟨ws ++ [w], by simp, .append (by simpa using h) hone⟩

/-- Blanks add no words. -/
theorem Reached.blanks {text bs : List Char} (h : Reached text ss (bs ++ rest)) (hb : bs.all isBlank = true) :
    Reached text ss rest := by
  obtain ⟨ws, rfl, h⟩ := h
  have hblanks : Scanned rest (bs.map fun b => [b]) [] := by
    clear h
    induction bs with
    | nil => exact .nil
    | cons b bs ih =>
      rw [List.all_cons, Bool.and_eq_true] at hb
      exact .blank hb.1 (ih hb.2)
  have hflat : (bs.map fun b => [b]).flatten = bs := List.flatMap_singleton' bs
  have := @Scanned.append rest _ _ _ _ (by rwa [hflat]) hblanks
  rw [List.append_nil] at this
  exact ⟨_, by rw [List.flatten_append, hflat, List.append_assoc], this⟩

/-- A numeral that starts with a point goes on with a digit. -/
theorem digit_of_point {cs : List Char} (h : IsNumeral ('.' :: cs)) : ∃ d ds, cs = d :: ds ∧ d.isDigit = true := by
  obtain ⟨sign, hsign, ds, he, hd⟩ := h
  have hds : ds = '.' :: cs := by
    simp only [List.mem_cons, List.not_mem_nil, or_false] at hsign
    rcases hsign with rfl | rfl | rfl
    · exact he.symm
    · cases he
    · cases he
  subst hds
  generalize hw : '.' :: cs = w at hd
  cases hd with
  | whole hd _ => exact absurd (hd '.' (by rw [← hw]; exact List.mem_cons_self)) (by decide)
  | @fraction ds fs hd hf hn =>
    cases ds with
    | nil =>
      obtain ⟨d, fs, rfl⟩ := List.exists_cons_of_ne_nil hn
      exact ⟨d, fs, (List.cons.inj hw).2, hf d List.mem_cons_self⟩
    | cons d ds => exact absurd ((List.cons.inj hw).1 ▸ hd d List.mem_cons_self) (by decide)

/-- Pieces start with an ASCII character, and one that starts with a point goes on with a digit. -/
theorem Scanned.head {x : Char} {cs : List Char} (h : Scanned [] ws ss) (hc : ws.flatten = x :: cs) :
    x.toNat < 128 ∧ (x = '.' → cs.head?.any Char.isDigit = true) := by
  cases h with
  | nil => cases hc
  | blank hb _ =>
    obtain ⟨rfl, -⟩ := List.cons.inj hc
    simp only [isBlank, Bool.or_eq_true, decide_eq_true_eq] at hb
    rcases hb with ((rfl | rfl) | rfl) | rfl <;> exact ⟨by decide, fun h => absurd h (by decide)⟩
  | @token w ws us ss hw hs hp hr h =>
    obtain ⟨ts, ht⟩ := Option.isSome_iff_exists.mp hw
    obtain ⟨k, hk⟩ := exists_kind ht
    obtain ⟨y, ys, rfl, hy⟩ := exists_cons hk
    rw [List.flatten_cons, List.cons_append] at hc
    obtain ⟨rfl, rfl⟩ := List.cons.inj hc
    refine ⟨toNat_lt_of_starts hy, ?_⟩
    rintro rfl
    -- only a numeral starts with a point
    have hnum : k = .numeral := by cases k <;> first | rfl | cases hy
    subst hnum
    obtain ⟨d, ds, rfl, hd⟩ := digit_of_point (reading?_numeral.mp hk).1
    exact hd

/-- In front of what starts as pieces do, a token that is settled is the longest. -/
theorem Settled.longest (h : Settled w after)
    (ha : ∀ x cs, after = x :: cs → x.toNat < 128 ∧ (x = '.' → cs.head?.any Char.isDigit = true)) : Longest w after := by
  rcases h with h | ⟨hw, x, cs, rfl, hx⟩
  · exact h
  · obtain ⟨hascii, hdigit⟩ := ha x cs rfl
    obtain rfl : x = '.' := hx.resolve_right (not_not.mpr hascii)
    refine longest_of_kinds (reading?_name.mpr ⟨isReference_iff.mpr (.inl hw), rfl⟩) ?_
    rintro k' hk y v rest ss' he h'
    obtain ⟨rfl, rfl⟩ := List.cons.inj he
    rcases hk with rfl | ⟨h, -⟩ | ⟨-, rfl⟩
    · rcases isReference_iff.mp (reading?_name.mp h').1 with hi | ⟨relation, column, hr, hc, he⟩
      · exact point_not_mem_identifier hi (by simp)
      · -- a digit starts no name
        obtain rfl := eq_of_first_point (point_not_mem_identifier hw) (point_not_mem_identifier hr) he
        obtain rfl := (List.cons.inj (List.append_cancel_left he)).2
        obtain ⟨z, zs, rfl, hz, -⟩ := exists_cons_of_isIdentifier hc
        have hz' : z.isDigit = true := hdigit rfl
        have hno : ∀ n : Fin 128, ¬ (isNameStart (Char.ofNat n) = true ∧ (Char.ofNat n).isDigit = true) := by decide
        exact of_toNat_lt (P := fun z => ¬ (isNameStart z = true ∧ z.isDigit = true)) hno
          (toNat_lt_of_isNameChar (isNameChar_of_isNameStart hz)) ⟨hz, hz'⟩
    · cases h
    · obtain ⟨s, hs, hsp, -⟩ := reading?_word.mp h'
      exact point_not_mem hs hsp (by simp)

/-- At the end of a text the pieces are those by longest match, and the words are theirs. -/
theorem Scanned.pieces_eq (h : Scanned [] ws ss) : pieces ws.flatten = ws ∧ wordsOf [] ws = some ss := by
  induction h with
  | nil => exact ⟨rfl, rfl⟩
  | @blank b ws ss hb h ih =>
    refine ⟨?_, ?_⟩
    · rw [List.flatten_cons, List.singleton_append, pieces_blank hb, ih.1]
    · rw [wordsOf, wordsBefore, ih.2, if_pos (by simp [hb])]
      rfl
  | @token w ws us ss hw hs hp hr h ih =>
    obtain ⟨ts, ht⟩ := Option.isSome_iff_exists.mp hw
    rw [List.append_nil] at hs
    refine ⟨?_, ?_⟩
    · rw [List.flatten_cons, pieces_token ht (hs.longest fun x cs hc => h.head hc), ih.1]
    · rw [wordsOf, hr, ih.2]
      rfl

/-- At the end of a text the words read are the words of the text. -/
theorem Reached.words_eq {text : String} (h : Reached text.toList ss []) : words text = some ss := by
  obtain ⟨ws, hws, h⟩ := h
  rw [List.append_nil] at hws
  rw [words, hws, h.pieces_eq.1, h.pieces_eq.2]

/-! ## The frame -/

variable {text : List Char}

/-- Skipping blanks adds no words. -/
theorem Reached.ahead {c : Cursor} (h : Reached text ss c.rest) : Reached text ss c.ahead := by
  have hsplit : c.rest = c.rest.takeWhile isBlank ++ c.ahead := by
    rw [Cursor.ahead, skipWhile, rest_advance]
    conv_lhs => rw [← List.take_append_drop (c.rest.takeWhile isBlank).length c.rest]
    rw [← List.prefix_iff_eq_take.mp (List.takeWhile_prefix (l := c.rest) isBlank)]
  rw [hsplit] at h
  exact h.blanks List.all_takeWhile

/-- Unless a text has come to its end, it has been read as the words up to the place. At the end a word may have been read that is
not there as a whole. -/
def Along (text : List Char) (ss : List String) (c d : Cursor) : Prop := c = d ∧ (c.rest = [] ∨ Reached text ss c.rest)

/-- A reader that gets on records what it reads if it does so from every place that is reached. -/
theorem records_along {α : Type} {p : Reader α} {φ : α → α → Prop} {f : α → List String} (ha : Advances p)
    (h : ∀ ss c a c', Reached text ss c.ahead → p c = some (a, c') →
      φ a a ∧ (c'.rest = [] ∨ Reached text (ss ++ f a) c'.rest)) : Records 1 (Along text) (Along text) φ f p p := by
  rintro ss c _ ⟨rfl, hc⟩
  cases hp : p c with
  | none => exact .refuse hp hp
  | some r =>
    obtain ⟨a, c'⟩ := r
    have hb := ha c a c' hp
    have hne : c.rest ≠ [] := by
      intro he
      have := hb.2
      rw [he, List.length_nil] at this
      omega
    obtain ⟨hφ, hreach⟩ := h ss c a c' (hc.resolve_left hne).ahead hp
    exact .read hp hp hφ ⟨rfl, hreach⟩ hb hb

/-- The words of a token that is no join right before parameters. -/
theorem wordsBefore_of_reading (h : k.reading? w = some us)
    (hj : (spells w .join && (Lexicon.usual .paramsStart).toList.isPrefixOf after) = false) : wordsBefore w after = some us := by
  obtain ⟨x, cs, rfl, hx⟩ := exists_cons h
  rw [wordsBefore, if_neg (by simp [not_isBlank_of_starts hx]), hj, reading?_of_kind h]
  rfl

/-- What spells an operator in some letter case starts with a backslash, as the operator does. -/
theorem head?_of_upper {v : List Char} (h : w.map Text.upperChar = v.map Text.upperChar) (hv : v.head? = some '\\') :
    w.head? = some '\\' := by
  cases v with
  | nil => cases hv
  | cons y v =>
    obtain rfl := Option.some.inj hv
    cases w with
    | nil => cases h
    | cons x w =>
      have hx : Text.upperChar x = ['\\'] := (List.cons.inj h).1
      have hm : '\\' ∈ Text.upperChar x := by
        rw [hx]
        exact List.mem_singleton_self _
      rw [List.head?_cons, eq_of_mem_upperChar hm (by decide) (by decide)]

/-- Only a text between quotes starts with a quote. -/
theorem eq_literal_of_quote {x : Char} (h : starts k x = true) (hx : x = '"' ∨ x = '\'') : k = .literal := by
  rcases hx with rfl | rfl <;> cases k <;> first | rfl | cases h

/-- A token of which the first character is no backslash. -/
theorem Reached.plain (h : Reached text ss (w ++ rest)) (hk : k.reading? w = some us) (hs : Settled w rest)
    (hw : w.head? ≠ some '\\') (hq : k = .literal → rest.head? ≠ w.head?) : Reached text (ss ++ us) rest := by
  have hj : spells w .join = false := by
    rw [Bool.eq_false_iff]
    exact fun hj => hw (head?_of_upper (of_decide_eq_true hj) rfl)
  refine h.token ?_ hs ⟨fun he => absurd he hw, fun he => ?_⟩ (wordsBefore_of_reading hk (by rw [hj, Bool.false_and]))
  · rw [reading?_of_kind hk]
    rfl
  · obtain ⟨x, cs, rfl, hx⟩ := exists_cons hk
    exact hq (eq_literal_of_quote hx (he.imp Option.some.inj Option.some.inj))

/-- A mark adds no words. -/
theorem Reached.mark {s : Symbol} (hs : s ∈ marks) (h : Reached text ss ((Lexicon.usual s).toList ++ rest)) :
    Reached text ss rest := by
  have hall : ∀ s ∈ marks, (Lexicon.usual s).toList.head? ≠ some '\\' := by decide
  have := h.plain (reading?_mark.mpr ⟨rfl, s, hs, rfl⟩) (.inl (longest_mark hs rest)) (hall s hs) fun h => by cases h
  rwa [List.append_nil] at this

/-- A name adds itself, in small letters. -/
theorem Reached.name {word : List Char} (h : Reached text ss (word ++ rest)) (hw : isIdentifier (String.ofList word) = true)
    (hr : rest.head?.all (fun x => !isNameChar x) = true) : Reached text (ss ++ [lowered word]) rest := by
  refine h.plain (reading?_name.mpr ⟨isReference_iff.mpr (.inl hw), rfl⟩) (settled_name hw hr) ?_ fun h => by cases h
  obtain ⟨x, xs, rfl, hx, -⟩ := exists_cons_of_isIdentifier hw
  intro he
  obtain rfl := Option.some.inj he
  cases hx

/-- A reference adds itself, as it comes out. -/
theorem Reached.reference {c c' : Cursor} {a : String} (h : Reached text ss c.ahead) (hr : reference c = some (a, c')) :
    Reached text (ss ++ [a]) c'.rest := by
  rcases exists_of_reference hr with ⟨word, hw, hc, rfl, -, hrest⟩ | ⟨relation, column, hrel, hcol, hc, rfl, -, hrest⟩
  · rw [hc] at h
    refine h.name hw ?_
    cases hh : c'.rest.head? with
    | none => rfl
    | some x =>
      rw [hh, Option.all_some, Bool.and_eq_true] at hrest
      exact hrest.1
  · rw [hc, show relation ++ '.' :: (column ++ c'.rest) = (relation ++ '.' :: column) ++ c'.rest by simp] at h
    have href := isReference_iff.mpr (.inr ⟨relation, column, hrel, hcol, rfl⟩)
    refine h.plain (reading?_name.mpr ⟨href, rfl⟩) (.inl (longest_qualified hrel hcol hrest)) ?_
      fun h => by cases h
    obtain ⟨x, xs, rfl, hx, -⟩ := exists_cons_of_isIdentifier hrel
    intro he
    obtain rfl := Option.some.inj he
    cases hx

/-- A text between quotes adds itself, between single quotes. -/
theorem Reached.quoted {c c' : Cursor} {a : String} (h : Reached text ss c.ahead) (hq : quoted c = some (a, c')) :
    Reached text (ss ++ [a]) c'.rest := by
  obtain ⟨quote, body, hquote, hb, rfl, hc, hrest⟩ := exists_of_quoted hq
  rw [hc, show quote :: (body ++ quote :: c'.rest) = (quote :: (body ++ [quote])) ++ c'.rest by simp] at h
  refine h.plain (reading?_literal.mpr ⟨quote, body, hquote, hb, rfl, rfl⟩) (.inl (longest_literal hquote hb hrest)) ?_
    fun _ => hrest
  rcases hquote with rfl | rfl <;> exact fun he => absurd (Option.some.inj he) (by decide)

/-- A numeral adds itself, as it stands. -/
theorem Reached.number {c c' : Cursor} {a : String} (h : Reached text ss c.ahead) (hn : number c = some (a, c')) :
    Reached text (ss ++ [a]) c'.rest := by
  obtain ⟨w, hw, hc, rfl, -, hl⟩ := exists_of_numeral (c := c.skipWhile isBlank) hn
  rw [show c.ahead = w ++ c'.rest from hc] at h
  refine h.plain (reading?_numeral.mpr ⟨hw, rfl⟩) (.inl hl) ?_ fun h => by cases h
  intro he
  cases w with
  | nil => cases he
  | cons x w =>
    obtain rfl := Option.some.inj he
    cases hw.isNumeralChar '\\' List.mem_cons_self

/-- An operand adds its text, whatever kind it is of. -/
theorem Reached.operand {c c' : Cursor} {o : Operand} (h : Reached text ss c.ahead) (ho : Operand.reader c = some (o, c')) :
    Reached text (ss ++ [o.text]) c'.rest := by
  rw [operandReader_apply] at ho
  cases hr : Reader.reference c with
  | some r =>
    rw [hr] at ho
    cases ho
    exact h.reference hr
  | none =>
    cases hq : Reader.quoted c with
    | some r =>
      rw [hr, hq] at ho
      cases ho
      exact h.quoted hq
    | none =>
      cases hn : Reader.number c with
      | some r =>
        rw [hr, hq, hn] at ho
        cases ho
        exact h.number hn
      | none =>
        rw [hr, hq, hn] at ho
        cases ho

/-- A comparator adds itself. -/
theorem Reached.comparator {c c' : Cursor} {a : String} (h : Reached text ss c.ahead)
    (hc : Clause.comparator .standard c = some (a, c')) : Reached text (ss ++ [a]) c'.rest := by
  rw [comparator_apply] at hc
  obtain ⟨t, ht, hp, he⟩ := longestOf_symbol hc
  obtain ⟨s, hs, rfl⟩ : ∃ s ∈ comparatorSymbols, Lexicon.usual s = t := List.mem_map.mp ht
  obtain ⟨rfl, rfl⟩ := Prod.mk.inj he
  obtain ⟨after, ha⟩ := List.isPrefixOf_iff_prefix.mp hp
  have hrest : ((c.skipWhile isBlank).advance (Lexicon.usual s).length).rest = after := by
    rw [rest_advance, show (c.skipWhile isBlank).rest = _ from ha.symm, ← String.length_toList, List.drop_left]
  rw [hrest]
  have hkey : ∀ s ∈ comparatorSymbols, s ∈ keywords ∧ (Lexicon.usual s).toList.head? ≠ some '\\' := by decide
  have hsize : ∀ s ∈ comparatorSymbols, 1 ≤ (Lexicon.usual s).length ∧ (Lexicon.usual s).length ≤ 2 := by decide
  rw [← ha] at h
  refine h.plain (reading?_word.mpr ⟨s, (hkey s hs).1, decide_eq_true rfl, rfl⟩) (.inl (longest_comparator hs ?_)) (hkey s hs).2
    fun h => by cases h
  -- a longer one has two characters, so it is the longest there and would have been read
  intro t hts hpt
  by_contra hlt
  rw [Nat.not_le] at hlt
  rw [ha] at hpt
  have hmax : ∀ u ∈ comparatorTexts, u.toList.isPrefixOf c.ahead = true →
      u.length < (Lexicon.usual t).length ∨ u = Lexicon.usual t := by
    intro u hu hup
    obtain ⟨r, hr, rfl⟩ : ∃ r ∈ comparatorSymbols, Lexicon.usual r = u := List.mem_map.mp hu
    by_cases hl : (Lexicon.usual r).length < (Lexicon.usual t).length
    · exact .inl hl
    · have hle : (Lexicon.usual r).toList.length = (Lexicon.usual t).toList.length := by
        have := hsize r hr
        have := hsize t hts
        have := hsize s hs
        simp only [String.length_toList]
        omega
      exact .inr (String.ext ((List.prefix_of_prefix_length_le (List.isPrefixOf_iff_prefix.mp hup) hpt hle.le).eq_of_length hle))
  have htm : Lexicon.usual t ∈ comparatorTexts := List.mem_map_of_mem hts
  rw [longestOf_symbol_eq htm (List.isPrefixOf_iff_prefix.mpr hpt) hmax] at hc
  rw [(Prod.mk.inj (Option.some.inj hc)).1] at hlt
  exact lt_irrefl _ hlt

/-- Characters with the capital forms of as many ASCII characters have them one by one. -/
theorem map_upperChar_of_upper {p w : List Char} (ha : ∀ z ∈ w, z.toNat < 128) (hl : p.length = w.length)
    (h : Text.upper p = Text.upper w) : p.map Text.upperChar = w.map Text.upperChar := by
  have hlong : ∀ cs : List Char, cs.length ≤ (Text.upper cs).length := by
    intro cs
    induction cs with
    | nil => exact Nat.le_refl 0
    | cons x cs ih =>
      have := List.length_pos_iff.mpr (upperChar_ne_nil x)
      rw [Text.upper, List.flatMap_cons, ← Text.upper, List.length_append, List.length_cons]
      omega
  induction p generalizing w with
  | nil => rw [List.length_eq_zero_iff.mp hl.symm]
  | cons x p ih =>
    cases w with
    | nil => cases hl
    | cons z w =>
      rw [List.length_cons, List.length_cons, Nat.add_right_cancel_iff] at hl
      have hw : ∀ y ∈ w, y.toNat < 128 := fun y hy => ha y (List.mem_cons_of_mem z hy)
      have hz : Text.upperChar z = [z.toUpper] := if_pos (ha z List.mem_cons_self)
      have hcons : Text.upperChar x ++ Text.upper p = z.toUpper :: Text.upper w := by
        have hself : Text.upper (z :: w) = z.toUpper :: Text.upper w := by
          rw [Text.upper, List.flatMap_cons, hz]
          rfl
        rwa [hself, Text.upper, List.flatMap_cons] at h
      obtain ⟨u, us, hx⟩ := List.exists_cons_of_ne_nil (upperChar_ne_nil x)
      rw [hx, List.cons_append] at hcons
      obtain ⟨rfl, htail⟩ := List.cons.inj hcons
      have hnil : us = [] := by
        have hle := hlong p
        have hlen := congrArg List.length htail
        rw [upper_of_ascii hw, List.length_append, List.length_map] at hlen
        exact List.length_eq_zero_iff.mp (by omega)
      rw [hnil, List.nil_append] at htail
      rw [List.map_cons, List.map_cons, hx, hz, hnil, ih hw hl htail]

/-- A keyword comes out as it is spelled. -/
theorem eq_of_keyword {joined : Bool} {spelling a : String} {c c' : Cursor}
    (h : caselessKeyword joined spelling c = some (a, c')) : a = spelling := by
  rw [caselessKeyword_apply] at h
  split at h
  · exact (Prod.mk.inj (Option.some.inj h)).1.symm
  · cases h

/-- A keyword that was read was ahead in some letter case, unless the text has come to its end. -/
theorem exists_of_keyword {joined : Bool} {spelling a : String} {c c' : Cursor} (ha : ∀ z ∈ spelling.toList, z.toNat < 128)
    (h : caselessKeyword joined spelling c = some (a, c')) (hr : c'.rest ≠ []) :
    ∃ w, w.map Text.upperChar = spelling.toList.map Text.upperChar ∧ c.ahead = w ++ c'.rest ∧
      caselessBoundary joined c'.rest.head? = true := by
  rw [caselessKeyword_apply] at h
  split at h
  · rename_i hc
    simp only [Bool.and_eq_true, decide_eq_true_eq] at hc
    obtain ⟨-, rfl⟩ := Prod.mk.inj (Option.some.inj h)
    rw [rest_advance, show (c.skipWhile isBlank).rest = c.ahead from rfl] at hr ⊢
    have hlen : (c.ahead.take spelling.length).length = spelling.toList.length := by
      have : ¬ c.ahead.length ≤ spelling.length := mt List.drop_eq_nil_iff.mpr hr
      rw [List.length_take, String.length_toList]
      omega
    exact ⟨_, map_upperChar_of_upper ha hlen hc.1.1, (List.take_append_drop _ _).symm, hc.2⟩
  · cases h

/-- No character of a name stands next to a keyword. -/
theorem not_isNameChar_of_boundary {o : Option Char} (h : caselessBoundary true o = true) :
    o.all (fun x => !isNameChar x) = true := by
  cases o with
  | none => rfl
  | some x =>
    rw [Option.all_some, Bool.not_eq_true', Bool.eq_false_iff]
    intro hx
    have hascii := toNat_lt_of_isNameChar hx
    have hall := of_toNat_lt (P := fun x => isNameChar x = true → isKeywordChar true x.toUpper = true) (by decide) hascii hx
    rw [caselessBoundary, show Text.upperChar x = [x.toUpper] from if_pos hascii] at h
    simp [hall] at h

/-- The strict edge of a keyword is an edge. -/
theorem boundary_of_joined {joined : Bool} {o : Option Char} (h : caselessBoundary joined o = true) :
    caselessBoundary false o = true := by
  cases joined with
  | false => exact h
  | true =>
    unfold caselessBoundary at h ⊢
    split
    · rfl
    · split
      · rename_i u hu
        simp only [hu, isKeywordChar, Bool.not_eq_true', Bool.or_eq_false_iff] at h ⊢
        simp [h.1]
      · rfl

/-- A word of the language adds its usual spelling. -/
theorem Reached.word {s : Symbol} (hs : s ∈ wordSymbols) (h : Reached text ss (w ++ rest)) (hw : spells w s = true)
    (hb : caselessBoundary true rest.head? = true) : Reached text (ss ++ [Lexicon.usual s]) rest := by
  have hall : ∀ s ∈ wordSymbols, s ∈ keywords ∧ s ∉ comparatorSymbols := by decide
  have hread := reading?_word.mpr ⟨s, (hall s hs).1, hw, rfl⟩
  have hname := not_isNameChar_of_boundary hb
  refine h.token ?_ (settled_word (hall s hs).1 (hall s hs).2 hw fun _ => hname)
    ⟨fun _ => boundary_of_joined hb, fun hq => ?_⟩ (wordsBefore_of_reading hread ?_)
  · rw [reading?_of_kind hread]
    rfl
  · obtain ⟨x, cs, rfl, hx⟩ := exists_cons hread
    cases eq_literal_of_quote hx (hq.imp Option.some.inj Option.some.inj)
  · -- parameters start with a character of a name
    rw [Bool.and_eq_false_iff]
    right
    rw [Bool.eq_false_iff]
    intro hp
    obtain ⟨more, rfl⟩ := List.isPrefixOf_iff_prefix.mp hp
    cases hname

/-- An operator right before its parameters. -/
theorem Reached.opening {s : Symbol} (hs : s ∈ openingSymbols)
    (h : Reached text ss (w ++ ((Lexicon.usual .paramsStart).toList ++ rest))) (hw : spells w s = true) :
    Reached text (ss ++ [openedAs s]) rest := by
  have hall : ∀ s ∈ openingSymbols, s ∈ keywords ∧ s ∉ comparatorSymbols ∧ (Lexicon.usual s).toList.head? = some '\\' ∧
      (s = .join ∨ openedAs s = Lexicon.usual s) := by decide
  obtain ⟨hk, hc, hslash, hopened⟩ := hall s hs
  have hread := reading?_word.mpr ⟨s, hk, hw, rfl⟩
  have hhead := head?_of_upper (of_decide_eq_true hw) hslash
  have hsettled : Settled w ((Lexicon.usual .paramsStart).toList ++ rest) := by
    refine settled_word hk hc hw fun hstart => ?_
    rw [hhead] at hstart
    cases hstart
  have hwords : wordsBefore w ((Lexicon.usual .paramsStart).toList ++ rest) = some [openedAs s] := by
    rcases hopened with rfl | ho
    · have hblank : w.all isBlank = false := by
        obtain ⟨x, cs, rfl, hx⟩ := exists_cons hread
        simp [not_isBlank_of_starts hx]
      rw [wordsBefore, hblank, hw, List.isPrefixOf_iff_prefix.mpr (List.prefix_append _ _)]
      rfl
    · rw [ho]
      refine wordsBefore_of_reading hread ?_
      rw [Bool.and_eq_false_iff]
      left
      rw [Bool.eq_false_iff]
      intro hj
      obtain rfl := spells_unique hk (by decide) hw hj
      exact absurd ho (by decide)
  refine Reached.mark (s := .paramsStart) (by decide) (h.token ?_ hsettled ⟨fun _ => ?_, fun hq => ?_⟩ hwords)
  · rw [reading?_of_kind hread]
    rfl
  · show caselessBoundary false (some '_') = true
    decide
  · rw [hhead] at hq
    exact absurd hq (by decide)

/-- The symbol of an assignment adds itself. -/
theorem Reached.assignment {c c' : Cursor} {a : String} (h : Reached text ss c.ahead)
    (ha : keyword (Lexicon.usual .assign) c = some (a, c')) : Reached text (ss ++ [a]) c'.rest := by
  rw [keyword_eq] at ha
  obtain ⟨_, _, hb, ha⟩ := bind_eq_some ha
  cases hb
  unfold exactWord at ha
  split at ha
  · rename_i hp
    simp only [Bool.and_eq_true] at hp
    obtain ⟨rfl, rfl⟩ := Prod.mk.inj (Option.some.inj ha)
    obtain ⟨rest, hr⟩ := List.isPrefixOf_iff_prefix.mp hp.1.1
    rw [show c.ahead = _ from hr.symm] at h
    rw [rest_advance, ← hr, ← String.length_toList, List.drop_left]
    refine h.plain (reading?_word.mpr ⟨.assign, by decide, decide_eq_true rfl, rfl⟩)
      (settled_word (s := .assign) (by decide) (by decide) (decide_eq_true rfl) ?_) (by decide) fun h => by cases h
    exact fun hstart => absurd hstart (by decide)
  · cases ha

/-! ## The words of a text -/

/-- Keywords are spelled in ASCII. -/
theorem keywords_ascii {s : Symbol} (hs : s ∈ keywords) : ∀ z ∈ (Lexicon.usual s).toList, z.toNat < 128 := by
  intro z hz
  have := List.all_eq_true.mp (keywords_letters s hs).1 z hz
  rw [Bool.and_eq_true, decide_eq_true_eq] at this
  exact this.1

/-- A text with itself, with the words up to each place. -/
def along (text : List Char) : Frame .standard where
  here := Along text
  later := Along text
  known := fun _ => True
  common := Frame.same.common
  here_of_later := fun _ _ _ h => h
  ordered := by
    rintro ws ws' c _ c' _ ⟨rfl, -⟩ ⟨rfl, -⟩
    exact Iff.rfl
  mark := by
    intro s hs
    have hall : ∀ s ∈ innerMarks, s ∈ marks := by decide
    refine records_along (Frame.same.mark s hs).advances fun ss c a c' hc h => ⟨rfl, .inr ?_⟩
    rw [ahead_of_mark h] at hc
    rw [List.append_nil]
    exact hc.mark (hall s hs)
  word := by
    intro s hs
    have hall : ∀ s ∈ wordSymbols, s ∈ keywords := by decide
    refine records_along (Frame.same.word s hs).advances fun ss c a c' hc h => ?_
    obtain rfl := eq_of_keyword h
    refine ⟨⟨rfl, rfl⟩, ?_⟩
    by_cases hr : c'.rest = []
    · exact .inl hr
    · obtain ⟨w, hw, ha, hb⟩ := exists_of_keyword (keywords_ascii (hall s hs)) h hr
      rw [ha] at hc
      exact .inr (hc.word hs (decide_eq_true hw) hb)
  opening := by
    intro s hs
    have hall : ∀ s ∈ openingSymbols, s ∈ keywords := by decide
    refine records_along (Frame.same.opening s hs).advances fun ss c a c' hc h => ?_
    obtain ⟨op, d, hop, h⟩ := bind_eq_some h
    obtain ⟨_, e, hmark, h⟩ := bind_eq_some h
    cases h
    obtain rfl := eq_of_keyword hop
    have hd := rest_of_touchingMark hmark
    obtain ⟨w, hw, ha, -⟩ := exists_of_keyword (keywords_ascii (hall s hs)) hop (by rw [hd]; exact List.cons_ne_nil _ _)
    rw [ha, hd] at hc
    exact ⟨⟨rfl, rfl⟩, .inr (hc.opening hs (decide_eq_true hw))⟩
  assignment := records_along Frame.same.assignment.advances fun _ _ _ _ hc h => ⟨rfl, .inr (hc.assignment h)⟩
  name := by
    refine records_along Frame.same.name.advances fun ss c a c' hc h => ⟨rfl, .inr ?_⟩
    obtain ⟨word, hw, ha, rfl, -, hr⟩ := exists_of_name h
    rw [ha] at hc
    exact hc.name hw hr
  reference := records_along Frame.same.reference.advances fun _ _ _ _ hc h => ⟨rfl, .inr (hc.reference h)⟩
  operand := records_along Frame.same.operand.advances fun _ _ _ _ hc h => ⟨⟨rfl, trivial⟩, .inr (hc.operand h)⟩
  comparator := records_along Frame.same.comparator.advances fun _ _ _ _ hc h => ⟨rfl, .inr (hc.comparator h)⟩

/-- Where a statement has ended, all of the text up to there has been read as the words. -/
def Between (text : List Char) (ss : List String) (c d : Cursor) : Prop := c = d ∧ Reached text ss c.rest

/-- The end of a statement adds no words, and all of the text before it has been read as words. -/
theorem terminator_along (text : List Char) :
    Records 1 (Along text) (Between text) Eq (fun _ => []) (markReader .standard .terminator)
      (markReader .standard .terminator) := by
  rintro ss c _ ⟨rfl, hc⟩
  cases hp : markReader .standard .terminator c with
  | none => exact .refuse hp hp
  | some r =>
    have hb := advances_terminator c r.1 r.2 hp
    have hne : c.rest ≠ [] := by
      intro he
      have := hb.2
      rw [he, List.length_nil] at this
      omega
    have hreach := (hc.resolve_left hne).ahead
    rw [ahead_of_mark hp] at hreach
    refine .read hp hp rfl ⟨rfl, ?_⟩ hb hb
    rw [List.append_nil]
    exact hreach.mark (by decide)

/-- At the end of a text all of it has been read as words. -/
theorem atEnd_along (text : List Char) :
    Records 0 (Between text) (fun ss _ _ => Reached text ss []) Eq (fun _ => []) atEnd atEnd := by
  rintro ss c _ ⟨rfl, hc⟩
  by_cases ha : c.ahead = []
  · have hp : atEnd c = some ((), c.skipWhile isBlank) := by rw [atEnd_apply, if_pos ha]
    refine .read hp hp rfl ?_ (beyond_advance _ _) (beyond_advance _ _)
    rw [List.append_nil, ← ha]
    exact hc.ahead
  · have hp : atEnd c = none := by rw [atEnd_apply, if_neg ha]
    exact .refuse hp hp

/-- An accepted text is divided into tokens and blanks from its start to its end, and the words of its statements are those of the
tokens. -/
theorem reached_of_parse {level : Level} {text : String} {ss : List Statement} (hl : level.includes .dependency = false)
    (ht : '\t' ∉ text.toList) (h : parse level .standard text = .ok ss) :
    Reached text.toList (ss.flatMap Statement.words) [] := by
  have hstatement := (along text.toList).statement level (terminator_along text.toList)
    fun hd => by rw [hl] at hd; cases hd
  have hbetween : ∀ ss c d, Between text.toList ss c d → (along text.toList).here ss c d := fun _ _ _ h => ⟨h.1, .inr h.2⟩
  have hwhole := Frame.whole hbetween hstatement (atEnd_along text.toList)
  obtain ⟨e, hr⟩ := (parse_eq_ok_iff (fun s => ⟨_, rfl, by cases s <;> rfl⟩) ht).mp h
  cases hwhole [] (Cursor.start text.toList) _ ⟨rfl, .inr ⟨[], rfl, .nil⟩⟩ with
  | refuse hn _ => exact absurd (hr.symm.trans hn) (by simp)
  | read hp _ _ hreach _ _ =>
    obtain ⟨rfl, -⟩ := Prod.mk.inj (Option.some.inj (hr.symm.trans hp))
    exact hreach

end Scan

/-- The words of the phrases of statements are the words of the statements. -/
theorem flattenAll_phrases (ss : List Statement) : Nested.flattenAll (ss.map Statement.phrase) = ss.flatMap Statement.words := by
  induction ss with
  | nil => rfl
  | cons s ss ih => rw [List.map_cons, Nested.flattenAll, ih, List.flatMap_cons, Statement.words]

/-- The words of an accepted text without tabs, read off its nested lists from left to right, are the words of its
tokens: nothing is lost, repeated or moved. -/
theorem words_of_phrases {text : String} {ps : List Phrase} (ht : '\t' ∉ text.toList)
    (h : Dialect.phrases ⟨.extended, .standard⟩ text = .ok ps) : Scan.words text = some (Nested.flattenAll ps) := by
  obtain ⟨-, ss, hp, rfl⟩ := Dialect.phrases_eq_ok_iff.mp h
  rw [flattenAll_phrases]
  exact (Scan.reached_of_parse (by decide) ht hp).words_eq

theorem words_of_theta_join : ∃ ps, Dialect.phrases ⟨.extended, .standard⟩ "r \\JOIN_\x7bB.x<>\"it;\"\x7d S \\join t;" = .ok ps ∧
    Scan.words "r \\JOIN_\x7bB.x<>\"it;\"\x7d S \\join t;" = some (Nested.flattenAll ps) ∧
    Nested.flattenAll ps = ["r", "\\theta_join", "b.x", "<>", "'it;'", "s", "\\join", "t"] := by
  obtain ⟨ps, hp, hw⟩ := exists_ok_of_any
    (x := Dialect.phrases ⟨.extended, .standard⟩ "r \\JOIN_\x7bB.x<>\"it;\"\x7d S \\join t;")
    (p := fun ps => Nested.flattenAll ps = ["r", "\\theta_join", "b.x", "<>", "'it;'", "s", "\\join", "t"]) (by decide +kernel)
  exact ⟨ps, hp, words_of_phrases (by decide +kernel) hp, of_decide_eq_true hw⟩

end RelAlg
