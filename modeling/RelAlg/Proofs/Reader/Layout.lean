import Mathlib
import RelAlg.Reader.Recursive
import RelAlg.Reader.Token

/-!
# Lexemes and how they are laid out

A text is a run of lexemes with blanks between them. `Laid` says which texts are a layout of given lexemes: two lexemes that
touch need a mark on one side, such as a parenthesis, and everything else is kept apart by blanks. Expanding tabs keeps a
layout (`Laid.expandTabs`). `Cursor.Passes` follows a layout from place to place, so that what a reader does can be said
lexeme by lexeme; `Reader.Runs` does the same for a part that is read again and again.
-/

namespace RelAlg

/-! ## Lexemes -/

/-- A character that may touch any lexeme. -/
def isMark (c : Char) : Bool := "(),;\x7b\x7d=!<>".toList.contains c

/-- A character that ends every word before it. -/
def isBreak (c : Char) : Bool := isBlank c || isMark c

/-- A piece of text that is read as one. It starts with a character that can be seen, and no tab is in it. -/
structure Lexeme where
  first : Char
  others : List Char
  visible : isBlank first = false
  untabbed : '\t' ∉ others

namespace Lexeme

/-- The characters of a lexeme. -/
def chars (w : Lexeme) : List Char := w.first :: w.others

/-- The lexeme of a single character. -/
def mark (c : Char) (h : isBlank c = false) : Lexeme := ⟨c, [], h, List.not_mem_nil⟩

/-- A lexeme has no tab, at its start or behind it. -/
theorem untabbed_chars (w : Lexeme) : '\t' ∉ w.chars := by
  intro h
  rcases List.mem_cons.mp h with h | h
  · have hv := w.visible
    rw [← h] at hv
    cases hv
  · exact w.untabbed h

/-- A lexeme has a last character. -/
theorem exists_getLast? (w : Lexeme) : ∃ x ∈ w.chars, w.chars.getLast? = some x :=
  have hw : w.chars ≠ [] := List.cons_ne_nil _ _
  ⟨w.chars.getLast hw, List.getLast_mem hw, List.getLast?_eq_some_getLast hw⟩

end Lexeme

/-! ## Layouts -/

/-- What comes before a place and what comes after it may touch there. -/
def parted (before : Option Char) (rest : List Char) : Bool := before.all isMark || rest.head?.all isBreak

/-- The text is a layout of the lexemes: blanks may stand around all of them, and must where two would not be parted. -/
inductive Laid : List Lexeme → List Char → Prop where
  | nil {gap : List Char} (hg : gap.all isBlank = true) : Laid [] gap
  | cons {gap rest : List Char} {w : Lexeme} {ws : List Lexeme} (hg : gap.all isBlank = true)
      (hp : parted w.chars.getLast? rest = true) (hr : Laid ws rest) : Laid (w :: ws) (gap ++ w.chars ++ rest)

/-- The text is a layout of the lexemes, found out from left to right: no lexeme starts with a blank. -/
def isLaid : List Lexeme → List Char → Bool
  | [], text => text.all isBlank
  | w :: ws, text =>
    let part := text.dropWhile isBlank
    let rest := part.drop w.chars.length
    w.chars.isPrefixOf part && parted w.chars.getLast? rest && isLaid ws rest

/-- Layouts can be found out. -/
theorem isLaid_iff {ws : List Lexeme} {text : List Char} : isLaid ws text = true ↔ Laid ws text := by
  constructor
  · induction ws generalizing text with
    | nil => exact .nil
    | cons w ws ih =>
      intro h
      simp only [isLaid, Bool.and_eq_true, List.isPrefixOf_iff_prefix] at h
      obtain ⟨⟨⟨rest, hrest⟩, hp⟩, hl⟩ := h
      rw [← hrest, List.drop_left] at hp hl
      have hgap : (text.takeWhile isBlank).all isBlank = true := List.all_takeWhile
      rw [← List.takeWhile_append_dropWhile (p := isBlank) (l := text), ← hrest, ← List.append_assoc]
      exact .cons hgap hp (ih hl)
  · intro h
    induction h with
    | nil hg => exact hg
    | @cons gap rest w ws hg hp _ ih =>
      have hd : (gap ++ w.chars ++ rest).dropWhile isBlank = w.chars ++ rest := by
        rw [List.append_assoc, List.dropWhile_append_of_pos (List.all_eq_true.mp hg)]
        exact List.dropWhile_cons_of_neg (by simp [w.visible])
      rw [isLaid, hd, List.drop_left, hp, ih]
      simp

instance (ws : List Lexeme) (text : List Char) : Decidable (Laid ws text) := decidable_of_iff _ isLaid_iff

/-- Expanding tabs turns blanks into blanks. -/
theorem expandTabsFrom_blanks (column : Nat) (gap rest : List Char) (hg : gap.all isBlank = true) :
    ∃ gap' column', gap'.all isBlank = true ∧
      Text.expandTabsFrom column (gap ++ rest) = gap' ++ Text.expandTabsFrom column' rest := by
  induction gap generalizing column with
  | nil => exact ⟨[], column, rfl, rfl⟩
  | cons c gap ih =>
    rw [List.all_cons, Bool.and_eq_true] at hg
    rw [List.cons_append, Text.expandTabsFrom]
    split
    · obtain ⟨gap', column', hb, he⟩ := ih (column + (Text.tabWidth - column % Text.tabWidth)) hg.2
      refine ⟨List.replicate (Text.tabWidth - column % Text.tabWidth) ' ' ++ gap', column', ?_, ?_⟩
      · rw [List.all_append, hb, Bool.and_true, List.all_eq_true]
        intro x hx
        rw [List.eq_of_mem_replicate hx]
        rfl
      · simp only [he, List.append_assoc]
    · split
      · obtain ⟨gap', column', hb, he⟩ := ih 0 hg.2
        exact ⟨c :: gap', column', by simp [hg.1, hb], by rw [he, List.cons_append]⟩
      · obtain ⟨gap', column', hb, he⟩ := ih (column + 1) hg.2
        exact ⟨c :: gap', column', by simp [hg.1, hb], by rw [he, List.cons_append]⟩

/-- Expanding tabs leaves a part without tabs as it is. -/
theorem expandTabsFrom_append (column : Nat) (part rest : List Char) (h : '\t' ∉ part) :
    ∃ column', Text.expandTabsFrom column (part ++ rest) = part ++ Text.expandTabsFrom column' rest := by
  induction part generalizing column with
  | nil => exact ⟨column, rfl⟩
  | cons c part ih =>
    have hc : c ≠ '\t' := fun e => h (e ▸ List.mem_cons_self)
    have ih' := fun column => ih column fun e => h (List.mem_cons_of_mem c e)
    rw [List.cons_append, Text.expandTabsFrom, if_neg hc]
    split
    · obtain ⟨column', he⟩ := ih' 0
      exact ⟨column', by rw [he, List.cons_append]⟩
    · obtain ⟨column', he⟩ := ih' (column + 1)
      exact ⟨column', by rw [he, List.cons_append]⟩

/-- What is parted stays so when tabs are expanded: a tab becomes one blank or more. -/
theorem parted_expandTabsFrom (before : Option Char) (rest : List Char) (column : Nat) (h : parted before rest = true) :
    parted before (Text.expandTabsFrom column rest) = true := by
  cases rest with
  | nil => exact h
  | cons c rest =>
    rw [Text.expandTabsFrom]
    split
    · have hpos : 0 < Text.tabWidth - column % Text.tabWidth := by
        have := Nat.mod_lt column (show 0 < Text.tabWidth by decide)
        omega
      obtain ⟨n, hn⟩ : ∃ n, Text.tabWidth - column % Text.tabWidth = n + 1 := Nat.exists_eq_add_of_le' hpos
      simp only [hn, List.replicate_succ, List.cons_append, parted, List.head?_cons, Option.all_some]
      exact Bool.or_true _
    · split <;> exact h

/-- A layout stays one of the same lexemes when tabs are expanded. -/
theorem Laid.expandTabs {ws : List Lexeme} {text : List Char} (h : Laid ws text) (column : Nat) :
    Laid ws (Text.expandTabsFrom column text) := by
  induction h generalizing column with
  | @nil gap hg =>
    obtain ⟨gap', column', hb, he⟩ := expandTabsFrom_blanks column gap [] hg
    rw [List.append_nil] at he
    rw [he]
    exact .nil (by simpa [Text.expandTabsFrom] using hb)
  | @cons gap rest w ws hg hp _ ih =>
    obtain ⟨gap', column₁, hb, he⟩ := expandTabsFrom_blanks column gap (w.chars ++ rest) hg
    obtain ⟨column₂, hw⟩ := expandTabsFrom_append column₁ w.chars rest w.untabbed_chars
    rw [List.append_assoc, he, hw, ← List.append_assoc]
    exact .cons hb (parted_expandTabsFrom _ _ _ hp) (ih column₂)

/-! ## From place to place -/

namespace Cursor

/-- What is ahead when blanks are skipped. -/
def ahead (c : Cursor) : List Char := (c.skipWhile isBlank).rest

/-- Going on twice is going on by both distances. -/
theorem advance_advance (m n : Nat) (c : Cursor) : (c.advance m).advance n = c.advance (m + n) := by
  induction m generalizing c with
  | zero => rw [Nat.zero_add]; rfl
  | succ m ih =>
    obtain ⟨b, rest, k⟩ := c
    rw [Nat.succ_add]
    cases rest with
    | nil =>
      cases n with
      | zero => rfl
      | succ n => simp only [advance]; congr 1; omega
    | cons x xs => exact ih ⟨some x, xs, k + 1⟩

/-- The character before a place that is further on. -/
theorem before_advance (part rest : List Char) (b : Option Char) (k : Nat) :
    (advance part.length ⟨b, part ++ rest, k⟩).before = part.getLast?.or b := by
  induction part generalizing b k with
  | nil => rfl
  | cons x part ih =>
    rw [List.length_cons, List.cons_append, advance, ih]
    cases part with
    | nil => rfl
    | cons y part => rw [List.getLast?_cons_cons, List.getLast?_eq_some_getLast (by simp)]; rfl

/-- Blanks are skipped up to the first character that can be seen. -/
theorem skipWhile_of_visible {c : Cursor} {gap rest : List Char} {x : Char} (hc : c.rest = gap ++ x :: rest)
    (hg : gap.all isBlank = true) (hx : isBlank x = false) : c.skipWhile isBlank = c.advance gap.length := by
  have hpos : ∀ y ∈ gap, isBlank y = true := fun y hy => List.all_eq_true.mp hg y hy
  rw [skipWhile, hc, List.takeWhile_append_of_pos hpos, List.takeWhile_cons_of_neg (by simp [hx]), List.append_nil]

/-- What is ahead is what remains once the leading blanks are dropped. -/
theorem ahead_eq_dropWhile (c : Cursor) : c.ahead = c.rest.dropWhile isBlank := by
  rw [ahead, skipWhile, rest_advance]
  calc c.rest.drop (c.rest.takeWhile isBlank).length
      = (c.rest.takeWhile isBlank ++ c.rest.dropWhile isBlank).drop (c.rest.takeWhile isBlank).length := by
        rw [List.takeWhile_append_dropWhile]
    _ = c.rest.dropWhile isBlank := List.drop_left

/-- Nothing is ahead exactly when blanks alone remain. -/
theorem ahead_eq_nil_iff (c : Cursor) : c.ahead = [] ↔ c.rest.all isBlank = true := by
  rw [ahead_eq_dropWhile, List.dropWhile_eq_nil_iff, List.all_eq_true]

/-- Blanks are skipped up to the end. -/
theorem ahead_of_blanks {c : Cursor} (h : c.rest.all isBlank = true) : c.ahead = [] := (ahead_eq_nil_iff c).mpr h

/-- From the first place to the second there are blanks and then the lexeme, parted from what is around it. -/
structure Past (w : Lexeme) (c c' : Cursor) : Prop where
  ahead : c.ahead = w.chars ++ c'.rest
  eq_advance : c' = (c.skipWhile isBlank).advance w.chars.length
  before : isMark w.first = false → (c.skipWhile isBlank).before.all isBreak = true
  after : parted w.chars.getLast? c'.rest = true

/-- From the first place to the second there are the lexemes, each as in `Past`. -/
inductive Passes : List Lexeme → Cursor → Cursor → Prop where
  | nil (c : Cursor) : Passes [] c c
  | cons {w : Lexeme} {ws : List Lexeme} {c d c' : Cursor} (h : Past w c d) (hs : Passes ws d c') : Passes (w :: ws) c c'

/-- Lexemes are passed one list after the other, with a place between them. -/
theorem Passes.append {us vs : List Lexeme} {c c' : Cursor} :
    Passes (us ++ vs) c c' ↔ ∃ d, Passes us c d ∧ Passes vs d c' := by
  induction us generalizing c with
  | nil => exact ⟨fun h => ⟨c, .nil c, h⟩, by rintro ⟨d, hd, h⟩; cases hd; exact h⟩
  | cons u us ih =>
    constructor
    · intro h
      cases h with
      | cons hu h =>
        obtain ⟨d, h₁, h₂⟩ := ih.mp h
        exact ⟨d, .cons hu h₁, h₂⟩
    · rintro ⟨d, h₁, h₂⟩
      cases h₁ with
      | cons hu h₁ => exact .cons hu (ih.mpr ⟨d, h₁, h₂⟩)

/-- The first lexeme is passed before the others. -/
theorem Passes.cons_iff {w : Lexeme} {ws : List Lexeme} {c c' : Cursor} :
    Passes (w :: ws) c c' ↔ ∃ d, Past w c d ∧ Passes ws d c' :=
  ⟨fun h => by cases h with | cons h hs => exact ⟨_, h, hs⟩, fun ⟨_, h, hs⟩ => .cons h hs⟩

/-- A lexeme takes one step along a layout. -/
theorem exists_past {w : Lexeme} {gap rest : List Char} {c : Cursor} (hc : c.rest = gap ++ w.chars ++ rest)
    (hg : gap.all isBlank = true) (hb : parted c.before c.rest = true) (ha : parted w.chars.getLast? rest = true) :
    ∃ c', Past w c c' ∧ c'.rest = rest ∧ c'.before = w.chars.getLast? := by
  have hc' : c.rest = gap ++ w.first :: (w.others ++ rest) := by rw [hc, List.append_assoc]; rfl
  have hs := skipWhile_of_visible hc' hg w.visible
  have hd : (c.advance gap.length).rest = w.chars ++ rest := by
    rw [rest_advance, hc, List.append_assoc, List.drop_left]
  have hr : ((c.advance gap.length).advance w.chars.length).rest = rest := by
    rw [rest_advance, hd, List.drop_left]
  refine ⟨(c.advance gap.length).advance w.chars.length, ⟨?_, by rw [hs], ?_, by rw [hr]; exact ha⟩, hr, ?_⟩
  · rw [Cursor.ahead, hs, hd, hr]
  · intro hm
    obtain ⟨b, rest', k⟩ := c
    subst hc'
    rw [hs, before_advance]
    rcases List.eq_nil_or_concat gap with rfl | ⟨gap, x, rfl⟩
    · -- no blank stands before the lexeme, so what touches it is a mark
      simp only [parted, List.nil_append, List.head?_cons, Option.all_some, isBreak, w.visible, hm, Bool.or_self,
        Bool.or_false] at hb
      cases b with
      | none => rfl
      | some x => simpa [isBreak] using Or.inr hb
    · simp_all [isBreak]
  · generalize hm : c.advance gap.length = m at hd
    obtain ⟨b, rest', k⟩ := m
    subst hd
    obtain ⟨x, -, hx⟩ := w.exists_getLast?
    rw [before_advance, hx]
    rfl

/-- A layout is passed from its start to its end. -/
theorem exists_passes {ws : List Lexeme} {text : List Char} (h : Laid ws text) {c : Cursor} (hc : c.rest = text)
    (hb : parted c.before c.rest = true) : ∃ c', Passes ws c c' ∧ c'.rest.all isBlank = true := by
  induction h generalizing c with
  | nil hg => exact ⟨c, .nil c, by rw [hc]; exact hg⟩
  | cons hg hp _ ih =>
    obtain ⟨d, hd, hr, hb'⟩ := exists_past hc hg hb hp
    obtain ⟨c', hs, he⟩ := ih hr (by rw [hr, hb']; exact hp)
    exact ⟨c', .cons hd hs, he⟩

/-- A place behind a lexeme is a later place. -/
theorem Past.exists_advance {w : Lexeme} {c c' : Cursor} (h : Past w c c') :
    ∃ n, 0 < n ∧ n ≤ c.rest.length ∧ c' = c.advance n := by
  obtain ⟨gap, hg⟩ : ∃ gap, c.skipWhile isBlank = c.advance gap := ⟨_, rfl⟩
  have ha := h.ahead
  rw [Cursor.ahead, hg, rest_advance] at ha
  have hl := congrArg List.length ha
  rw [List.length_drop, List.length_append, Lexeme.chars, List.length_cons] at hl
  refine ⟨gap + w.chars.length, by rw [Lexeme.chars, List.length_cons]; omega, ?_, ?_⟩
  · rw [Lexeme.chars, List.length_cons]; omega
  · rw [h.eq_advance, hg, advance_advance]

/-- A place behind lexemes is the place itself or a later one. -/
theorem Passes.exists_advance {ws : List Lexeme} {c c' : Cursor} (h : Passes ws c c') :
    ∃ n, n ≤ c.rest.length ∧ c' = c.advance n := by
  induction h with
  | nil c => exact ⟨0, Nat.zero_le _, rfl⟩
  | cons h _ ih =>
    obtain ⟨m, -, hm, rfl⟩ := h.exists_advance
    obtain ⟨n, hn, rfl⟩ := ih
    rw [rest_advance, List.length_drop] at hn
    exact ⟨m + n, by omega, advance_advance m n _⟩

/-- Less text is left behind a lexeme. -/
theorem Past.length_lt {w : Lexeme} {c c' : Cursor} (h : Past w c c') : c'.rest.length < c.rest.length := by
  obtain ⟨n, hn, hl, rfl⟩ := h.exists_advance
  rw [rest_advance, List.length_drop]
  omega

/-- The place behind a lexeme is further from the start. -/
theorem Past.offset_lt {w : Lexeme} {c c' : Cursor} (h : Past w c c') : c.offset < c'.offset := by
  obtain ⟨n, hn, -, rfl⟩ := h.exists_advance
  rw [offset_advance]
  omega

/-- Passing lexemes goes on in the text. -/
theorem Passes.offset_le {ws : List Lexeme} {c c' : Cursor} (h : Passes ws c c') : c.offset ≤ c'.offset := by
  obtain ⟨n, -, rfl⟩ := h.exists_advance
  rw [offset_advance]
  omega

/-- Passing lexemes leaves no more text. -/
theorem Passes.length_le {ws : List Lexeme} {c c' : Cursor} (h : Passes ws c c') : c'.rest.length ≤ c.rest.length := by
  obtain ⟨n, -, rfl⟩ := h.exists_advance
  rw [rest_advance, List.length_drop]
  omega

/-- A lexeme without marks ends where the word it belongs to ends. -/
theorem Past.head_isBreak {w : Lexeme} {c c' : Cursor} (h : Past w c c') (hw : ∀ x ∈ w.chars, isMark x = false) :
    c'.rest.head?.all isBreak = true := by
  obtain ⟨x, hx, hl⟩ := w.exists_getLast?
  have ha := h.after
  rwa [parted, hl, Option.all_some, hw x hx, Bool.false_or] at ha

end Cursor

/-! ## Parts in sequence, later parts and parts that are read again and again -/

namespace Reader

variable {α β : Type}

/-- Where the first part is read, the second is read behind it. -/
theorem bind_of_some {p : Reader α} {f : α → Reader β} {a : α} {c d : Cursor} (h : p c = some (a, d)) :
    (p >>= f) c = f a d := by rw [bind_apply, h]

/-- Where the first part is not read, nothing is. -/
theorem bind_of_none {p : Reader α} {f : α → Reader β} {c : Cursor} (h : p c = none) : (p >>= f) c = none := by
  rw [bind_apply, h]

/-- Where the first choice is read, it is taken. -/
theorem orElse_of_some {p q : Reader α} {r : α × Cursor} {c : Cursor} (h : p c = some r) : (p <|> q) c = some r := by
  rw [orElse_apply, h, Option.some_or]

/-- Where the first choice is not read, the second decides. -/
theorem orElse_of_none {p q : Reader α} {c : Cursor} (h : p c = none) : (p <|> q) c = q c := by
  rw [orElse_apply, h, Option.none_or]

/-- A part that may be left out is read where it stands. -/
theorem opt_of_some {p : Reader α} {a : α} {c d : Cursor} (h : p c = some (a, d)) : opt p c = some (some a, d) :=
  orElse_of_some (bind_of_some h)

/-- A part that may be left out is left out where it does not stand. -/
theorem opt_of_none {p : Reader α} {c : Cursor} (h : p c = none) : opt p c = some (none, c) :=
  orElse_of_none (bind_of_none h)

/-- What is read in two parts was read one behind the other. -/
theorem bind_eq_some {p : Reader α} {f : α → Reader β} {c : Cursor} {r : β × Cursor} (h : (p >>= f) c = some r) :
    ∃ a d, p c = some (a, d) ∧ f a d = some r := by
  cases hp : p c with
  | none =>
    rw [bind_of_none hp] at h
    cases h
  | some s =>
    rw [bind_of_some hp] at h
    exact ⟨s.1, s.2, rfl, h⟩

/-- What is read by a choice was read by the first, or by the second where the first was not read. -/
theorem orElse_eq_some {p q : Reader α} {c : Cursor} {r : α × Cursor} (h : (p <|> q) c = some r) :
    p c = some r ∨ p c = none ∧ q c = some r := by
  cases hp : p c with
  | none =>
    rw [orElse_of_none hp] at h
    exact .inr ⟨rfl, h⟩
  | some s =>
    rw [orElse_of_some hp] at h
    exact .inl h

/-- A part that may be left out was read, or left out where it does not stand. -/
theorem opt_eq_some {p : Reader α} {c d : Cursor} {o : Option α} (h : opt p c = some (o, d)) :
    (∃ a, o = some a ∧ p c = some (a, d)) ∨ o = none ∧ d = c ∧ p c = none := by
  rcases orElse_eq_some h with h | ⟨hn, h⟩
  · obtain ⟨a, e, ha, he⟩ := bind_eq_some h
    cases he
    exact .inl ⟨a, rfl, ha⟩
  · cases h
    refine .inr ⟨rfl, rfl, ?_⟩
    cases hp : p c with
    | none => rfl
    | some r =>
      rw [bind_of_some hp] at hn
      cases hn

/-- What is read by several choices was read by one of them. -/
theorem firstOf_eq_some {ps : List (Reader α)} {c : Cursor} {r : α × Cursor} (h : firstOf ps c = some r) :
    ∃ p ∈ ps, p c = some r := by
  induction ps with
  | nil => cases h
  | cons p ps ih =>
    rcases orElse_eq_some h with h | ⟨-, h⟩
    · exact ⟨p, List.mem_cons_self, h⟩
    · obtain ⟨q, hq, hr⟩ := ih h
      exact ⟨q, List.mem_cons_of_mem p hq, hr⟩

/-- Where the left choice is not read, the right one decides. -/
theorem longest_of_none_left {p q : Reader α} {c : Cursor} (h : p c = none) : longest p q c = q c := by
  unfold longest
  rw [h]

/-- Where the right choice is not read, the left one decides. -/
theorem longest_of_none_right {p q : Reader α} {c : Cursor} (h : q c = none) : longest p q c = p c := by
  unfold longest
  rw [h]
  cases p c <;> rfl

/-- The reader that gets further is the one that counts. -/
theorem longest_of_lt {p q : Reader α} {a b : α} {c d e : Cursor} (hp : p c = some (a, d)) (hq : q c = some (b, e))
    (h : d.offset < e.offset) : longest p q c = some (b, e) := by
  unfold longest
  rw [hp, hq]
  exact if_pos h

/-- Of two choices that are both read the left one is taken if it reaches as far. -/
theorem longest_of_le {p q : Reader α} {a b : α} {c d e : Cursor} (hp : p c = some (a, d)) (hq : q c = some (b, e))
    (h : e.offset ≤ d.offset) : longest p q c = some (a, d) := by
  unfold longest
  rw [hp, hq]
  exact if_neg (Nat.not_lt.mpr h)

/-- What was found is what one of the two found, and the other got no further. -/
theorem longest_eq_some {p q : Reader α} {a : α} {c d : Cursor} (h : longest p q c = some (a, d)) :
    (p c = some (a, d) ∧ ∀ b e, q c = some (b, e) → e.offset ≤ d.offset) ∨
      q c = some (a, d) ∧ ∀ b e, p c = some (b, e) → e.offset < d.offset := by
  unfold longest at h
  split at h
  · rename_i a₁ c₁ b₁ c₂ hp hq
    split at h
    · obtain ⟨rfl, rfl⟩ := Prod.mk.inj (Option.some.inj h)
      refine .inr ⟨hq, fun b e he => ?_⟩
      obtain ⟨-, rfl⟩ := Prod.mk.inj (Option.some.inj (hp.symm.trans he))
      assumption
    · obtain ⟨rfl, rfl⟩ := Prod.mk.inj (Option.some.inj h)
      refine .inl ⟨hp, fun b e he => ?_⟩
      obtain ⟨-, rfl⟩ := Prod.mk.inj (Option.some.inj (hq.symm.trans he))
      omega
  · rename_i hp hq
    refine .inl ⟨hp.trans h, fun b e he => ?_⟩
    rw [hq] at he
    cases he
  · rename_i hp
    refine .inr ⟨h, fun b e he => ?_⟩
    rw [hp] at he
    cases he

/-- Where no choice is read, nothing is. -/
theorem longestOf_of_none {ps : List (Reader α)} {c : Cursor} (h : ∀ p ∈ ps, p c = none) : longestOf ps c = none := by
  induction ps with
  | nil => rfl
  | cons p ps ih =>
    cases ps with
    | nil => exact h p List.mem_cons_self
    | cons q ps =>
      refine (longest_of_none_left (h p List.mem_cons_self)).trans ?_
      exact ih fun q hq => h q (List.mem_cons_of_mem p hq)

/-- Where all readers of a list refuse or find the same, and one finds it, it is found. -/
theorem longestOf_of_mem {ps : List (Reader α)} {p : Reader α} {r : α × Cursor} {c : Cursor} (hp : p ∈ ps)
    (h : p c = some r) (hs : ∀ q ∈ ps, q c = none ∨ q c = some r) : longestOf ps c = some r := by
  induction ps generalizing p with
  | nil => cases hp
  | cons q ps ih =>
    cases ps with
    | nil => rw [List.mem_singleton.mp hp] at h; exact h
    | cons q' ps =>
      show longest q (longestOf (q' :: ps)) c = some r
      have hrest := fun t ht => hs t (List.mem_cons_of_mem q ht)
      by_cases hex : ∃ t ∈ q' :: ps, t c = some r
      · obtain ⟨t, ht, htr⟩ := hex
        have hl := ih ht htr hrest
        rcases hs q List.mem_cons_self with hq | hq
        · rw [longest_of_none_left hq, hl]
        · unfold longest
          rw [hq, hl]
          exact if_neg (Nat.lt_irrefl _)
      · have hnone : ∀ t ∈ q' :: ps, t c = none := fun t ht => (hrest t ht).resolve_right fun e => hex ⟨t, ht, e⟩
        obtain rfl : p = q := (List.mem_cons.mp hp).resolve_right fun hm => hex ⟨p, hm, h⟩
        rw [longest_of_none_right (longestOf_of_none hnone), h]

/-- The two readers do the same at the place and at every later one. -/
def AgreesFrom (p q : Reader α) (c : Cursor) : Prop := ∀ n, n ≤ c.rest.length → p (c.advance n) = q (c.advance n)

theorem AgreesFrom.here {p q : Reader α} {c : Cursor} (h : AgreesFrom p q c) : p c = q c := h 0 (Nat.zero_le _)

theorem AgreesFrom.refl (p : Reader α) (c : Cursor) : AgreesFrom p p c := fun _ _ => rfl

/-- Readers that agree from a place on agree behind the lexemes there. -/
theorem AgreesFrom.of_passes {p q : Reader α} {ws : List Lexeme} {c c' : Cursor} (h : AgreesFrom p q c)
    (hs : Cursor.Passes ws c c') : AgreesFrom p q c' := by
  obtain ⟨m, hm, rfl⟩ := hs.exists_advance
  intro n hn
  rw [Cursor.rest_advance, List.length_drop] at hn
  rw [Cursor.advance_advance]
  exact h (m + n) (by omega)

/-- Behind a lexeme a step is given the recursive reader itself. -/
theorem agreesFrom_later (step : Reader α → Reader α) {w : Lexeme} {c d : Cursor} (h : Cursor.Past w c d) :
    AgreesFrom (later step c) (recursive step) d := by
  obtain ⟨m, hpos, hm, rfl⟩ := h.exists_advance
  intro n hn
  rw [Cursor.rest_advance, List.length_drop] at hn
  rw [Cursor.advance_advance]
  exact later_advance step c (m + n) (by omega) (by omega)

/-- Read again and again, the part gives the list on the way from the first place to the second. -/
inductive Runs (p : Reader α) : Cursor → List α → Cursor → Prop where
  | nil (c : Cursor) : Runs p c [] c
  | cons {a : α} {as : List α} {c d c' : Cursor} (h : p c = some (a, d)) (hl : d.rest.length < c.rest.length)
      (hs : Runs p d as c') : Runs p c (a :: as) c'

/-- Two runs one behind the other are a run. -/
theorem Runs.append {p : Reader α} {as bs : List α} {c d c' : Cursor} (h : Runs p c as d) (h' : Runs p d bs c') :
    Runs p c (as ++ bs) c' := by
  induction h with
  | nil c => exact h'
  | cons h hl _ ih => exact .cons h hl (ih h')

/-- What was read again and again is read by a reader that does the same wherever less text is left. -/
theorem Runs.mono {p q : Reader α} {as : List α} {c d : Cursor} (h : Runs p c as d)
    (hq : ∀ e a e', e.rest.length ≤ c.rest.length → p e = some (a, e') → q e = some (a, e')) : Runs q c as d := by
  induction h with
  | nil c => exact .nil c
  | cons h hl _ ih =>
    refine .cons (hq _ _ _ (Nat.le_refl _) h) hl (ih fun e a e' he => hq e a e' ?_)
    omega

/-- Where the part is there it is read, and then the others. -/
theorem upTo_of_some {p : Reader α} {a : α} {c d : Cursor} (n : Nat) (h : p c = some (a, d)) :
    p.upTo (n + 1) c = (do let as ← p.upTo n; pure (a :: as) : Reader (List α)) d := by
  rw [upTo, bind_of_some (opt_of_some h)]

/-- A run that cannot go on is what reading again and again gives. -/
theorem upTo_of_runs {p : Reader α} {as : List α} {c c' : Cursor} (h : Runs p c as c') (hp : p c' = none) (n : Nat)
    (hn : c.rest.length ≤ n) : p.upTo n c = some (as, c') := by
  induction h generalizing n with
  | nil c =>
    cases n with
    | zero => rfl
    | succ n => simp [upTo, opt, bind_apply, orElse_apply, hp]
  | cons h hl _ ih =>
    obtain ⟨m, rfl⟩ : ∃ m, n = m + 1 := ⟨n - 1, by omega⟩
    have hm := ih hp m (by omega)
    simp [upTo, opt, bind_apply, orElse_apply, h, hm]

/-- The part is read as often as it is there. -/
theorem many_of_runs {p : Reader α} {as : List α} {c c' : Cursor} (h : Runs p c as c') (hp : p c' = none) :
    many p c = some (as, c') := upTo_of_runs h hp _ (Nat.le_refl _)

end Reader

end RelAlg
