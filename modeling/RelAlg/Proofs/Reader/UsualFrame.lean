import RelAlg.Proofs.Reader.Frame
import RelAlg.Proofs.Reader.Grammar

/-!
# Frames of the usual spelling

Where all tokens do the same on both sides, a `TokenFrame` is a frame of the language with the usual spelling on both sides
(`TokenFrame.frame`), whatever words have been read. In such a frame declarations do the same on both sides too, so that
statements of every level do if their ends do (`TokenFrame.statement`).
-/

namespace RelAlg

open Cursor Reader Surface

namespace TokenFrame

variable {V : Vocabulary} (F : TokenFrame V) {α : Type} {k : Nat} {φ : α → α → Prop} {level : Level}

/-- The reader does the same on both sides of the frame. -/
def Keeps (p : Reader α) : Prop := Follows 1 F.here (fun _ => F.later) Eq p p

variable {F}

/-- What is followed from every place is followed behind a token. -/
theorem next {Q : α → Cursor → Cursor → Prop} {p q : Reader α} (h : Follows k F.here Q φ p q) : Follows k F.later Q φ p q :=
  h.from_less F.here_of_later

theorem give (a : α) : Follows 0 F.later (fun _ => F.later) Eq (pure a : Reader α) (pure a) := .pure rfl fun _ _ h => h

/-! ## Tokens -/

/-- A mark does the same on both sides. -/
theorem mark {s : Symbol} (hs : V.exact (Lexicon.usual s) = true) : F.Keeps (markReader .standard s) := F.spaced (.exactly hs)

/-- A symbol does the same on both sides. -/
theorem symbol {text : String} (ht : V.exact text = true) : F.Keeps (symbol text) :=
  (F.spaced (.exactly ht)).bind fun _ _ _ => give text

/-- A keyword in any letter case does the same on both sides. -/
theorem keyword {joined : Bool} {spelling : String} (hs : V.word spelling = true) :
    F.Keeps (caselessKeyword joined spelling) := by
  rw [caselessKeyword_eq]
  exact F.spaced (.word hs)

/-- A keyword in exactly its spelling does the same on both sides. -/
theorem exactKeyword {spelling : String} (hs : V.exact spelling = true) : F.Keeps (Reader.keyword spelling) := by
  rw [keyword_eq]
  exact F.spaced (.exactWord hs)

/-- A name does the same on both sides. -/
theorem name : F.Keeps name := F.spaced .name

/-- A reference does the same on both sides: a name, and a point with another name behind it if both touch. -/
theorem reference (hp : V.exact "." = true) : F.Keeps reference := by
  refine name.bind fun first _ hf => (Follows.opt (F.touching (.exactly hp))).bind (l := 0) fun _ _ hp => ?_
  subst hf
  cases hp with
  | none => exact give first
  | some _ =>
    refine (F.touching .name).lax.bind (l := 0) fun second _ hs => ?_
    subst hs
    exact give _

/-- A text between quotes of one kind does the same on both sides. -/
theorem quotedBy {quote : Char} (hq : quote = '"' ∨ quote = '\'') : F.Keeps (quotedBy quote) := by
  rw [quotedBy_eq]
  exact F.spaced (.quotation hq)

/-- A text between quotes of either kind does the same on both sides. -/
theorem quoted : F.Keeps quoted := by
  refine (Follows.orElse (quotedBy (.inl rfl)) (quotedBy (.inr rfl))).bind (l := 0) fun body _ h => ?_
  subst h
  exact give _

/-- A numeral does the same on both sides. -/
theorem number : F.Keeps number := by
  rw [number_eq]
  exact F.spaced .numeral

/-- An operand of any kind does the same on both sides. -/
theorem operand (hp : V.exact "." = true) : F.Keeps Operand.reader := by
  have hone {p : Reader String} (h : F.Keeps p) (f : String → Operand) : F.Keeps (do let s ← p; pure (f s)) := by
    refine h.bind (l := 0) fun s _ hs => ?_
    subst hs
    exact give _
  exact .firstOf (.cons (hone (reference hp) _) (.cons (hone quoted _) (.cons (hone number _) .nil)))

/-- A comparator does the same on both sides, the longest that is there. -/
theorem comparator (hs : ∀ s ∈ comparatorSymbols, V.exact (Lexicon.usual s) = true) :
    F.Keeps (Clause.comparator .standard) := by
  show F.Keeps (longestOf ((comparatorSymbols.map Lexicon.usual).map Reader.symbol))
  refine .longestOf (fun _ _ => F.ordered) ?_
  rw [List.forall₂_same]
  intro p hp
  obtain ⟨text, ht, rfl⟩ := List.mem_map.mp hp
  obtain ⟨s, hmem, rfl⟩ := List.mem_map.mp ht
  exact symbol (hs s hmem)

/-- A word that is read is the one that is spelled. -/
theorem keyword_spells {joined : Bool} {s : Symbol} (hs : V.word (Lexicon.usual s) = true) :
    Follows 1 F.here (fun _ => F.later) (SpellBoth .standard s) (caselessKeyword joined (Lexicon.usual s))
      (caselessKeyword joined (Lexicon.usual s)) := by
  have htell : ∀ c d a c', F.here c d → caselessKeyword joined (Lexicon.usual s) c = some (a, c') → a = Lexicon.usual s := by
    intro c d a c' _ h
    rw [caselessKeyword_apply] at h
    split at h
    · cases h
      rfl
    · cases h
  exact ((keyword hs).telling htell).giving fun a b h => ⟨h.2, h.1 ▸ h.2⟩

end TokenFrame

/-- The vocabulary has all that is spelled in the algebra. -/
structure Vocabulary.Covers (V : Vocabulary) : Prop where
  point : V.exact "." = true
  exact : ∀ s ∈ .paramsStart :: .assign :: innerMarks ++ comparatorSymbols, V.exact (Lexicon.usual s) = true
  word : ∀ s ∈ wordSymbols ++ openingSymbols, V.word (Lexicon.usual s) = true

namespace TokenFrame

variable {V : Vocabulary} (F : TokenFrame V)

/-- The frame of the language in which every token does the same on both sides, whatever words have been read. -/
def frame (hV : V.Covers) : Frame .standard where
  here := fun _ => F.here
  later := fun _ => F.later
  known := fun _ => True
  common := fun _ _ => rfl
  here_of_later := fun _ => F.here_of_later
  ordered := fun _ _ => F.ordered
  mark := fun s hs _ => mark (hV.exact s (by simp [hs]))
  word := fun s hs _ => keyword_spells (hV.word s (List.mem_append_left _ hs))
  opening := fun s hs _ => by
    have hstart := hV.exact .paramsStart (by simp)
    exact (keyword_spells (hV.word s (List.mem_append_right _ hs))).bind fun _ _ ho =>
      (F.touching (.exactly hstart)).bind fun _ _ _ => .pure ho fun _ _ h => h
  assignment := fun _ => exactKeyword (hV.exact .assign (by simp))
  name := fun _ => name
  reference := fun _ => reference hV.point
  operand := fun _ => (operand hV.point).giving fun _ _ h => ⟨h, trivial⟩
  comparator := fun _ => comparator fun s hs => hV.exact s (List.mem_append_right _ hs)

end TokenFrame

/-- The usual vocabulary has all that is spelled in the algebra. -/
theorem Vocabulary.usual_covers : Vocabulary.usual.Covers where
  point := by decide
  exact := by decide
  word := by decide

namespace TokenFrame

variable {F : TokenFrame .usual} {α : Type} {k : Nat} {level : Level}

/-- The frame of the language for the usual vocabulary. -/
def usual (F : TokenFrame .usual) : Frame .standard := F.frame Vocabulary.usual_covers

/-! ## Declarations -/

/-- What stands between braces does the same on both sides if it does so without them. -/
theorem parameters {p : Reader α} (h : Follows k F.later (fun _ => F.later) Eq p p) :
    Follows 1 F.later (fun _ => F.later) Eq (parameters .standard p) (parameters .standard p) := by
  refine (F.touching (.exactly (by decide))).bind fun _ _ _ => h.bind (l := 1) fun a _ ha => ?_
  subst ha
  exact (next (mark (by decide))).bind fun _ _ _ => give a

/-- A condition does the same on both sides. -/
theorem condition : F.Keeps (Clause.reader level .standard) := (F.usual.clause []).giving fun _ _ h => h.1

/-- A list of names does the same on both sides. -/
theorem names : F.Keeps (listed .standard Reader.name) := F.usual.listed F.usual.name []

/-- A side of a dependency does the same on both sides. -/
theorem side : F.Keeps (Side.reader level .standard) := by
  refine .orElse ?_ (name.bind (l := 0) fun n _ hn => ?_)
  · refine (symbol (by decide)).bind fun op _ ho => (parameters (next condition)).bind fun clause _ hc =>
      (next name).bind (l := 0) fun n _ hn => ?_
    subst ho hc hn
    exact give _
  · subst hn
    exact give _

/-- Two attributes between braces do the same on both sides. -/
theorem attributePair :
    Follows 1 F.later (fun _ => F.later) Eq (attributePair .standard) (attributePair .standard) := by
  refine parameters (k := 1) ((next name).bind fun left _ hl => (next (mark (by decide))).bind fun _ _ _ =>
    (next name).bind (l := 0) fun right _ hr => ?_)
  subst hl hr
  exact give _

/-- The attributes and the side of a dependency do the same on both sides. -/
theorem pair : Follows 1 F.later (fun _ => F.later) Eq (pairReader level .standard) (pairReader level .standard) := by
  refine attributePair.bind fun ⟨left, right⟩ _ ha => (next side).bind (l := 0) fun s _ hs => ?_
  subst ha hs
  exact give _

/-- The attributes and the sides of an inclusion do the same on both sides. -/
theorem sides :
    Follows 1 F.later (fun _ => F.later) Eq (Surface.inclusionReader level .standard)
      (Surface.inclusionReader level .standard) := by
  have hboth : Follows 1 F.later (fun _ => F.later) Eq
      (do let l ← Side.reader level .standard; markReader .standard .delimiter; let r ← Side.reader level .standard; pure (l, r))
      (do let l ← Side.reader level .standard; markReader .standard .delimiter
          let r ← Side.reader level .standard; pure (l, r)) := by
    refine (next side).bind fun l _ hl => (next (mark (by decide))).bind fun _ _ _ => (next side).bind (l := 0) fun r _ hr => ?_
    subst hl hr
    exact give _
  have hparens := next (F.usual.parenthesized (f := fun _ => []) (fun _ => hboth) [])
  refine attributePair.bind fun ⟨left, right⟩ _ ha => hparens.bind (l := 0) fun ⟨l, r⟩ _ hs => ?_
  subst ha hs
  exact give _

/-- A dependency between two attributes does the same on both sides. -/
theorem between {s : Symbol} (hs : isSpelling (Lexicon.usual s) = true) :
    F.Keeps (Declaration.betweenReader level .standard s) := by
  refine (symbol hs).bind fun op _ ho => pair.bind (l := 0) fun ⟨left, right, side⟩ _ h => ?_
  subst ho h
  exact give _

/-- An inclusion does the same on both sides. -/
theorem inclusion {s : Symbol} (hs : isSpelling (Lexicon.usual s) = true) :
    F.Keeps (Declaration.inclusionReader level .standard s) := by
  refine (symbol hs).bind fun op _ ho => sides.bind (l := 0) fun ⟨left, right, l, r⟩ _ h => ?_
  subst ho h
  exact give _

/-- Every declaration does the same on both sides. -/
theorem declaration : F.Keeps (Declaration.reader level .standard) := by
  refine .firstOf (.cons ?_ (.cons (between (by decide)) (.cons (between (by decide))
    (.cons (inclusion (by decide)) (.cons (inclusion (by decide)) .nil)))))
  refine (symbol (by decide)).bind fun op _ ho => (parameters (next names)).bind fun attributes _ ha =>
    (next name).bind (l := 0) fun relation _ hr => ?_
  subst ho ha hr
  exact give _

/-! ## Statements -/

/-- A statement does the same on both sides if its end does; what is behind it is related as it is behind the end. -/
theorem statement (level : Level) {U : Cursor → Cursor → Prop}
    (ht : Follows 1 F.later (fun _ => U) Eq (markReader .standard .terminator) (markReader .standard .terminator)) :
    Follows 1 F.here (fun _ => U) Eq (Statement.reader level .standard) (Statement.reader level .standard) :=
  (F.usual.statement level (V := fun _ => U) (fun _ => ht) (fun _ _ => declaration) []).giving fun _ _ h => h.1.eq

end TokenFrame

end RelAlg
