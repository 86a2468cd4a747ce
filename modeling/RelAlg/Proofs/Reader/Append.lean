import RelAlg.Proofs.Reader.Statement
import RelAlg.Proofs.Reader.UsualFrame

/-!
# Texts one after the other

What is read of a statement does not change when text is added behind it: a statement ends outside of quotes
(`passed_of_statement`), and up to its end the two texts are the same (`Extended.statement`). The text behind is then read as
it is when it stands alone (`whole_of_blanks`). Main statement: the statements of two texts without tabs, one after the
other, are those of the first and those of the second (`parse_append`).
-/

namespace RelAlg

open Cursor Reader Surface

variable {T U : Cursor → Cursor → Prop} {α : Type} {k : Nat} {level : Level}

/-! ## The end of a statement -/

/-- The end of a statement is read where a semicolon is ahead. -/
theorem terminator_apply (c : Cursor) :
    markReader .standard .terminator c =
      if c.ahead.head? = some ';' then some ((), (c.skipWhile isBlank).advance 1) else none := by
  rw [markReader_apply]
  cases c.ahead with
  | nil => rfl
  | cons x xs =>
    show (if List.isPrefixOf [';'] (x :: xs) = true then _ else _) = _
    by_cases hx : x = ';'
    · subst hx
      rfl
    · simp [List.isPrefixOf, hx, Ne.symm hx]

/-- Where a semicolon is ahead it is the first character behind the blanks. -/
theorem rest_of_terminator {c : Cursor} (h : c.ahead.head? = some ';') : ∃ x, (c.skipWhile isBlank).rest = ';' :: x :=
  List.head?_eq_some_iff.mp h

/-- The end of a statement takes a character. -/
theorem advances_terminator : Advances (markReader .standard .terminator) := by
  intro c a c' h
  rw [terminator_apply] at h
  split at h
  · rename_i hc
    cases h
    obtain ⟨x, hx⟩ := rest_of_terminator hc
    have hb := (beyond_advance _ c).trans
      (beyond_of_spans (show _ = [';'] ++ x from hx) (List.cons_ne_nil _ _) (.inl rfl))
    rwa [Nat.zero_add] at hb
  · cases h

/-- Where texts are related only if they start alike, the end of a statement is read on both sides or on neither. -/
theorem terminator_follows {T : List Char → List Char → Prop} (hT : Matching T) (hhead : ∀ r r', T r r' → r.head? = r'.head?)
    (hU : ∀ c d x y, Abreast T k c d → c.rest = ';' :: x → d.rest = ';' :: y → U (c.advance 1) (d.advance 1)) :
    Follows 1 (Abreast T k) (fun _ => U) Eq (markReader .standard .terminator) (markReader .standard .terminator) := by
  intro c d h
  have hs := h.skip hT
  have he : c.ahead.head? = d.ahead.head? := hhead _ _ hs.text
  by_cases hc : c.ahead.head? = some ';'
  · have hd := he.symm.trans hc
    obtain ⟨x, hx⟩ := rest_of_terminator hc
    obtain ⟨y, hy⟩ := rest_of_terminator hd
    have hp := (terminator_apply c).trans (if_pos hc)
    have hq := (terminator_apply d).trans (if_pos hd)
    exact .read hp hq rfl (hU _ _ x y hs hx hy) (advances_terminator c _ _ hp) (advances_terminator d _ _ hq)
  · refine .refuse ?_ ?_
    · rw [terminator_apply, if_neg hc]
    · rw [terminator_apply, if_neg (he ▸ hc)]

/-- A statement takes whole parts off the text, up to an end of a statement. -/
theorem passed_of_statement {s : Statement} {c c' : Cursor} (h : Statement.reader level .standard c = some (s, c')) :
    Passed c.rest (';' :: c'.rest) ∧ c.Beyond 1 c' := by
  have hT : Matching fun r r' => r = r' ∧ Passed c.rest r := .of_kept fun _ _ hp h => h.part hp
  have hf := TokenFrame.statement (F := .ofMatching hT 0) level
    (terminator_follows (U := fun e _ => Passed c.rest (';' :: e.rest)) hT (fun r r' h => by rw [h.1]) ?_)
  · have hc : (TokenFrame.ofMatching hT 0).here c c :=
      (TokenFrame.ofMatching hT 0).here_of_later c c ⟨⟨rfl, .start⟩, rfl, .refl _⟩
    cases hf c c hc with
    | refuse hn _ =>
      rw [h] at hn
      cases hn
    | read hr _ _ hp hb _ =>
      rw [h] at hr
      cases hr
      exact ⟨hp, hb⟩
  · intro e d x y he hx _
    have hp := he.text.2
    rw [hx] at hp
    rwa [rest_advance, hx]

/-- A statement takes at least one character. -/
theorem advances_statement : Advances (Statement.reader level .standard) := fun _ _ _ h => (passed_of_statement h).2

/-! ## Text added behind -/

/-- The second place is the first one in a text to which `cs` has been added. -/
structure Extended (cs : List Char) (c d : Cursor) : Prop where
  text : d.rest = c.rest ++ cs
  offset : c.offset = d.offset
  edge : SameEdge c.before d.before

/-- Text that is added behind is behind everything at the start. -/
theorem extended_start (text cs : List Char) : Extended cs (Cursor.start text) (Cursor.start (text ++ cs)) :=
  ⟨rfl, rfl, .refl _⟩

/-- Behind the end of a statement texts go on as they may. -/
theorem shared_terminator {x y r r' : List Char} (h : Shared x y (';' :: r) (';' :: r')) : r = x ∧ r' = y := by
  cases h with
  | done => exact ⟨rfl, rfl⟩
  | ordinary ha _ => cases ha
  | literal hq _ _ _ => rcases hq with hq | hq <;> cases hq

/-- A statement is read in the longer text as in the shorter one. -/
theorem Extended.statement {cs : List Char} {s : Statement} {c c' d : Cursor} (h : Extended cs c d)
    (hs : Statement.reader level .standard c = some (s, c')) :
    ∃ d', Statement.reader level .standard d = some (s, d') ∧ Extended cs c' d' ∧ d'.before = some ';' := by
  obtain ⟨u, hu, hshared⟩ := (passed_of_statement hs).1.shared c'.rest (c'.rest ++ cs)
  have hd : d.rest = u ++ ';' :: (c'.rest ++ cs) := by rw [h.text, hu]; simp
  have hT := Matching.shared c'.rest (c'.rest ++ cs)
  have hf := TokenFrame.statement (F := .ofMatching hT 0) level
    (terminator_follows (U := fun c d => Extended cs c d ∧ d.before = some ';') hT (fun r r' h => h.sameStart.1) ?_)
  · have hc : (TokenFrame.ofMatching hT 0).here c d := by
      refine (TokenFrame.ofMatching hT 0).here_of_later c d ⟨?_, h.offset, h.edge⟩
      rw [hd]
      exact hshared _ .done
    cases hf c d hc with
    | refuse hn _ =>
      rw [hs] at hn
      cases hn
    | read hr hr' ha hU _ _ =>
      rw [hs] at hr
      cases hr
      cases ha
      exact ⟨_, hr', hU⟩
  · intro c d x y hcd hx hy
    have hc := before_of_spans (show c.rest = [';'] ++ x from hx) (.inl rfl)
    have hd := before_of_spans (show d.rest = [';'] ++ y from hy) (.inl rfl)
    have ht := hcd.text
    rw [hx, hy] at ht
    obtain ⟨rfl, rfl⟩ := shared_terminator ht
    refine ⟨⟨?_, ?_, ?_⟩, hd⟩
    · rw [rest_advance, rest_advance, hx, hy]
      rfl
    · rw [offset_advance, offset_advance, hcd.offset, Nat.add_zero]
    · exact hc.trans hd.symm ▸ .refl _

/-- Statements are read in the longer text as in the shorter one. -/
theorem Extended.runs {cs : List Char} {ss : List Statement} {c c' d : Cursor} (h : Extended cs c d)
    (hs : Runs (Statement.reader level .standard) c ss c') :
    ∃ d', Runs (Statement.reader level .standard) d ss d' ∧ Extended cs c' d' ∧ (ss ≠ [] → d'.before = some ';') := by
  induction hs generalizing d with
  | nil c => exact ⟨d, .nil d, h, fun hn => absurd rfl hn⟩
  | @cons s ss _ _ _ hs hl _ ih =>
    obtain ⟨e, he, hext, hb⟩ := h.statement hs
    obtain ⟨d', hruns, hext', hb'⟩ := ih hext
    have hlt := (advances_statement _ _ _ he).2
    refine ⟨d', .cons he hlt hruns, hext', fun _ => ?_⟩
    cases hruns with
    | nil => exact hb
    | cons => exact hb' (List.cons_ne_nil _ _)

/-! ## Whole texts -/

/-- Read statements up to the end of the text. -/
def wholeReader (level : Level) : Reader (List Statement) := do
  let ss ← statements level .standard
  atEnd
  pure ss

/-- A whole text is statements and then the end. -/
theorem whole_apply (c : Cursor) :
    wholeReader level c = (statements level .standard c).bind fun r => (atEnd r.2).map fun e => (r.1, e.2) := by
  unfold wholeReader
  rw [bind_apply]
  cases statements level .standard c with
  | none => rfl
  | some r =>
    simp only [bind_apply, Option.bind_some]
    cases atEnd r.2 <;> rfl

/-- Where no statement is read, statements are not. -/
theorem statements_of_none {c : Cursor} (h : Statement.reader level .standard c = none) :
    statements level .standard c = none :=
  bind_of_none h

/-- One or more statements are as many as there are, if there is one. -/
theorem statements_of_some {s : Statement} {c d : Cursor} (h : Statement.reader level .standard c = some (s, d)) :
    statements level .standard c = many (Statement.reader level .standard) c := by
  rw [many_of_some advances_statement h, statements, bind_of_some h, bind_apply]
  cases many (Statement.reader level .standard) d <;> rfl

/-- A text that is read to its end is read statement by statement, and only blanks are left. -/
theorem runs_of_whole {ss : List Statement} {c e : Cursor} (h : wholeReader level c = some (ss, e)) :
    ss ≠ [] ∧ ∃ c', Runs (Statement.reader level .standard) c ss c' ∧ c'.ahead = [] := by
  rw [whole_apply] at h
  obtain ⟨⟨ss', c'⟩, hs, he⟩ := Option.bind_eq_some_iff.mp h
  obtain ⟨e', hend, heq⟩ := Option.map_eq_some_iff.mp he
  obtain ⟨rfl, -⟩ := Prod.mk.inj heq
  have hahead : c'.ahead = [] := by
    rw [atEnd_apply] at hend
    by_cases ha : c'.ahead = []
    · exact ha
    · rw [if_neg ha] at hend
      cases hend
  cases hc : Statement.reader level .standard c with
  | none =>
    rw [statements_of_none hc] at hs
    cases hs
  | some r =>
    rw [statements_of_some hc] at hs
    refine ⟨?_, c', runs_of_many advances_statement hs, hahead⟩
    rw [many_of_some advances_statement hc] at hs
    obtain ⟨_, _, heq⟩ := Option.map_eq_some_iff.mp hs
    rw [← (Prod.mk.inj heq).1]
    exact List.cons_ne_nil _ _

/-- The statements of an accepted text are read one after the other, and only blanks are left. -/
theorem runs_of_parse {text : String} {ss : List Statement} (h : parse level .standard text = .ok ss) :
    ss ≠ [] ∧ ∃ c', Runs (Statement.reader level .standard) (Cursor.start (Text.expandTabs text.toList)) ss c'
      ∧ c'.ahead = [] := by
  rw [parse_eq] at h
  cases hr : readText (statements level .standard) true text with
  | none =>
    rw [hr] at h
    cases h
  | some found =>
    obtain rfl : found = ss := by
      rw [hr] at h
      exact Except.ok.inj h
    obtain ⟨c', hs, hend⟩ := readText_eq_some_iff.mp hr
    obtain ⟨first, d, hf, hs⟩ := bind_eq_some hs
    obtain ⟨others, e, ho, hs⟩ := bind_eq_some hs
    cases hs
    exact ⟨List.cons_ne_nil first others, c', .cons hf (advances_statement _ _ _ hf).2 (runs_of_many advances_statement ho), hend⟩

/-- A text is accepted if it is read statement by statement and only blanks are left. -/
theorem parse_of_runs {text : String} {ss : List Statement} {c' : Cursor} (hn : ss ≠ [])
    (h : Runs (Statement.reader level .standard) (Cursor.start (Text.expandTabs text.toList)) ss c') (hend : c'.ahead = []) :
    parse level .standard text = .ok ss := by
  cases h with
  | nil => exact absurd rfl hn
  | @cons s others _ _ _ hf _ hs =>
    have hread : statements level .standard (Cursor.start (Text.expandTabs text.toList)) = some (s :: others, c') :=
      (bind_of_some hf).trans (bind_of_some (many_of_runs hs (statementReader_of_end hend)))
    rw [parse_eq, readText_eq_some_iff.mpr ⟨c', hread, hend⟩]
    rfl

/-- Behind statements the text is read to its end as from there on, if more than blanks is left. -/
theorem whole_of_runs {ss : List Statement} {c d : Cursor} (h : Runs (Statement.reader level .standard) c ss d)
    (hn : ss ≠ []) (hd : d.ahead ≠ []) :
    wholeReader level c = (wholeReader level d).map fun r => (ss ++ r.1, r.2) := by
  have hc : statements level .standard c = many (Statement.reader level .standard) c := by
    cases h with
    | nil => exact absurd rfl hn
    | cons hs _ _ => exact statements_of_some hs
  rw [whole_apply, whole_apply, hc, many_of_runs_append advances_statement h]
  cases hd' : Statement.reader level .standard d with
  | none =>
    rw [many_of_none hd', statements_of_none hd']
    simp [atEnd_apply, hd]
  | some r =>
    rw [statements_of_some hd']
    cases many (Statement.reader level .standard) d with
    | none => rfl
    | some r' =>
      show ((atEnd r'.2).map fun e => (ss ++ r'.1, e.2)) = ((atEnd r'.2).map fun e => (r'.1, e.2)).map _
      rw [Option.map_map]
      rfl

/-- Equal texts match. -/
theorem Matching.same : Matching fun r r' => r = r' ∧ True := .of_kept fun _ _ _ h => h

/-- The end of a statement is the same at places where the texts are. -/
theorem terminator_same : Follows 1 (TokenFrame.ofMatching Matching.same k).later
    (fun _ => (TokenFrame.ofMatching Matching.same k).later) Eq (markReader .standard .terminator)
    (markReader .standard .terminator) := by
  refine terminator_follows .same (fun r r' h => by rw [h.1]) fun c d x y h hx hy => ?_
  have ht := h.text.1
  rw [hx, hy] at ht
  obtain rfl := (List.cons.inj ht).2
  exact h.advance (show c.rest = [';'] ++ x from hx) hy (.inl rfl) (.refl x) ⟨rfl, trivial⟩

/-- The statements up to the end are the same at places where the texts are. -/
theorem whole_follows (level : Level) : Follows 1 (TokenFrame.ofMatching Matching.same k).here (fun _ _ _ => True) Eq
    (wholeReader level) (wholeReader level) := by
  let F := TokenFrame.ofMatching Matching.same k
  have hend : Follows 0 F.later (fun _ _ _ => True) Eq atEnd atEnd := by
    intro c d h
    have he : c.ahead = d.ahead := (h.skip .same).text.1
    by_cases hc : c.ahead = []
    · have hp : atEnd c = some ((), c.skipWhile isBlank) := by rw [atEnd_apply, if_pos hc]
      have hq : atEnd d = some ((), d.skipWhile isBlank) := by rw [atEnd_apply, if_pos (he ▸ hc)]
      exact .read hp hq rfl trivial (beyond_advance _ c) (beyond_advance _ d)
    · refine .refuse ?_ ?_
      · rw [atEnd_apply, if_neg hc]
      · rw [atEnd_apply, if_neg (he ▸ hc)]
  have hs := F.usual.statement level (V := F.usual.later) (fun _ => terminator_same) (fun _ _ => TokenFrame.declaration)
  refine (Frame.whole F.usual.here_of_later hs (W := fun _ _ _ => True) (fun _ => hend) []).giving fun ss ss' h => ?_
  rw [← List.forall₂_eq_eq_eq]
  exact h.imp fun _ _ h => h.1.eq

/-- A keyword may stand behind the end of a statement and behind blanks as at the start of a text. -/
theorem sameEdge_none {x : Char} (h : x = ';' ∨ isBlank x = true) : SameEdge (some x) none := by
  have hb : isBreak x = true := by
    rcases h with rfl | h
    · rfl
    · rw [isBreak, h, Bool.true_or]
  refine ⟨fun joined => caselessBoundary_of_isBreak joined (o := some x) hb, ?_⟩
  exact of_isBreak (P := fun x => boundary (some x)) hb (by decide)

/-- A text is read to its end as it is when it stands alone, if only blanks are between the end of a statement and it. -/
theorem whole_of_blanks {gap text : List Char} {d : Cursor} (hg : gap.all isBlank = true) (hd : d.rest = gap ++ text)
    (hb : d.before = some ';') :
    (wholeReader level d).map Prod.fst = (wholeReader level (Cursor.start text)).map Prod.fst := by
  have hgap := List.all_eq_true.mp hg
  have hs : d.skipWhile isBlank = (d.advance gap.length).skipWhile isBlank := by
    unfold skipWhile
    rw [hd, List.takeWhile_append_of_pos hgap, List.length_append, rest_advance, hd, List.drop_left, advance_advance]
  have habreast : Abreast (fun r r' => r = r' ∧ True) (d.offset + gap.length) (d.advance gap.length) (Cursor.start text) := by
    refine ⟨⟨?_, trivial⟩, ?_, ?_⟩
    · rw [rest_advance, hd, List.drop_left]
      rfl
    · rw [offset_advance]
      exact (Nat.zero_add _).symm
    · rw [before_of_spans hd (.inl rfl), hb]
      show SameEdge _ none
      cases hl : gap.getLast? with
      | none => exact sameEdge_none (.inl rfl)
      | some x => exact sameEdge_none (.inr (hgap x (List.mem_of_getLast? hl)))
  have hhere : (TokenFrame.ofMatching Matching.same (d.offset + gap.length)).here d (Cursor.start text) := by
    show Abreast _ _ (d.skipWhile isBlank) _
    rw [hs]
    exact habreast.skip .same
  cases whole_follows level d (Cursor.start text) hhere with
  | refuse hp hq => rw [hp, hq]
  | read hp hq ha _ _ _ => rw [hp, hq, ha]; rfl

/-! ## Two texts -/

/-- A text without tabs is read as a whole from its start on. -/
theorem readText_eq (text : String) (h : '\t' ∉ text.toList) :
    readText (statements level .standard) true text = (wholeReader level (Cursor.start text.toList)).map Prod.fst := by
  show (wholeReader level).readStart (Text.expandTabs text.toList) = _
  rw [Text.expandTabs, Text.expandTabsFrom_of_not_mem 0 _ h]
  rfl

/-- What is read of two texts, one after the other, is what is read of the first and then what is read of the second. -/
theorem readText_append {first second : String} {ss : List Statement} (h₁ : '\t' ∉ first.toList)
    (h₂ : '\t' ∉ second.toList) (hv : second.toList.any (fun c => !isBlank c) = true)
    (hs : readText (statements level .standard) true first = some ss) :
    readText (statements level .standard) true (first ++ second) =
      (readText (statements level .standard) true second).map (ss ++ ·) := by
  have h₁₂ : '\t' ∉ (first ++ second).toList := by
    rw [String.toList_append, List.mem_append]
    exact not_or.mpr ⟨h₁, h₂⟩
  rw [readText_eq _ h₁] at hs
  rw [readText_eq _ h₁₂, readText_eq _ h₂, String.toList_append]
  obtain ⟨⟨ss', e⟩, hw, rfl⟩ := Option.map_eq_some_iff.mp hs
  obtain ⟨hn, c', hruns, hblank⟩ := runs_of_whole hw
  obtain ⟨d', hruns', hext, hb⟩ := (extended_start first.toList second.toList).runs hruns
  have hgap := (ahead_eq_nil_iff c').mp hblank
  have hahead : d'.ahead ≠ [] := by
    obtain ⟨x, hx, hxv⟩ := List.any_eq_true.mp hv
    rw [Ne, ahead_eq_nil_iff, hext.text, List.all_eq_true]
    intro hall
    rw [hall x (List.mem_append_right _ hx)] at hxv
    cases hxv
  rw [whole_of_runs hruns' hn hahead, Option.map_map, ← whole_of_blanks hgap hext.text (hb hn), Option.map_map]
  rfl

/-- The statements of two texts without tabs, one after the other, are those of the first and then those of the second; there
are none if the second text cannot be read. -/
theorem parse_append {first second : String} {ss : List Statement} (h₁ : '\t' ∉ first.toList)
    (h₂ : '\t' ∉ second.toList) (hv : second.toList.any (fun c => !isBlank c) = true)
    (hs : parse level .standard first = .ok ss) :
    parse level .standard (first ++ second) = (parse level .standard second).map (ss ++ ·) := by
  unfold parse readRule at hs ⊢
  cases hp : (Statement.pieces level).findSome? (Piece.problem? .standard) with
  | some e =>
    rw [hp] at hs
    cases hs
  | none =>
    simp only [hp] at hs ⊢
    cases hr : readText (statements level .standard) true first with
    | none =>
      rw [hr] at hs
      cases hs
    | some ss' =>
      rw [hr] at hs
      cases hs
      rw [readText_append h₁ h₂ hv hr]
      cases readText (statements level .standard) true second <;> rfl

end RelAlg
