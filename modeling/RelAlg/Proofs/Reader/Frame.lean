import RelAlg.Proofs.Reader.Follows
import RelAlg.Proofs.Reader.Token

/-!
# Frames of tokens

A `TokenFrame` relates the places of two runs so that every token of a vocabulary does the same on both sides. Such
frames come from relations on texts that parts are taken off on both sides (`Matching`, `TokenFrame.ofMatching`): equal
texts of which something is kept (`Matching.of_kept`), and two texts that are the same up to the end of a statement
(`Shared`). `Passed` keeps the parts that were taken; from it such a second text is built (`Passed.shared`).
-/

namespace RelAlg

open Cursor Reader

/-- What is read exactly as it is spelled, and what is read in any letter case. -/
structure Vocabulary where
  exact : String → Bool
  word : String → Bool

/-- Whatever opens no text between quotes and ends no statement. -/
def Vocabulary.usual : Vocabulary := ⟨isSpelling, isWordSpelling⟩

/-- The readers of tokens, without the blanks before them. -/
inductive IsToken (V : Vocabulary) : {α : Type} → Reader α → Prop where
  | exactly {text : String} (h : V.exact text = true) : IsToken V (exactly text)
  | word {joined : Bool} {spelling : String} (h : V.word spelling = true) : IsToken V (word joined spelling)
  | exactWord {spelling : String} (h : V.exact spelling = true) : IsToken V (exactWord spelling)
  | name : IsToken V bareName
  | quotation {quote : Char} (hq : quote = '"' ∨ quote = '\'') : IsToken V (quotation quote)
  | numeral : IsToken V numeral

/-- Every token of the usual vocabulary takes a part of the text. -/
theorem IsToken.takes {α : Type} {t : Reader α} (h : IsToken .usual t) : Takes t := by
  cases h with
  | exactly h => exact takes_exactly h
  | word h => exact takes_word h
  | exactWord h => exact takes_exactWord h
  | name => exact takes_bareName
  | quotation hq => exact takes_quotation hq
  | numeral => exact takes_numeral

/-- Two runs side by side: how the places are related where a token may stand behind blanks, where one may stand right away,
and behind one. -/
structure TokenFrame (V : Vocabulary) where
  here : Cursor → Cursor → Prop
  near : Cursor → Cursor → Prop
  later : Cursor → Cursor → Prop
  here_of_later : ∀ c d, later c d → here c d
  near_of_later : ∀ c d, later c d → near c d
  ordered : ∀ c d c' d', later c d → later c' d' → (c.offset < c'.offset ↔ d.offset < d'.offset)
  skip : ∀ c d, here c d → near (c.skipWhile isBlank) (d.skipWhile isBlank)
  token : ∀ {α : Type} {t : Reader α}, IsToken V t → Follows 1 near (fun _ => later) Eq t t

namespace TokenFrame

variable {V : Vocabulary} (F : TokenFrame V) {α : Type}

/-- Skipping blanks leads on both sides to where a token may stand. -/
theorem blanks : Follows 0 F.here (fun _ => F.near) Eq Reader.blanks Reader.blanks := by
  intro c d h
  exact .read rfl rfl rfl (F.skip c d h) (beyond_advance _ c) (beyond_advance _ d)

/-- A token with blanks before it. -/
theorem spaced {t : Reader α} (ht : IsToken V t) :
    Follows 1 F.here (fun _ => F.later) Eq (do Reader.blanks; t) (do Reader.blanks; t) :=
  F.blanks.after fun _ _ _ => F.token ht

/-- A token that touches the one before it. -/
theorem touching {t : Reader α} (ht : IsToken V t) : Follows 1 F.later (fun _ => F.later) Eq t t :=
  (F.token ht).from_less F.near_of_later

end TokenFrame

/-! ## Relations on texts -/

/-- A part that can be taken off one of two related texts can be taken off the other. -/
structure Matching (T : List Char → List Char → Prop) : Prop where
  forth : ∀ {part s r : List Char}, T (part ++ s) r → IsPart part s → ∃ s', r = part ++ s' ∧ T s s' ∧ SameStart s s'
  back : ∀ {part s r : List Char}, T r (part ++ s) → IsPart part s → ∃ s', r = part ++ s' ∧ T s' s ∧ SameStart s' s

/-- The texts at the two places are related, the places are the same way apart, and a keyword may stand at both or at
neither. -/
structure Abreast (T : List Char → List Char → Prop) (k : Nat) (c d : Cursor) : Prop where
  text : T c.rest d.rest
  offset : c.offset = d.offset + k
  edge : SameEdge c.before d.before

/-- The character before a place that is further on, also where it is past the end. -/
theorem before_of_spans {n : Nat} {part rest : List Char} {c : Cursor} (hc : c.rest = part ++ rest)
    (h : Spans n part rest) : (c.advance n).before = part.getLast?.or c.before := by
  obtain ⟨b, text, k⟩ := c
  subst hc
  rcases h with rfl | ⟨hl, rfl⟩
  · exact before_advance part rest b k
  · obtain ⟨m, rfl⟩ := Nat.exists_eq_add_of_le hl
    have hnil : ∀ e : Cursor, e.rest = [] → (e.advance m).before = e.before := by
      rintro ⟨b, text, k⟩ rfl
      cases m <;> rfl
    rw [← advance_advance, hnil _ (by rw [rest_advance, List.append_nil, List.drop_length]), before_advance]

/-- Places stay the same edge behind the same characters. -/
theorem SameEdge.or {b b' : Option Char} (h : SameEdge b b') (o : Option Char) : SameEdge (o.or b) (o.or b') := by
  cases o with
  | none => exact h
  | some x => exact .refl _

variable {T : List Char → List Char → Prop} {k n : Nat}

/-- Behind a part that both texts start with the places are abreast again. -/
theorem Abreast.advance {part s s' : List Char} {c d : Cursor} (h : Abreast T k c d) (hc : c.rest = part ++ s)
    (hd : d.rest = part ++ s') (hn : Spans n part s) (hs : SameStart s s') (hT : T s s') :
    Abreast T k (c.advance n) (d.advance n) := by
  have hn' := hn.of_sameStart hs
  refine ⟨?_, ?_, ?_⟩
  · rwa [rest_advance, rest_advance, hc, hd, hn.drop, hn'.drop]
  · rw [offset_advance, offset_advance, h.offset]
    omega
  · rw [before_of_spans hc hn, before_of_spans hd hn']
    exact h.edge.or _

/-- Behind a part the place is further on. -/
theorem beyond_of_spans {part rest : List Char} {c : Cursor} (hc : c.rest = part ++ rest) (hp : part ≠ [])
    (h : Spans n part rest) : c.Beyond 1 (c.advance n) := by
  refine ⟨⟨n, rfl⟩, ?_⟩
  have hl := List.length_pos_iff.mpr hp
  rw [rest_advance, hc, h.drop, List.length_append]
  omega

/-- Blanks are ordinary. -/
theorem isOrdinary_of_isBlank {c : Char} (h : isBlank c = true) : isOrdinary c = true := by
  simp only [isBlank, Bool.or_eq_true, decide_eq_true_eq] at h
  rcases h with ((rfl | rfl) | rfl) | rfl <;> rfl

theorem isBlank_of_mem_takeWhile {cs : List Char} : ∀ x ∈ cs.takeWhile isBlank, isBlank x = true :=
  fun x hx => List.all_eq_true.mp List.all_takeWhile x hx

/-- The blanks at the start of a text are a part of it. -/
theorem isPart_blanks (cs : List Char) : IsPart (cs.takeWhile isBlank) (cs.dropWhile isBlank) :=
  .ordinary fun x hx => isOrdinary_of_isBlank (isBlank_of_mem_takeWhile x hx)

/-- Text that goes on in the same way behind the blanks of another one has no more blanks. -/
theorem takeWhile_of_sameStart {cs ds s : List Char} (hd : ds = cs.takeWhile isBlank ++ s)
    (hs : SameStart (cs.dropWhile isBlank) s) : ds.takeWhile isBlank = cs.takeWhile isBlank := by
  have hstop := head?_dropWhile_all isBlank cs
  rw [hs.1] at hstop
  rw [hd]
  exact takeWhile_append_of_head isBlank_of_mem_takeWhile hstop

/-- Places stay abreast when blanks are skipped. -/
theorem Abreast.skip {c d : Cursor} (hT : Matching T) (h : Abreast T k c d) :
    Abreast T k (c.skipWhile isBlank) (d.skipWhile isBlank) := by
  have hc : c.rest = c.rest.takeWhile isBlank ++ c.rest.dropWhile isBlank := List.takeWhile_append_dropWhile.symm
  have ht := h.text
  rw [hc] at ht
  obtain ⟨s', hd, hT', hst⟩ := hT.forth ht (isPart_blanks c.rest)
  unfold skipWhile
  rw [takeWhile_of_sameStart hd hst]
  exact h.advance hc hd (.inl rfl) hst hT'

/-- A token does the same at related places if what it takes at one of them stands at the other as well, in the same
surroundings, and the places behind it are related again. -/
theorem Reader.Takes.follows_of {α : Type} {t : Reader α} (ht : Takes t) {V : Cursor → Cursor → Prop}
    (hedge : ∀ {c d}, V c d → SameEdge c.before d.before)
    (hforth : ∀ {c d a n part s}, V c d → t c = some (a, c.advance n) → Taken t c a n part s →
      ∃ s', d.rest = part ++ s' ∧ SameStart s s' ∧ V (c.advance n) (d.advance n))
    (hback : ∀ {c d a n part s}, V c d → t d = some (a, d.advance n) → Taken t d a n part s →
      ∃ s', c.rest = part ++ s' ∧ SameStart s s') : Follows 1 V (fun _ => V) Eq t t := by
  intro c d h
  cases hc : t c with
  | some r =>
    obtain ⟨a, c'⟩ := r
    obtain ⟨n, part, s, rfl, hp⟩ := ht c a c' hc
    obtain ⟨s', hd, hst, hV⟩ := hforth h hc hp
    exact .read hc (hp.again d s' hd hst (hedge h)) rfl hV (beyond_of_spans hp.text hp.ne_nil hp.spans)
      (beyond_of_spans hd hp.ne_nil (hp.spans.of_sameStart hst))
  | none =>
    cases hd : t d with
    | none => exact .refuse hc hd
    | some r =>
      -- what is taken on the second side could be taken on the first
      obtain ⟨a, d'⟩ := r
      obtain ⟨n, part, s, rfl, hp⟩ := ht d a d' hd
      obtain ⟨s', hc', hst⟩ := hback h hd hp
      have := hp.again c s' hc' hst (hedge h).symm
      rw [hc] at this
      cases this

/-- A token does the same at places that are abreast. -/
theorem Reader.Takes.follows {α : Type} {t : Reader α} (ht : Takes t) (hT : Matching T) :
    Follows 1 (Abreast T k) (fun _ => Abreast T k) Eq t t := by
  refine ht.follows_of Abreast.edge ?_ ?_
  · intro c d a n part s h _ hp
    have htext := h.text
    rw [hp.text] at htext
    obtain ⟨s', hd, hT', hst⟩ := hT.forth htext hp.isPart
    exact ⟨s', hd, hst, h.advance hp.text hd hp.spans hst hT'⟩
  · intro c d a n part s h _ hp
    have htext := h.text
    rw [hp.text] at htext
    obtain ⟨s', hc, -, hst⟩ := hT.back htext hp.isPart
    exact ⟨s', hc, hst.symm⟩

/-- The frame of a relation on texts. What stands before the first token on either side does not matter if it is blanks. -/
def TokenFrame.ofMatching (hT : Matching T) (k : Nat) : TokenFrame .usual where
  here := fun c d => Abreast T k (c.skipWhile isBlank) (d.skipWhile isBlank)
  near := Abreast T k
  later := Abreast T k
  here_of_later := fun _ _ h => h.skip hT
  near_of_later := fun _ _ h => h
  ordered := fun c d c' d' h h' => by rw [h.offset, h'.offset]; omega
  skip := fun _ _ h => h
  token := fun ht => ht.takes.follows hT

/-! ## Equal texts -/

/-- The texts are the same, and what is kept when a part is taken off holds of them. -/
theorem Matching.of_kept {I : List Char → Prop} (hI : ∀ part s, IsPart part s → I (part ++ s) → I s) :
    Matching fun r r' => r = r' ∧ I r where
  forth := by
    rintro part s r ⟨rfl, h⟩ hp
    exact ⟨s, rfl, ⟨rfl, hI part s hp h⟩, .refl s⟩
  back := by
    rintro part s r ⟨rfl, h⟩ hp
    exact ⟨s, rfl, ⟨rfl, hI part s hp h⟩, .refl s⟩

/-! ## Texts up to the end of a statement -/

/-- The texts are the same up to the end of a statement outside of quotes, behind which they go on with `x` and `y`. -/
inductive Shared (x y : List Char) : List Char → List Char → Prop where
  | done : Shared x y (';' :: x) (';' :: y)
  | ordinary {a : Char} {r r' : List Char} (ha : isOrdinary a = true) (h : Shared x y r r') : Shared x y (a :: r) (a :: r')
  | literal {quote : Char} {body r r' : List Char} (hq : quote = '"' ∨ quote = '\'') (hb : Quoted.IsBody quote body)
      (hr : r.head? ≠ some quote) (h : Shared x y r r') :
      Shared x y (quote :: (body ++ quote :: r)) (quote :: (body ++ quote :: r'))

namespace Shared

variable {x y r r' s : List Char}

/-- Texts that are shared up to the end of a statement start alike. -/
theorem sameStart (h : Shared x y r r') : SameStart r r' := by
  induction h with
  | done => exact ⟨rfl, nofun⟩
  | ordinary ha h ih => exact ⟨rfl, fun _ => ih.1⟩
  | literal hq hb hr h ih =>
    refine ⟨rfl, fun he => ?_⟩
    cases he
    rcases hq with hq | hq <;> cases hq

/-- Texts that are shared may be exchanged. -/
theorem symm (h : Shared x y r r') : Shared y x r' r := by
  induction h with
  | done => exact .done
  | ordinary ha h ih => exact .ordinary ha ih
  | literal hq hb hr h ih => exact .literal hq hb (by rw [← h.sameStart.1]; exact hr) ih

/-- Texts stay shared with the same part before both. -/
theorem append {part : List Char} (hp : IsPart part r) (h : Shared x y r r') : Shared x y (part ++ r) (part ++ r') := by
  cases hp with
  | ordinary ho =>
    induction part with
    | nil => exact h
    | cons a part ih => exact .ordinary (ho a List.mem_cons_self) (ih fun z hz => ho z (List.mem_cons_of_mem a hz))
  | literal hq hb hr =>
    simp only [List.cons_append, List.append_assoc, List.nil_append]
    exact .literal hq hb hr h

/-- A part of one text is a part of the other, and what is left is shared. -/
theorem forth {part : List Char} (h : Shared x y (part ++ s) r) (hp : IsPart part s) :
    ∃ s', r = part ++ s' ∧ Shared x y s s' := by
  cases hp with
  | ordinary ho =>
    induction part generalizing r with
    | nil => exact ⟨r, rfl, h⟩
    | cons a part ih =>
      have ha := ho a List.mem_cons_self
      generalize ht : (a :: part) ++ s = t at h
      cases h with
      | done =>
        rw [(List.cons.inj ht).1] at ha
        cases ha
      | ordinary _ h =>
        obtain ⟨rfl, rfl⟩ := List.cons.inj ht
        obtain ⟨s', rfl, hs⟩ := ih h fun z hz => ho z (List.mem_cons_of_mem a hz)
        exact ⟨s', rfl, hs⟩
      | literal hq _ _ _ =>
        rw [(List.cons.inj ht).1] at ha
        rcases hq with rfl | rfl <;> cases ha
  | @literal quote body _ hq hb hr =>
    generalize ht : quote :: (body ++ [quote]) ++ s = t at h
    simp only [List.cons_append, List.append_assoc, List.nil_append] at ht
    cases h with
    | done =>
      obtain ⟨rfl, -⟩ := List.cons.inj ht
      rcases hq with hq | hq <;> cases hq
    | ordinary ha _ =>
      obtain ⟨rfl, -⟩ := List.cons.inj ht
      rcases hq with rfl | rfl <;> cases ha
    | @literal _ body' r₁ r₁' _ hb' hr' h =>
      obtain ⟨rfl, ht⟩ := List.cons.inj ht
      obtain ⟨rfl, rfl⟩ := hb.append_inj hq hb' hr hr' ht
      exact ⟨r₁', by simp, h⟩

end Shared

/-- Texts that are the same up to the end of a statement match. -/
theorem Matching.shared (x y : List Char) : Matching (Shared x y) where
  forth := by
    intro part s r h hp
    obtain ⟨s', hr, hs⟩ := h.forth hp
    exact ⟨s', hr, hs, hs.sameStart⟩
  back := by
    intro part s r h hp
    obtain ⟨s', hr, hs⟩ := h.symm.forth hp
    exact ⟨s', hr, hs.symm, hs.symm.sameStart⟩

/-- The second text is left of the first when parts have been taken off it. -/
inductive Passed (r₀ : List Char) : List Char → Prop where
  | start : Passed r₀ r₀
  | part {part s : List Char} (h : Passed r₀ (part ++ s)) (hp : IsPart part s) : Passed r₀ s

/-- What was passed is shared by the texts that are put in place of what is left. -/
theorem Passed.shared {r₀ r : List Char} (h : Passed r₀ r) (x y : List Char) :
    ∃ u, r₀ = u ++ r ∧ ∀ r', Shared x y r r' → Shared x y r₀ (u ++ r') := by
  induction h with
  | start => exact ⟨[], rfl, fun _ h => h⟩
  | @part part s _ hp ih =>
    obtain ⟨u, hu, hs⟩ := ih
    refine ⟨u ++ part, by rw [hu, List.append_assoc], fun r' h => ?_⟩
    rw [List.append_assoc]
    exact hs _ (.append hp h)

end RelAlg
