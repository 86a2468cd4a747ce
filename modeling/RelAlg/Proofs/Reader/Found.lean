import RelAlg.Proofs.Reader.Expression
import RelAlg.Proofs.Reader.UsualFrame

/-!
# How readers get on

Every reader of the language takes at least one character where it finds something (`Reader.Records.advances`, in the frame of
one text with itself). So a recursive reader is its step applied to itself (`Clause.tightReader_step`,
`Expression.tightReader_step`), and statements about what it found go by induction on the text that is left.
-/

namespace RelAlg

open Cursor Reader Surface

/-! ## One text -/

/-- A text with itself. -/
def TokenFrame.same : TokenFrame .usual where
  here := Eq
  near := Eq
  later := Eq
  here_of_later := fun _ _ h => h
  near_of_later := fun _ _ h => h
  ordered := by
    rintro c _ c' _ rfl rfl
    exact Iff.rfl
  skip := by
    rintro c _ rfl
    rfl
  token := by
    rintro α t ht c _ rfl
    cases hc : t c with
    | none => exact .refuse hc hc
    | some r =>
      obtain ⟨n, part, s, he, hp⟩ := ht.takes c r.1 r.2 hc
      have hb := beyond_of_spans hp.text hp.ne_nil hp.spans
      rw [← he] at hb
      exact .read hc hc rfl rfl hb hb

/-- The same frame for the language. -/
def Frame.same : Frame .standard := TokenFrame.same.usual

theorem Reader.Follows.advances {α : Type} {Q : α → Cursor → Cursor → Prop} {φ : α → α → Prop} {p : Reader α}
    (h : Follows 1 Eq Q φ p p) : Advances p := by
  intro c a c' hp
  cases h c c rfl with
  | refuse hn _ =>
    rw [hp] at hn
    cases hn
  | read hr _ _ _ hb _ =>
    rw [hp] at hr
    cases hr
    exact hb

theorem Reader.Records.advances {α : Type} {φ : α → α → Prop} {f : α → List String} {p : Reader α}
    (h : Records 1 Frame.same.here Frame.same.later φ f p p) : Advances p := (h []).advances

/-- A recursive reader is its step applied to itself, if what the step does depends on what it is handed at later places
only. -/
theorem Reader.recursive_eq {α : Type} {φ : α → α → Prop} {f : α → List String} {step : Reader α → Reader α}
    (hφ : ∀ a b, φ a b → a = b)
    (hs : ∀ c₀ d₀ r r', Records 0 (Frame.same.within c₀ d₀).later (Frame.same.within c₀ d₀).later φ f r r' →
      Records 1 (Frame.same.within c₀ d₀).here (Frame.same.within c₀ d₀).later φ f (step r) (step r')) (c : Cursor) :
    recursive step c = step (recursive step) c := by
  have hrec := Frame.recursive hs []
  have hlater : Records 0 (Frame.same.within c c).later (Frame.same.within c c).later φ f (later step c) (recursive step) := by
    intro ws
    rintro d _ ⟨rfl, hd, hd'⟩
    cases hrec d d rfl with
    | refuse hn _ =>
      rcases later_of_beyond step hd with he | he
      · exact .refuse (he.trans hn) hn
      · exact .refuse he.1 hn
    | @read a b e e' hr hr' ha he hb hb' =>
      obtain rfl : e = e' := he
      -- something was read there, so the text was not at its end
      have hl : later step c d = recursive step d := by
        rcases later_of_beyond step hd with hl | ⟨-, hl⟩
        · exact hl
        · have := hb.2
          rw [hl, List.length_nil] at this
          omega
      exact .read (hl.trans hr) hr' ha ⟨rfl, (hd.trans hb).mono (by omega), (hd'.trans hb').mono (by omega)⟩
        (hb.mono (by omega)) (hb'.mono (by omega))
  rw [recursive_apply]
  cases hs c c _ _ hlater [] c c ⟨rfl, .refl c, .refl c⟩ with
  | refuse hp hq => rw [hp, hq]
  | @read a b e e' hp hq ha hr _ _ =>
    obtain rfl : e = e' := hr.1
    rw [hp, hq, hφ a b ha]

variable {level : Level}

theorem Surface.Clause.tightReader_step (c : Cursor) :
    tightReader level .standard c = tightStep level (tightReader level .standard) c :=
  recursive_eq (φ := Frame.same.SameClause) (f := words) (fun _ _ h => h.1)
    (fun c₀ d₀ _ _ hr => Frame.clauseStep (F := Frame.same.within c₀ d₀) hr) c

theorem Surface.Expression.tightReader_step (c : Cursor) :
    tightReader level .standard c = tightStep level (tightReader level .standard) c :=
  recursive_eq (φ := Frame.same.AlikeExpression) (f := words) (fun _ _ h => h.1.eq)
    (fun c₀ d₀ _ _ hr => Frame.expressionStep (F := Frame.same.within c₀ d₀) hr) c

end RelAlg
