import Mathlib
import RelAlg.Reader.Recursive
import RelAlg.Reader.Token

/-!
# What readers give

`Gives p φ` says that whatever `p` reads off a text satisfies `φ`, wherever it is read. There is one statement for each way
to put readers together; a recursive reader gives what its step gives when the reader it is handed does (`gives_recursive`).
-/

namespace RelAlg.Reader

variable {α β : Type}

/-- Whatever the reader reads satisfies the predicate. -/
def Gives (p : Reader α) (φ : α → Prop) : Prop := ∀ c a c', p c = some (a, c') → φ a

/-- A reader that gives what satisfies one predicate gives what satisfies a wider one. -/
theorem Gives.mono {p : Reader α} {φ ψ : α → Prop} (h : p.Gives φ) (hi : ∀ a, φ a → ψ a) : p.Gives ψ :=
  fun c a c' hp => hi a (h c a c' hp)

theorem gives_true (p : Reader α) : p.Gives fun _ => True := fun _ _ _ _ => trivial

/-- What is given without reading satisfies what it satisfies. -/
theorem gives_pure {a : α} {φ : α → Prop} (h : φ a) : (pure a : Reader α).Gives φ := by
  intro c b c' hp
  cases hp
  exact h

/-- A reader that refuses gives nothing. -/
theorem gives_failure (φ : α → Prop) : (Reader.failure : Reader α).Gives φ := by
  intro c a c' hp
  cases hp

/-- A sequence gives what its last part gives, whatever the parts before it gave. -/
theorem gives_bind {p : Reader α} {f : α → Reader β} {φ : α → Prop} {ψ : β → Prop} (hp : p.Gives φ)
    (hf : ∀ a, φ a → (f a).Gives ψ) : (p >>= f).Gives ψ := by
  intro c b c' h
  rw [bind_apply] at h
  cases hc : p c with
  | none => rw [hc] at h; cases h
  | some r =>
    rw [hc] at h
    exact hf r.1 (hp c r.1 r.2 hc) r.2 b c' h

/-- What follows a reader whose value is of no interest. -/
theorem gives_skip {p : Reader α} {f : α → Reader β} {ψ : β → Prop} (hf : ∀ a, (f a).Gives ψ) : (p >>= f).Gives ψ :=
  gives_bind (gives_true p) fun a _ => hf a

/-- A choice gives what one of its members gives. -/
theorem gives_orElse {p q : Reader α} {φ : α → Prop} (hp : p.Gives φ) (hq : q.Gives φ) : (p <|> q).Gives φ := by
  intro c a c' h
  rw [orElse_apply] at h
  rcases Option.or_eq_some_iff.mp h with h | ⟨_, h⟩
  · exact hp c a c' h
  · exact hq c a c' h

/-- The longer of two choices gives what one of them gives. -/
theorem gives_longest {p q : Reader α} {φ : α → Prop} (hp : p.Gives φ) (hq : q.Gives φ) : (p.longest q).Gives φ := by
  intro c a c' h
  unfold longest at h
  split at h
  · rename_i a₁ c₁ a₂ c₂ h₁ h₂
    split at h
    · cases h; exact hq c _ _ h₂
    · cases h; exact hp c _ _ h₁
  · rename_i r h₁ _
    cases h
    exact hp c _ _ h₁
  · exact hq c a c' h

/-- The longest of several choices gives what one of them gives. -/
theorem gives_longestOf {ps : List (Reader α)} {φ : α → Prop} (h : ∀ p ∈ ps, p.Gives φ) : (longestOf ps).Gives φ := by
  fun_induction longestOf ps with
  | case1 => exact gives_failure φ
  | case2 p => exact h p (by simp)
  | case3 p ps _ ih =>
    exact gives_longest (h p (by simp)) (ih fun q hq => h q (List.mem_cons_of_mem p hq))

/-- The first of several choices gives what one of them gives. -/
theorem gives_firstOf {ps : List (Reader α)} {φ : α → Prop} (h : ∀ p ∈ ps, p.Gives φ) : (firstOf ps).Gives φ := by
  induction ps with
  | nil => exact gives_failure φ
  | cons p ps ih => exact gives_orElse (h p (by simp)) (ih fun q hq => h q (List.mem_cons_of_mem p hq))

/-- A part that may be left out gives what it gives, or nothing. -/
theorem gives_opt {p : Reader α} {φ : α → Prop} (h : p.Gives φ) : p.opt.Gives fun o => ∀ a, o = some a → φ a :=
  gives_orElse (gives_bind h fun a ha => gives_pure fun b hb => by cases hb; exact ha) (gives_pure nofun)

/-- Reading again and again gives members that each satisfy the predicate. -/
theorem gives_upTo {p : Reader α} {φ : α → Prop} (h : p.Gives φ) (n : Nat) : (p.upTo n).Gives fun as => ∀ a ∈ as, φ a := by
  induction n with
  | zero => exact gives_pure (by simp)
  | succ n ih =>
    refine gives_bind (gives_opt h) fun o ho => ?_
    cases o with
    | none => exact gives_pure (by simp)
    | some a =>
      refine gives_bind ih fun as has => gives_pure ?_
      intro b hb
      rcases List.mem_cons.mp hb with rfl | hb
      · exact ho b rfl
      · exact has b hb

/-- Reading as often as possible gives members that each satisfy the predicate. -/
theorem gives_many {p : Reader α} {φ : α → Prop} (h : p.Gives φ) : (many p).Gives fun as => ∀ a ∈ as, φ a :=
  fun c as c' hp => gives_upTo h c.rest.length c as c' hp

/-- Parts with separators between them are one or more, and each satisfies the predicate. -/
theorem gives_separated {item : Reader α} {separator : Reader Unit} {φ : α → Prop} (h : item.Gives φ) :
    (separated item separator).Gives fun as => as ≠ [] ∧ ∀ a ∈ as, φ a := by
  refine gives_bind h fun a ha => gives_bind (gives_many (gives_skip fun _ => h)) fun as has => gives_pure ⟨by simp, ?_⟩
  intro b hb
  rcases List.mem_cons.mp hb with rfl | hb
  · exact ha
  · exact has b hb

/-- What is found at a place or a later one satisfies what the step preserves. -/
theorem get?_findings_gives {step : Reader α → Reader α} {φ : α → Prop} (hs : ∀ r, r.Gives φ → (step r).Gives φ)
    (before : Option Char) (rest : List Char) (offset n : Nat) {a : α} {c : Cursor}
    (h : (findings step before rest offset).get? n = some (some (a, c))) : φ a := by
  induction rest generalizing before offset n a c with
  | nil =>
    cases n with
    | zero => exact hs _ (gives_failure φ) _ _ _ (Option.some.inj h)
    | succ n => cases n <;> cases h
  | cons x rest ih =>
    cases n with
    | succ n => exact ih (some x) (offset + 1) n h
    | zero =>
      refine hs _ ?_ _ _ _ (Option.some.inj h)
      intro d b d' hd
      unfold ofFindings at hd
      split at hd
      · exact ih (some x) (offset + 1) _ (Option.join_eq_some_iff.mp hd)
      · cases hd

/-- A recursive reader gives what its step gives of readers that do. -/
theorem gives_recursive {step : Reader α → Reader α} {φ : α → Prop} (hs : ∀ r, r.Gives φ → (step r).Gives φ) :
    (recursive step).Gives φ := fun _ _ _ h => get?_findings_gives hs _ _ _ 0 (Option.join_eq_some_iff.mp h)

end RelAlg.Reader
