import RelAlg.Proofs.Reader.Layout

/-!
# Two runs side by side

`Follows k P Q φ p q` compares what `p` does at one place with what `q` does at another: at places related by `P` both refuse, or
both read values related by `φ`, over at least `k` characters, and reach places related by `Q`, which may depend on the value.
There is one statement for each way to put readers together. With one text on both sides `Q` is an invariant of reading; with
two texts it says what of a text matters. Where the relation of places is indexed by what was read so far, repetitions and
recursive readers add to the index. A recursive reader follows another if its step does where the reader it is handed does so
at later places (`Follows.recursive`).
-/

namespace RelAlg

namespace Cursor

/-- The second place is the first or further on, and at least `k` characters of the text are between them. -/
def Beyond (k : Nat) (c c' : Cursor) : Prop := (∃ n, c' = c.advance n) ∧ c'.rest.length + k ≤ c.rest.length

theorem Beyond.refl (c : Cursor) : c.Beyond 0 c := ⟨⟨0, rfl⟩, Nat.le_refl _⟩

/-- Going beyond twice is going beyond by both distances. -/
theorem Beyond.trans {k l : Nat} {c d e : Cursor} (h : c.Beyond k d) (h' : d.Beyond l e) : c.Beyond (k + l) e := by
  obtain ⟨⟨m, rfl⟩, hm⟩ := h
  obtain ⟨⟨n, rfl⟩, hn⟩ := h'
  exact ⟨⟨m + n, advance_advance m n c⟩, by omega⟩

/-- A place that is further on is so by less, too. -/
theorem Beyond.mono {k l : Nat} {c d : Cursor} (h : c.Beyond k d) (hl : l ≤ k) : c.Beyond l d :=
  ⟨h.1, by have := h.2; omega⟩

/-- Going on never goes back. -/
theorem beyond_advance (n : Nat) (c : Cursor) : c.Beyond 0 (c.advance n) := by
  refine ⟨⟨n, rfl⟩, ?_⟩
  rw [rest_advance, List.length_drop]
  omega

end Cursor

namespace Reader

open Cursor

variable {α β γ δ ι : Type} {k l : Nat} {P P' : Cursor → Cursor → Prop} {Q Q' : α → Cursor → Cursor → Prop}
  {φ ψ : α → β → Prop}

/-- What the readers do at the two places is alike: both refuse, or both read values that are related, over at least `k`
characters, and the places they reach are related. -/
inductive Joint (k : Nat) (Q : α → Cursor → Cursor → Prop) (φ : α → β → Prop) (p : Reader α) (q : Reader β)
    (c d : Cursor) : Prop where
  | refuse (hp : p c = none) (hq : q d = none)
  | read {a : α} {b : β} {c' d' : Cursor} (hp : p c = some (a, c')) (hq : q d = some (b, d')) (ha : φ a b) (hr : Q a c' d')
      (hc : c.Beyond k c') (hd : d.Beyond k d')

/-- At places that are related the readers do alike. -/
def Follows (k : Nat) (P : Cursor → Cursor → Prop) (Q : α → Cursor → Cursor → Prop) (φ : α → β → Prop) (p : Reader α)
    (q : Reader β) : Prop :=
  ∀ c d, P c d → Joint k Q φ p q c d

/-- Of two places that readers got to, both are further on than two others or neither is. -/
def Ordered (Q : α → Cursor → Cursor → Prop) : Prop :=
  ∀ a a' c d c' d', Q a c d → Q a' c' d' → (c.offset < c'.offset ↔ d.offset < d'.offset)

/-! ## Weaker statements -/

/-- What is alike stays so when less is asked of the places and of the values. -/
theorem Joint.mono {p : Reader α} {q : Reader β} {c d : Cursor} (h : Joint k Q φ p q c d)
    (hQ : ∀ a c d, Q a c d → Q' a c d) (hφ : ∀ a b, φ a b → ψ a b) (hk : l ≤ k) : Joint l Q' ψ p q c d := by
  cases h with
  | refuse hp hq => exact .refuse hp hq
  | read hp hq ha hr hc hd => exact .read hp hq (hφ _ _ ha) (hQ _ _ _ hr) (hc.mono hk) (hd.mono hk)

namespace Follows

variable {p : Reader α} {q : Reader β}

/-- Readers that follow one another reach places of a wider relation, too. -/
theorem mono (h : Follows k P Q φ p q) (hQ : ∀ a c d, Q a c d → Q' a c d) : Follows k P Q' φ p q :=
  fun c d hc => (h c d hc).mono hQ (fun _ _ ha => ha) (Nat.le_refl k)

/-- The same from fewer places. -/
theorem from_less (h : Follows k P Q φ p q) (hP : ∀ c d, P' c d → P c d) : Follows k P' Q φ p q :=
  fun c d hc => h c d (hP c d hc)

/-- The same over fewer characters. -/
theorem lax (h : Follows k P Q φ p q) : Follows 0 P Q φ p q :=
  fun c d hc => (h c d hc).mono (fun _ _ _ hr => hr) (fun _ _ ha => ha) (Nat.zero_le k)

/-- Readers that follow one another give values of a wider relation, too. -/
theorem giving (h : Follows k P Q φ p q) (hφ : ∀ a b, φ a b → ψ a b) : Follows k P Q ψ p q :=
  fun c d hc => (h c d hc).mono (fun _ _ _ hr => hr) hφ (Nat.le_refl k)

/-- What is known of every value that is read at such places. -/
theorem telling {χ : α → Prop} (h : Follows k P Q φ p q) (hχ : ∀ c d a c', P c d → p c = some (a, c') → χ a) :
    Follows k P Q (fun a b => φ a b ∧ χ a) p q := by
  intro c d hc
  cases h c d hc with
  | refuse hp hq => exact .refuse hp hq
  | read hp hq ha hr hcc hdd => exact .read hp hq ⟨ha, hχ c d _ _ hc hp⟩ hr hcc hdd

/-! ## Parts in sequence and choices -/

/-- Values that are given follow one another if they are related. -/
theorem pure {a : α} {b : β} (h : φ a b) (hQ : ∀ c d, P c d → Q a c d) : Follows 0 P Q φ (Pure.pure a) (Pure.pure b) := by
  intro c d hc
  exact .read rfl rfl h (hQ c d hc) (.refl c) (.refl d)

/-- Where both refuse, nothing is to be shown. -/
theorem failure : Follows k P Q φ (Reader.failure : Reader α) (Reader.failure : Reader β) := by
  intro c d _
  exact .refuse rfl rfl

section

variable {R : γ → Cursor → Cursor → Prop} {χ : γ → δ → Prop} {f : α → Reader γ} {g : β → Reader δ}

/-- Parts in sequence follow one another if each does, over both distances. -/
theorem sequence (hp : Follows k P Q φ p q) (hf : ∀ a b, φ a b → Follows l (Q a) R χ (f a) (g b)) :
    Follows (k + l) P R χ (p >>= f) (q >>= g) := by
  intro c d hc
  cases hp c d hc with
  | refuse hp hq => exact .refuse (bind_of_none hp) (bind_of_none hq)
  | @read a b c' d' hp hq ha hr hcc hdd =>
    cases hf a b ha c' d' hr with
    | refuse hp' hq' => exact .refuse ((bind_of_some hp).trans hp') ((bind_of_some hq).trans hq')
    | read hp' hq' hb hr' hcc' hdd' =>
      exact .read ((bind_of_some hp).trans hp') ((bind_of_some hq).trans hq') hb hr' (hcc.trans hcc') (hdd.trans hdd')

/-- A sequence reads what its first part does. -/
theorem bind (hp : Follows k P Q φ p q) (hf : ∀ a b, φ a b → Follows l (Q a) R χ (f a) (g b)) :
    Follows k P R χ (p >>= f) (q >>= g) :=
  fun c d hc => (hp.sequence hf c d hc).mono (fun _ _ _ hr => hr) (fun _ _ hb => hb) (Nat.le_add_right k l)

/-- A sequence reads what its second part does. -/
theorem after (hp : Follows k P Q φ p q) (hf : ∀ a b, φ a b → Follows l (Q a) R χ (f a) (g b)) :
    Follows l P R χ (p >>= f) (q >>= g) :=
  fun c d hc => (hp.sequence hf c d hc).mono (fun _ _ _ hr => hr) (fun _ _ hb => hb) (Nat.le_add_left l k)

end

/-- Choices follow one another if their members do: both take the first or both pass it over. -/
theorem orElse {p' : Reader α} {q' : Reader β} (h : Follows k P Q φ p q) (h' : Follows k P Q φ p' q') :
    Follows k P Q φ (p <|> p') (q <|> q') := by
  intro c d hc
  cases h c d hc with
  | read hp hq ha hr hcc hdd => exact .read (orElse_of_some hp) (orElse_of_some hq) ha hr hcc hdd
  | refuse hp hq =>
    cases h' c d hc with
    | refuse hp' hq' => exact .refuse ((orElse_of_none hp).trans hp') ((orElse_of_none hq).trans hq')
    | read hp' hq' ha hr hcc hdd =>
      exact .read ((orElse_of_none hp).trans hp') ((orElse_of_none hq).trans hq') ha hr hcc hdd

/-- The first of several choices follows the first of as many if each does. -/
theorem firstOf {ps : List (Reader α)} {qs : List (Reader β)} (h : List.Forall₂ (Follows k P Q φ) ps qs) :
    Follows k P Q φ (Reader.firstOf ps) (Reader.firstOf qs) := by
  induction h with
  | nil => exact failure
  | cons h _ ih => exact h.orElse ih

/-- The longer of two choices follows the longer if both do, as the places are in the same order. -/
theorem longest {p' : Reader α} {q' : Reader β} (ho : Ordered Q) (h : Follows k P Q φ p q) (h' : Follows k P Q φ p' q') :
    Follows k P Q φ (p.longest p') (q.longest q') := by
  intro c d hc
  cases h c d hc with
  | refuse hp hq =>
    have hl := longest_of_none_left (q := p') hp
    have hr := longest_of_none_left (q := q') hq
    cases h' c d hc with
    | refuse hp' hq' => exact .refuse (hl.trans hp') (hr.trans hq')
    | read hp' hq' ha hq hcc hdd => exact .read (hl.trans hp') (hr.trans hq') ha hq hcc hdd
  | @read a b c₁ d₁ hp hq ha hr hcc hdd =>
    cases h' c d hc with
    | refuse hp' hq' =>
      exact .read ((longest_of_none_right hp').trans hp) ((longest_of_none_right hq').trans hq) ha hr hcc hdd
    | @read a' b' c₂ d₂ hp' hq' hb hr' hcc' hdd' =>
      have hiff := ho a a' c₁ d₁ c₂ d₂ hr hr'
      by_cases hlt : c₁.offset < c₂.offset
      · exact .read (longest_of_lt hp hp' hlt) (longest_of_lt hq hq' (hiff.mp hlt)) hb hr' hcc' hdd'
      · refine .read ?_ ?_ ha hr hcc hdd
        · simp only [Reader.longest, hp, hp', if_neg hlt]
        · simp only [Reader.longest, hq, hq', if_neg (mt hiff.mpr hlt)]

/-- The longest of several choices follows the longest of as many if each does. -/
theorem longestOf {ps : List (Reader α)} {qs : List (Reader β)} (ho : Ordered Q)
    (h : List.Forall₂ (Follows k P Q φ) ps qs) : Follows k P Q φ (Reader.longestOf ps) (Reader.longestOf qs) := by
  induction h with
  | nil => exact failure
  | cons h hs ih =>
    cases hs with
    | nil => exact h
    | cons => exact h.longest ho ih

/-- Parts that may be left out follow one another, with the places as they were where they are left out. -/
theorem opt (h : Follows k P Q φ p q) : Follows 0 P (fun o => o.elim P Q) (Option.Rel φ) p.opt q.opt :=
  .orElse (h.lax.bind fun _ _ ha => pure (.some ha) fun _ _ hc => hc) (pure .none fun _ _ hc => hc)

/-! ## Repetition -/

section

variable {V : List ι → Cursor → Cursor → Prop} {f : α → List ι}

/-- Where enough rounds are allowed on both sides, their numbers do not matter. -/
theorem upTo (h : ∀ xs, Follows 1 (V xs) (fun a => V (xs ++ f a)) φ p q) (n m : Nat) (xs : List ι) (c d : Cursor)
    (hc : V xs c d) (hn : c.rest.length ≤ n) (hm : d.rest.length ≤ m) :
    Joint 0 (fun as => V (xs ++ as.flatMap f)) (List.Forall₂ φ) (p.upTo n) (q.upTo m) c d := by
  have hnil : V (xs ++ ([] : List α).flatMap f) c d := by rwa [List.flatMap_nil, List.append_nil]
  induction n generalizing m xs c d with
  | zero =>
    cases h xs c d hc with
    | read _ _ _ _ hcc _ =>
      have := hcc.2
      omega
    | refuse _ hq =>
      refine .read (b := []) rfl ?_ .nil hnil (.refl c) (.refl d)
      cases m with
      | zero => rfl
      | succ m => simp [Reader.upTo, bind_of_some (opt_of_none hq)]
  | succ n ih =>
    cases h xs c d hc with
    | refuse hp hq =>
      refine .read (a := []) (b := []) ?_ ?_ .nil hnil (.refl c) (.refl d)
      · simp [Reader.upTo, bind_of_some (opt_of_none hp)]
      · cases m with
        | zero => rfl
        | succ m => simp [Reader.upTo, bind_of_some (opt_of_none hq)]
    | @read a b c' d' hp hq ha hr hcc hdd =>
      have hc' := hcc.2
      have hd' := hdd.2
      obtain ⟨m, rfl⟩ : ∃ i, m = i + 1 := ⟨m - 1, by omega⟩
      have hp' := upTo_of_some n hp
      have hq' := upTo_of_some m hq
      cases ih m (xs ++ f a) c' d' hr (by omega) (by omega) (by simpa using hr) with
      | refuse hp'' hq'' => exact .refuse (hp'.trans (bind_of_none hp'')) (hq'.trans (bind_of_none hq''))
      | read hp'' hq'' has hr' hcc' hdd' =>
        rw [List.append_assoc] at hr'
        exact .read (hp'.trans (bind_of_some hp'')) (hq'.trans (bind_of_some hq'')) (.cons ha has) hr'
          (hcc.trans hcc' |>.mono (by omega)) (hdd.trans hdd' |>.mono (by omega))

/-- Parts that are read again and again follow one another if one step does, and add up what they read. -/
theorem many (h : ∀ xs, Follows 1 (V xs) (fun a => V (xs ++ f a)) φ p q) (xs : List ι) :
    Follows 0 (V xs) (fun as => V (xs ++ as.flatMap f)) (List.Forall₂ φ) (Reader.many p) (Reader.many q) := by
  intro c d hc
  cases upTo h c.rest.length d.rest.length xs c d hc (Nat.le_refl _) (Nat.le_refl _) with
  | refuse hp hq => exact .refuse hp hq
  | read hp hq ha hr hcc hdd => exact .read hp hq ha hr hcc hdd

/-- Parts with separators between them follow one another if the parts and the separators do. -/
theorem separated {U : List ι → Cursor → Cursor → Prop} {separator separator' : Reader Unit} {χ : Unit → Unit → Prop}
    (hU : ∀ xs c d, V xs c d → U xs c d) (hi : ∀ xs, Follows k (U xs) (fun a => V (xs ++ f a)) φ p q)
    (hs : ∀ xs, Follows 1 (V xs) (fun _ => V xs) χ separator separator') (xs : List ι) :
    Follows k (U xs) (fun as => V (xs ++ as.flatMap f)) (List.Forall₂ φ) (Reader.separated p separator)
      (Reader.separated q separator') := by
  refine (hi xs).bind fun a b ha => (many (fun ys => (hs ys).bind fun _ _ _ => (hi ys).from_less (hU ys)) _).bind
    fun as bs has => pure (.cons ha has) ?_
  simp only [List.append_assoc, List.flatMap_cons]
  exact fun _ _ hc => hc

end

end Follows

/-! ## Recursion -/

/-- Beyond the end of the text nothing is found. -/
theorem get?_findings_eq_none (step : Reader α → Reader α) (before : Option Char) (rest : List Char) (offset n : Nat)
    (h : rest.length < n) : (findings step before rest offset).get? n = none := by
  induction rest generalizing before offset n with
  | nil =>
    obtain ⟨n, rfl⟩ : ∃ i, n = i + 1 := ⟨n - 1, by simp at h; omega⟩
    cases n <;> rfl
  | cons x rest ih =>
    obtain ⟨n, rfl⟩ : ∃ i, n = i + 1 := ⟨n - 1, by omega⟩
    exact ih (some x) (offset + 1) n (by simpa using h)

/-- At a later place the step is handed the recursive reader itself, and past the end of the text one that refuses. -/
theorem later_of_beyond (step : Reader α → Reader α) {c c' : Cursor} (h : c.Beyond 1 c') :
    later step c c' = recursive step c' ∨ later step c c' = none ∧ c'.rest = [] := by
  obtain ⟨⟨n, rfl⟩, hl⟩ := h
  rw [rest_advance, List.length_drop] at hl
  by_cases hn : n ≤ c.rest.length
  · exact .inl (later_advance step c n (by omega) hn)
  · refine .inr ⟨?_, by rw [rest_advance, List.drop_eq_nil_iff]; omega⟩
    obtain ⟨before, rest, offset⟩ := c
    cases rest with
    | nil => simp at hl
    | cons x rest =>
      simp only [List.length_cons, Nat.not_le] at hn
      have hi : (Cursor.advance n ⟨before, x :: rest, offset⟩).offset - (offset + 1) = n - 1 := by
        rw [offset_advance]
        simp only []
        omega
      simp only [later, ofFindings, Thunk.get, hi, get?_findings_eq_none step (some x) rest (offset + 1) (n - 1) (by omega)]
      split <;> rfl

/-- The places of a relation that are beyond two given ones. -/
def Onward (P : Cursor → Cursor → Prop) (k : Nat) (c₀ d₀ c d : Cursor) : Prop := P c d ∧ c₀.Beyond k c ∧ d₀.Beyond k d

/-- What is followed at all places is followed beyond two given ones. -/
theorem Follows.onward {p : Reader α} {q : Reader β} (h : Follows k P Q φ p q) (i : Nat) (c₀ d₀ : Cursor) :
    Follows k (Onward P i c₀ d₀) (fun a => Onward (Q a) (i + k) c₀ d₀) φ p q := by
  intro c d hc
  obtain ⟨hP, hc₀, hd₀⟩ := hc
  cases h c d hP with
  | refuse hp hq => exact .refuse hp hq
  | read hp hq ha hr hcc hdd => exact .read hp hq ha ⟨hr, hc₀.trans hcc, hd₀.trans hdd⟩ hcc hdd

/-- At a later place something is read, so the step is handed the recursive reader itself there. -/
theorem later_of_read (step : Reader α → Reader α) {c c₁ c₂ : Cursor} (h : c.Beyond 1 c₁) (h' : c₁.Beyond 1 c₂) :
    later step c c₁ = recursive step c₁ := by
  rcases later_of_beyond step h with he | ⟨-, he⟩
  · exact he
  · have := h'.2
    rw [he, List.length_nil] at this
    omega

/-- At a later place the step is handed a reader that refuses if the recursive reader does. -/
theorem later_of_refuse (step : Reader α → Reader α) {c c₁ : Cursor} (h : c.Beyond 1 c₁) (hn : recursive step c₁ = none) :
    later step c c₁ = none := by
  rcases later_of_beyond step h with he | he
  · rw [he, hn]
  · exact he.1

/-- A recursive reader follows another if its step does, wherever the readers they are handed do so at later places. -/
theorem Follows.recursive {U V : List ι → Cursor → Cursor → Prop} {f : α → List ι} {step : Reader α → Reader α}
    {step' : Reader β → Reader β} (hV : ∀ xs c d, V xs c d → U xs c d)
    (hs : ∀ c₀ d₀ r r', (∀ xs, Follows 0 (Onward (V xs) 1 c₀ d₀) (fun a => Onward (V (xs ++ f a)) 1 c₀ d₀) φ r r') →
      ∀ xs, Follows 1 (Onward (U xs) 0 c₀ d₀) (fun a => Onward (V (xs ++ f a)) 1 c₀ d₀) φ (step r) (step' r')) (xs : List ι) :
    Follows 1 (U xs) (fun a => V (xs ++ f a)) φ (Reader.recursive step) (Reader.recursive step') := by
  -- The text that is left on the first side gets shorter from call to call.
  have hrec : ∀ n xs c d, c.rest.length < n → U xs c d →
      Joint 1 (fun a => V (xs ++ f a)) φ (Reader.recursive step) (Reader.recursive step') c d := by
    intro n
    induction n with
    | zero => exact fun xs c d hn => absurd hn (Nat.not_lt_zero _)
    | succ n ih =>
      intro xs c d hn hc
      have hlater : ∀ ys, Follows 0 (Onward (V ys) 1 c d) (fun a => Onward (V (ys ++ f a)) 1 c d) φ (later step c)
          (later step' d) := by
        intro ys c₁ d₁ h₁
        obtain ⟨hr₁, hc₁, hd₁⟩ := h₁
        cases ih ys c₁ d₁ (by have := hc₁.2; omega) (hV ys _ _ hr₁) with
        | refuse hp hq => exact .refuse (later_of_refuse step hc₁ hp) (later_of_refuse step' hd₁ hq)
        | read hp hq ha hr hcc hdd =>
          exact .read ((later_of_read step hc₁ hcc).trans hp) ((later_of_read step' hd₁ hdd).trans hq) ha
            ⟨hr, (hc₁.trans hcc).mono (by omega), (hd₁.trans hdd).mono (by omega)⟩ (hcc.mono (by omega)) (hdd.mono (by omega))
      cases hs c d _ _ hlater xs c d ⟨hc, .refl c, .refl d⟩ with
      | refuse hp hq => exact .refuse ((recursive_apply step c).trans hp) ((recursive_apply step' d).trans hq)
      | read hp hq ha hr hcc hdd =>
        exact .read ((recursive_apply step c).trans hp) ((recursive_apply step' d).trans hq) ha hr.1 hcc hdd
  exact fun c d hc => hrec _ xs c d (Nat.lt_succ_self _) hc

/-! ## Parts that are read again and again -/

/-- The reader takes at least one character. -/
def Advances (p : Reader α) : Prop := ∀ c a c', p c = some (a, c') → c.Beyond 1 c'

/-- A sequence takes a character if its first part does. -/
theorem Advances.bind {p : Reader α} {f : α → Reader β} (hp : Advances p)
    (hf : ∀ a c b c', f a c = some (b, c') → c.Beyond 0 c') : Advances (p >>= f) := by
  intro c b c' h
  obtain ⟨a, d, ha, hb⟩ := bind_eq_some h
  exact (hp _ _ _ ha).trans (hf a d b c' hb)

section

variable {p : Reader α} {a : α} {as : List α} {c c' d : Cursor}

/-- A part that is not read once is read no times. -/
theorem many_of_none (h : p c = none) : many p c = some ([], c) := many_of_runs (.nil c) h

/-- The first part is read, and then the others. -/
theorem many_of_some (hp : Advances p) (h : p c = some (a, c')) :
    many p c = (many p c').map fun r => (a :: r.1, r.2) := by
  have hl := (hp c a c' h).2
  have hf : ∀ xs : List Unit, Follows 1 (fun c d => c = d) (fun _ c d => c = d) Eq p p := by
    rintro - c _ rfl
    cases hc : p c with
    | none => exact .refuse hc hc
    | some r => exact .read hc hc rfl rfl (hp _ _ _ hc) (hp _ _ _ hc)
  obtain ⟨n, hn⟩ : ∃ n, c.rest.length = n + 1 := ⟨c.rest.length - 1, by omega⟩
  -- how many rounds are allowed does not matter
  have he : p.upTo n c' = many p c' := by
    cases Follows.upTo (V := fun _ c d => c = d) (f := fun _ => []) hf n c'.rest.length [] c' c' rfl (by omega)
        (Nat.le_refl _) with
    | refuse hp hq => exact hp.trans hq.symm
    | read hp hq ha hr _ _ =>
      rw [List.forall₂_eq_eq_eq] at ha
      rw [hp, many, hq, hr, ha]
  rw [many, hn, upTo_of_some n h, bind_apply, he]
  cases many p c' <;> rfl

/-- Parts that were read are read first. -/
theorem many_of_runs_append (hp : Advances p) (h : Runs p c as d) :
    many p c = (many p d).map fun r => (as ++ r.1, r.2) := by
  induction h with
  | nil c => cases many p c <;> rfl
  | cons h _ _ ih =>
    rw [many_of_some hp h, ih, Option.map_map]
    rfl

/-- What is read as often as it is there is read part by part. -/
theorem runs_of_many (hp : Advances p) (h : many p c = some (as, c')) : Runs p c as c' := by
  induction as generalizing c with
  | nil =>
    cases hc : p c with
    | none =>
      rw [many_of_none hc] at h
      cases h
      exact .nil _
    | some r =>
      rw [many_of_some hp hc] at h
      obtain ⟨_, _, he⟩ := Option.map_eq_some_iff.mp h
      cases he
  | cons a as ih =>
    cases hc : p c with
    | none =>
      rw [many_of_none hc] at h
      cases h
    | some r =>
      obtain ⟨b, d⟩ := r
      rw [many_of_some hp hc] at h
      obtain ⟨⟨bs, e⟩, hm, he⟩ := Option.map_eq_some_iff.mp h
      cases he
      exact .cons hc (by have := (hp _ _ _ hc).2; omega) (ih hm)

end

end Reader

end RelAlg
