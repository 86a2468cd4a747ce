import Mathlib.Data.List.TakeWhile
import RelAlg.Drawing.Basic

/-!
# Reading brackets

The bracket form of a drawing can be read back. `Drawing.Form` says what the form is: an opening bracket with a label between
dollar signs, any number of children with a blank before each, and a closing bracket with a blank before it. A label ends at the
next dollar sign, so it has none in it. `Drawing.ofBrackets?` reads a text of this form, and no other
(`ofBrackets?_eq_some_iff`), so a text is the form of one drawing at most. The brackets of a drawing without dollar signs in
its labels are its form (`form_brackets`).
-/

namespace RelAlg.Drawing

/-! ## The form -/

/-- What an opening bracket with a label is. -/
def opening (label : String) : List Char := ['[', '.', '$'] ++ label.toList ++ ['$']

/-- A closing bracket, with a blank before it. -/
def closing : List Char := [' ', ']']

/-- The text is the drawings one after the other, each with a blank before it. -/
inductive Forms : List Drawing → List Char → Prop where
  | nil : Forms [] []
  | cons {label : String} {children ds : List Drawing} {inner rest : List Char} (hl : '$' ∉ label.toList)
      (hc : Forms children inner) (hs : Forms ds rest) :
      Forms (node label children :: ds) (' ' :: (opening label ++ inner ++ closing) ++ rest)

/-- The text is the drawing: its label in an opening bracket, its children and a closing bracket. -/
def Form (d : Drawing) (text : List Char) : Prop :=
  ∃ label children inner, d = node label children ∧ '$' ∉ label.toList ∧ Forms children inner ∧
    text = opening label ++ inner ++ closing

/-! ## The reader -/

/-- Read an opening bracket with a label, up to the next dollar sign. -/
def opening? : List Char → Option (String × List Char)
  | '[' :: '.' :: '$' :: cs =>
    match cs.dropWhile (· ≠ '$') with
    | [] => none
    | _ :: rest => some (String.ofList (cs.takeWhile (· ≠ '$')), rest)
  | _ => none

/-- Read drawings up to a closing bracket and this bracket, in at most so many steps. -/
def readAll : Nat → List Char → Option (List Drawing × List Char)
  | 0, _ => none
  | _ + 1, ' ' :: ']' :: rest => some ([], rest)
  | steps + 1, ' ' :: cs => do
    let (label, inner) ← opening? cs
    let (children, after) ← readAll steps inner
    let (ds, rest) ← readAll steps after
    return (node label children :: ds, rest)
  | _, _ => none

/-- The drawing that a text is the brackets of. -/
def ofBrackets? (text : List Char) : Option Drawing := do
  let (label, inner) ← opening? text
  let (children, rest) ← readAll text.length inner
  if rest.isEmpty then some (node label children) else none

theorem opening?_eq_some_iff {cs rest : List Char} {label : String} :
    opening? cs = some (label, rest) ↔ '$' ∉ label.toList ∧ cs = opening label ++ rest := by
  constructor
  · intro h
    unfold opening? at h
    split at h
    · rename_i cs
      have hparts := List.takeWhile_append_dropWhile (p := (· ≠ '$')) (l := cs)
      split at h
      · cases h
      · rename_i x rest hd
        have hx := List.head?_dropWhile_not (· ≠ '$') cs
        rw [hd] at hx hparts
        cases h
        obtain rfl : x = '$' := by simpa using hx
        refine ⟨?_, ?_⟩
        · rw [String.toList_ofList]
          exact fun hm => absurd (List.all_eq_true.mp List.all_takeWhile '$' hm) (by decide)
        · rw [opening, String.toList_ofList]
          simpa using hparts.symm
    · cases h
  · rintro ⟨hl, rfl⟩
    have hp : ∀ c ∈ label.toList, decide (c ≠ '$') = true := fun c hc => by
      simpa using fun e : c = '$' => hl (e ▸ hc)
    have htext : opening label ++ rest = '[' :: '.' :: '$' :: (label.toList ++ '$' :: rest) := by simp [opening]
    rw [htext, opening?, List.dropWhile_append_of_pos hp, List.takeWhile_append_of_pos hp]
    simp

/-- A label is read off the opening bracket that has it. -/
theorem opening?_append {label : String} (h : '$' ∉ label.toList) (rest : List Char) :
    opening? (opening label ++ rest) = some (label, rest) := opening?_eq_some_iff.mpr ⟨h, rfl⟩

/-- What is read has the form. -/
theorem forms_of_readAll {steps : Nat} {cs rest : List Char} {ds : List Drawing} (h : readAll steps cs = some (ds, rest)) :
    ∃ inner, Forms ds inner ∧ cs = inner ++ closing ++ rest := by
  fun_induction readAll steps cs generalizing ds rest with
  | case1 => cases h
  | case2 =>
    cases h
    exact ⟨[], .nil, rfl⟩
  | case3 steps cs _ ih =>
    obtain ⟨⟨label, text⟩, ho, h⟩ := Option.bind_eq_some_iff.mp h
    obtain ⟨⟨children, after⟩, hc, h⟩ := Option.bind_eq_some_iff.mp h
    obtain ⟨⟨more, last⟩, hs, h⟩ := Option.bind_eq_some_iff.mp h
    cases h
    obtain ⟨hl, rfl⟩ := opening?_eq_some_iff.mp ho
    obtain ⟨inner, hinner, rfl⟩ := ih _ hc
    obtain ⟨next, hnext, rfl⟩ := ih _ hs
    exact ⟨_, .cons hl hinner hnext, by simp⟩
  | case4 => cases h

/-- What has the form is read, given more steps than it has characters. -/
theorem Forms.readAll_eq {ds : List Drawing} {inner : List Char} (h : Forms ds inner) {n : Nat} (hn : inner.length < n)
    (rest : List Char) : readAll n (inner ++ closing ++ rest) = some (ds, rest) := by
  induction h generalizing n rest with
  | nil =>
    obtain ⟨m, rfl⟩ : ∃ m, n = m + 1 := ⟨n - 1, by omega⟩
    rfl
  | @cons label children ds inner after hl _ _ ihc ihs =>
    simp only [List.length_append, List.length_cons] at hn
    obtain ⟨m, rfl⟩ : ∃ m, n = m + 1 := ⟨n - 1, by omega⟩
    have hc := ihc (n := m) (by omega) (after ++ closing ++ rest)
    have hs := ihs (n := m) (by omega) rest
    have htext : ' ' :: (opening label ++ inner ++ closing) ++ after ++ closing ++ rest
        = ' ' :: (opening label ++ (inner ++ closing ++ (after ++ closing ++ rest))) := by simp
    rw [htext]
    show (opening? (opening label ++ _) >>= _) = _
    rw [opening?_append hl]
    show (readAll m _ >>= _) = _
    rw [hc]
    show (readAll m _ >>= _) = _
    rw [hs]
    rfl

/-- A text is read as a drawing just if it has the form of it. -/
theorem ofBrackets?_eq_some_iff {text : List Char} {d : Drawing} : ofBrackets? text = some d ↔ d.Form text := by
  constructor
  · intro h
    obtain ⟨⟨label, inner⟩, ho, h⟩ := Option.bind_eq_some_iff.mp h
    obtain ⟨⟨children, rest⟩, hc, h⟩ := Option.bind_eq_some_iff.mp h
    obtain ⟨he, h⟩ := Option.ite_none_right_eq_some.mp h
    cases h
    obtain ⟨hl, rfl⟩ := opening?_eq_some_iff.mp ho
    obtain ⟨inner, hinner, rfl⟩ := forms_of_readAll hc
    rw [List.isEmpty_iff.mp he, List.append_nil]
    exact ⟨label, children, inner, rfl, hl, hinner, (List.append_assoc _ _ _).symm⟩
  · rintro ⟨label, children, inner, rfl, hl, hinner, rfl⟩
    have hn : inner.length < (opening label ++ inner ++ closing).length := by
      simp only [List.length_append, closing, List.length_cons]
      omega
    have hc := hinner.readAll_eq hn []
    rw [List.append_nil] at hc
    rw [List.append_assoc] at hc ⊢
    unfold ofBrackets?
    rw [opening?_append hl]
    show (readAll _ _ >>= _) = _
    rw [hc]
    rfl

/-! ## Brackets -/

/-- The labels of drawings, those of a node before those of its children. -/
def labels : List Drawing → List String
  | [] => []
  | node label children :: ds => label :: labels children ++ labels ds

theorem labels_cons (d : Drawing) (ds : List Drawing) : labels (d :: ds) = labels [d] ++ labels ds := by
  cases d
  simp [labels]

theorem toList_bracketsAll_cons (label : String) (children ds : List Drawing) :
    (bracketsAll (node label children :: ds)).toList
      = opening label ++ ' ' :: (bracketsAll children).toList ++ [']', ' '] ++ (bracketsAll ds).toList := by
  simp [bracketsAll, brackets, opening]

/-- The brackets of drawings, with a blank before them, are their form with a blank behind it. -/
theorem exists_forms_bracketsAll : (ds : List Drawing) → (∀ l ∈ labels ds, '$' ∉ l.toList) →
    ∃ inner, Forms ds inner ∧ ' ' :: (bracketsAll ds).toList = inner ++ [' ']
  | [], _ => ⟨[], .nil, by simp [bracketsAll]⟩
  | node label children :: ds, h => by
    rw [labels, List.forall_mem_append, List.forall_mem_cons] at h
    obtain ⟨inner, hinner, hi⟩ := exists_forms_bracketsAll children h.1.2
    obtain ⟨rest, hrest, hr⟩ := exists_forms_bracketsAll ds h.2
    refine ⟨_, .cons h.1.1 hinner hrest, ?_⟩
    rw [toList_bracketsAll_cons, hi]
    simp [closing, ← hr]

/-- A drawing without dollar signs in its labels has its brackets as its form. -/
theorem form_brackets {d : Drawing} (h : ∀ l ∈ labels [d], '$' ∉ l.toList) : d.Form d.brackets.toList := by
  obtain ⟨label, children⟩ := d
  rw [labels, labels, List.append_nil, List.forall_mem_cons] at h
  obtain ⟨inner, hinner, hi⟩ := exists_forms_bracketsAll children h.2
  refine ⟨label, children, inner, rfl, h.1, hinner, ?_⟩
  have hb : (node label children).brackets.toList = opening label ++ (' ' :: (bracketsAll children).toList) ++ [']'] := by
    simp [brackets, opening]
  rw [hb, hi]
  simp [closing]

end RelAlg.Drawing
