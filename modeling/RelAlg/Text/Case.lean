import RelAlg.Text.CaseTable

/-!
# Letter case

`lower` and `upper` map a text letter by letter with the full case mappings: a letter may become several, and a capital
sigma at the end of a word becomes the final small sigma. On ASCII letters both are the usual shift.
-/

namespace RelAlg.Text

/-- The code point lies in one of the ranges. -/
def inRanges (ranges : List (Nat × Nat)) (n : Nat) : Bool :=
  ranges.any fun r => r.1 ≤ n && n ≤ r.2

/-- The image of a character under a table of spans and longer forms. -/
def mapCase (spans : List CaseSpan) (longer : List (Nat × List Nat)) (c : Char) : List Char :=
  match longer.lookup c.toNat with
  | some codes => codes.map Char.ofNat
  | none =>
    match spans.findSome? (·.image? c.toNat) with
    | some n => [Char.ofNat n]
    | none => [c]

/-- The image of a character is a longer form, the image in a span, or the character. -/
theorem mapCase_cases (spans : List CaseSpan) (longer : List (Nat × List Nat)) (c : Char) :
    (∃ e ∈ longer, mapCase spans longer c = e.2.map Char.ofNat) ∨
      (∃ s ∈ spans, ∃ n, s.image? c.toNat = some n ∧ mapCase spans longer c = [Char.ofNat n]) ∨
      mapCase spans longer c = [c] := by
  unfold mapCase
  split
  · rename_i codes hk
    obtain ⟨l₁, l₂, he, -⟩ := List.lookup_eq_some_iff.mp hk
    exact .inl ⟨(c.toNat, codes), by rw [he]; simp, rfl⟩
  · split
    · rename_i n hk
      obtain ⟨s, hs, hn⟩ := List.exists_of_findSome?_eq_some hk
      exact .inr (.inl ⟨s, hs, n, hn, rfl⟩)
    · exact .inr (.inr rfl)

/-- No character is lost. -/
theorem mapCase_ne_nil {spans : List CaseSpan} {longer : List (Nat × List Nat)} (h : ∀ e ∈ longer, e.2 ≠ []) (c : Char) :
    mapCase spans longer c ≠ [] := by
  obtain ⟨e, he, hm⟩ | ⟨_, _, n, _, hm⟩ | hm := mapCase_cases spans longer c <;> rw [hm]
  · simpa using h e he
  · exact List.cons_ne_nil _ []
  · exact List.cons_ne_nil c []

/-- The small form of a character that stands alone. -/
def lowerChar (c : Char) : List Char :=
  if c.toNat < 128 then [c.toLower] else mapCase smallSpans smallExpansions c

/-- The capital form of a character. -/
def upperChar (c : Char) : List Char :=
  if c.toNat < 128 then [c.toUpper] else mapCase capitalSpans capitalExpansions c

/-- A letter that has a case. -/
def isCased (c : Char) : Bool :=
  if c.toNat < 128 then c.isAlpha else inRanges casedRanges c.toNat

/-- A mark that is passed over when the letters around a sigma are looked for. -/
def isIgnorable (c : Char) : Bool :=
  if c.toNat < 128 then [0x27, 0x2e, 0x3a, 0x5e, 0x60].contains c.toNat else inRanges ignorableRanges c.toNat

/-- The first character that is not passed over has a case. -/
def startsCased (cs : List Char) : Bool :=
  match cs.dropWhile isIgnorable with
  | [] => false
  | c :: _ => isCased c

/-- Capital sigma. -/
def capitalSigma : Char := Char.ofNat 0x3a3

/-- The small sigma inside a word and the one that ends a word. -/
def smallSigma (final : Bool) : Char := Char.ofNat (if final then 0x3c2 else 0x3c3)

/-- Lower-case `cs`, where `before` holds the characters already passed, the nearest first. -/
def lowerFrom (before : List Char) : List Char → List Char
  | [] => []
  | c :: cs =>
    (if c = capitalSigma then [smallSigma (startsCased before && !startsCased cs)] else lowerChar c)
      ++ lowerFrom (c :: before) cs

/-- The text in small letters. -/
def lower (s : String) : String := String.ofList (lowerFrom [] s.toList)

/-- The characters in capital letters. -/
def upper (cs : List Char) : List Char := cs.flatMap upperChar

end RelAlg.Text
