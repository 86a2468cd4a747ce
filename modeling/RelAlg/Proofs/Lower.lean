import RelAlg.Proofs.Schema

/-!
# Small letters are final

A text in small letters stays as it is in small letters (`Text.lower_lower`): no image of the case mapping has another image. For
the spans of the tables that is a fact about two spans at a time: the images of one lie outside the other, or between the
code points that it maps.
-/

namespace RelAlg.Text

/-! ## Spans -/

/-- No image of the first span is a code point that the second one maps: it lies outside of it, or between its steps. -/
def CaseSpan.avoids (s t : CaseSpan) : Bool :=
  s.image + (s.last - s.first) < t.first || t.last < s.image
    || (t.first ≤ s.image && (s.first = s.last || s.step % t.step = 0) && (s.image - t.first) % t.step ≠ 0)

/-- A span that avoids another one maps into nothing that the other maps. -/
theorem CaseSpan.image?_of_avoids {s t : CaseSpan} {n m : Nat} (h : s.avoids t = true) (hn : s.image? n = some m) :
    t.image? m = none := by
  obtain ⟨⟨hf, hl, hm⟩, rfl⟩ := of_image? hn
  simp only [avoids, Bool.or_eq_true, Bool.and_eq_true, decide_eq_true_eq, ne_eq] at h
  refine if_neg fun ⟨htf, htl, htm⟩ => ?_
  rcases h with (h | h) | ⟨⟨hft, hstep⟩, hne⟩
  · omega
  · omega
  · -- the way from the first image is made of whole steps, so it cannot lead to a code point that is mapped
    have hd : (n - s.first) % t.step = 0 := by
      rcases hstep with he | he
      · rw [show n - s.first = 0 by omega, Nat.zero_mod]
      · exact Nat.mod_eq_zero_of_dvd (Nat.dvd_trans (Nat.dvd_of_mod_eq_zero he) (Nat.dvd_of_mod_eq_zero hm))
    apply hne
    rw [show s.image + (n - s.first) - t.first = (s.image - t.first) + (n - s.first) by omega, Nat.add_mod, hd,
      Nat.add_zero, Nat.mod_mod] at htm
    exact htm

/-- A code point without a small form of its own. -/
def isSmallCode (n : Nat) : Bool := lowerChar (Char.ofNat n) = [Char.ofNat n]

/-- A span with one code point has a final image; the images of any other span are beyond ASCII, have no longer form, and no
span maps them. -/
def CaseSpan.isFinal (s : CaseSpan) : Bool :=
  if s.first = s.last then isSmallCode s.image
  else 128 ≤ s.image
    && smallExpansions.all (fun e => s.image + (s.last - s.first) < e.1 || e.1 < s.image)
    && smallSpans.all fun t => s.avoids t

theorem isFinal_of_mem : ∀ s ∈ smallSpans, s.isFinal = true := by decide +kernel

theorem isSmallCode_of_expansion : ∀ e ∈ smallExpansions, ∀ n ∈ e.2, isSmallCode n = true := by decide +kernel

/-- A code point beyond ASCII that the tables do not map is its own small form. -/
theorem isSmallCode_of_unmapped {m : Nat} (ha : 128 ≤ m) (he : smallExpansions.lookup m = none)
    (hs : smallSpans.findSome? (·.image? m) = none) : isSmallCode m = true := by
  refine decide_eq_true ?_
  by_cases hv : m.isValidChar
  · rw [lowerChar, mapCase, Char.toNat_ofNat, if_pos hv, if_neg (by omega), he]
    simp only [hs]
  · rw [Char.ofNat, dif_neg hv]
    decide

/-- The images of a final span have no small form of their own. -/
theorem isSmallCode_of_image {s : CaseSpan} {n m : Nat} (h : s.isFinal = true) (hn : s.image? n = some m) :
    isSmallCode m = true := by
  obtain ⟨hs, rfl⟩ := CaseSpan.of_image? hn
  unfold CaseSpan.isFinal at h
  split at h
  · rwa [show s.image + (n - s.first) = s.image by omega]
  · simp only [Bool.and_eq_true, decide_eq_true_eq, List.all_eq_true, Bool.or_eq_true] at h
    obtain ⟨⟨ha, he⟩, hspans⟩ := h
    refine isSmallCode_of_unmapped (by omega) (List.lookup_eq_none_iff.mpr fun e hmem => ?_)
      (List.findSome?_eq_none_iff.mpr fun t ht => CaseSpan.image?_of_avoids (hspans t ht) hn)
    have hne := he e hmem
    exact bne_iff_ne.mpr (by omega)

/-! ## Characters and texts -/

/-- What is no capital letter is its own small form. -/
theorem toLower_of_not_isUpper {c : Char} (h : c.isUpper = false) : c.toLower = c := by
  unfold Char.toLower
  exact dif_neg (by simpa [Char.isUpper] using h)

/-- The small form of a character is made of characters that are their own small forms. -/
theorem lowerChar_of_mem {c d : Char} (h : d ∈ lowerChar c) : lowerChar d = [d] := by
  have hu := isUpper_of_mem_lowerChar h
  by_cases hc : c.toNat < 128
  · rw [lowerChar, if_pos hc, List.mem_singleton] at h
    subst h
    have hd : c.toLower.toNat < 128 := by
      have hall : ∀ n : Fin 128, (Char.ofNat n).toLower.toNat < 128 := by decide
      have := hall ⟨c.toNat, hc⟩
      rwa [Char.ofNat_toNat] at this
    rw [lowerChar, if_pos hd, toLower_of_not_isUpper hu]
  · rw [lowerChar, if_neg hc] at h
    obtain ⟨e, he, hm⟩ | ⟨s, hs, n, hi, hm⟩ | hm := mapCase_cases smallSpans smallExpansions c <;> rw [hm] at h
    · obtain ⟨n, hn, rfl⟩ := List.mem_map.mp h
      exact of_decide_eq_true (isSmallCode_of_expansion e he n hn)
    · rw [List.mem_singleton.mp h]
      exact of_decide_eq_true (isSmallCode_of_image (isFinal_of_mem s hs) hi)
    · rw [List.mem_singleton.mp h, lowerChar, if_neg hc, hm]

/-- A text of characters that are their own small forms is its own. -/
theorem lowerFrom_of_final (before cs : List Char) (h : ∀ c ∈ cs, lowerChar c = [c]) : lowerFrom before cs = cs := by
  have hsigma : lowerChar capitalSigma ≠ [capitalSigma] := by decide +kernel
  induction cs generalizing before with
  | nil => rfl
  | cons c cs ih =>
    have hc := h c List.mem_cons_self
    have hs : c ≠ capitalSigma := by
      rintro rfl
      exact hsigma hc
    rw [lowerFrom, if_neg hs, hc, ih _ fun d hd => h d (List.mem_cons_of_mem c hd)]
    rfl

/-- Every character of a small form is its own small form. -/
theorem final_of_lowerFrom (before cs : List Char) : ∀ d ∈ lowerFrom before cs, lowerChar d = [d] := by
  induction cs generalizing before with
  | nil => nofun
  | cons c cs ih =>
    intro d hd
    rw [lowerFrom, List.mem_append] at hd
    rcases hd with hd | hd
    · split at hd
      · rw [List.mem_singleton.mp hd, smallSigma]
        split <;> decide +kernel
      · exact lowerChar_of_mem hd
    · exact ih _ d hd

/-- A text in small letters stays as it is. -/
theorem lower_lower (s : String) : lower (lower s) = lower s := by
  have h := lowerFrom_of_final [] _ (final_of_lowerFrom [] s.toList)
  rw [lower, lower, String.toList_ofList, h]

end RelAlg.Text
