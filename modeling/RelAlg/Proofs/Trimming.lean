import RelAlg.Proofs.Heading

/-!
# Trimming

A reference names an attribute by its name alone, or by its qualifier, a point and its name (`Attribute.IsNamedBy`). To trim a
list is to keep the attributes that references name, in the order of the references. It succeeds just if each reference names
one place of the list and the attributes there are written differently (`trim_eq_ok_iff_isOnly`). What is kept has each
attribute once, so a reference that told an attribute from all others still does (`get_of_subset`).
-/

namespace RelAlg

/-! ## What a reference names -/

namespace Attribute

variable {a b : Attribute} {reference : String}

/-- The reference is the name of the attribute, with no qualifier, an empty one or that of the attribute before it. The name
of a reference begins after its last point, so a name with a point in it is never referred to. -/
def IsNamedBy (a : Attribute) (reference : String) : Prop :=
  a.isList = false ∧ '.' ∉ a.name.toList ∧
    (reference = a.name ∨ reference = "." ++ a.name ∨ ∃ q, a.qualifier = some q ∧ reference = q ++ "." ++ a.name)

/-- A reference fits an attribute just if it names it. -/
theorem fits_ofText_iff : (Reference.ofText reference).fits a = true ↔ a.IsNamedBy reference := by
  rw [Reference.fits_iff]
  constructor
  · rintro ⟨hl, hn, hq⟩
    refine ⟨hl, hn ▸ Reference.not_mem_name reference, ?_⟩
    by_cases hdot : '.' ∈ reference.toList
    · have ht := Reference.eq_append_of_mem hdot
      rcases hq with hq | hq
      · rw [hq, hn, String.empty_append] at ht
        exact .inr (.inl ht)
      · rw [hn] at ht
        exact .inr (.inr ⟨_, hq, ht⟩)
    · rw [Reference.ofText_of_not_mem hdot] at hn
      exact .inl hn
  · rintro ⟨hl, hdot, rfl | rfl | ⟨q, hq, rfl⟩⟩
    · rw [Reference.ofText_of_not_mem hdot]
      exact ⟨hl, rfl, .inl rfl⟩
    · rw [show "." ++ a.name = "" ++ "." ++ a.name by rw [String.empty_append], Reference.ofText_append hdot]
      exact ⟨hl, rfl, .inl rfl⟩
    · rw [Reference.ofText_append hdot]
      exact ⟨hl, rfl, .inr hq⟩

/-- An attribute with a name that can be referred to is read back from how it is written, but for an empty qualifier. -/
theorem ofText_qualified (h : '.' ∉ a.name.toList) : Reference.ofText a.qualified = ⟨(given a.qualifier).getD "", a.name⟩ := by
  unfold qualified
  cases given a.qualifier with
  | none => exact Reference.ofText_of_not_mem h
  | some q => exact Reference.ofText_append h

/-- A reference fits an attribute with its name, if it has no qualifier or that of the attribute. -/
theorem fits_iff_given {r : Reference} : r.fits a = true ↔
    a.isList = false ∧ r.name = a.name ∧ (r.qualifier = "" ∨ (given a.qualifier).getD "" = r.qualifier) := by
  rw [Reference.fits_iff]
  refine and_congr_right fun _ => and_congr_right fun _ => or_congr_right' fun hr => ?_
  rcases a.qualifier with _ | q
  · simp [given, Ne.symm hr]
  · rw [given, Option.filter_some]
    by_cases hq : q = "" <;> simp [hq, Ne.symm hr]

/-- Attributes that can be referred to and are written in the same way are named by the same references. -/
theorem IsNamedBy.of_qualified {other : String} (ha : a.IsNamedBy reference) (hb : b.IsNamedBy other)
    (h : b.qualified = a.qualified) : b.IsNamedBy reference := by
  have hread := congrArg Reference.ofText h
  rw [ofText_qualified ha.2.1, ofText_qualified hb.2.1] at hread
  obtain ⟨hq, hn⟩ := Reference.mk.inj hread
  rw [← fits_ofText_iff, fits_iff_given] at ha ⊢
  rw [hn, hq]
  exact ⟨hb.1, ha.2⟩

end Attribute

/-! ## Lists -/

namespace AttributeList

variable {l kept : AttributeList} {a : Attribute} {reference : String} {references : List String}

/-- The reference names the attribute at one place of the list and none at any other. -/
def IsOnly (l : AttributeList) (reference : String) (a : Attribute) : Prop :=
  ∃ before after, l = before ++ a :: after ∧ a.IsNamedBy reference ∧ ∀ b ∈ before ++ after, ¬b.IsNamedBy reference

/-- The list after a call to trim it. A call that fails leaves it as it was. -/
def afterTrim (l : AttributeList) (references : List String) : AttributeList := (l.trim references).toOption.getD l

/-- A reference is resolved just if it names one attribute of the list and no other. -/
theorem get_eq_ok_iff_isOnly : l.get reference = .ok a ↔ l.IsOnly reference a := by
  rw [get_eq_ok_iff]
  constructor
  · intro h
    obtain ⟨before, after, rfl, hbefore, ha, hafter⟩ := List.filter_eq_cons_iff.mp h
    refine ⟨before, after, rfl, Attribute.fits_ofText_iff.mp ha, fun b hb hn => ?_⟩
    rcases List.mem_append.mp hb with hb | hb
    · exact hbefore b hb (Attribute.fits_ofText_iff.mpr hn)
    · exact List.filter_eq_nil_iff.mp hafter b hb (Attribute.fits_ofText_iff.mpr hn)
  · rintro ⟨before, after, rfl, ha, hrest⟩
    have hnone : ∀ part : AttributeList, (∀ b ∈ part, b ∈ before ++ after) →
        part.filter (Reference.ofText reference).fits = [] := fun part hpart =>
      List.filter_eq_nil_iff.mpr fun b hb hf => hrest b (hpart b hb) (Attribute.fits_ofText_iff.mp hf)
    rw [List.filter_append, List.filter_cons_of_pos (Attribute.fits_ofText_iff.mpr ha),
      hnone before fun b hb => List.mem_append_left after hb, hnone after fun b hb => List.mem_append_right before hb,
      List.nil_append]

/-- References that are each resolved are resolved together. -/
theorem resolve_of_forall₂ (h : List.Forall₂ (fun r a => l.get r = .ok a) references kept) :
    l.resolve references = .ok kept := by
  induction h with
  | nil => rfl
  | cons hr _ ih =>
    rw [resolve, hr, ih]
    rfl

/-- What is kept is what the references are resolved to, with no two attributes written alike. -/
theorem trim_eq_ok_iff : l.trim references = .ok kept ↔
    List.Forall₂ (fun r a => l.get r = .ok a) references kept ∧ kept.qualifiedNames.Nodup := by
  refine ⟨trim_ok, fun ⟨hf, hn⟩ => ?_⟩
  rw [trim, resolve_of_forall₂ hf]
  exact if_neg (by rw [(hasDuplicates_eq_false_iff _).mpr hn]; exact Bool.false_ne_true)

/-- A list can be trimmed just if each reference names one place of it and what is kept is written differently. -/
theorem trim_eq_ok_iff_isOnly : l.trim references = .ok kept ↔
    List.Forall₂ l.IsOnly references kept ∧ kept.qualifiedNames.Nodup := by
  simp only [trim_eq_ok_iff, get_eq_ok_iff_isOnly]

/-! ## What is reported -/

/-- A reference that is not resolved is an error of that sort. -/
theorem kind_of_get {e : Error} (h : l.get reference = .error e) : e.kind = .attributeReference := by
  unfold get at h
  split at h <;> cases h <;> rfl

/-- References that are not all resolved are an error of that sort. -/
theorem kind_of_resolve {e : Error} (h : l.resolve references = .error e) : e.kind = .attributeReference := by
  induction references with
  | nil => cases h
  | cons r rs ih =>
    rw [resolve] at h
    cases hr : l.get r with
    | error f =>
      rw [hr] at h
      cases h
      exact kind_of_get hr
    | ok a =>
      rw [hr] at h
      cases hs : l.resolve rs with
      | error f =>
        rw [hs] at h
        cases h
        exact ih hs
      | ok as =>
        rw [hs] at h
        cases h

/-- Keeping attributes fails only by a reference. -/
theorem kind_of_trim {e : Error} (h : l.trim references = .error e) : e.kind = .attributeReference := by
  unfold trim at h
  cases hr : l.resolve references with
  | error f =>
    rw [hr] at h
    cases h
    exact kind_of_resolve hr
  | ok as =>
    simp only [hr, bind, Except.bind] at h
    split at h <;> cases h
    rfl

/-! ## What stays -/

/-- A reference that tells an attribute from all others does so among some of them, each taken once. -/
theorem get_of_subset (hsub : ∀ b ∈ kept, b ∈ l) (hn : kept.Nodup) (h : l.get reference = .ok a) (ha : a ∈ kept) :
    kept.get reference = .ok a := by
  rw [get_eq_ok_iff] at h ⊢
  have heq : ∀ b ∈ kept.filter (Reference.ofText reference).fits, b = a := by
    intro b hb
    obtain ⟨hb, hf⟩ := List.mem_filter.mp hb
    exact List.mem_singleton.mp (h ▸ List.mem_filter.mpr ⟨hsub b hb, hf⟩)
  have hfit : (Reference.ofText reference).fits a = true := (List.mem_filter.mp (h ▸ List.mem_singleton_self a)).2
  have hmem : a ∈ kept.filter (Reference.ofText reference).fits := List.mem_filter.mpr ⟨ha, hfit⟩
  exact List.perm_singleton.mp ((List.perm_ext_iff_of_nodup (hn.filter _) (List.nodup_singleton a)).mpr fun b =>
    ⟨fun hb => List.mem_singleton.mpr (heq b hb), fun hb => List.mem_singleton.mp hb ▸ hmem⟩)

/-- No attribute is kept twice. -/
theorem nodup_of_trim (h : l.trim references = .ok kept) : kept.Nodup := List.Nodup.of_map _ (trim_ok h).2

/-- An attribute that a reference names is kept if one is kept that is written in the same way. -/
theorem mem_of_qualified (h : l.trim references = .ok kept) (hg : l.get reference = .ok a)
    (ha : a.qualified ∈ kept.qualifiedNames) : a ∈ kept := by
  obtain ⟨b, hb, hq⟩ := List.mem_map.mp ha
  obtain ⟨r, hr⟩ := get_of_trim h b hb
  have hnamed := Attribute.fits_ofText_iff.mp (mem_of_get hg).2
  have hother := Attribute.fits_ofText_iff.mp (mem_of_get hr).2
  have hfit := Attribute.fits_ofText_iff.mpr (hnamed.of_qualified hother hq)
  have hba : b ∈ l.filter (Reference.ofText reference).fits := List.mem_filter.mpr ⟨(mem_of_get hr).1, hfit⟩
  rw [get_eq_ok_iff.mp hg] at hba
  exact List.mem_singleton.mp hba ▸ hb

/-- Keeping what is kept changes nothing. -/
theorem trim_of_trim (h : l.trim references = .ok kept) : kept.trim references = .ok kept := by
  obtain ⟨hf, hn⟩ := trim_ok h
  refine trim_eq_ok_iff.mpr ⟨List.forall₂_iff_zip.mpr ⟨hf.length_eq, fun {r b} hz => ?_⟩, hn⟩
  exact get_of_subset (mem_of_trim h) (nodup_of_trim h) (List.forall₂_zip hf hz) (List.of_mem_zip hz).2

/-- For every list and all references: the list can be trimmed just if each reference names an attribute at one place of the
list and none elsewhere, and these attributes are written differently; they are then kept, in the order of the references.
Otherwise an error of a reference to an attribute is reported and the list stays as it was. What is kept is not changed by the
same references again, and every reference that was resolved to an attribute that is kept is resolved to it as before. -/
theorem trim_resolves_references (l : AttributeList) (references : List String) :
    (∀ kept, l.trim references = .ok kept ↔ List.Forall₂ l.IsOnly references kept ∧ kept.qualifiedNames.Nodup) ∧
    ((¬∃ kept : AttributeList, List.Forall₂ l.IsOnly references kept ∧ kept.qualifiedNames.Nodup) →
      ∃ e, l.trim references = .error e ∧ e.kind = .attributeReference ∧ l.afterTrim references = l) ∧
    ∀ kept, l.trim references = .ok kept → l.afterTrim references = kept ∧
      kept.trim references = .ok kept ∧ kept.afterTrim references = kept ∧
      ∀ reference a, l.get reference = .ok a → a.qualified ∈ kept.qualifiedNames → kept.get reference = .ok a := by
  refine ⟨fun kept => trim_eq_ok_iff_isOnly, fun hnone => ?_, fun kept h => ?_⟩
  · cases ht : l.trim references with
    | ok kept => exact absurd ⟨kept, trim_eq_ok_iff_isOnly.mp ht⟩ hnone
    | error e =>
      refine ⟨e, rfl, kind_of_trim ht, ?_⟩
      rw [afterTrim, ht]
      rfl
  · have hagain := trim_of_trim h
    refine ⟨by rw [afterTrim, h]; rfl, hagain, by rw [afterTrim, hagain]; rfl, fun reference a hg ha => ?_⟩
    exact get_of_subset (mem_of_trim h) (nodup_of_trim h) hg (mem_of_qualified h hg ha)

end AttributeList

end RelAlg
