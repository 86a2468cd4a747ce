import RelAlg.Proofs.Owned

/-!
# Renaming

A renaming may give new names, a new qualifier, or both, and which of its checks runs depends on what is given: new names must
be as many as the attributes and distinct, and old names must be distinct if they are to stand under one new qualifier
(`rename_eq_error_iff`). A list that is renamed has the new names and the new qualifier where they are given and the old ones
elsewhere (`IsRenaming`). Under a new qualifier it is owned by it, so each attribute is found by how it is written, even if the
old list was ambiguous; and where new names are given as well, nothing of the old list is left but its length
(`rename_words_of_isGiven`). Main statement: `rename_unambiguous`.
-/

namespace RelAlg

/-! ## What is given -/

/-- There is a name, and it is not empty. -/
def IsGiven (name : Option String) : Prop := ∃ n, n ≠ "" ∧ name = some n

/-- That a name is given can be computed. -/
theorem isGiven_iff {name : Option String} : IsGiven name ↔ (given name).isSome = true := by
  cases name with
  | none => simp [IsGiven, given]
  | some n => simp [IsGiven, given, Option.isSome_filter]

instance (name : Option String) : Decidable (IsGiven name) := decidable_of_iff _ isGiven_iff.symm

/-- A name that is given is taken, and else the other one. -/
theorem given_or (name other : Option String) : (given name).or other = if IsGiven name then name else other := by
  split
  · rename_i h
    obtain ⟨n, hn, rfl⟩ := h
    simp [given, hn]
  · rename_i h
    rw [isGiven_iff, Bool.not_eq_true, Option.isSome_eq_false_iff, Option.isNone_iff_eq_none] at h
    rw [h, Option.none_or]

/-- A reference can name an attribute by the text: it is not empty and has no point in it. -/
def IsReferable (name : String) : Prop := name ≠ "" ∧ '.' ∉ name.toList

instance (name : String) : Decidable (IsReferable name) := inferInstanceAs (Decidable (name ≠ "" ∧ '.' ∉ name.toList))

namespace AttributeList

variable {l renamed : AttributeList} {names : List String} {qualifier : Option String}

/-! ## What is refused -/

/-- What a renaming reports, and when: the checks of new names come first, and old names are checked only if they stay. -/
theorem rename_eq_error_iff {e : Error} (hl : ∀ a ∈ l, a.isList = false) (hn : ∀ n ∈ names, n ≠ "") :
    l.rename (names.map Phrase.word) qualifier = .error e ↔
      names ≠ [] ∧ names.length ≠ l.length ∧ e = .attributeCount
        ∨ names ≠ [] ∧ names.length = l.length ∧ ¬names.Nodup ∧ e = .repeatedName
        ∨ names = [] ∧ IsGiven qualifier ∧ ¬l.names.Nodup ∧ e = .ambiguousNames := by
  by_cases hne : names = []
  · subst hne
    rw [List.map_nil, rename_nil, textNames_eq_names hl]
    constructor
    · intro h
      split at h <;> cases h
      rename_i hc
      exact .inr (.inr ⟨rfl, isGiven_iff.mpr hc.1, hc.2, rfl⟩)
    · rintro (⟨hne, -⟩ | ⟨hne, -⟩ | ⟨-, hq, hd, rfl⟩)
      · exact absurd rfl hne
      · exact absurd rfl hne
      · exact if_pos ⟨isGiven_iff.mp hq, hd⟩
  · rw [rename_words qualifier hne hn]
    constructor
    · intro h
      split at h
      · rename_i hc
        cases h
        exact .inl ⟨hne, hc, rfl⟩
      · rename_i hc
        split at h <;> cases h
        rename_i hd
        exact .inr (.inl ⟨hne, not_not.mp hc, hd, rfl⟩)
    · rintro (⟨-, hc, rfl⟩ | ⟨-, hc, hd, rfl⟩ | ⟨he, -⟩)
      · exact if_pos hc
      · rw [if_neg (not_not.mpr hc), if_pos hd]
      · exact absurd he hne

/-- New names are refused just if they are not as many as the attributes or if two are the same. -/
theorem rename_input_iff (hl : ∀ a ∈ l, a.isList = false) (hn : ∀ n ∈ names, n ≠ "") :
    (∃ e, l.rename (names.map Phrase.word) qualifier = .error e ∧ e.kind = .input) ↔
      names ≠ [] ∧ (names.length ≠ l.length ∨ ¬names.Nodup) := by
  simp only [rename_eq_error_iff hl hn]
  constructor
  · rintro ⟨e, ⟨hne, hc, -⟩ | ⟨hne, -, hd, -⟩ | ⟨-, -, -, rfl⟩, hk⟩
    · exact ⟨hne, .inl hc⟩
    · exact ⟨hne, .inr hd⟩
    · cases hk
  · rintro ⟨hne, h⟩
    by_cases hc : names.length = l.length
    · exact ⟨_, .inr (.inl ⟨hne, hc, h.resolve_left (not_not.mpr hc), rfl⟩), rfl⟩
    · exact ⟨_, .inl ⟨hne, hc, rfl⟩, rfl⟩

/-- A new qualifier alone is refused just if two attributes have one name. -/
theorem rename_attributeReference_iff (hl : ∀ a ∈ l, a.isList = false) (hn : ∀ n ∈ names, n ≠ "") :
    (∃ e, l.rename (names.map Phrase.word) qualifier = .error e ∧ e.kind = .attributeReference) ↔
      names = [] ∧ IsGiven qualifier ∧ ¬l.names.Nodup := by
  simp only [rename_eq_error_iff hl hn]
  constructor
  · rintro ⟨e, ⟨-, -, rfl⟩ | ⟨-, -, -, rfl⟩ | ⟨he, hq, hd, -⟩, hk⟩
    · cases hk
    · cases hk
    · exact ⟨he, hq, hd⟩
  · rintro ⟨he, hq, hd⟩
    exact ⟨_, .inr (.inr ⟨he, hq, hd, rfl⟩), rfl⟩

/-- A renaming is refused in these two ways only. -/
theorem kind_of_rename {e : Error} (hl : ∀ a ∈ l, a.isList = false) (hn : ∀ n ∈ names, n ≠ "")
    (h : l.rename (names.map Phrase.word) qualifier = .error e) : e.kind = .input ∨ e.kind = .attributeReference := by
  rcases (rename_eq_error_iff hl hn).mp h with ⟨-, -, rfl⟩ | ⟨-, -, -, rfl⟩ | ⟨-, -, -, rfl⟩
  · exact .inl rfl
  · exact .inl rfl
  · exact .inr rfl

/-! ## What comes out -/

/-- The second list is the first under new names and a new qualifier: it is as long, it has the new names if there are any and
the old ones otherwise, and each attribute is under the new qualifier if that is given and under its old one otherwise. No
name is a list. -/
structure IsRenaming (l : AttributeList) (names : List String) (qualifier : Option String) (renamed : AttributeList) : Prop where
  length_eq : renamed.length = l.length
  names_eq : renamed.names = if names = [] then l.names else names
  qualifiers_eq : renamed.map (·.qualifier) = l.map fun a => if IsGiven qualifier then qualifier else a.qualifier
  texts : ∀ a ∈ renamed, a.isList = false

/-- The list after a call to rename it. A call that fails leaves it as it was. -/
def afterRename (l : AttributeList) (names : List String) (qualifier : Option String) : AttributeList :=
  (l.rename (names.map Phrase.word) qualifier).toOption.getD l

/-- Attributes are under the new qualifier if one is given, and else under their own. -/
theorem qualifiers_zipWith (h : names.length = l.length) :
    (List.zipWith (renamedTo qualifier) l names).map (·.qualifier)
      = l.map fun a => if IsGiven qualifier then qualifier else a.qualifier := by
  have hfirst : (l.zip names).map Prod.fst = l := List.map_fst_zip h.ge
  rw [← List.map_uncurry_zip_eq_zipWith, List.map_map]
  nth_rewrite 2 [← hfirst]
  rw [List.map_map]
  exact List.map_congr_left fun x _ => given_or qualifier x.1.qualifier

/-- What comes out of a renaming is the list under the new names and the new qualifier. -/
theorem isRenaming_of_rename (hl : ∀ a ∈ l, a.isList = false) (hn : ∀ n ∈ names, n ≠ "")
    (h : l.rename (names.map Phrase.word) qualifier = .ok renamed) : l.IsRenaming names qualifier renamed where
  length_eq := length_of_rename h
  names_eq := by
    rcases rename_ok hn h with ⟨rfl, rfl⟩ | ⟨hlength, -, rfl⟩
    · simp [AttributeList.names, requalify, Function.comp_def]
    · rw [names_zipWith hlength]
      split
      -- as many names as attributes, and no names: the list was empty
      · rename_i he
        subst he
        rw [List.length_eq_zero_iff.mp hlength.symm]
        rfl
      · rfl
  qualifiers_eq := by
    rcases rename_ok hn h with ⟨-, rfl⟩ | ⟨hlength, -, rfl⟩
    · rw [List.map_map]
      exact List.map_congr_left fun a _ => given_or qualifier a.qualifier
    · exact qualifiers_zipWith hlength
  texts := isList_of_rename hn hl h

/-- What holds of the old names and of the new ones holds of those that come out. -/
theorem IsRenaming.forall_name {P : String → Prop} (h : l.IsRenaming names qualifier renamed) (hl : ∀ a ∈ l, P a.name)
    (hn : ∀ n ∈ names, P n) : ∀ a ∈ renamed, P a.name := by
  rw [← List.forall_mem_map (P := P), ← AttributeList.names, h.names_eq]
  split
  · exact List.forall_mem_map.mpr hl
  · exact hn

/-- Under a qualifier that is given, attributes are written differently and found by how they are written. -/
theorem found_of_rename (hl : ∀ a ∈ l, a.isList = false ∧ IsReferable a.name) (hn : ∀ n ∈ names, IsReferable n)
    (hq : IsGiven qualifier) (h : l.rename (names.map Phrase.word) qualifier = .ok renamed) :
    renamed.qualifiedNames.Nodup ∧ ∀ a ∈ renamed, renamed.get a.qualified = .ok a := by
  -- the list is owned by the qualifier whichever of the two checks was made
  obtain ⟨p, hp, rfl⟩ := hq
  have hne : ∀ n ∈ names, n ≠ "" := fun n hm => (hn n hm).1
  have htexts : ∀ a ∈ l, a.isList = false := fun a ha => (hl a ha).1
  have howned : renamed.Owned p := owned_of_rename hp hne htexts h
  have hrenaming := isRenaming_of_rename htexts hne h
  have hdots : ∀ a ∈ renamed, '.' ∉ a.name.toList := fun a ha =>
    (hrenaming.forall_name (fun b hb => (hl b hb).2) hn a ha).2
  have hnodup := howned.nodup_qualifiedNames hp hdots
  exact ⟨hnodup, fun a ha => get_of_nodup hnodup (fun b hb => ⟨p, howned.qualified b hb, hp⟩) hdots hrenaming.texts ha⟩

/-! ## One renaming after another -/

/-- With new names under a given qualifier nothing is taken over from the old attributes. -/
theorem zipWith_renamedTo (hq : IsGiven qualifier) (h : names.length = l.length) :
    List.zipWith (renamedTo qualifier) l names = ofNames names qualifier := by
  have hsecond : (l.zip names).map Prod.snd = names := List.map_snd_zip h.le
  rw [← List.map_uncurry_zip_eq_zipWith, ofNames]
  nth_rewrite 2 [← hsecond]
  rw [List.map_map]
  refine List.map_congr_left fun x _ => ?_
  show renamedTo qualifier x.1 x.2 = ⟨x.2, qualifier, false⟩
  rw [renamedTo, given_or, if_pos hq]

/-- The outcome of a renaming that gives both names and a qualifier depends on the length of the old list alone. -/
theorem rename_words_of_isGiven (hne : names ≠ []) (hn : ∀ n ∈ names, n ≠ "") (hq : IsGiven qualifier) :
    l.rename (names.map Phrase.word) qualifier = if names.length ≠ l.length then .error .attributeCount
      else if ¬names.Nodup then .error .repeatedName
      else .ok (ofNames names qualifier) := by
  rw [rename_words qualifier hne hn]
  split
  · rfl
  · rename_i hlength
    rw [zipWith_renamedTo hq (not_not.mp hlength)]

/-- New names under a given qualifier do not depend on an earlier renaming. -/
theorem rename_of_rename {first : List Phrase} {other : Option String} (hne : names ≠ []) (hn : ∀ n ∈ names, n ≠ "")
    (hq : IsGiven qualifier) (h : l.rename first other = .ok renamed) :
    renamed.rename (names.map Phrase.word) qualifier = l.rename (names.map Phrase.word) qualifier := by
  rw [rename_words_of_isGiven hne hn hq, rename_words_of_isGiven hne hn hq, length_of_rename h]

/-- For every list, all new names and every new qualifier, where each name is a text that is not empty and has no point in it:
a list that is renamed has the new names and the new qualifier where they are given and the old ones otherwise; and under a
qualifier that is given, its attributes are written differently and each is found by how it is written. A renaming that fails
leaves the list as it was. It fails for its input just if there are new names, and they are not as many as the attributes or
one of them stands twice; it fails for a reference just if there are none, a qualifier is given and an old name stands twice;
and it fails for nothing else. With new names under a given qualifier, a renaming has the same outcome after any other that
succeeds. -/
theorem rename_unambiguous (l : AttributeList) (names : List String) (qualifier : Option String)
    (hl : ∀ a ∈ l, a.isList = false ∧ IsReferable a.name) (hn : ∀ n ∈ names, IsReferable n) :
    (∀ renamed, l.rename (names.map Phrase.word) qualifier = .ok renamed →
      l.afterRename names qualifier = renamed ∧ l.IsRenaming names qualifier renamed ∧
      (IsGiven qualifier → renamed.qualifiedNames.Nodup ∧ ∀ a ∈ renamed, renamed.get a.qualified = .ok a)) ∧
    (∀ e, l.rename (names.map Phrase.word) qualifier = .error e →
      l.afterRename names qualifier = l ∧ (e.kind = .input ∨ e.kind = .attributeReference)) ∧
    ((∃ e, l.rename (names.map Phrase.word) qualifier = .error e ∧ e.kind = .input) ↔
      names ≠ [] ∧ (names.length ≠ l.length ∨ ¬names.Nodup)) ∧
    ((∃ e, l.rename (names.map Phrase.word) qualifier = .error e ∧ e.kind = .attributeReference) ↔
      names = [] ∧ IsGiven qualifier ∧ ¬l.names.Nodup) ∧
    (names ≠ [] → IsGiven qualifier → ∀ (first : List Phrase) (other : Option String) (renamed : AttributeList),
      l.rename first other = .ok renamed →
        renamed.rename (names.map Phrase.word) qualifier = l.rename (names.map Phrase.word) qualifier) := by
  have htexts : ∀ a ∈ l, a.isList = false := fun a ha => (hl a ha).1
  have hne : ∀ n ∈ names, n ≠ "" := fun n hm => (hn n hm).1
  refine ⟨fun renamed h => ?_, fun e h => ?_, rename_input_iff htexts hne, rename_attributeReference_iff htexts hne,
    fun hnames hq first other renamed h => rename_of_rename hnames hne hq h⟩
  · exact ⟨by rw [afterRename, h]; rfl, isRenaming_of_rename htexts hne h, fun hq => found_of_rename hl hn hq h⟩
  · exact ⟨by rw [afterRename, h]; rfl, kind_of_rename htexts hne h⟩

/-- Two attributes of one name, which a bare reference does not tell apart. -/
def sharedName : AttributeList := ofNames ["a"] (some "r") ++ ofNames ["a"] (some "s")

theorem rename_unambiguous_of_sharedName :
    (∀ a ∈ sharedName, a.isList = false ∧ IsReferable a.name) ∧ (∀ n ∈ ["x", "y"], IsReferable n) ∧
    (∃ e, sharedName.rename [] (some "mask") = .error e ∧ e.kind = .attributeReference) ∧
    ∃ first renamed, sharedName.rename [.word "a", .word "b"] none = .ok first ∧ first.qualifiedNames = ["r.a", "s.b"] ∧
      first.rename [.word "x", .word "y"] (some "mask") = .ok renamed ∧ renamed.qualifiedNames = ["mask.x", "mask.y"] ∧
      sharedName.IsRenaming ["x", "y"] (some "mask") renamed ∧ renamed.qualifiedNames.Nodup ∧
      ∀ a ∈ renamed, renamed.get a.qualified = .ok a := by
  have hl : ∀ a ∈ sharedName, a.isList = false ∧ IsReferable a.name := by decide
  have hn : ∀ n ∈ ["x", "y"], IsReferable n := by decide
  have hq : IsGiven (some "mask") := ⟨"mask", by decide, rfl⟩
  have hok : sharedName.rename [.word "x", .word "y"] (some "mask") = .ok (ofNames ["x", "y"] (some "mask")) := rfl
  have hfirst : sharedName.rename [.word "a", .word "b"] none
      = .ok (ofNames ["a"] (some "r") ++ ofNames ["b"] (some "s")) := rfl
  obtain ⟨-, -, -, hrefused, -⟩ := rename_unambiguous sharedName [] (some "mask") hl (List.forall_mem_nil _)
  obtain ⟨hrenamed, -, -, -, hafter⟩ := rename_unambiguous sharedName ["x", "y"] (some "mask") hl hn
  obtain ⟨-, hrenaming, hfound⟩ := hrenamed _ hok
  refine ⟨hl, hn, hrefused.mpr ⟨rfl, hq, by decide⟩, _, _, hfirst, by decide, ?_, by decide, hrenaming, hfound hq⟩
  exact (hafter (List.cons_ne_nil _ _) hq _ _ _ hfirst).trans hok

end AttributeList

end RelAlg
