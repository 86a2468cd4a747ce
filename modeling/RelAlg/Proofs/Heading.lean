import Mathlib.Data.List.TakeWhile
import RelAlg.Proofs.Rows

/-!
# Headings

Facts about attribute lists as headings of rows. What `get`, `validate`, `trim` and `rename` answer is stated once for each;
in a list with distinct names (`IsPlain`) a reference is resolved by its name alone, and the cell that it stands for is the
one under that name (`look_of_get`).
-/

namespace RelAlg

variable {α : Type}

/-! ## References -/

namespace Reference

/-- A text without a point has none from the end either. -/
theorem forall_mem_reverse {n : String} (h : '.' ∉ n.toList) : ∀ c ∈ n.toList.reverse, decide (c ≠ '.') = true := by
  intro c hc
  simpa using fun e : c = '.' => h (e ▸ List.mem_reverse.mp hc)

/-- A text without a point is a bare name. -/
theorem ofText_of_not_mem {n : String} (h : '.' ∉ n.toList) : ofText n = ⟨"", n⟩ := by
  have hp := forall_mem_reverse h
  simp only [ofText, List.takeWhile_eq_self_iff.mpr hp, List.dropWhile_eq_nil_iff.mpr hp]
  simp

/-- A qualifier and a name with a point between them are read as such. -/
theorem ofText_append {q n : String} (h : '.' ∉ n.toList) : ofText (q ++ "." ++ n) = ⟨q, n⟩ := by
  have hp := forall_mem_reverse h
  have hl : (q ++ "." ++ n).toList.reverse = n.toList.reverse ++ '.' :: q.toList.reverse := by simp
  simp only [ofText, hl, List.takeWhile_append_of_pos hp, List.dropWhile_append_of_pos hp]
  simp

/-- The name of a reference has no point, as it starts behind the last one. -/
theorem not_mem_name (t : String) : '.' ∉ (ofText t).name.toList := by
  intro h
  simp only [ofText, String.toList_ofList, List.mem_reverse] at h
  exact absurd (List.all_eq_true.mp List.all_takeWhile '.' h) (by decide)

/-- A text with a point is its qualifier, the last point and its name. -/
theorem eq_append_of_mem {t : String} (h : '.' ∈ t.toList) : t = (ofText t).qualifier ++ "." ++ (ofText t).name := by
  have hd : t.toList.reverse.dropWhile (· ≠ '.') = '.' :: (t.toList.reverse.dropWhile (· ≠ '.')).drop 1 := by
    cases he : t.toList.reverse.dropWhile (· ≠ '.') with
    | nil => exact absurd (List.dropWhile_eq_nil_iff.mp he '.' (List.mem_reverse.mpr h)) (by decide)
    | cons x xs =>
      have hx := List.head?_dropWhile_not (· ≠ '.') t.toList.reverse
      rw [he] at hx
      simpa using hx
  have hs := List.takeWhile_append_dropWhile (p := (· ≠ '.')) (l := t.toList.reverse)
  rw [hd] at hs
  rw [← String.toList_inj, String.toList_append, String.toList_append]
  simp only [ofText, String.toList_ofList]
  have := congrArg List.reverse hs
  simpa using this.symm

/-- A reference fits an attribute with its name, under its qualifier if it has one. -/
theorem fits_iff {r : Reference} {a : Attribute} :
    r.fits a = true ↔ a.isList = false ∧ r.name = a.name ∧ (r.qualifier = "" ∨ a.qualifier = some r.qualifier) := by
  simp only [fits, Bool.and_eq_true, Bool.not_eq_true', decide_eq_true_eq, Bool.or_eq_true, and_assoc]
  constructor
  · rintro ⟨h1, h2, h3 | h3⟩
    · exact ⟨h1, h2, .inl h3⟩
    · exact ⟨h1, h2, .inr h3.symm⟩
  · rintro ⟨h1, h2, h3 | h3⟩
    · exact ⟨h1, h2, .inl h3⟩
    · exact ⟨h1, h2, .inr h3.symm⟩

end Reference

/-- Names that texts write have no point. -/
theorem not_dot_of_isName {n : String} (h : isName n = true) : '.' ∉ n.toList := fun hm =>
  absurd (isSmall_of_isName h '.' hm) (by decide)

/-! ## Resolving -/

namespace AttributeList

variable {l : AttributeList} {a : Attribute} {reference : String}

/-- A reference is resolved just if it fits exactly one attribute. -/
theorem get_eq_ok_iff : l.get reference = .ok a ↔ l.filter (Reference.ofText reference).fits = [a] := by
  unfold get
  split
  · rename_i h; rw [h]; simp
  · rename_i b h; rw [h]; simp
  · rename_i b c rest h; rw [h]; simp

/-- A reference is resolved to an attribute of the list that it fits. -/
theorem mem_of_get (h : l.get reference = .ok a) : a ∈ l ∧ (Reference.ofText reference).fits a = true := by
  have : a ∈ l.filter (Reference.ofText reference).fits := by rw [get_eq_ok_iff.mp h]; simp
  simpa using this

/-- Only one attribute has the name, so a reference that fits it fits no other. -/
theorem get_of_fits (hn : l.names.Nodup) (ha : a ∈ l) (hf : (Reference.ofText reference).fits a = true) :
    l.get reference = .ok a := by
  rw [get_eq_ok_iff]
  induction l with
  | nil => cases ha
  | cons b l ih =>
    simp only [names, List.map_cons, List.nodup_cons, List.mem_map, not_exists, not_and] at hn
    rcases List.mem_cons.mp ha with rfl | ha
    · rw [List.filter_cons_of_pos hf]
      congr 1
      refine List.filter_eq_nil_iff.mpr fun c hc hfc => hn.1 c hc ?_
      rw [← (Reference.fits_iff.mp hfc).2.1, (Reference.fits_iff.mp hf).2.1]
    · have hb : ¬(Reference.ofText reference).fits b = true := by
        intro hfb
        exact hn.1 a ha (by rw [← (Reference.fits_iff.mp hfb).2.1, (Reference.fits_iff.mp hf).2.1])
      rw [List.filter_cons_of_neg hb]
      exact ih hn.2 ha

/-- References that are validated are each resolved. -/
theorem get_of_validate {references : List String} (h : l.validate references = .ok ()) :
    ∀ r ∈ references, ∃ a, l.get r = .ok a := by
  induction references with
  | nil => nofun
  | cons r rs ih =>
    simp only [validate] at h
    cases hr : l.get r with
    | error e => rw [hr] at h; cases h
    | ok a =>
      rw [hr] at h
      intro s hs
      rcases List.mem_cons.mp hs with rfl | hs
      · exact ⟨a, hr⟩
      · exact ih h s hs

/-- References are resolved one by one, in their order. -/
theorem forall₂_of_resolve {references : List String} {kept : AttributeList} (h : l.resolve references = .ok kept) :
    List.Forall₂ (fun r a => l.get r = .ok a) references kept := by
  induction references generalizing kept with
  | nil => cases h; exact .nil
  | cons r rs ih =>
    simp only [resolve] at h
    cases hr : l.get r with
    | error e => rw [hr] at h; cases h
    | ok a =>
      cases hs : l.resolve rs with
      | error e => simp only [bind, Except.bind, hr, hs] at h; cases h
      | ok as =>
        simp only [bind, Except.bind, hr, hs] at h
        cases h
        exact .cons hr (ih hs)

/-- What is kept of a list are the attributes that the references stand for, each written in its own way. -/
theorem trim_ok {references : List String} {kept : AttributeList} (h : l.trim references = .ok kept) :
    List.Forall₂ (fun r a => l.get r = .ok a) references kept ∧ kept.qualifiedNames.Nodup := by
  unfold trim at h
  cases hr : l.resolve references with
  | error e => rw [hr] at h; cases h
  | ok as =>
    simp only [bind, Except.bind, hr] at h
    split at h
    · cases h
    · rename_i hd
      cases h
      exact ⟨forall₂_of_resolve hr, (hasDuplicates_eq_false_iff _).mp (by simpa using hd)⟩

/-- Every attribute that is kept was asked for. -/
theorem get_of_trim {references : List String} {kept : AttributeList} (h : l.trim references = .ok kept) :
    ∀ a ∈ kept, ∃ r, l.get r = .ok a := by
  have hf := (trim_ok h).1
  clear h
  induction hf with
  | nil => nofun
  | cons hr _ ih =>
    intro b hb
    rcases List.mem_cons.mp hb with rfl | hb
    · exact ⟨_, hr⟩
    · exact ih b hb

/-- Only attributes of the list are kept. -/
theorem mem_of_trim {references : List String} {kept : AttributeList} (h : l.trim references = .ok kept) :
    ∀ a ∈ kept, a ∈ l := by
  intro a ha
  obtain ⟨r, hr⟩ := get_of_trim h a ha
  exact (mem_of_get hr).1

/-! ## Renaming -/

/-- An attribute under a new name and a new qualifier, if one is given. -/
def renamedTo (qualifier : Option String) (a : Attribute) (name : String) : Attribute :=
  ⟨name, (given qualifier).or a.qualifier, false⟩

/-- Words have duplicates just if their texts do. -/
theorem hasDuplicates_words (names : List String) :
    hasDuplicates ((names.map Phrase.word).filterMap Phrase.text?) = hasDuplicates names := by
  have : (names.map Phrase.word).filterMap Phrase.text? = names := by
    induction names with
    | nil => rfl
    | cons n names ih => simp [Phrase.text?, ih]
  rw [this]

/-- Names that are not empty are taken as they are, position by position. -/
theorem zipWith_renameOne {names : List String} (qualifier : Option String) (hn : ∀ n ∈ names, n ≠ "") :
    List.zipWith (renameOne qualifier) l (names.map Phrase.word) = List.zipWith (renamedTo qualifier) l names := by
  induction l generalizing names with
  | nil => rfl
  | cons a l ih =>
    cases names with
    | nil => rfl
    | cons n names =>
      have hne : n ≠ "" := hn n (by simp)
      rw [List.map_cons, List.zipWith_cons_cons, List.zipWith_cons_cons, ih fun m hm => hn m (List.mem_cons_of_mem n hm)]
      simp only [renameOne, hne, if_false, requalify, renamedTo]

/-- The names are all texts in a list in which none is a list. -/
theorem textNames_eq_names (h : ∀ a ∈ l, a.isList = false) : l.textNames = l.names :=
  congrArg AttributeList.names (List.filter_eq_self.mpr fun a ha => by rw [h a ha]; rfl)

/-- Without new names, a new qualifier is refused where some name stands twice. -/
theorem rename_nil (l : AttributeList) (qualifier : Option String) :
    l.rename [] qualifier = if (given qualifier).isSome = true ∧ ¬l.textNames.Nodup then .error .ambiguousNames
      else .ok (l.map (requalify qualifier)) := by
  rw [rename, if_pos List.isEmpty_nil]
  simp only [Bool.and_eq_true, ← hasDuplicates_eq_false_iff, Bool.not_eq_false]

/-- New names are taken if there is one for each attribute and none of them stands twice. -/
theorem rename_words {names : List String} (qualifier : Option String) (hne : names ≠ []) (hn : ∀ n ∈ names, n ≠ "") :
    l.rename (names.map Phrase.word) qualifier = if names.length ≠ l.length then .error .attributeCount
      else if ¬names.Nodup then .error .repeatedName
      else .ok (List.zipWith (renamedTo qualifier) l names) := by
  have he : ¬(names.map Phrase.word).isEmpty = true := by simpa using hne
  rw [rename, if_neg he, List.length_map, hasDuplicates_words, zipWith_renameOne qualifier hn]
  simp only [← hasDuplicates_eq_false_iff, Bool.not_eq_false]

/-- A renaming gives new names to all attributes or to none. -/
theorem rename_ok {names : List String} {qualifier : Option String} {renamed : AttributeList} (hn : ∀ n ∈ names, n ≠ "")
    (h : l.rename (names.map Phrase.word) qualifier = .ok renamed) :
    names = [] ∧ renamed = l.map (requalify qualifier)
      ∨ names.length = l.length ∧ names.Nodup ∧ renamed = List.zipWith (renamedTo qualifier) l names := by
  by_cases hne : names = []
  · subst hne
    rw [List.map_nil, rename_nil] at h
    split at h <;> cases h
    exact .inl ⟨rfl, rfl⟩
  · rw [rename_words qualifier hne hn] at h
    split at h
    · cases h
    · rename_i hl
      split at h <;> cases h
      rename_i hd
      exact .inr ⟨not_not.mp hl, not_not.mp hd, rfl⟩

/-- Every attribute has one in its place after a renaming, whatever the new names are. -/
theorem length_of_rename {names : List Phrase} {qualifier : Option String} {renamed : AttributeList}
    (h : l.rename names qualifier = .ok renamed) : renamed.length = l.length := by
  unfold rename at h
  split at h
  · split at h <;> cases h
    exact List.length_map _
  · split at h
    · cases h
    · rename_i hl
      split at h <;> cases h
      rw [List.length_zipWith, not_not.mp hl, Nat.min_self]

/-- Every attribute after a renaming is under the new qualifier, or under the one it had if none is given. -/
theorem qualifier_of_rename {names : List String} {qualifier : Option String} {renamed : AttributeList}
    (hn : ∀ n ∈ names, n ≠ "") (h : l.rename (names.map Phrase.word) qualifier = .ok renamed) :
    ∀ b ∈ renamed, ∃ a ∈ l, b.qualifier = (given qualifier).or a.qualifier := by
  intro b hb
  rcases rename_ok hn h with ⟨-, rfl⟩ | ⟨hl, -, rfl⟩
  · obtain ⟨a, ha, rfl⟩ := List.mem_map.mp hb
    exact ⟨a, ha, rfl⟩
  · rw [← List.map_uncurry_zip_eq_zipWith] at hb
    obtain ⟨⟨a, n⟩, hp, rfl⟩ := List.mem_map.mp hb
    exact ⟨a, (List.of_mem_zip hp).1, rfl⟩

/-- Every qualifier after a renaming is a name if the new one and those before it are. -/
theorem isName_qualifier_of_rename {names : List String} {qualifier : Option String} {renamed : AttributeList}
    (hn : ∀ n ∈ names, n ≠ "") (hq : ∀ q, qualifier = some q → isName q = true)
    (hl : ∀ a ∈ l, ∀ q, a.qualifier = some q → isName q = true)
    (h : l.rename (names.map Phrase.word) qualifier = .ok renamed) :
    ∀ b ∈ renamed, ∀ q, b.qualifier = some q → isName q = true := by
  intro b hb q hbq
  obtain ⟨a, ha, hab⟩ := qualifier_of_rename hn h b hb
  rw [hab, Node.given_of_isName hq] at hbq
  rcases Option.or_eq_some_iff.mp hbq with hbq | ⟨-, hbq⟩
  · exact hq q hbq
  · exact hl a ha q hbq

/-- What holds of the names before a renaming and of all names that texts write holds of those after it. -/
theorem forall_name_of_rename {P : String → Prop} (hw : ∀ n, isName n = true → P n) {renamed : AttributeList}
    (hl : ∀ a ∈ l, P a.name) {names : List String} {qualifier : Option String} (hn : ∀ n ∈ names, isName n = true)
    (h : l.rename (names.map Phrase.word) qualifier = .ok renamed) : ∀ b ∈ renamed, P b.name := by
  intro b hb
  rcases rename_ok (fun n hm => ne_empty_of_isName (hn n hm)) h with ⟨-, rfl⟩ | ⟨-, -, rfl⟩
  · obtain ⟨a, ha, rfl⟩ := List.mem_map.mp hb
    exact hl a ha
  · rw [← List.map_uncurry_zip_eq_zipWith] at hb
    obtain ⟨⟨a, n⟩, hm, rfl⟩ := List.mem_map.mp hb
    exact hw n (hn n (List.of_mem_zip hm).2)

/-- No new name that is a word is a list. -/
theorem isList_of_rename {names : List String} {qualifier : Option String} {renamed : AttributeList}
    (hn : ∀ n ∈ names, n ≠ "") (hl : ∀ a ∈ l, a.isList = false)
    (h : l.rename (names.map Phrase.word) qualifier = .ok renamed) : ∀ b ∈ renamed, b.isList = false := by
  intro b hb
  rcases rename_ok hn h with ⟨-, rfl⟩ | ⟨-, -, rfl⟩
  · obtain ⟨a, ha, rfl⟩ := List.mem_map.mp hb
    exact hl a ha
  · rw [← List.map_uncurry_zip_eq_zipWith] at hb
    obtain ⟨⟨a, n⟩, -, rfl⟩ := List.mem_map.mp hb
    rfl

/-! ## Lists with distinct names -/

/-- The attributes have distinct names as texts write them, under qualifiers as texts write them. -/
structure IsPlain (l : AttributeList) : Prop where
  distinct : l.names.Nodup
  named : ∀ a ∈ l, isName a.name = true
  texts : ∀ a ∈ l, a.isList = false
  qualified : ∀ a ∈ l, ∀ q, a.qualifier = some q → isName q = true

/-- A list of attributes of given names has these names. -/
@[simp] theorem names_ofNames (names : List String) (qualifier : Option String) : (ofNames names qualifier).names = names := by
  simp [AttributeList.names, ofNames, Function.comp_def]

/-- A part of a plain list is plain. -/
theorem IsPlain.of_trim {references : List String} {kept : AttributeList} (hp : l.IsPlain)
    (h : l.trim references = .ok kept) : kept.IsPlain := by
  have hm := mem_of_trim h
  have hi : ∀ a ∈ l, ∀ b ∈ l, a.name = b.name → a = b := fun a ha b hb => List.inj_on_of_nodup_map hp.distinct ha hb
  refine ⟨?_, fun a ha => hp.named a (hm a ha), fun a ha => hp.texts a (hm a ha), fun a ha => hp.qualified a (hm a ha)⟩
  exact (List.Nodup.of_map _ (trim_ok h).2).map_on fun a ha b hb he => hi a (hm a ha) b (hm b hb) he

/-- Attributes under new names have these names. -/
theorem names_zipWith {names : List String} {qualifier : Option String} (hl : names.length = l.length) :
    AttributeList.names (List.zipWith (renamedTo qualifier) l names) = names := by
  induction l generalizing names with
  | nil => cases names with
    | nil => rfl
    | cons n names => simp at hl
  | cons a l ih =>
    cases names with
    | nil => simp at hl
    | cons n names =>
      have := @ih names (by simpa using hl)
      simp only [AttributeList.names] at this ⊢
      rw [List.zipWith_cons_cons, List.map_cons, this, renamedTo]

/-- Distinct new names that texts write keep a list plain. -/
theorem IsPlain.of_rename {names : List String} {qualifier : Option String} {renamed : AttributeList} (hp : l.IsPlain)
    (hn : ∀ n ∈ names, isName n = true) (hq : ∀ q, qualifier = some q → isName q = true)
    (h : l.rename (names.map Phrase.word) qualifier = .ok renamed) : renamed.IsPlain := by
  have hne : ∀ n ∈ names, n ≠ "" := fun n hm => ne_empty_of_isName (hn n hm)
  have hdistinct : renamed.names.Nodup := by
    rcases rename_ok hne h with ⟨-, rfl⟩ | ⟨hl, hd, rfl⟩
    · have hnames : AttributeList.names (l.map (requalify qualifier)) = l.names := by
        simp [AttributeList.names, requalify, Function.comp_def]
      exact hnames ▸ hp.distinct
    · rwa [names_zipWith hl]
  exact ⟨hdistinct, forall_name_of_rename (fun _ => id) hp.named hn h, isList_of_rename hne hp.texts h,
    isName_qualifier_of_rename hne hq hp.qualified h⟩

/-- An attribute is what it is written like. -/
theorem IsPlain.ofText_qualified (hp : l.IsPlain) (ha : a ∈ l) :
    Reference.ofText a.qualified = ⟨a.qualifier.getD "", a.name⟩ := by
  have hd := not_dot_of_isName (hp.named a ha)
  unfold Attribute.qualified
  rw [Node.given_of_isName (hp.qualified a ha)]
  cases a.qualifier with
  | none => exact Reference.ofText_of_not_mem hd
  | some q => exact Reference.ofText_append hd

/-- In a plain list the qualified name of an attribute is resolved to it. -/
theorem IsPlain.get_qualified (hp : l.IsPlain) (ha : a ∈ l) : l.get a.qualified = .ok a := by
  refine get_of_fits hp.distinct ha ?_
  rw [hp.ofText_qualified ha, Reference.fits_iff]
  refine ⟨hp.texts a ha, rfl, ?_⟩
  cases hq : a.qualifier with
  | none => exact .inl rfl
  | some q => exact .inr rfl

/-! ## Cells by name -/

/-- The cell of a row under a column name. -/
def byName (names : List String) (row : Row α) (name : String) : Option α := ((names.zip row).lookup name).join

theorem lookup_zip {κ β : Type} [DecidableEq κ] {keys : List κ} {values : List β} {k : κ} {b : β} (hd : keys.Nodup)
    (h : (k, b) ∈ keys.zip values) : (keys.zip values).lookup k = some b := by
  induction keys generalizing values with
  | nil => cases h
  | cons j keys ih =>
    cases values with
    | nil => cases h
    | cons c values =>
      rw [List.nodup_cons] at hd
      rw [List.zip_cons_cons] at h ⊢
      rcases List.mem_cons.mp h with h | h
      · cases h
        simp
      · have hne : k ≠ j := fun e => hd.1 (e ▸ (List.of_mem_zip h).1)
        rw [List.lookup_cons, beq_false_of_ne hne]
        exact ih hd.2 h

/-- Among distinct names a cell is found by its name. -/
theorem byName_of_mem {names : List String} {row : Row α} {name : String} {x : Option α} (hd : names.Nodup)
    (h : (name, x) ∈ names.zip row) : byName names row name = x := by
  rw [byName, lookup_zip hd h]
  rfl

/-- A row that was made cell by cell has those cells. -/
theorem byName_map {names : List String} {name : String} (f : String → Option α) (hd : names.Nodup) (hn : name ∈ names) :
    byName names (names.map f) name = f name := by
  obtain ⟨i, hi, rfl⟩ := List.mem_iff_getElem.mp hn
  exact byName_of_mem hd (List.mem_iff_getElem.mpr ⟨i, by simpa using hi, by simp⟩)

/-- A row is made of its cells. -/
theorem map_byName {names : List String} {row : Row α} (hd : names.Nodup) (hl : row.length = names.length) :
    names.map (byName names row) = row := by
  refine List.ext_getElem (by simp [hl]) fun i h₁ h₂ => ?_
  rw [List.getElem_map]
  refine byName_of_mem hd (List.mem_iff_getElem.mpr ⟨i, ?_, ?_⟩)
  · simpa [hl] using h₂
  · simp

/-- A cell under an attribute is one under its name. -/
theorem mem_names_zip {row : Row α} {x : Option α} (h : (a, x) ∈ l.zip row) : (a.name, x) ∈ l.names.zip row := by
  rw [AttributeList.names, List.zip_map_left]
  exact List.mem_map.mpr ⟨(a, x), h, rfl⟩

/-- In a row of the right length every attribute has a cell. -/
theorem exists_mem_zip {row : Row α} (hl : row.length = l.length) (ha : a ∈ l) : ∃ x, (a, x) ∈ l.zip row := by
  obtain ⟨i, hi, rfl⟩ := List.mem_iff_getElem.mp ha
  exact ⟨row[i], List.mem_iff_getElem.mpr ⟨i, by simp [hl, hi], by simp⟩⟩

/-- The cell that a reference stands for is the one under the name of its attribute. -/
theorem look_of_get {row : Row α} (hd : l.names.Nodup) (hl : row.length = l.length) (h : l.get reference = .ok a) :
    l.look row reference = byName l.names row a.name := by
  have hz : (l.zip row).map Prod.fst = l := List.map_fst_zip (by omega)
  have hf : ((l.zip row).filter fun p => (Reference.ofText reference).fits p.1).map Prod.fst = [a] := by
    rw [← get_eq_ok_iff.mp h, ← hz, List.filter_map, hz]
    rfl
  obtain ⟨⟨b, x⟩, hp, rfl⟩ := List.map_eq_singleton_iff.mp hf
  have hm : (b, x) ∈ l.zip row := (List.mem_filter.mp (hp ▸ List.mem_singleton_self _)).1
  rw [byName_of_mem hd (mem_names_zip hm), look, ← List.head?_filter, List.filter_reverse, hp]
  rfl

/-- Among distinct names the cell of an attribute is the one under its name. -/
theorem cell_of_mem {row : Row α} (hd : l.names.Nodup) (hl : row.length = l.length) (ha : a ∈ l) :
    l.cell row a = byName l.names row a.name := by
  obtain ⟨x, hx⟩ := exists_mem_zip hl ha
  rw [byName_of_mem hd (mem_names_zip hx), cell, lookup_zip (List.Nodup.of_map _ hd) hx]
  rfl

end AttributeList

/-! ## Headings of nodes -/

namespace Node

variable {schema : Schema} {n : Node}

/-- A name that a node has is one that a text can write. -/
theorem Made.isName_name (h : n.Made schema) : ∀ q, n.name = some q → isName q = true := by
  induction h with
  | relation hn _ => rintro q ⟨⟩; exact hn
  | select _ _ _ ih => exact ih
  | project _ _ _ ih => exact ih
  | rename _ ht _ _ ih =>
    intro q hq
    rcases Option.or_eq_some_iff.mp hq with hq | ⟨-, hq⟩
    · exact ht.1 q hq
    · exact ih q hq
  | join => nofun
  | setOperation => nofun

section Join

variable {op : Join} {l r attributes : AttributeList}

/-- A join with a condition has the attributes of both sides, and its condition refers to them. -/
theorem joinAttributes_conditional {kind : ConditionalJoin} {condition : Condition}
    (h : joinAttributes (.conditional kind condition) l r = .ok attributes) :
    attributes = l ++ r ∧ attributes.validate condition.references = .ok () := by
  obtain ⟨_, hv, h⟩ := exists_ok_of_bind h
  cases h
  exact ⟨rfl, hv⟩

/-- The attributes of a join are among those of its operands. -/
theorem mem_of_joinAttributes (h : joinAttributes op l r = .ok attributes) : ∀ a ∈ attributes, a ∈ l ++ r := by
  cases op with
  | cross => cases h; exact fun _ ha => ha
  | natural => exact AttributeList.mem_of_trim h
  | conditional kind condition =>
    obtain ⟨rfl, -⟩ := joinAttributes_conditional h
    exact fun _ ha => ha

/-- What holds of all attributes on both sides holds of those of the join. -/
theorem forall_mem_joinAttributes {P : Attribute → Prop} (h : joinAttributes op l r = .ok attributes) (hl : ∀ a ∈ l, P a)
    (hr : ∀ a ∈ r, P a) : ∀ a ∈ attributes, P a := fun a ha =>
  List.forall_mem_append.mpr ⟨hl, hr⟩ a (mem_of_joinAttributes h a ha)

end Join

/-- The qualifiers of a node are names that a text can write. -/
theorem Made.isName_qualifier (h : n.Made schema) :
    ∀ a ∈ n.heading, ∀ q, a.qualifier = some q → isName q = true := by
  induction h with
  | relation hn _ =>
    refine List.forall_mem_map.mpr fun m _ q hq => ?_
    cases hq
    exact hn
  | select _ _ _ ih => exact ih
  | project _ _ hk ih => exact fun a ha => ih a (AttributeList.mem_of_trim hk a ha)
  | rename h ht _ hr ih =>
    have hname : ∀ q, _ → isName q = true := fun q hq =>
      (Option.or_eq_some_iff.mp hq).elim (ht.1 q) fun hq => h.isName_name q hq.2
    exact AttributeList.isName_qualifier_of_rename (fun n hm => ne_empty_of_isName (ht.2 n hm)) hname ih hr
  | join _ _ _ _ ha ihl ihr => exact forall_mem_joinAttributes ha ihl ihr
  | setOperation => exact List.forall_mem_map.mpr fun m _ q hq => by cases hq

end Node

end RelAlg
