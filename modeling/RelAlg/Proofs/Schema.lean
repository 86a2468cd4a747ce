import RelAlg.Proofs.Heading

/-!
# Schemas of plain names

A schema is plain if every relation lists distinct names in small letters. The schema of a definition with identifiers that
are distinct whatever their letter case is plain (`isPlain_ofDefinition`), and adding a relation of such names keeps it so.
What holds of all names that texts write and of the attribute names of the schema holds of the attribute names of every node
(`Node.Made.forall_name`), and of those of the schema that a statement leaves (`Stated.names`).
-/

namespace RelAlg

/-! ## Letter case of identifiers -/

/-- Small characters may stand in names. -/
theorem isNameChar_of_isSmall {c : Char} (h : isSmall c = true) : isNameChar c = true := by
  have hc : c.isLower = true ∨ c.isDigit = true ∨ c = '_' := by simpa [isSmall, or_assoc] using h
  rcases hc with h | h | rfl
  · simp [isNameChar, Char.isAlphanum, Char.isAlpha, h]
  · simp [isNameChar, Char.isAlphanum, h]
  · decide

namespace Text

/-- In ASCII the small form is that of each character. -/
theorem lowerFrom_ascii {cs : List Char} (before : List Char) (h : ∀ c ∈ cs, c.toNat < 128) :
    lowerFrom before cs = cs.map Char.toLower := by
  induction cs generalizing before with
  | nil => rfl
  | cons c cs ih =>
    have hc : c.toNat < 128 := h c (by simp)
    have hs : c ≠ capitalSigma := by
      rintro rfl
      exact absurd hc (by decide)
    rw [lowerFrom, if_neg hs, lowerChar, if_pos hc, ih (c :: before) fun d hd => h d (List.mem_cons_of_mem c hd)]
    rfl

/-- An identifier is a name once it is in small letters. -/
theorem isName_lower {s : String} (h : isIdentifier s = true) : isName (lower s) = true := by
  unfold isIdentifier at h
  split at h
  · cases h
  · rename_i x xs hs
    rw [Bool.and_eq_true, List.all_eq_true] at h
    have ha : ∀ c ∈ x :: xs, c.toNat < 128 := by
      intro c hc
      rcases List.mem_cons.mp hc with rfl | hc
      · exact toNat_lt_of_isNameChar (isNameChar_of_isNameStart h.1)
      · exact toNat_lt_of_isNameChar (h.2 c hc)
    rw [lower, hs, lowerFrom_ascii [] ha, isName, String.toList_ofList, List.map_cons, Bool.and_eq_true, List.all_eq_true]
    refine ⟨isLower_toLower h.1, fun c hc => ?_⟩
    obtain ⟨d, hd, rfl⟩ := List.mem_map.mp hc
    exact isSmall_toLower (h.2 d hd)

/-- Small characters are their own small form. -/
theorem toLower_of_isSmall {c : Char} (h : isSmall c = true) : c.toLower = c := by
  unfold Char.toLower
  split
  · rename_i hu
    have h₁ : 65 ≤ c.val.toNat := hu.1
    have h₂ : c.val.toNat ≤ 90 := hu.2
    have hc : c.isLower = true ∨ c.isDigit = true ∨ c = '_' := by simpa [isSmall, or_assoc] using h
    exfalso
    rcases hc with h | h | rfl
    · simp only [Char.isLower, Bool.and_eq_true, decide_eq_true_eq, UInt32.le_iff_toNat_le, ge_iff_le] at h
      have : 'a'.val.toNat = 97 := rfl
      omega
    · simp only [Char.isDigit, Bool.and_eq_true, decide_eq_true_eq, UInt32.le_iff_toNat_le] at h
      have : '9'.val.toNat = 57 := rfl
      omega
    · exact absurd h₂ (by decide)
  · rfl

/-- A text of small characters is its own small form. -/
theorem map_toLower_of_isSmall {cs : List Char} (h : ∀ c ∈ cs, isSmall c = true) : cs.map Char.toLower = cs := by
  conv_rhs => rw [← List.map_id cs]
  exact List.map_congr_left fun c hc => toLower_of_isSmall (h c hc)

/-- A name in small letters stays as it is. -/
theorem lower_of_isName {s : String} (h : isName s = true) : lower s = s := by
  have hs := isSmall_of_isName h
  rw [lower, lowerFrom_ascii [] fun c hc => toNat_lt_of_isNameChar (isNameChar_of_isSmall (hs c hc)),
    map_toLower_of_isSmall hs, String.ofList_toList]

/-- Capital letters are those from `A` to `Z`. -/
theorem toNat_of_isUpper {c : Char} (h : c.isUpper = true) : 65 ≤ c.toNat ∧ c.toNat ≤ 90 := by
  simp only [Char.isUpper, decide_eq_true_eq, UInt32.le_iff_toNat_le, ge_iff_le] at h
  exact h

/-- A small form is no capital letter. -/
theorem isUpper_toLower (c : Char) : c.toLower.isUpper = false := by
  by_contra hu
  rw [Bool.not_eq_false] at hu
  by_cases ha : c.isAlpha = true
  · have hl := isLower_toLower ha
    simp only [Char.isLower, Bool.and_eq_true, decide_eq_true_eq, UInt32.le_iff_toNat_le, ge_iff_le] at hl
    have h₁ : 97 ≤ c.toLower.toNat := hl.1
    have h₂ := (toNat_of_isUpper hu).2
    omega
  · have hc : ¬(c.val ≥ 'A'.val ∧ c.val ≤ 'Z'.val) := fun h => ha (Bool.or_eq_true_iff.mpr (.inl (decide_eq_true h)))
    rw [Char.toLower, dif_neg hc] at hu
    exact ha (by simp [Char.isAlpha, hu])

/-- A small character is no capital letter. -/
theorem isUpper_of_isSmall {c : Char} (h : isSmall c = true) : c.isUpper = false :=
  toLower_of_isSmall h ▸ isUpper_toLower c

/-- Numbers outside of those of `A` to `Z` are no capital letters. -/
theorem isUpper_ofNat {n : Nat} (h : n < 65 ∨ 90 < n) : (Char.ofNat n).isUpper = false := by
  by_contra hu
  rw [Bool.not_eq_false] at hu
  have hb := toNat_of_isUpper hu
  rw [Char.toNat_ofNat] at hb
  split at hb <;> omega

/-- No capital letter is the small form of a character. -/
theorem isUpper_of_mem_lowerChar {c d : Char} (h : d ∈ lowerChar c) : d.isUpper = false := by
  have hl : ∀ e ∈ smallExpansions, ∀ n ∈ e.2, n < 65 ∨ 90 < n := by decide +kernel
  have hs : ∀ s ∈ smallSpans, 90 < s.image := by decide +kernel
  by_cases hc : c.toNat < 128
  · rw [lowerChar, if_pos hc, List.mem_singleton] at h
    rw [h]
    exact isUpper_toLower c
  · rw [lowerChar, if_neg hc] at h
    obtain ⟨e, he, hm⟩ | ⟨s, hmem, _, hi, hm⟩ | hm := mapCase_cases smallSpans smallExpansions c <;> rw [hm] at h
    · obtain ⟨n, hn, rfl⟩ := List.mem_map.mp h
      exact isUpper_ofNat (hl e he n hn)
    · obtain ⟨-, rfl⟩ := CaseSpan.of_image? hi
      have := hs s hmem
      rw [List.mem_singleton.mp h]
      exact isUpper_ofNat (.inr (by omega))
    · rw [List.mem_singleton.mp h]
      by_contra hu
      rw [Bool.not_eq_false] at hu
      have := toNat_of_isUpper hu
      omega

/-- Something is left of a text in small letters. -/
theorem lower_ne_empty {s : String} (h : s ≠ "") : lower s ≠ "" := by
  intro he
  rw [lower, ← String.toList_inj, String.toList_ofList] at he
  cases hs : s.toList with
  | nil => exact h (String.toList_eq_nil_iff.mp hs)
  | cons c cs =>
    have hc : lowerChar c ≠ [] := by
      unfold lowerChar
      split
      · simp
      · exact mapCase_ne_nil (by decide +kernel) c
    rw [hs, lowerFrom] at he
    split at he
    · cases he
    · exact hc (List.append_eq_nil_iff.mp he).1

/-- No capital letter is left in small letters. -/
theorem isUpper_of_mem_lower {s : String} {d : Char} (h : d ∈ (lower s).toList) : d.isUpper = false := by
  have hl : ∀ (cs before : List Char), d ∈ lowerFrom before cs → d.isUpper = false := by
    intro cs
    induction cs with
    | nil => nofun
    | cons c cs ih =>
      intro before hd
      rw [lowerFrom, List.mem_append] at hd
      rcases hd with hd | hd
      · split at hd
        · rw [List.mem_singleton.mp hd, smallSigma]
          split <;> decide
        · exact isUpper_of_mem_lowerChar hd
      · exact ih _ hd
  rw [lower, String.toList_ofList] at h
  exact hl _ _ h

end Text

/-! ## Entries -/

/-- An entry is the one that was put in, or it was there before. -/
theorem mem_upsert {β : Type} {key : String} {value : β} {entries : List (String × β)} {e : String × β}
    (h : e ∈ upsert key value entries) : e = (key, value) ∨ e ∈ entries := by
  induction entries with
  | nil => exact .inl (List.mem_singleton.mp h)
  | cons f entries ih =>
    unfold upsert at h
    split at h
    · rcases List.mem_cons.mp h with h | h
      · exact .inl h
      · exact .inr (List.mem_cons_of_mem f h)
    · rcases List.mem_cons.mp h with rfl | h
      · exact .inr List.mem_cons_self
      · exact (ih h).imp id (List.mem_cons_of_mem f)

/-- What was put in is found under its key, and everything else is found as before. -/
theorem lookup_upsert {β : Type} (key : String) (value : β) (entries : List (String × β)) (k : String) :
    (upsert key value entries).lookup k = if k = key then some value else entries.lookup k := by
  induction entries with
  | nil =>
    by_cases h : k = key
    · simp [upsert, h]
    · simp [upsert, List.lookup_cons, h, beq_false_of_ne h]
  | cons f entries ih =>
    obtain ⟨j, b⟩ := f
    unfold upsert
    by_cases hj : j = key
    · subst hj
      by_cases hk : k = j
      · simp [hk]
      · simp [List.lookup_cons, hk, beq_false_of_ne hk]
    · rw [if_neg hj, List.lookup_cons, List.lookup_cons, ih]
      by_cases hk : k = j
      · simp [hk, hj]
      · simp [beq_false_of_ne hk]

/-- What is found is one of the entries. -/
theorem mem_of_lookup {β : Type} {entries : List (String × β)} {k : String} {b : β} (h : entries.lookup k = some b) :
    (k, b) ∈ entries := by
  induction entries with
  | nil => cases h
  | cons f entries ih =>
    obtain ⟨j, c⟩ := f
    rw [List.lookup_cons] at h
    by_cases hk : k = j
    · subst hk
      simp only [beq_self_eq_true] at h
      cases h
      exact List.mem_cons_self
    · rw [beq_false_of_ne hk] at h
      exact List.mem_cons_of_mem _ (ih h)

/-- After many entries were put in, an entry is one of them or was there before. -/
theorem mem_foldl_upsert {β γ : Type} {key : γ → String} {value : γ → β} {items : List γ} {entries : List (String × β)}
    {e : String × β} (h : e ∈ items.foldl (fun entries i => upsert (key i) (value i) entries) entries) :
    e ∈ entries ∨ ∃ i ∈ items, e = (key i, value i) := by
  induction items generalizing entries with
  | nil => exact .inl h
  | cons i items ih =>
    rcases ih h with h | ⟨j, hj, rfl⟩
    · rcases mem_upsert h with rfl | h
      · exact .inr ⟨i, List.mem_cons_self, rfl⟩
      · exact .inl h
    · exact .inr ⟨j, List.mem_cons_of_mem i hj, rfl⟩

/-! ## Schemas -/

namespace Schema

/-- Every relation lists distinct names in small letters. -/
def IsPlain (schema : Schema) : Prop := ∀ e ∈ schema, e.2.Nodup ∧ ∀ n ∈ e.2, isName n = true

/-- Every relation of the definition lists identifiers that are distinct whatever their letter case. -/
def IsPlainDefinition (definition : List (String × List String)) : Prop :=
  ∀ e ∈ definition, (e.2.map Text.lower).Nodup ∧ ∀ n ∈ e.2, isIdentifier n = true

/-- The schema of a plain definition is plain. -/
theorem isPlain_ofDefinition {definition : List (String × List String)} (h : IsPlainDefinition definition) :
    (ofDefinition definition).IsPlain := by
  intro e he
  rcases mem_foldl_upsert he with he | ⟨f, hf, rfl⟩
  · cases he
  · rcases mem_foldl_upsert hf with hf | ⟨g, hg, rfl⟩
    · cases hf
    · obtain ⟨hd, hn⟩ := h g hg
      refine ⟨hd, fun n hm => ?_⟩
      obtain ⟨m, hmem, rfl⟩ := List.mem_map.mp hm
      exact Text.isName_lower (hn m hmem)

/-- The attribute names of a definition have no capital letters. -/
theorem isUpper_ofDefinition (definition : List (String × List String)) :
    ∀ e ∈ ofDefinition definition, ∀ n ∈ e.2, ∀ c ∈ n.toList, c.isUpper = false := by
  intro e he n hn c hc
  rcases mem_foldl_upsert he with he | ⟨f, -, rfl⟩
  · cases he
  · obtain ⟨m, -, rfl⟩ := List.mem_map.mp hn
    exact Text.isUpper_of_mem_lower hc

/-- A relation that is found has attributes. -/
theorem get_eq_ok {schema : Schema} {name : String} {names : List String} (h : schema.get name = .ok names) :
    schema.lookup name = some names ∧ names ≠ [] := by
  unfold get at h
  split at h
  · cases h
  · cases h
  · rename_i attributes hne hl
    cases h
    exact ⟨hl, hne⟩

/-- A relation of a plain schema has distinct attributes with names that texts write. -/
theorem IsPlain.of_get {schema : Schema} (hp : schema.IsPlain) {name : String} {names : List String}
    (h : schema.get name = .ok names) : names.Nodup ∧ ∀ n ∈ names, isName n = true :=
  hp _ (mem_of_lookup (get_eq_ok h).1)

/-- Names that small letters leave as they are are added as they are. -/
theorem add_of_small {schema extended : Schema} {name : String} {names : List String} (hn : Text.lower name = name)
    (hs : ∀ n ∈ names, Text.lower n = n) (h : schema.add name names = .ok extended) :
    schema.lookup name = none ∧ extended = upsert name names schema := by
  have hl : names.map Text.lower = names := by
    conv_rhs => rw [← List.map_id names]
    exact List.map_congr_left fun n hm => hs n hm
  unfold add store at h
  split at h
  · cases h
  · rename_i hc
    cases h
    rw [hl, hn]
    exact ⟨Option.not_isSome_iff_eq_none.mp hc, rfl⟩

/-- Names in small letters are added as they are. -/
theorem add_ok {schema extended : Schema} {name : String} {names : List String} (hn : isName name = true)
    (hs : ∀ n ∈ names, isName n = true) (h : schema.add name names = .ok extended) :
    schema.lookup name = none ∧ extended = upsert name names schema :=
  add_of_small (Text.lower_of_isName hn) (fun n hm => Text.lower_of_isName (hs n hm)) h

/-- A relation with distinct names that texts write keeps a schema plain. -/
theorem IsPlain.of_add {schema extended : Schema} (hp : schema.IsPlain) {name : String} {names : List String}
    (hn : isName name = true) (hs : ∀ n ∈ names, isName n = true) (hd : names.Nodup)
    (h : schema.add name names = .ok extended) : extended.IsPlain := by
  obtain ⟨-, rfl⟩ := add_ok hn hs h
  intro e he
  rcases mem_upsert he with rfl | he
  · exact ⟨hd, hs⟩
  · exact hp e he

end Schema

/-- Every node has attributes. -/
theorem Node.Made.heading_ne_nil {schema : Schema} {n : Node} (h : n.Made schema) : n.heading ≠ [] := by
  induction h with
  | relation _ hg =>
    show AttributeList.ofNames _ _ ≠ []
    simpa [AttributeList.ofNames] using (Schema.get_eq_ok hg).2
  | select _ _ _ ih => exact ih
  | project _ hr hk _ =>
    rintro rfl
    exact hr (List.forall₂_nil_right_iff.mp (AttributeList.trim_ok hk).1)
  | rename _ _ _ hr ih =>
    have hl := AttributeList.length_of_rename hr
    exact fun he => ih (List.length_eq_zero_iff.mp (hl.symm.trans (congrArg List.length he)))
  | @join op left right attributes serial _ _ _ _ ha ihl _ =>
    show attributes ≠ []
    have hleft : ∀ l : AttributeList, left.heading ++ l ≠ [] := fun l he => ihl (List.append_eq_nil_iff.mp he).1
    rcases op with _ | _ | ⟨kind, condition⟩
    · cases ha
      exact hleft _
    · rintro rfl
      have hr := List.forall₂_nil_right_iff.mp (AttributeList.trim_ok ha).1
      exact ihl (List.map_eq_nil_iff.mp (List.append_eq_nil_iff.mp hr).1)
    · obtain ⟨_, -, ha⟩ := exists_ok_of_bind ha
      cases ha
      exact hleft _
  | setOperation _ _ _ ihl _ =>
    show AttributeList.ofNames _ _ ≠ []
    simpa [AttributeList.ofNames, AttributeList.names] using ihl

/-! ## What holds of all names -/

section Names

variable {P : String → Prop} {schema extended : Schema}

/-- Every attribute name of the schema satisfies the predicate. -/
def Schema.Names (P : String → Prop) (schema : Schema) : Prop := ∀ e ∈ schema, ∀ n ∈ e.2, P n

/-- What holds of all names of a definition in small letters holds of all names of its schema. -/
theorem Schema.names_ofDefinition {definition : List (String × List String)} (h : ∀ e ∈ definition, ∀ n ∈ e.2, P (Text.lower n)) :
    (ofDefinition definition).Names P := by
  intro e he n hn
  rcases mem_foldl_upsert he with he | ⟨f, hf, rfl⟩
  · cases he
  · rcases mem_foldl_upsert hf with hf | ⟨g, hg, rfl⟩
    · cases hf
    · obtain ⟨m, hm, rfl⟩ := List.mem_map.mp hn
      exact h g hg m hm

/-- What holds of all names holds after a relation is added if it holds of the new ones. -/
theorem Schema.Names.of_add (hs : schema.Names P) {name : String} {names : List String} (hn : ∀ n ∈ names, P (Text.lower n))
    (h : schema.add name names = .ok extended) : extended.Names P := by
  unfold add store at h
  split at h
  · cases h
  · cases h
    intro e he
    rcases mem_upsert he with rfl | he
    · intro n hl
      obtain ⟨m, hm, rfl⟩ := List.mem_map.mp hl
      exact hn m hm
    · exact hs e he

variable (hw : ∀ n, isName n = true → P n)

include hw

/-- What holds of all names that texts write and of those of the schema holds of the attribute names of every node. -/
theorem Node.Made.forall_name {n : Node} (h : n.Made schema) (hs : schema.Names P) : ∀ a ∈ n.heading, P a.name := by
  induction h with
  | relation _ hg =>
    intro a ha
    obtain ⟨m, hm, rfl⟩ := List.mem_map.mp ha
    exact hs _ (mem_of_lookup (Schema.get_eq_ok hg).1) m hm
  | select _ _ _ ih => exact ih
  | project _ _ hk ih => exact fun a ha => ih a (AttributeList.mem_of_trim hk a ha)
  | rename _ ht _ hr ih => exact AttributeList.forall_name_of_rename hw ih ht.2 hr
  | join _ _ _ _ ha ihl ihr => exact forall_mem_joinAttributes ha ihl ihr
  | setOperation _ _ _ ihl _ =>
    intro a ha
    obtain ⟨m, hm, rfl⟩ := List.mem_map.mp ha
    obtain ⟨b, hb, rfl⟩ := List.mem_map.mp hm
    exact ihl b hb

/-- What holds of all names of a schema, and of names that texts write, holds after a statement. -/
theorem Stated.names {n : Node} (h : Stated schema n extended) (hl : ∀ n, P n → P (Text.lower n)) (hs : schema.Names P) :
    extended.Names P := by
  cases h with
  | query h | declare h => exact hs
  | assign h hn hnames hr ha =>
    have hnamed := AttributeList.forall_name_of_rename hw (h.forall_name hw hs) hnames hr
    refine hs.of_add (fun m hm => hl m ?_) ha
    obtain ⟨a, ham, rfl⟩ := List.mem_map.mp hm
    exact hnamed a ham

end Names

/-! ## Databases -/

/-- Every row of the database has a cell for every attribute of its relation. -/
def Database.Fits {α : Type} (db : Database α) (schema : Schema) : Prop :=
  ∀ e ∈ schema, ∀ x ∈ db e.1, x.length = e.2.length

end RelAlg
