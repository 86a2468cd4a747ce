import RelAlg.Proofs.Lower
import RelAlg.Proofs.Reader.Append
import RelAlg.Proofs.Renumber

/-!
# Statements one after the other

Every assignment puts one entry at the end of the schema: the name in small letters, and the attribute names of the node
as they are (`Stated.schema_eq`), for names in small letters stay as they are. With `parse_append` and `Renumbers.nodes`
the nodes of two texts, one after the other, are those of the first and, under other numbers, those of the second over
the schema that the first one leaves (`forest_append`). Main statement: `statements_compose`.
-/

namespace RelAlg

open Surface

/-! ## Names in small letters -/

/-- The attribute names of every relation are in small letters. -/
def Schema.IsSmall (schema : Schema) : Prop := ∀ e ∈ schema, ∀ n ∈ e.2, Text.lower n = n

/-- The schema of a definition has names in small letters. -/
theorem Schema.isSmall_ofDefinition (definition : List (String × List String)) : (ofDefinition definition).IsSmall :=
  names_ofDefinition fun _ _ n _ => Text.lower_lower n

namespace AttributeList

/-- The names of the attributes are in small letters. -/
def IsSmall (l : AttributeList) : Prop := ∀ a ∈ l, Text.lower a.name = a.name

/-- The names of a small list are in small letters. -/
theorem IsSmall.names {l : AttributeList} (h : l.IsSmall) : ∀ n ∈ l.names, Text.lower n = n := List.forall_mem_map.mpr h

/-- New names that texts write keep a list small. -/
theorem IsSmall.rename {l renamed : AttributeList} {names : List String} {qualifier : Option String} (h : l.IsSmall)
    (hn : ∀ n ∈ names, isName n = true) (hr : l.rename (names.map Phrase.word) qualifier = .ok renamed) :
    renamed.IsSmall :=
  forall_name_of_rename (fun _ => Text.lower_of_isName) h hn hr

end AttributeList

/-- Over a schema in small letters every node has attribute names in small letters. -/
theorem Node.Made.isSmall_heading {schema : Schema} {n : Node} (h : n.Made schema) (hs : schema.IsSmall) : n.heading.IsSmall :=
  h.forall_name (fun _ => Text.lower_of_isName) hs

/-! ## The schema after statements -/

/-- The entry of the schema that an assignment makes. -/
def Node.added? (n : Node) : Option (String × List String) := n.assigned?.map fun name => (Text.lower name, n.heading.names)

/-- An entry with a new key is put in at the end. -/
theorem upsert_of_lookup {β : Type} {key : String} {value : β} {entries : List (String × β)} (h : entries.lookup key = none) :
    upsert key value entries = entries ++ [(key, value)] := by
  induction entries with
  | nil => rfl
  | cons e entries ih =>
    rw [List.lookup_cons] at h
    by_cases hk : key = e.1
    · simp [hk] at h
    · rw [beq_false_of_ne hk] at h
      rw [upsert, if_neg (Ne.symm hk), ih h]
      rfl

/-- A relation of two schemas together is one of either. -/
theorem Schema.contains_append (schema added : Schema) (name : String) :
    contains (schema ++ added) name = (schema.contains name || added.contains name) := by
  unfold contains
  rw [List.lookup_append, Option.isSome_or]

/-- An assignment puts its entry at the end of the schema, under a name that was not there. -/
theorem Stated.schema_eq {schema extended : Schema} {n : Node} (h : Stated schema n extended) (hs : schema.IsSmall) :
    extended = schema ++ n.added?.toList ∧ extended.IsSmall ∧
      ∀ name ∈ n.assigned?, schema.contains name = false ∧ extended.contains name = true := by
  cases h with
  | query h =>
    rw [Node.added?, h.assigned?_eq]
    exact ⟨(List.append_nil _).symm, hs, nofun⟩
  | declare h =>
    rw [Node.added?, h.assigned?_eq]
    exact ⟨(List.append_nil _).symm, hs, nofun⟩
  | @assign child name names attributes serial _ h hn hs' hr ha =>
    have hlower := Text.lower_of_isName hn
    have hsmall := ((h.isSmall_heading hs).rename hs' hr).names
    obtain ⟨hl, rfl⟩ := Schema.add_of_small hlower hsmall ha
    have he : (Node.assign (Head.make (some name) attributes serial) child).added? = some (name, attributes.names) := by
      show some (Text.lower name, attributes.names) = _
      rw [hlower]
    rw [upsert_of_lookup hl, he]
    refine ⟨rfl, ?_, ?_⟩
    · intro e hm
      rcases List.mem_append.mp hm with hm | hm
      · exact hs e hm
      · cases List.mem_singleton.mp hm
        exact hsmall
    · rintro _ ⟨⟩
      constructor
      · rw [Schema.contains, hl]
        rfl
      · rw [Schema.contains_append, Schema.contains, Schema.contains, List.lookup_cons_self]
        exact Bool.or_true _

namespace Build

/-- The schema after statements is the one before them with an entry for every assignment. No name is assigned twice, and
none that was there before. -/
theorem InTurn.schema_eq {level : Level} {w w' : Workspace} {ss : List Statement} {ns : List Node}
    (h : InTurn level w ss ns w') (hw : w.schema.IsSmall) :
    w'.schema = w.schema ++ ns.filterMap Node.added? ∧ (ss.filterMap Statement.assigned?).Nodup ∧
      ∀ name ∈ ss.filterMap Statement.assigned?, w.schema.contains name = false := by
  induction h with
  | nil w => exact ⟨(List.append_nil _).symm, .nil, List.forall_mem_nil _⟩
  | @cons w v u s n ss ns hs hn _ ih =>
    obtain ⟨hstated, hname⟩ := stated_of_statement hs hn
    obtain ⟨hv, hsmall, hfree⟩ := hstated.schema_eq hw
    obtain ⟨hu, hnodup, hrest⟩ := ih hsmall
    -- what the schema has after the first statement it has before, or the first statement assigns it
    have hold : ∀ name ∈ ss.filterMap Statement.assigned?, w.schema.contains name = false := by
      intro name hname
      have hc := hrest name hname
      rw [hv, Schema.contains_append, Bool.or_eq_false_iff] at hc
      exact hc.1
    refine ⟨?_, ?_⟩
    · rw [hu, hv, List.append_assoc, List.filterMap_cons]
      cases n.added? <;> rfl
    · rw [hname] at hfree
      cases hsome : s.assigned? with
      | none =>
        rw [List.filterMap_cons_none hsome]
        exact ⟨hnodup, hold⟩
      | some name =>
        obtain ⟨hbefore, hafter⟩ := hfree name hsome
        rw [List.filterMap_cons_some hsome, List.nodup_cons]
        refine ⟨⟨fun hmem => ?_, hnodup⟩, ?_⟩
        · have hc := hrest name hmem
          rw [hafter] at hc
          cases hc
        · intro other hmem
          rcases List.mem_cons.mp hmem with rfl | hmem
          · exact hbefore
          · exact hold other hmem

/-- After statements the schema has the relations they assigned, in order behind those it had. -/
theorem schema_of_nodes {level : Level} {ss : List Statement} (hs : ∀ s ∈ ss, s.IsWritten level) {w w' : Workspace}
    {ns : List Node} (hw : w.schema.IsSmall) (h : outcome (nodes level .standard ss) w = (.ok ns, w')) :
    w'.schema = w.schema ++ ns.filterMap Node.added? ∧ (ss.filterMap Statement.assigned?).Nodup ∧
      ∀ name ∈ ss.filterMap Statement.assigned?, w.schema.contains name = false :=
  (inTurn_of_nodes hs h).schema_eq hw

/-! ## The nodes of two texts -/

/-- The nodes of statements in two parts are made one part after the other. -/
theorem nodes_append (level : Level) (lex : Lexicon) (ss ts : List Statement) :
    nodes level lex (ss ++ ts) = do
      let ns ← nodes level lex ss
      let ms ← nodes level lex ts
      return ns ++ ms := by
  induction ss with
  | nil => simp [nodes]
  | cons s ss ih => simp [nodes, ih]

/-- Statements go on where others stopped: they do what they do over the schema that the others left, under other numbers. -/
theorem outcome_nodes_append {level : Level} {schema : Schema} {ss ts : List Statement} {ns : List Node} {w : Workspace}
    (h : outcome (nodes level .standard ss) (.start schema) = (.ok ns, w)) :
    ∃ k m, (outcome (nodes level .standard (ss ++ ts)) (.start schema)).1 =
      (outcome (nodes level .standard ts) (.start w.schema)).1.map fun ms => ns ++ ms.map (Node.renumber k m) := by
  have hserial : 1 ≤ w.serial := by
    cases Renumbers.nodes (k := 0) (m := 0) level .standard ss (.start schema) with
    | fails hf _ => cases h.symm.trans hf
    | gives hg _ hle =>
      cases h.symm.trans hg
      exact hle
  have hw : w = (Workspace.start w.schema).ahead (w.serial - 1) w.mark := by
    obtain ⟨schema, serial, mark⟩ := w
    simp only [Workspace.ahead, Workspace.start, Nat.zero_add, Nat.add_sub_cancel' hserial]
  refine ⟨w.serial - 1, w.mark, ?_⟩
  rw [nodes_append, outcome_bind_eq, h]
  show (outcome (nodes level .standard ts >>= fun ms => pure (ns ++ ms)) w).1 = _
  rw [outcome_bind_eq]
  cases Renumbers.nodes (k := w.serial - 1) (m := w.mark) level .standard ts (.start w.schema) with
  | fails hf hf' =>
    rw [← hw] at hf'
    rw [hf, hf']
    rfl
  | gives hg hg' _ =>
    rw [← hw] at hg'
    rw [hg, hg']
    rfl

/-- The nodes of a text and another one after it. -/
theorem forest_append {level : Level} {schema : Schema} {first second : String} {ns : List Node} (hs : schema.IsSmall)
    (h₁ : '\t' ∉ first.toList) (h₂ : '\t' ∉ second.toList) (hv : second.toList.any (fun c => !isBlank c) = true)
    (h : forest level .standard schema first = .ok ns) :
    ∃ k m, forest level .standard schema (first ++ second) =
      (forest level .standard (schema ++ ns.filterMap Node.added?) second).map
        fun ms => ns ++ ms.map (Node.renumber k m) := by
  obtain ⟨ss, w, hp, hn⟩ := nodes_of_forest h
  have happend := parse_append h₁ h₂ hv hp
  have hschema : w.schema = schema ++ ns.filterMap Node.added? := (schema_of_nodes (isWritten_of_parse hp) hs hn).1
  rw [← hschema]
  cases hq : parse level .standard second with
  | error e =>
    rw [hq] at happend
    exact ⟨0, 0, by rw [forest_of_error happend, forest_of_error hq]; rfl⟩
  | ok ts =>
    rw [hq] at happend
    rw [forest_of_parse happend, forest_of_parse hq]
    exact outcome_nodes_append hn

/-- Who assigns a name twice, or one that the schema has, gets an error. -/
theorem forest_of_reassigned {level : Level} {schema : Schema} {text : String} {ss : List Statement} (hs : schema.IsSmall)
    (h : parse level .standard text = .ok ss) (hr : ¬(ss.filterMap Statement.assigned?).Nodup ∨
      ∃ name ∈ ss.filterMap Statement.assigned?, schema.contains name = true) :
    ∃ e, forest level .standard schema text = .error e := by
  cases hf : forest level .standard schema text with
  | error e => exact ⟨e, rfl⟩
  | ok ns =>
    obtain ⟨_, w, hp, hn⟩ := nodes_of_forest hf
    cases h.symm.trans hp
    obtain ⟨-, hnodup, hfree⟩ := schema_of_nodes (isWritten_of_parse h) hs hn
    rcases hr with hr | ⟨name, hm, hc⟩
    · exact absurd hnodup hr
    · cases hc.symm.trans (hfree name hm)

end Build

/-- The phrases of a text with another one behind it are those of both. -/
theorem phrases_append {level : Level} {first second : String} {ps : List Phrase} (h₁ : '\t' ∉ first.toList)
    (h₂ : '\t' ∉ second.toList) (hv : second.toList.any (fun c => !isBlank c) = true)
    (h : Dialect.phrases ⟨level, .standard⟩ first = .ok ps) :
    Dialect.phrases ⟨level, .standard⟩ (first ++ second) =
      (Dialect.phrases ⟨level, .standard⟩ second).map (ps ++ ·) := by
  unfold Dialect.phrases at h ⊢
  split at h
  · rename_i hl
    cases hp : parse level .standard first with
    | error e =>
      rw [hp] at h
      cases h
    | ok ss =>
      rw [hp] at h
      cases h
      rw [if_pos hl, if_pos hl, parse_append h₁ h₂ hv hp]
      cases parse level .standard second with
      | error e => rfl
      | ok ts => exact congrArg Except.ok (List.map_append ..)
  · cases h

/-- Statements compose. After an accepted text another one, not blank, is accepted just if it is accepted alone, and the
statements and words of both are those of the first and then those of the second. The nodes of both are those of the first
and then, under other numbers, those of the second over the schema with an entry for every assignment of the first, or
there is the error of the second. Who assigns a name twice, or one that the schema has, gets an error. -/
theorem statements_compose (level : Level) (definition : List (String × List String)) (first second : String)
    (h₁ : '\t' ∉ first.toList) (h₂ : '\t' ∉ second.toList) (hv : second.toList.any (fun c => !isBlank c) = true) :
    (∀ ss, parse level .standard first = .ok ss →
      parse level .standard (first ++ second) = (parse level .standard second).map (ss ++ ·)) ∧
    (∀ ps, Dialect.phrases ⟨level, .standard⟩ first = .ok ps →
      Dialect.phrases ⟨level, .standard⟩ (first ++ second) = (Dialect.phrases ⟨level, .standard⟩ second).map (ps ++ ·)) ∧
    (∀ ns, Dialect.forest ⟨level, .standard⟩ (.ofDefinition definition) first = .ok ns →
      ∃ k m, Dialect.forest ⟨level, .standard⟩ (.ofDefinition definition) (first ++ second) =
        (Dialect.forest ⟨level, .standard⟩ (Schema.ofDefinition definition ++ ns.filterMap Node.added?) second).map
          fun ms => ns ++ ms.map (Node.renumber k m)) ∧
    ∀ text ss, parse level .standard text = .ok ss →
      (¬(ss.filterMap Statement.assigned?).Nodup ∨
        ∃ name ∈ ss.filterMap Statement.assigned?, (Schema.ofDefinition definition).contains name = true) →
      ∃ e, Dialect.forest ⟨level, .standard⟩ (.ofDefinition definition) text = .error e := by
  have hs := Schema.isSmall_ofDefinition definition
  refine ⟨?_, ?_, ?_, ?_⟩
  · intro ss h
    exact parse_append h₁ h₂ hv h
  · intro ps h
    exact phrases_append h₁ h₂ hv h
  · intro ns h
    exact Build.forest_append hs h₁ h₂ hv h
  · intro text ss h hr
    exact Build.forest_of_reassigned hs h hr

/-- A relation is assigned, then joined under its new names; it cannot be assigned again. -/
theorem statements_compose_over_assigned :
    ∃ ns ms k m, Dialect.forest ⟨.extended, .standard⟩ (.ofDefinition [("R", ["A"]), ("s", ["b"])])
        "t(x) := r;\n" = .ok ns
      ∧ Dialect.forest ⟨.extended, .standard⟩ [("r", ["a"]), ("s", ["b"]), ("t", ["x"])]
        "u := t \\join s; \\project_\x7bx\x7d u;" = .ok ms
      ∧ Dialect.forest ⟨.extended, .standard⟩ (.ofDefinition [("R", ["A"]), ("s", ["b"])])
        ("t(x) := r;\n" ++ "u := t \\join s; \\project_\x7bx\x7d u;") = .ok (ns ++ ms.map (Node.renumber k m))
      ∧ ∃ e, Dialect.forest ⟨.extended, .standard⟩ (.ofDefinition [("R", ["A"]), ("s", ["b"])])
        "t(x) := r;\nt := s;" = .error e := by
  obtain ⟨-, -, hforest, hagain⟩ := statements_compose .extended [("R", ["A"]), ("s", ["b"])] "t(x) := r;\n"
    "u := t \\join s; \\project_\x7bx\x7d u;" (by decide) (by decide) (by decide)
  obtain ⟨ns, hns, hadded⟩ := exists_ok_of_any
    (x := Dialect.forest ⟨.extended, .standard⟩ (.ofDefinition [("R", ["A"]), ("s", ["b"])]) "t(x) := r;\n")
    (p := fun ns => ns.filterMap Node.added? = [("t", ["x"])]) (by decide +kernel)
  obtain ⟨ms, hms, -⟩ := exists_ok_of_any
    (x := Dialect.forest ⟨.extended, .standard⟩ [("r", ["a"]), ("s", ["b"]), ("t", ["x"])]
      "u := t \\join s; \\project_\x7bx\x7d u;")
    (p := fun _ => true) (by decide +kernel)
  obtain ⟨ss, hss, hnames⟩ := exists_ok_of_any (x := parse .extended .standard "t(x) := r;\nt := s;")
    (p := fun ss => ¬(ss.filterMap Statement.assigned?).Nodup) (by decide +kernel)
  obtain ⟨k, m, hk⟩ := hforest ns hns
  have hschema : Schema.ofDefinition [("R", ["A"]), ("s", ["b"])] ++ ns.filterMap Node.added? =
      [("r", ["a"]), ("s", ["b"]), ("t", ["x"])] := by
    rw [of_decide_eq_true hadded]
    decide +kernel
  rw [hschema, hms] at hk
  exact ⟨ns, ms, k, m, hns, hms, hk, hagain _ ss hss (.inl (of_decide_eq_true hnames))⟩

end RelAlg
