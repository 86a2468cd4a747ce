import RelAlg.Proofs.Sql.Merge

/-!
# Names in a group of joins

Joins that stand directly in one another share a source, and the names of their operands are its aliases. A join refuses two
operands of one name, but it has no name itself, so nothing is compared across it: a name stands twice in a group just if some
join of the group over another join has it on both sides (`operandNames_nodup_iff`).
-/

namespace RelAlg

open Sql

namespace Node

variable {schema : Schema} {n left right : Node}

/-- The joins of a group, each after those under it. -/
def group : Node → List Node
  | join h op l r => l.group ++ r.group ++ [join h op l r]
  | _ => []

/-- The operands of a join over another join have no name in common. -/
def isApart : Node → Bool
  | join _ _ l r => !(l.isJoin || r.isJoin) || l.operandNames.all fun name => !r.operandNames.contains name
  | _ => true

/-- A join is apart just if its operands have no name in common or neither of them is a join. -/
theorem isApart_join {h : Head} {op : Join} : (join h op left right).isApart = true
    ↔ (left.isJoin = true ∨ right.isJoin = true → left.operandNames.Disjoint right.operandNames) := by
  simp only [isApart, Bool.or_eq_true, Bool.not_eq_true', Bool.or_eq_false_iff, List.all_eq_true, List.contains_eq_mem,
    decide_eq_false_iff_not]
  constructor
  · rintro (⟨hl, hr⟩ | hd) hj
    · simp [hl, hr] at hj
    · exact fun name h₁ h₂ => hd name h₁ h₂
  · intro hd
    by_cases hj : left.isJoin = true ∨ right.isJoin = true
    · exact .inr fun name h₁ h₂ => hd hj h₁ h₂
    · push Not at hj
      exact .inl (by simpa using hj)

/-! ## Aliases -/

/-- A node that is no join is an operand under its own name. -/
theorem operandNames_of_not_join (hj : n.isJoin = false) : n.operandNames = n.name.toList := by
  cases n <;> first | rfl | cases hj

/-- A label made of a serial number is no name that a text can write. -/
theorem Made.filter_label (h : n.Made schema) : [n.label].filter isName = n.name.toList := by
  rw [label, labelOf, given_of_isName h.isName_name]
  cases hn : n.name with
  | some q => simp [h.isName_name q hn]
  | none => simp [isName]

/-- Of the names that texts can write, an operand of a join brings those of its group, each as often as it stands there. -/
theorem Made.filter_operandSource (h : n.Made schema) {q : Query} (hq : n.query = .ok (some q)) :
    (n.operandSource q).names.filter isName = n.operandNames := by
  induction h generalizing q with
  | relation hn hg => exact Made.filter_label (.relation hn hg)
  | select h hc hv => exact Made.filter_label (.select h hc hv)
  | project h hr hk => exact Made.filter_label (.project h hr hk)
  | rename h ht hf hr => exact Made.filter_label (.rename h ht hf hr)
  | setOperation hl hr hn => exact Made.filter_label (.setOperation hl hr hn)
  | join _ _ _ _ _ ihl ihr =>
    obtain ⟨l, r, o, hl, hr, -, rfl⟩ := exists_of_query_join hq
    show (Source.names _ ++ Source.names _).filter isName = operandNames _ ++ operandNames _
    rw [List.filter_append, ihl hl, ihr hr]

/-! ## Names that stand twice -/

/-- Two operands that are no joins have names of their own. -/
theorem disjoint_of_sameName (hl : left.Made schema) (hn : sameName left.name right.name = false)
    (hjl : left.isJoin = false) (hjr : right.isJoin = false) : left.operandNames.Disjoint right.operandNames := by
  rw [operandNames_of_not_join hjl, operandNames_of_not_join hjr]
  intro name h₁ h₂
  rw [Option.mem_toList] at h₁ h₂
  rw [sameName, given_of_isName hl.isName_name, h₁, h₂] at hn
  simp at hn

/-- The names of a group are distinct just if all of its joins keep theirs apart. -/
theorem Made.nodup_operandNames_iff (h : n.Made schema) : n.operandNames.Nodup ↔ ∀ j ∈ n.group, j.isApart = true := by
  have hsingle : ∀ {k : Node}, k.isJoin = false → (k.operandNames.Nodup ↔ ∀ j ∈ k.group, j.isApart = true) := by
    intro k hj
    rw [operandNames_of_not_join hj]
    cases k with
    | join => cases hj
    | _ => exact iff_of_true (by cases k_name : Node.name _ <;> simp) nofun
  induction h with
  | relation | select | project | rename | setOperation => exact hsingle rfl
  | @join op left right attributes serial hl hr _ hn _ ihl ihr =>
    show (left.operandNames ++ right.operandNames).Nodup ↔ ∀ j ∈ left.group ++ right.group ++ [_], j.isApart = true
    simp only [List.nodup_append', List.forall_mem_append, List.forall_mem_singleton, ihl, ihr, and_assoc, isApart_join]
    refine and_congr_right fun _ => and_congr_right fun _ => ?_
    constructor
    · intro hd _
      exact hd
    · intro hd
      by_cases hj : left.isJoin = true ∨ right.isJoin = true
      · exact hd hj
      · push Not at hj
        exact disjoint_of_sameName hl hn (by simpa using hj.1) (by simpa using hj.2)

/-! ## Operands that are refused -/

theorem bind_ne_error {α β : Type} {x : Except Error α} {f : α → Except Error β} {e : Error} (hx : x ≠ .error e)
    (hf : ∀ a, f a ≠ .error e) : x >>= f ≠ .error e := by
  cases x with
  | error d =>
    intro h
    cases h
    exact hx rfl
  | ok a => exact hf a

theorem get_ne_ambiguousRelation (l : AttributeList) (r : String) : l.get r ≠ .error .ambiguousRelation := by
  unfold AttributeList.get
  split <;> simp

theorem validate_ne_ambiguousRelation (l : AttributeList) (rs : List String) :
    l.validate rs ≠ .error .ambiguousRelation := by
  induction rs with
  | nil => nofun
  | cons r rs ih => exact bind_ne_error (get_ne_ambiguousRelation l r) fun _ => ih

theorem resolve_ne_ambiguousRelation (l : AttributeList) (rs : List String) :
    l.resolve rs ≠ .error .ambiguousRelation := by
  induction rs with
  | nil => nofun
  | cons r rs ih => exact bind_ne_error (get_ne_ambiguousRelation l r) fun a => bind_ne_error ih fun as => nofun

/-- The attributes of a join may be refused, but not as an ambiguous relation. -/
theorem joinAttributes_ne_ambiguousRelation (op : Join) (l r : AttributeList) :
    joinAttributes op l r ≠ .error .ambiguousRelation := by
  cases op with
  | cross => simp [joinAttributes]
  | natural =>
    refine bind_ne_error (resolve_ne_ambiguousRelation _ _) fun kept => ?_
    split <;> simp
  | conditional kind condition => exact bind_ne_error (validate_ne_ambiguousRelation _ _) fun _ h => by cases h

/-- A join refuses its operands as ambiguous just if both have one name. -/
theorem Made.newJoin_eq_ambiguousRelation_iff {s t : Schema} (hl : left.Made s) (hr : right.Made t) (op : Join)
    (serial : Nat) : newJoin op left right serial = .error .ambiguousRelation
      ↔ ∃ name, left.name = some name ∧ right.name = some name := by
  have hs : sameName left.name right.name = true ↔ ∃ name, left.name = some name ∧ right.name = some name := by
    rw [sameName, given_of_isName hl.isName_name]
    cases left.name <;> cases right.name <;> simp [eq_comm]
  rw [← hs]
  unfold newJoin
  rw [hl.listed, hr.listed]
  cases hn : sameName left.name right.name with
  | true => exact iff_of_true rfl rfl
  | false =>
    refine iff_of_false ?_ nofun
    exact bind_ne_error nofun fun ⟨l, r⟩ => bind_ne_error (joinAttributes_ne_ambiguousRelation op l r) fun _ => nofun

end Node

/-- In the trees of an accepted text, over any schema: the names among the aliases that a part brings into a source are those of
its group, as often as they stand there; they are distinct just if in every join of the group over another join the operands
have no name in common; and a join of two parts is refused as an ambiguous reference just if both have one name. -/
theorem operandNames_nodup_iff (level : Level) (schema : Schema) (text : String) (ns : List Node)
    (h : Dialect.forest ⟨level, .standard⟩ schema text = .ok ns) :
    ∀ n ∈ ns, ∀ k ∈ n.parts,
      (∃ q, k.query = .ok (some q) ∧ (k.operandSource q).names.filter isName = k.operandNames)
      ∧ (k.operandNames.Nodup ↔ ∀ j ∈ k.group, j.isApart = true)
      ∧ ∀ m ∈ ns, ∀ j ∈ m.parts, ∀ op serial, Node.newJoin op k j serial = .error .ambiguousRelation
        ↔ ∃ name, k.name = some name ∧ j.name = some name := by
  intro n hn k hk
  have hmade := (Build.chain_of_forest h).made_of_mem_parts
  obtain ⟨s, hm⟩ := hmade n hn k hk
  refine ⟨?_, hm.nodup_operandNames_iff, ?_⟩
  · obtain ⟨q, hq⟩ := hm.has_query
    exact ⟨q, hq, hm.filter_operandSource hq⟩
  · intro m hmem j hj op serial
    obtain ⟨t, hjm⟩ := hmade m hmem j hj
    exact hm.newJoin_eq_ambiguousRelation_iff hjm op serial

/-- A renaming gives the second use of a relation a name of its own, so all three operands have one. -/
theorem operandNames_nodup_of_renamed : ∃ n,
    Dialect.forest ⟨.extended, .standard⟩ [("r", ["a"]), ("s", ["b"])]
      "r \\join (\\rename_\x7bt(c)\x7d r \\join \\select_\x7bb = 1\x7d s);" = .ok [n]
    ∧ n.operandNames = ["r", "t", "s"] ∧ n.operandNames.Nodup := by
  obtain ⟨n, hn, hp⟩ := exists_single_of_any
    (x := Dialect.forest ⟨.extended, .standard⟩ [("r", ["a"]), ("s", ["b"])]
      "r \\join (\\rename_\x7bt(c)\x7d r \\join \\select_\x7bb = 1\x7d s);")
    (p := fun n => n.operandNames = ["r", "t", "s"] && n.parts.contains n && n.group.all Node.isApart) (by decide +kernel)
  simp only [Bool.and_eq_true, decide_eq_true_eq, List.contains_iff_mem, List.all_eq_true] at hp
  obtain ⟨⟨hnames, hself⟩, hapart⟩ := hp
  have hiff := (operandNames_nodup_iff .extended _ _ [n] hn n (List.mem_singleton_self n) n hself).2.1
  exact ⟨n, hn, hnames, hiff.mpr hapart⟩

/-- A relation on both sides of a join over a join is accepted, and the source has its name twice. -/
theorem operandNames_repeated :
    Dialect.sql ⟨.extended, .standard⟩ .bag [("r", ["a"]), ("s", ["b"])] "r \\join s \\join r;"
      = .ok ["SELECT r.a, s.b, r.a FROM (SELECT r.a FROM r) AS r CROSS JOIN (SELECT s.b FROM s) AS s "
        ++ "CROSS JOIN (SELECT r.a FROM r) AS r"]
    ∧ ∃ n, Dialect.forest ⟨.extended, .standard⟩ [("r", ["a"]), ("s", ["b"])] "r \\join s \\join r;" = .ok [n]
      ∧ n.operandNames = ["r", "s", "r"] := by
  obtain ⟨texts, hs, ht⟩ := exists_ok_of_any
    (x := Dialect.sql ⟨.extended, .standard⟩ .bag [("r", ["a"]), ("s", ["b"])] "r \\join s \\join r;")
    (p := fun texts => texts = ["SELECT r.a, s.b, r.a FROM (SELECT r.a FROM r) AS r CROSS JOIN (SELECT s.b FROM s) AS s "
        ++ "CROSS JOIN (SELECT r.a FROM r) AS r"]) (by decide +kernel)
  obtain ⟨n, hn, hp⟩ := exists_single_of_any
    (x := Dialect.forest ⟨.extended, .standard⟩ [("r", ["a"]), ("s", ["b"])] "r \\join s \\join r;")
    (p := fun n => n.operandNames = ["r", "s", "r"]) (by decide +kernel)
  rw [decide_eq_true_eq] at ht hp
  exact ⟨ht ▸ hs, n, hn, hp⟩

end RelAlg
