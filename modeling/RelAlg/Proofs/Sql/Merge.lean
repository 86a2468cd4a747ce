import RelAlg.Proofs.Sql.Scope

/-!
# Merged selections

The condition of a selection goes into the query of the node under it, past all selections and projections, so it is checked
against the source of the first node that is neither, the base. The names in it were resolved by the attributes of the operand.
Projections in between may have hidden attributes of the base, and then a bare name that was clear is so no longer. This is the
only way in which a name changes its meaning (`get_base_of_select`).
-/

namespace RelAlg

open Sql

/-! ## Resolving in a longer list -/

namespace AttributeList

variable {l m : AttributeList} {a : Attribute} {reference : String}

theorem count_of_get (h : l.get reference = .ok a) : l.count a = 1 := by
  have hf := (mem_of_get h).2
  rw [← List.count_filter hf, get_eq_ok_iff.mp h]
  simp

/-- An attribute that stands once in the list is what a reference stands for if the reference fits no other. -/
theorem get_of_count (hc : l.count a = 1) (hf : (Reference.ofText reference).fits a = true)
    (ho : ∀ b ∈ l, (Reference.ofText reference).fits b = true → b = a) : l.get reference = .ok a := by
  rw [get_eq_ok_iff]
  have hall : ∀ b ∈ l.filter (Reference.ofText reference).fits, b = a := by
    intro b hb
    rw [List.mem_filter] at hb
    exact ho b hb.1 hb.2
  rw [List.eq_replicate_of_mem hall, ← List.count_eq_length.mpr fun b hb => (hall b hb).symm, List.count_filter hf, hc]
  rfl

/-- A reference that fits two attributes is ambiguous. -/
theorem get_of_two {b : Attribute} (ha : a ∈ l) (hb : b ∈ l) (hne : b ≠ a)
    (hfa : (Reference.ofText reference).fits a = true) (hfb : (Reference.ofText reference).fits b = true) :
    l.get reference = .error (.ambiguousAttribute a.name) := by
  have hma : a ∈ l.filter (Reference.ofText reference).fits := List.mem_filter.mpr ⟨ha, hfa⟩
  have hmb : b ∈ l.filter (Reference.ofText reference).fits := List.mem_filter.mpr ⟨hb, hfb⟩
  unfold get
  split
  · rename_i he
    rw [he] at hma
    cases hma
  · rename_i c he
    rw [he, List.mem_singleton] at hma hmb
    exact absurd (hmb.trans hma.symm) hne
  · rename_i c d rest he
    have hd : d ∈ l.filter (Reference.ofText reference).fits := by rw [he]; simp
    have hdn := (Reference.fits_iff.mp (List.mem_filter.mp hd).2).2.1
    rw [← hdn, (Reference.fits_iff.mp hfa).2.1]

/-- A reference with a qualifier fits one attribute only. -/
theorem eq_of_fits_of_qualified {r : Reference} {b : Attribute} (hq : r.qualifier ≠ "") (ha : r.fits a = true)
    (hb : r.fits b = true) : b = a := by
  obtain ⟨hla, hna, hqa⟩ := Reference.fits_iff.mp ha
  obtain ⟨hlb, hnb, hqb⟩ := Reference.fits_iff.mp hb
  have he : b.qualifier = a.qualifier := (hqb.resolve_left hq).trans (hqa.resolve_left hq).symm
  cases a
  cases b
  simp_all

end AttributeList

namespace Node

variable {schema : Schema} {n child : Node} {a : Attribute}

/-- The node below that is no selection and no projection. -/
def base : Node → Node
  | select _ _ n => n.base
  | project _ n => n.base
  | n => n

/-- The attributes of the base that the node does not have. -/
def hidden (n : Node) : AttributeList := n.base.heading.filter fun a => !n.heading.contains a

/-! ## Attributes of the base -/

theorem Made.isList_eq (h : n.Made schema) : ∀ a ∈ n.heading, a.isList = false := by
  induction h with
  | relation => exact List.forall_mem_map.mpr fun _ _ => rfl
  | select _ _ _ ih => exact ih
  | project _ _ hk ih => exact fun a ha => ih a (AttributeList.mem_of_trim hk a ha)
  | rename _ ht _ hr ih => exact AttributeList.isList_of_rename (fun n hm => ne_empty_of_isName (ht.2 n hm)) ih hr
  | join _ _ _ _ ha ihl ihr => exact forall_mem_joinAttributes ha ihl ihr
  | setOperation => exact List.forall_mem_map.mpr fun _ _ => rfl

theorem Made.base (h : n.Made schema) : n.base.Made schema := by
  induction h with
  | relation hn hg => exact .relation hn hg
  | select _ _ _ ih => exact ih
  | project _ _ _ ih => exact ih
  | rename h ht hf hr => exact .rename h ht hf hr
  | join hl hr ho hn ha => exact .join hl hr ho hn ha
  | setOperation hl hr hn => exact .setOperation hl hr hn

/-- A node has no attributes but those of its base. -/
theorem Made.mem_base (h : n.Made schema) : ∀ a ∈ n.heading, a ∈ n.base.heading := by
  induction h with
  | select _ _ _ ih => exact ih
  | project _ _ hk ih => exact fun a ha => ih a (AttributeList.mem_of_trim hk a ha)
  | relation | rename | join | setOperation => exact fun a ha => ha

/-- A projection keeps what resolves to one attribute, so what stands once in a node stands once in its base. -/
theorem Made.count_base (h : n.Made schema) (hc : n.heading.count a = 1) : n.base.heading.count a = 1 := by
  induction h with
  | select _ _ _ ih => exact ih hc
  | project _ _ hk ih =>
    have ha := List.count_pos_iff.mp (hc ▸ Nat.one_pos)
    obtain ⟨r, hr⟩ := AttributeList.get_of_trim hk a ha
    exact ih (AttributeList.count_of_get hr)
  | relation | rename | join | setOperation => exact hc

theorem mem_hidden {b : Attribute} : b ∈ n.hidden ↔ b ∈ n.base.heading ∧ b ∉ n.heading := by
  simp [hidden]

/-- What a reference stands for in a node, it stands for in the base, unless it is a bare name that a hidden attribute has
too. -/
theorem Made.get_base (h : n.Made schema) {r : String} (hr : n.heading.get r = .ok a) :
    n.base.heading.get r = if (Reference.ofText r).qualifier = "" ∧ a.name ∈ n.hidden.names
      then .error (.ambiguousAttribute a.name) else .ok a := by
  obtain ⟨ha, hf⟩ := AttributeList.mem_of_get hr
  split
  · rename_i hh
    obtain ⟨hq, hn⟩ := hh
    obtain ⟨b, hb, hbn⟩ := List.mem_map.mp hn
    obtain ⟨hbb, hbh⟩ := mem_hidden.mp hb
    have hfb : (Reference.ofText r).fits b = true :=
      Reference.fits_iff.mpr ⟨h.base.isList_eq b hbb, (Reference.fits_iff.mp hf).2.1.trans hbn.symm, .inl hq⟩
    exact AttributeList.get_of_two (h.mem_base a ha) hbb (fun e => hbh (e ▸ ha)) hf hfb
  · rename_i hh
    refine AttributeList.get_of_count (h.count_base (AttributeList.count_of_get hr)) hf ?_
    intro b hb hfb
    by_cases hq : (Reference.ofText r).qualifier = ""
    · -- Another attribute of the name is not hidden, so the node would have both.
      by_cases hbh : b ∈ n.heading
      · have hmem : b ∈ n.heading.filter (Reference.ofText r).fits := List.mem_filter.mpr ⟨hbh, hfb⟩
        rw [AttributeList.get_eq_ok_iff.mp hr] at hmem
        exact List.mem_singleton.mp hmem
      · have hbn : b.name = a.name := (Reference.fits_iff.mp hfb).2.1.symm.trans (Reference.fits_iff.mp hf).2.1
        exact absurd ⟨hq, List.mem_map.mpr ⟨b, mem_hidden.mpr ⟨hb, hbh⟩, hbn⟩⟩ hh
    · exact AttributeList.eq_of_fits_of_qualified hq hf hfb

/-! ## Queries -/

/-- A selection filters what its operand has from the same source, by its condition last. -/
theorem query_select {q : Query} {c : Condition} {p : Predicate} (head : Head) (hq : child.query = .ok (some q))
    (hp : Predicate.ofCondition c = .ok p) :
    ∃ columns, (select head c child).query = .ok (some (.select q.target columns q.source (q.filters ++ [p]))) :=
  ⟨_, query_of_select head hq hp⟩

/-- Selections and projections have the source of their base. -/
theorem Made.source_base (h : n.Made schema) :
    ∃ q b, n.query = .ok (some q) ∧ n.base.query = .ok (some b) ∧ q.source = b.source := by
  have hself : ∀ {k : Node}, k.Made schema → k.base = k →
      ∃ q b, k.query = .ok (some q) ∧ k.base.query = .ok (some b) ∧ q.source = b.source := by
    intro k hk he
    obtain ⟨q, hq⟩ := hk.has_query
    exact ⟨q, q, hq, he.symm ▸ hq, rfl⟩
  induction h with
  | select _ hc _ ih =>
    obtain ⟨q, b, hq, hb, hs⟩ := ih
    obtain ⟨p, hp⟩ := Predicate.exists_ofCondition hc
    obtain ⟨columns, hq⟩ := query_select _ hq hp
    exact ⟨_, b, hq, hb, hs⟩
  | project _ _ _ ih =>
    obtain ⟨q, b, hq, hb, hs⟩ := ih
    exact ⟨_, b, query_of_project _ hq, hb, hs⟩
  | relation hn hg => exact hself (.relation hn hg) rfl
  | rename h ht hf hr => exact hself (.rename h ht hf hr) rfl
  | join hl hr ho hn ha => exact hself (.join hl hr ho hn ha) rfl
  | setOperation hl hr hn => exact hself (.setOperation hl hr hn) rfl

/-- The node is a selection whose condition and operand pass the test. -/
def selects (test : Condition → Node → Bool) : Node → Bool
  | select _ c child => test c child
  | _ => false

end Node

/-- In the trees of an accepted text, over any schema, the query of a selection has its condition as a filter over the source
of the base. A reference in the condition stands for one attribute of the operand, and it stands for the same attribute of the
base unless it is a bare name that an attribute hidden by a projection in between has too; then it is ambiguous there. -/
theorem get_base_of_select (level : Level) (schema : Schema) (text : String) (ns : List Node)
    (h : Dialect.forest ⟨level, .standard⟩ schema text = .ok ns) :
    ∀ n ∈ ns, ∀ head c child, Node.select head c child ∈ n.parts →
      (∃ q b p, (Node.select head c child).query = .ok (some q) ∧ child.base.query = .ok (some b) ∧ q.source = b.source
        ∧ Predicate.ofCondition c = .ok p ∧ p ∈ q.filters)
      ∧ ∀ r ∈ c.references, ∃ a, child.heading.get r = .ok a
        ∧ child.base.heading.get r = if (Reference.ofText r).qualifier = "" ∧ a.name ∈ child.hidden.names
          then .error (.ambiguousAttribute a.name) else .ok a := by
  intro n hn head c child hk
  obtain ⟨s, hm⟩ := (Build.chain_of_forest h).made_of_mem_parts n hn _ hk
  cases hm with
  | @select _ _ serial hm hc hv =>
    refine ⟨?_, ?_⟩
    · obtain ⟨q, b, hq, hb, hs⟩ := hm.source_base
      obtain ⟨p, hp⟩ := Predicate.exists_ofCondition hc
      obtain ⟨columns, hq⟩ := Node.query_select (Head.make child.name child.heading serial) hq hp
      exact ⟨_, b, p, hq, hb, hs, hp, List.mem_append_right _ (List.mem_singleton_self p)⟩
    · intro r hr
      obtain ⟨a, ha⟩ := AttributeList.get_of_validate hv r hr
      exact ⟨a, ha, hm.get_base ha⟩

/-- A selection over a projection over a selection over a join, by a qualified name, by a name that the join has once, and by
one that it has twice. -/
theorem get_base_of_nested_selections : ∃ n head c child,
    Dialect.forest ⟨.extended, .standard⟩ [("r", ["a", "b"]), ("s", ["a", "c"])]
      "\\select_\x7br.a = c and a = 1\x7d (\\project_\x7br.a, c\x7d (\\select_\x7bb = 2\x7d (r \\join s)));" = .ok [n]
    ∧ Node.select head c child ∈ n.parts ∧ c.references = ["r.a", "c", "a"]
    ∧ child.base.heading.get "r.a" = child.heading.get "r.a"
    ∧ child.base.heading.get "c" = child.heading.get "c"
    ∧ child.base.heading.get "a" = .error (.ambiguousAttribute "a") := by
  obtain ⟨n, hn, hp⟩ := exists_single_of_any
    (x := Dialect.forest ⟨.extended, .standard⟩ [("r", ["a", "b"]), ("s", ["a", "c"])]
      "\\select_\x7br.a = c and a = 1\x7d (\\project_\x7br.a, c\x7d (\\select_\x7bb = 2\x7d (r \\join s)));")
    (p := Node.selects fun c child => c.references = ["r.a", "c", "a"] && child.hidden.names = ["b", "a"])
    (by decide +kernel)
  cases n with
  | select head c child =>
    simp only [Node.selects, Bool.and_eq_true, decide_eq_true_eq] at hp
    obtain ⟨hrefs, hhidden⟩ := hp
    have hself : Node.select head c child ∈ (Node.select head c child).parts := by simp [Node.parts]
    have hget := (get_base_of_select .extended _ _ _ hn _ (List.mem_singleton_self _) head c child hself).2
    have hbase : ∀ r ∈ c.references, child.base.heading.get r =
        if (Reference.ofText r).qualifier = "" ∧ (Reference.ofText r).name ∈ ["b", "a"]
        then .error (.ambiguousAttribute (Reference.ofText r).name) else child.heading.get r := by
      intro r hr
      obtain ⟨a, ha, hb⟩ := hget r hr
      rw [hb, ha, hhidden, (Reference.fits_iff.mp (AttributeList.mem_of_get ha).2).2.1]
    rw [hrefs] at hbase
    refine ⟨_, head, c, child, hn, hself, hrefs, ?_, ?_, ?_⟩
    · rw [hbase "r.a" (by simp), if_neg (by decide)]
    · rw [hbase "c" (by simp), if_neg (by decide)]
    · rw [hbase "a" (by simp), if_pos (by decide)]
      rfl
  | relation | project | rename | assign | join | setOperation | primaryKey | pair | inclusion | bare => cases hp

/-- The name in the condition is clear by the projection that it is written over. The query checks it against a join that has
the name twice. -/
theorem bare_name_ambiguous_in_base :
    Dialect.sql ⟨.extended, .standard⟩ .bag [("r", ["a"]), ("s", ["a"])]
      "\\select_\x7ba = 1\x7d (\\project_\x7br.a\x7d (r \\join s));"
      = .ok ["SELECT r.a FROM (SELECT r.a FROM r) AS r CROSS JOIN (SELECT s.a FROM s) AS s WHERE (a = 1)"]
    ∧ ∃ n head c child, Dialect.forest ⟨.extended, .standard⟩ [("r", ["a"]), ("s", ["a"])]
        "\\select_\x7ba = 1\x7d (\\project_\x7br.a\x7d (r \\join s));" = .ok [n]
      ∧ Node.select head c child ∈ n.parts ∧ "a" ∈ c.references
      ∧ child.heading.get "a" = .ok ⟨"a", some "r", false⟩
      ∧ child.base.heading.get "a" = .error (.ambiguousAttribute "a") := by
  obtain ⟨texts, hs, ht⟩ := exists_ok_of_any
    (x := Dialect.sql ⟨.extended, .standard⟩ .bag [("r", ["a"]), ("s", ["a"])]
      "\\select_\x7ba = 1\x7d (\\project_\x7br.a\x7d (r \\join s));")
    (p := fun texts => texts =
      ["SELECT r.a FROM (SELECT r.a FROM r) AS r CROSS JOIN (SELECT s.a FROM s) AS s WHERE (a = 1)"]) (by decide +kernel)
  obtain ⟨n, hn, hp⟩ := exists_single_of_any
    (x := Dialect.forest ⟨.extended, .standard⟩ [("r", ["a"]), ("s", ["a"])]
      "\\select_\x7ba = 1\x7d (\\project_\x7br.a\x7d (r \\join s));")
    (p := Node.selects fun c child => c.references.contains "a" && child.heading = [⟨"a", some "r", false⟩]
      && child.base.heading = [⟨"a", some "r", false⟩, ⟨"a", some "s", false⟩]) (by decide +kernel)
  rw [decide_eq_true_eq] at ht
  refine ⟨ht ▸ hs, ?_⟩
  cases n with
  | select head c child =>
    simp only [Node.selects, Bool.and_eq_true, decide_eq_true_eq, List.contains_iff_mem] at hp
    obtain ⟨⟨href, hchild⟩, hbase⟩ := hp
    refine ⟨_, head, c, child, hn, by simp [Node.parts], href, ?_, ?_⟩
    · rw [hchild]
      rfl
    · rw [hbase]
      rfl
  | relation | project | rename | assign | join | setOperation | primaryKey | pair | inclusion | bare => cases hp

end RelAlg
