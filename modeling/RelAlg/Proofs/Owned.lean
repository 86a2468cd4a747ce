import RelAlg.Proofs.Compose
import RelAlg.Proofs.NaturalJoin

/-!
# Names and their attributes

A node with a name owns its attributes: all are under that name, and no two have one name (`AttributeList.Owned`). Names are
given, kept or dropped by each kind of node, and so are qualifiers; what makes the two agree is that a selection or projection
keeps both, and that a renaming or an assignment sets both and refuses a name that stands twice. A join of two nodes with names
has no name itself, but its attributes are told apart by how they are written. Main statement: `owned_of_program`.
-/

namespace RelAlg

namespace AttributeList

variable {l r renamed : AttributeList} {p q : String} {a : Attribute}

/-- The attributes are all under the name, and no two of them have one name. -/
structure Owned (l : AttributeList) (name : String) : Prop where
  qualified : ∀ a ∈ l, a.qualifier = some name
  distinct : l.names.Nodup

/-- Distinct names under a relation name are owned by it. -/
theorem owned_ofNames {names : List String} (h : names.Nodup) (name : String) : (ofNames names (some name)).Owned name where
  qualified := by
    intro a ha
    obtain ⟨n, -, rfl⟩ := List.mem_map.mp ha
    rfl
  distinct := by rwa [names_ofNames]

/-- Attributes that are written differently and are under one name have different names. -/
theorem Owned.of_trim (h : l.Owned p) {references : List String} {kept : AttributeList}
    (hk : l.trim references = .ok kept) : kept.Owned p := by
  have hq : ∀ a ∈ kept, a.qualifier = some p := fun a ha => h.qualified a (mem_of_trim hk a ha)
  refine ⟨hq, (List.Nodup.of_map _ (trim_ok hk).2).map_on fun a ha b hb he => ?_⟩
  exact List.inj_on_of_nodup_map h.distinct (mem_of_trim hk a ha) (mem_of_trim hk b hb) he

/-- Names that stay under a new qualifier do not stand twice. -/
theorem nodup_of_requalified (hq : (given (some p)).isSome = true) (h : l.rename [] (some p) = .ok renamed) :
    l.textNames.Nodup := by
  rw [rename_nil] at h
  split at h
  · cases h
  · rename_i hd
    exact not_not.mp fun hn => hd ⟨hq, hn⟩

/-- A renaming under a name owns its attributes, whatever they were before. -/
theorem owned_of_rename (hp : p ≠ "") {names : List String} (hn : ∀ n ∈ names, n ≠ "") (hl : ∀ a ∈ l, a.isList = false)
    (h : l.rename (names.map Phrase.word) (some p) = .ok renamed) : renamed.Owned p := by
  have hg : given (some p) = some p := by simp [given, hp]
  refine ⟨fun b hb => ?_, ?_⟩
  · obtain ⟨a, -, hab⟩ := qualifier_of_rename hn h b hb
    rw [hab, hg]
    rfl
  · rcases rename_ok hn h with ⟨rfl, rfl⟩ | ⟨hlength, hd, rfl⟩
    · have hnodup := nodup_of_requalified (by rw [hg]; rfl) h
      rw [textNames_eq_names hl] at hnodup
      simpa [AttributeList.names, requalify, Function.comp_def] using hnodup
    · rwa [names_zipWith hlength]

/-! ## Two lists -/

/-- An attribute under a qualifier is written with it. -/
theorem qualified_of_qualifier (hq : a.qualifier = some q) (hne : q ≠ "") : a.qualified = q ++ "." ++ a.name := by
  have hg : given a.qualifier = some q := by simp [given, hq, hne]
  simp only [Attribute.qualified, hg]

/-- How an attribute is written tells its qualifier and its name. -/
theorem ofText_of_qualifier (hq : a.qualifier = some q) (hne : q ≠ "") (hd : '.' ∉ a.name.toList) :
    Reference.ofText a.qualified = ⟨q, a.name⟩ := by
  rw [qualified_of_qualifier hq hne]
  exact Reference.ofText_append hd

/-- Attributes with qualifiers that are written differently are found by how they are written. -/
theorem get_of_nodup (hn : l.qualifiedNames.Nodup) (hq : ∀ a ∈ l, ∃ q, a.qualifier = some q ∧ q ≠ "")
    (hd : ∀ a ∈ l, '.' ∉ a.name.toList) (ht : ∀ a ∈ l, a.isList = false) (ha : a ∈ l) : l.get a.qualified = .ok a := by
  obtain ⟨q, haq, hne⟩ := hq a ha
  have hofText := ofText_of_qualifier haq hne (hd a ha)
  have hfits : (Reference.ofText a.qualified).fits a = true := by
    rw [hofText, Reference.fits_iff]
    exact ⟨ht a ha, rfl, .inr haq⟩
  refine get_of_count (List.count_eq_one_of_mem (List.Nodup.of_map _ hn) ha) hfits fun b _ hf => ?_
  exact eq_of_fits_of_qualified (by rw [hofText]; exact hne) hfits hf

/-- Attributes under one name are written differently. -/
theorem Owned.nodup_qualifiedNames (h : l.Owned p) (hp : p ≠ "") (hd : ∀ a ∈ l, '.' ∉ a.name.toList) :
    l.qualifiedNames.Nodup := by
  refine (List.Nodup.of_map _ h.distinct).map_on fun a ha b hb he => ?_
  have hrefs := congrArg Reference.ofText he
  rw [ofText_of_qualifier (h.qualified a ha) hp (hd a ha), ofText_of_qualifier (h.qualified b hb) hp (hd b hb)] at hrefs
  exact List.inj_on_of_nodup_map h.distinct ha hb (Reference.mk.inj hrefs).2

/-- Attributes of two lists under different names are written differently. -/
theorem Owned.nodup_append (hl : l.Owned p) (hr : r.Owned q) (hp : p ≠ "") (hq : q ≠ "") (hne : p ≠ q)
    (hd : ∀ a ∈ l ++ r, '.' ∉ a.name.toList) : (qualifiedNames (l ++ r)).Nodup := by
  rw [List.forall_mem_append] at hd
  rw [qualifiedNames, List.map_append, List.nodup_append]
  refine ⟨hl.nodup_qualifiedNames hp hd.1, hr.nodup_qualifiedNames hq hd.2, ?_⟩
  intro s hs t ht he
  obtain ⟨a, ha, rfl⟩ := List.mem_map.mp hs
  obtain ⟨b, hb, rfl⟩ := List.mem_map.mp ht
  have hrefs := congrArg Reference.ofText he
  rw [ofText_of_qualifier (hl.qualified a ha) hp (hd.1 a ha), ofText_of_qualifier (hr.qualified b hb) hq (hd.2 b hb)] at hrefs
  exact hne (Reference.mk.inj hrefs).1

/-- The attributes of a join of two lists under different names are written differently, and each is found by how it is
written. -/
theorem Owned.joined (hl : l.Owned p) (hr : r.Owned q) (hp : p ≠ "") (hq : q ≠ "") (hne : p ≠ q)
    (hd : ∀ a ∈ l ++ r, '.' ∉ a.name.toList) (ht : ∀ a ∈ l ++ r, a.isList = false) {op : Join} {attributes : AttributeList}
    (ha : Node.joinAttributes op l r = .ok attributes) :
    attributes.qualifiedNames.Nodup ∧ ∀ a ∈ attributes, attributes.get a.qualified = .ok a := by
  have hmem := Node.mem_of_joinAttributes ha
  have hnodup : attributes.qualifiedNames.Nodup := by
    cases op with
    | cross =>
      cases ha
      exact hl.nodup_append hr hp hq hne hd
    -- a natural join is trimmed by how its attributes are written
    | natural => exact (trim_ok ha).2
    | conditional kind condition =>
      obtain ⟨_, -, ha⟩ := exists_ok_of_bind ha
      cases ha
      exact hl.nodup_append hr hp hq hne hd
  have hqualified : ∀ a ∈ l ++ r, ∃ n, a.qualifier = some n ∧ n ≠ "" := by
    rw [List.forall_mem_append]
    exact ⟨fun a ha => ⟨p, hl.qualified a ha, hp⟩, fun a ha => ⟨q, hr.qualified a ha, hq⟩⟩
  exact ⟨hnodup, fun a ha => get_of_nodup hnodup (fun b hb => hqualified b (hmem b hb)) (fun b hb => hd b (hmem b hb))
    (fun b hb => ht b (hmem b hb)) ha⟩

end AttributeList

/-! ## Nodes -/

namespace Node

variable {schema : Schema} {n left right : Node}

/-- The node has no name, or it owns its attributes. -/
def Owns (n : Node) : Prop := ∀ name, n.name = some name → n.heading.Owned name

/-- Every node that has a name owns its attributes. -/
theorem Made.owns (h : n.Made schema) (hs : schema.IsPlain) : n.Owns := by
  induction h with
  | relation _ hg =>
    rintro _ ⟨⟩
    exact AttributeList.owned_ofNames (hs.of_get hg).1 _
  | select _ _ _ ih => exact ih
  | project _ _ hk ih => exact fun name hn => (ih name hn).of_trim hk
  -- a renaming puts all attributes under its own name, so nothing need be known of its operand
  | @rename child target renamed serial h ht hf hr _ =>
    intro name hn
    have hn : target.name?.or child.name = some name := hn
    have hmade : (Node.rename (Head.make (target.name?.or child.name) renamed serial) child).Made schema := .rename h ht hf hr
    have hname := hmade.isName_name name hn
    rw [hn] at hr
    exact AttributeList.owned_of_rename (ne_empty_of_isName hname) (fun m hm => ne_empty_of_isName (ht.2 m hm)) h.isList_eq hr
  | join => nofun
  | setOperation => nofun

/-- The attributes of a join are written differently, and each is found by how it is written. -/
structure IsTold (n : Node) : Prop where
  written : n.heading.qualifiedNames.Nodup
  found : ∀ a ∈ n.heading, n.heading.get a.qualified = .ok a

/-- The attributes of a join of nodes with names are told apart by how they are written. -/
theorem Made.isTold_join {h : Head} {op : Join} {p q : String} (hm : (Node.join h op left right).Made schema)
    (hs : schema.IsPlain) (hp : left.name = some p) (hq : right.name = some q) : (Node.join h op left right).IsTold := by
  cases hm with
  | join hl hr _ hn ha =>
    have hne : p ≠ q := by
      rintro rfl
      rw [hp, hq, sameName, given_of_isName fun m hm => by cases hm; exact hl.isName_name _ hp] at hn
      simp at hn
    have hnames : schema.Names (isName · = true) := fun e he => (hs e he).2
    have hdot : ∀ a ∈ left.heading ++ right.heading, '.' ∉ a.name.toList := by
      rw [List.forall_mem_append]
      exact ⟨fun a ha => not_dot_of_isName (hl.forall_name (fun _ => id) hnames a ha),
        fun a ha => not_dot_of_isName (hr.forall_name (fun _ => id) hnames a ha)⟩
    obtain ⟨hwritten, hfound⟩ := ((hl.owns hs) p hp).joined ((hr.owns hs) q hq) (ne_empty_of_isName (hl.isName_name p hp))
      (ne_empty_of_isName (hr.isName_name q hq)) hne hdot (List.forall_mem_append.mpr ⟨hl.isList_eq, hr.isList_eq⟩) ha
    exact ⟨hwritten, hfound⟩

end Node

/-! ## Statements -/

/-- An assignment owns its attributes, and leaves a schema of distinct names. -/
theorem Stated.owns {schema extended : Schema} {n : Node} (h : Stated schema n extended) (hs : schema.IsPlain) :
    (∀ k ∈ n.trees, k.Owns) ∧ extended.IsPlain := by
  have hparts : ∀ k ∈ n.parts, k.Owns := fun k hk => (h.made_of_mem_parts k hk).owns hs
  cases h with
  | query h => exact ⟨by cases h <;> exact hparts, hs⟩
  | declare h =>
    refine ⟨?_, hs⟩
    obtain ⟨_, _, rfl⟩ | ⟨_, _, _, _, rfl, -⟩ | ⟨_, _, _, _, _, rfl, -⟩ := h.cases <;> exact hparts
  | @assign child name names attributes serial _ h hn hnames hr ha =>
    have howned : attributes.Owned name := AttributeList.owned_of_rename (ne_empty_of_isName hn)
      (fun m hm => ne_empty_of_isName (hnames m hm)) h.isList_eq hr
    have hwords : ∀ m ∈ attributes.names, isName m = true := by
      intro m hm
      obtain ⟨a, ha, rfl⟩ := List.mem_map.mp hm
      exact AttributeList.forall_name_of_rename (fun _ => id) (h.forall_name (fun _ => id) fun e he => (hs e he).2) hnames hr a ha
    rw [Node.trees, List.forall_mem_append, List.forall_mem_singleton]
    refine ⟨⟨hparts, ?_⟩, hs.of_add hn hwords howned.distinct ha⟩
    rintro _ ⟨⟩
    exact howned

/-- Every tree of a chain owns its attributes, and every part was made over a plain schema. -/
theorem Chain.owns {schema : Schema} {ns : List Node} (h : Chain schema ns) (hs : schema.IsPlain) :
    ∀ n ∈ ns, (∀ k ∈ n.trees, k.Owns) ∧ ∀ k ∈ n.parts, ∃ s, Schema.IsPlain s ∧ k.Made s := by
  induction h with
  | nil => nofun
  | cons h _ ih =>
    obtain ⟨howns, hplain⟩ := h.owns hs
    rw [List.forall_mem_cons]
    exact ⟨⟨howns, fun k hk => ⟨_, hs, h.made_of_mem_parts k hk⟩⟩, ih hplain⟩

/-- A join among the trees of a node is one of its parts. -/
theorem Node.mem_parts_of_join {n : Node} {h : Head} {op : Join} {left right : Node} (hk : join h op left right ∈ n.trees) :
    join h op left right ∈ n.parts := by
  cases n with
  | assign head child =>
    rcases List.mem_append.mp hk with hk | hk
    · exact hk
    · cases List.mem_singleton.mp hk
  | _ => exact hk

/-- In the trees of every accepted text, over a schema whose relations list identifiers that are distinct whatever their letter
case: a node with a name has attributes under that name only, and no two of one name. A join of two nodes with names has
attributes that are all written differently, and each is found by how it is written. The schema after the text has one new
entry for every assignment, and all its relations list distinct names. -/
theorem owned_of_program (level : Level) (definition : List (String × List String)) (text : String) (ns : List Node)
    (w : Workspace) (hd : Schema.IsPlainDefinition definition)
    (h : (Build.program level .standard text).attempt (.start (.ofDefinition definition)) = (.ok ns, w)) :
    (∀ root ∈ ns, ∀ n ∈ root.trees, ∀ name, n.name = some name →
      (∀ a ∈ n.heading, a.qualifier = some name) ∧ n.heading.names.Nodup) ∧
    (∀ root ∈ ns, ∀ head op left right, Node.join head op left right ∈ root.trees → left.name.isSome = true →
      right.name.isSome = true → head.attributes.qualifiedNames.Nodup ∧
        ∀ a ∈ head.attributes, head.attributes.get a.qualified = .ok a) ∧
    w.schema = Schema.ofDefinition definition ++ ns.filterMap Node.added? ∧ ∀ e ∈ w.schema, e.2.Nodup := by
  have hforest : Build.forest level .standard (.ofDefinition definition) text = .ok ns := congrArg Prod.fst h
  have hplain := Schema.isPlain_ofDefinition hd
  have howns := (Build.chain_of_forest hforest).owns hplain
  have hschema : w.schema = Schema.ofDefinition definition ++ ns.filterMap Node.added? := by
    obtain ⟨ss, hp, hn⟩ := Build.nodes_of_program (Build.outcome_of_attempt h)
    exact (Build.schema_of_nodes (Surface.isWritten_of_parse hp) (Schema.isSmall_ofDefinition definition) hn).1
  refine ⟨?_, ?_, hschema, ?_⟩
  · intro root hroot n hn name hname
    have howned := (howns root hroot).1 n hn name hname
    exact ⟨howned.qualified, howned.distinct⟩
  · intro root hroot head op left right hj hl hr
    obtain ⟨p, hp⟩ := Option.isSome_iff_exists.mp hl
    obtain ⟨q, hq⟩ := Option.isSome_iff_exists.mp hr
    obtain ⟨s, hs, hm⟩ := (howns root hroot).2 _ (Node.mem_parts_of_join hj)
    obtain ⟨hwritten, hfound⟩ := hm.isTold_join hs hp hq
    exact ⟨hwritten, hfound⟩
  · rw [hschema, List.forall_mem_append]
    refine ⟨fun e he => (hplain e he).1, ?_⟩
    intro e he
    obtain ⟨n, hn, hadded⟩ := List.mem_filterMap.mp he
    obtain ⟨name, hname, rfl⟩ := Option.map_eq_some_iff.mp hadded
    cases n with
    | assign head child => exact ((howns _ hn).1 (.assign head child) (by simp [Node.trees]) name hname).distinct
    | _ => cases hname

/-- An assignment over a renaming that takes over the name, and joins of nodes that have their names from a relation, from an
assignment and from a renaming. -/
def namingText : String :=
  "t(x, y) := \\rename_\x7b(c, d)\x7d r; \\select_\x7bx = s.a\x7d (t \\join s); "
    ++ "\\project_\x7ba\x7d r \\natural_join \\rename_\x7bu\x7d (s \\union s);"

theorem owned_of_namingText : ∃ ns w, Schema.IsPlainDefinition [("R", ["A", "b"]), ("s", ["a"])] ∧
    (Build.program .extended .standard namingText).attempt (.start (.ofDefinition [("R", ["A", "b"]), ("s", ["a"])]))
      = (.ok ns, w) ∧ ns.length = 3 ∧
    (∀ root ∈ ns, ∀ n ∈ root.trees, ∀ name, n.name = some name →
      (∀ a ∈ n.heading, a.qualifier = some name) ∧ n.heading.names.Nodup) ∧
    (∀ root ∈ ns, ∀ head op left right, Node.join head op left right ∈ root.trees → left.name.isSome = true →
      right.name.isSome = true → head.attributes.qualifiedNames.Nodup ∧
        ∀ a ∈ head.attributes, head.attributes.get a.qualified = .ok a) ∧
    w.schema = Schema.ofDefinition [("R", ["A", "b"]), ("s", ["a"])] ++ ns.filterMap Node.added? ∧ ∀ e ∈ w.schema, e.2.Nodup := by
  have hd : Schema.IsPlainDefinition [("R", ["A", "b"]), ("s", ["a"])] := by
    unfold Schema.IsPlainDefinition
    decide +kernel
  obtain ⟨ns, w, h, hl⟩ := exists_run_of_any (p := fun ns => decide (ns.length = 3))
    (x := (Build.program .extended .standard namingText).attempt (.start (.ofDefinition [("R", ["A", "b"]), ("s", ["a"])])))
    (by decide +kernel)
  exact ⟨ns, w, hd, h, of_decide_eq_true hl, owned_of_program .extended _ namingText ns w hd h⟩

end RelAlg
