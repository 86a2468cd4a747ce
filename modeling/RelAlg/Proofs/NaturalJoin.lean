import RelAlg.Proofs.Schema
import RelAlg.Proofs.Sql.Merge

/-!
# Attributes of natural joins

A natural join keeps all attributes on the left, and on the right those whose name is new. It looks each of them up by the
way it is written, among the attributes of both sides. An attribute that is kept from the right is always found. One on the
left is not found alone if it also stands for an attribute on the right (`Attribute.clashes`): one of its name if it has no
qualifier itself, one written in the same way if it has. The first such attribute is ambiguous, and without one the join is
made (`newJoin_natural_eq`).
-/

namespace RelAlg

/-- The attribute, as it is written, stands for the other one as well. -/
def Attribute.clashes (a b : Attribute) : Bool := a.name = b.name && (a.qualifier = none || a.qualifier = b.qualifier)

/-! ## Looking up -/

namespace AttributeList

variable {l r : AttributeList} {a b : Attribute}

/-- An attribute as it is written fits those that it clashes with. -/
theorem IsPlain.fits_qualified (hl : l.IsPlain) (ha : a ∈ l) (hb : b.isList = false) :
    (Reference.ofText a.qualified).fits b = a.clashes b := by
  rw [hl.ofText_qualified ha, Reference.fits, Attribute.clashes, hb]
  cases hq : a.qualifier with
  | none => simp
  | some q => simp [ne_empty_of_isName (hl.qualified a ha q hq)]

/-- What an attribute of the first list stands for in both lists. -/
theorem IsPlain.filter_fits (hl : l.IsPlain) (hr : r.IsPlain) (ha : a ∈ l) :
    (l ++ r).filter (Reference.ofText a.qualified).fits = a :: r.filter a.clashes := by
  have hright : r.filter (Reference.ofText a.qualified).fits = r.filter a.clashes :=
    List.filter_congr fun b hb => hl.fits_qualified ha (hr.texts b hb)
  rw [List.filter_append, get_eq_ok_iff.mp (hl.get_qualified ha), hright, List.singleton_append]

/-- An attribute on the left is found in both lists together unless it clashes with one on the right. -/
theorem IsPlain.get_left (hl : l.IsPlain) (hr : r.IsPlain) (ha : a ∈ l) :
    get (l ++ r) a.qualified = if r.any a.clashes then .error (.ambiguousAttribute a.name) else .ok a := by
  unfold get
  rw [hl.filter_fits hr ha]
  cases hf : r.filter a.clashes with
  | nil =>
    have hnone : r.any a.clashes = false := by
      rw [List.any_eq_false]
      exact List.filter_eq_nil_iff.mp hf
    rw [hnone]
    rfl
  | cons b bs =>
    obtain ⟨hb, hc⟩ := List.mem_filter.mp (hf ▸ List.mem_cons_self : b ∈ r.filter a.clashes)
    have hname : a.name = b.name := of_decide_eq_true (Bool.and_eq_true_iff.mp hc).1
    rw [if_pos (List.any_eq_true.mpr ⟨b, hb, hc⟩), hname]

/-- An attribute of the second list whose name is new stands for itself alone. -/
theorem IsPlain.get_right (hr : r.IsPlain) (hb : b ∈ r) (hn : b.name ∉ l.names) :
    get (l ++ r) b.qualified = .ok b := by
  have hleft : l.filter (Reference.ofText b.qualified).fits = [] := by
    refine List.filter_eq_nil_iff.mpr fun a ha hf => hn (List.mem_map.mpr ⟨a, ha, ?_⟩)
    rw [hr.ofText_qualified hb] at hf
    exact (Reference.fits_iff.mp hf).2.1.symm
  rw [get_eq_ok_iff, List.filter_append, hleft, List.nil_append, get_eq_ok_iff.mp (hr.get_qualified hb)]

/-- Attributes that are each found by how they are written are found together. -/
theorem resolve_of_get {as : AttributeList} (h : ∀ a ∈ as, l.get a.qualified = .ok a) : l.resolve as.qualifiedNames = .ok as := by
  induction as with
  | nil => rfl
  | cons a as ih =>
    rw [List.forall_mem_cons] at h
    simp only [qualifiedNames, List.map_cons, resolve, h.1, bind, Except.bind]
    rw [← qualifiedNames, ih h.2]
    rfl

/-- The first reference that does not resolve decides. -/
theorem resolve_of_error {as bs : AttributeList} {e : Error} (h : ∀ a ∈ as, l.get a.qualified = .ok a)
    (he : l.get b.qualified = .error e) : l.resolve (qualifiedNames (as ++ b :: bs)) = .error e := by
  induction as with
  | nil => simp only [List.nil_append, qualifiedNames, List.map_cons, resolve, he, bind, Except.bind]
  | cons a as ih =>
    rw [List.forall_mem_cons] at h
    simp only [List.cons_append, qualifiedNames, List.map_cons, resolve, h.1, bind, Except.bind]
    rw [← qualifiedNames, ih h.2]

/-- Attributes of distinct names are written in distinct ways. -/
theorem IsPlain.nodup_qualifiedNames (hl : l.IsPlain) : l.qualifiedNames.Nodup := by
  refine (List.Nodup.of_map _ hl.distinct).map_on fun a ha b hb he => ?_
  have hrefs := congrArg Reference.ofText he
  rw [hl.ofText_qualified ha, hl.ofText_qualified hb, Reference.mk.injEq] at hrefs
  exact List.inj_on_of_nodup_map hl.distinct ha hb hrefs.2

/-- A plain list of attributes that are each found is what is kept. -/
theorem IsPlain.trim_of_get {as : AttributeList} (hp : as.IsPlain) (h : ∀ a ∈ as, l.get a.qualified = .ok a) :
    l.trim as.qualifiedNames = .ok as := by
  unfold trim
  simp only [resolve_of_get h, bind, Except.bind, (hasDuplicates_eq_false_iff _).mpr hp.nodup_qualifiedNames]
  rfl

/-! ## The attributes of the join -/

/-- The attributes of the first list and those of the second whose name is new. -/
def joined (l r : AttributeList) : AttributeList := l ++ r.filter fun b => !l.names.contains b.name

/-- The attributes of a natural join of plain lists are plain. -/
theorem isPlain_joined (hl : l.IsPlain) (hr : r.IsPlain) : (l.joined r).IsPlain := by
  have hall : ∀ {P : Attribute → Prop}, (∀ a ∈ l, P a) → (∀ b ∈ r, P b) → ∀ a ∈ l.joined r, P a := by
    intro P hP hQ
    rw [joined, List.forall_mem_append]
    exact ⟨hP, fun b hb => hQ b (List.mem_of_mem_filter hb)⟩
  refine ⟨?_, hall hl.named hr.named, hall hl.texts hr.texts, hall hl.qualified hr.qualified⟩
  rw [joined, AttributeList.names, List.map_append, List.nodup_append]
  refine ⟨hl.distinct, (List.filter_sublist.map _).nodup hr.distinct, ?_⟩
  rintro n hn m hm rfl
  obtain ⟨b, hb, rfl⟩ := List.mem_map.mp hm
  have hnew := (List.mem_filter.mp hb).2
  rw [Bool.not_eq_true', List.contains_eq_mem, decide_eq_false_iff_not] at hnew
  exact hnew hn

/-- A natural join of plain lists asks for all on the left and for what is new on the right. -/
theorem IsPlain.naturalReferences_eq (hl : l.IsPlain) (hr : r.IsPlain) :
    Node.naturalReferences l r = qualifiedNames (l.joined r) := by
  have hnew : (r.filter fun b => b.isList || !l.textNames.contains b.name) = r.filter fun b => !l.names.contains b.name :=
    List.filter_congr fun b hb => by rw [hr.texts b hb, textNames_eq_names hl.texts, Bool.false_or]
  rw [Node.naturalReferences, hnew, joined, qualifiedNames, qualifiedNames, qualifiedNames, List.map_append]

/-- The attributes of a natural join, or the first attribute on the left that is ambiguous. -/
theorem IsPlain.joinAttributes_natural (hl : l.IsPlain) (hr : r.IsPlain) :
    Node.joinAttributes .natural l r = match l.find? fun a => r.any a.clashes with
      | none => .ok (l.joined r)
      | some a => .error (.ambiguousAttribute a.name) := by
  have hget : ∀ a ∈ l, r.any a.clashes = false → get (l ++ r) a.qualified = .ok a := by
    intro a ha hc
    rw [hl.get_left hr ha, hc]
    rfl
  unfold Node.joinAttributes
  rw [hl.naturalReferences_eq hr]
  cases hf : l.find? fun a => r.any a.clashes with
  | none =>
    refine (isPlain_joined hl hr).trim_of_get ?_
    rw [joined, List.forall_mem_append]
    refine ⟨fun a ha => hget a ha (Bool.eq_false_iff.mpr (List.find?_eq_none.mp hf a ha)), fun b hb => ?_⟩
    obtain ⟨hb, hnew⟩ := List.mem_filter.mp hb
    exact hr.get_right hb (by simpa using hnew)
  | some a =>
    -- what comes before the first clash is found, so the clash is what is reported
    obtain ⟨hc, as, bs, rfl, hbefore⟩ := List.find?_eq_some_iff_append.mp hf
    have herror : get (as ++ a :: bs ++ r) a.qualified = .error (.ambiguousAttribute a.name) := by
      rw [hl.get_left hr (by simp), hc]
      rfl
    unfold trim
    have hfound : ∀ c ∈ as, get (as ++ a :: bs ++ r) c.qualified = .ok c := fun c hm =>
      hget c (List.mem_append_left _ hm) (by simpa using hbefore c hm)
    rw [joined, List.append_assoc, List.cons_append, merge, resolve_of_error hfound herror]
    rfl

end AttributeList

/-! ## Joins of trees -/

/-- The nodes of the algebra in a tree, an assignment among them. -/
def Node.trees : Node → List Node
  | assign h n => n.parts ++ [assign h n]
  | n => n.parts

/-- The node stands in a tree of an accepted text over the schema. -/
def Node.IsBuilt (schema : Schema) (n : Node) : Prop :=
  ∃ level text ns root, Dialect.forest ⟨level, .standard⟩ schema text = .ok ns ∧ root ∈ ns ∧ n ∈ root.trees

/-- The node has an attribute list, of names and qualifiers that texts write. -/
structure Node.IsSpelled (n : Node) : Prop where
  listed : n.listed = .inl n.heading
  isPlain : n.heading.names.Nodup → n.heading.IsPlain

/-- Over a schema of names that texts write, every node has an attribute list of such names. -/
theorem Node.Made.isSpelled {schema : Schema} {n : Node} (h : n.Made schema) (hs : schema.Names (isName · = true)) :
    n.IsSpelled :=
  ⟨h.listed, fun hd => ⟨hd, h.forall_name (fun _ => id) hs, h.isList_eq, h.isName_qualifier⟩⟩

/-- Every tree of a statement is spelled if the schema has names that texts write. -/
theorem Stated.isSpelled {schema extended : Schema} {n : Node} (h : Stated schema n extended)
    (hs : schema.Names (isName · = true)) : ∀ k ∈ n.trees, k.IsSpelled := by
  have hparts : ∀ k ∈ n.parts, k.IsSpelled := fun k hk => (h.made_of_mem_parts k hk).isSpelled hs
  cases h with
  | @assign child name names attributes serial _ h hn hnames hr ha =>
    have hne : ∀ m ∈ names, m ≠ "" := fun m hm => ne_empty_of_isName (hnames m hm)
    rw [Node.trees, List.forall_mem_append, List.forall_mem_singleton]
    refine ⟨hparts, rfl, fun hd => ⟨hd, ?_, AttributeList.isList_of_rename hne h.isList_eq hr, ?_⟩⟩
    · exact AttributeList.forall_name_of_rename (fun _ => id) (h.forall_name (fun _ => id) hs) hnames hr
    · exact AttributeList.isName_qualifier_of_rename hne (by rintro _ ⟨⟩; exact hn) h.isName_qualifier hr
  | query h => cases h <;> exact hparts
  | declare h =>
    obtain ⟨_, _, rfl⟩ | ⟨_, _, _, _, rfl, -⟩ | ⟨_, _, _, _, _, rfl, -⟩ := h.cases <;> exact hparts

/-- Every tree of a chain is spelled if the schema has names that texts write. -/
theorem Chain.isSpelled {schema : Schema} {ns : List Node} (h : Chain schema ns) (hs : schema.Names (isName · = true)) :
    ∀ n ∈ ns, ∀ k ∈ n.trees, k.IsSpelled := by
  induction h with
  | nil => nofun
  | cons h _ ih =>
    rw [List.forall_mem_cons]
    have hlower : ∀ n, isName n = true → isName (Text.lower n) = true := fun n hn => (Text.lower_of_isName hn).symm ▸ hn
    exact ⟨h.isSpelled hs, ih (h.names (fun _ => id) hlower hs)⟩

/-- A join of nodes with different names and with attribute lists fails only by its attributes. -/
theorem Node.newJoin_eq {op : Join} {left right : Node} {l r : AttributeList} (hn : sameName left.name right.name = false)
    (hl : left.listed = .inl l) (hr : right.listed = .inl r) (serial : Nat) :
    newJoin op left right serial
      = (joinAttributes op l r).map fun attributes => join (Head.make none attributes serial) op left right := by
  unfold newJoin
  rw [hn, hl, hr]
  show (joinAttributes op l r >>= fun attributes => pure (join (Head.make none attributes serial) op left right)) = _
  cases joinAttributes op l r <;> rfl

/-- A natural join of two nodes of texts over a schema of identifiers, each with distinct attribute names and not both under
one name: it keeps the attributes on the left, and those on the right whose name is not among theirs, unless an attribute on
the left also stands for one on the right. The first one that does is reported as ambiguous. -/
theorem newJoin_natural_eq {definition : List (String × List String)} (hd : ∀ e ∈ definition, ∀ n ∈ e.2, isIdentifier n = true)
    {left right : Node} (hl : left.IsBuilt (.ofDefinition definition)) (hr : right.IsBuilt (.ofDefinition definition))
    (hnl : left.heading.names.Nodup) (hnr : right.heading.names.Nodup) (hn : Node.sameName left.name right.name = false)
    (serial : Nat) :
    Node.newJoin .natural left right serial = match left.heading.find? fun a => right.heading.any a.clashes with
      | none => .ok (.join (Head.make none
          (left.heading ++ right.heading.filter fun b => !left.heading.names.contains b.name) serial) .natural left right)
      | some a => .error (.ambiguousAttribute a.name) := by
  have hspelled : ∀ {k : Node}, k.IsBuilt (.ofDefinition definition) → k.IsSpelled := by
    rintro k ⟨level, text, ns, root, hf, hroot, hk⟩
    exact (Build.chain_of_forest hf).isSpelled
      (Schema.names_ofDefinition fun e he n hm => Text.isName_lower (hd e he n hm)) root hroot k hk
  have hjoin := ((hspelled hl).isPlain hnl).joinAttributes_natural ((hspelled hr).isPlain hnr)
  rw [Node.newJoin_eq hn (hspelled hl).listed (hspelled hr).listed, hjoin]
  cases left.heading.find? fun a => right.heading.any a.clashes <;> rfl

/-- Relations for joins whose operands share names. -/
def namesakeDefinition : List (String × List String) := [("S", ["A", "b"]), ("t", ["x", "b"]), ("u", ["c", "d"])]

/-- An assigned relation, with qualifiers, and a join over a union, which has none: the name that they share is kept from the
left. -/
theorem newJoin_natural_of_shared : ∃ left right : Node,
    Dialect.forest ⟨.extended, .standard⟩ (.ofDefinition namesakeDefinition) "r := \\project_\x7bs.a, b\x7d s;" = .ok [left] ∧
    Dialect.forest ⟨.extended, .standard⟩ (.ofDefinition namesakeDefinition) "u \\join (t \\union t);" = .ok [right] ∧
    left.IsBuilt (.ofDefinition namesakeDefinition) ∧ right.IsBuilt (.ofDefinition namesakeDefinition) ∧
    left.heading.names = ["a", "b"] ∧ right.heading.names = ["c", "d", "x", "b"] ∧
    Node.newJoin .natural left right 7 = .ok (.join ⟨none, [⟨"a", some "r", false⟩, ⟨"b", some "r", false⟩,
      ⟨"c", some "u", false⟩, ⟨"d", some "u", false⟩, ⟨"x", none, false⟩], 7⟩ .natural left right) := by
  obtain ⟨left, hl, hpl⟩ := exists_single_of_any
    (x := Dialect.forest ⟨.extended, .standard⟩ (.ofDefinition namesakeDefinition) "r := \\project_\x7bs.a, b\x7d s;")
    (p := fun n => n.name = some "r" ∧ n ∈ n.trees ∧ n.heading = [⟨"a", some "r", false⟩, ⟨"b", some "r", false⟩])
    (by decide +kernel)
  obtain ⟨right, hr, hpr⟩ := exists_single_of_any
    (x := Dialect.forest ⟨.extended, .standard⟩ (.ofDefinition namesakeDefinition) "u \\join (t \\union t);")
    (p := fun n => n.name = none ∧ n ∈ n.trees ∧ n.heading =
      [⟨"c", some "u", false⟩, ⟨"d", some "u", false⟩, ⟨"x", none, false⟩, ⟨"b", none, false⟩]) (by decide +kernel)
  obtain ⟨hln, hlt, hlh⟩ := of_decide_eq_true hpl
  obtain ⟨hrn, hrt, hrh⟩ := of_decide_eq_true hpr
  have hlb : left.IsBuilt (.ofDefinition namesakeDefinition) := ⟨_, _, _, left, hl, List.mem_singleton_self left, hlt⟩
  have hrb : right.IsBuilt (.ofDefinition namesakeDefinition) := ⟨_, _, _, right, hr, List.mem_singleton_self right, hrt⟩
  have hjoin := newJoin_natural_eq (by decide) hlb hrb (by rw [hlh]; decide) (by rw [hrh]; decide)
    (by rw [hln, hrn]; decide) 7
  rw [hlh, hrh] at hjoin
  exact ⟨left, right, hl, hr, hlb, hrb, by rw [hlh]; rfl, by rw [hrh]; rfl, hjoin⟩

/-- The reference to an attribute of the name is ambiguous. -/
def isAmbiguous {β : Type} (name : String) : Except Error β → Bool
  | .error (.ambiguousAttribute n) => n = name
  | _ => false

/-- The test for an ambiguous attribute is for that error. -/
theorem eq_error_of_isAmbiguous {β : Type} {name : String} {x : Except Error β} (h : isAmbiguous name x = true) :
    x = .error (.ambiguousAttribute name) := by
  unfold isAmbiguous at h
  split at h
  · rw [of_decide_eq_true h]
  · cases h

/-- A union has attributes without qualifiers, so on the left of a natural join it is refused if it shares a name with the
other side. -/
theorem newJoin_natural_refused : ∃ left right : Node,
    Dialect.forest ⟨.extended, .standard⟩ [("r", ["a"]), ("t", ["a"]), ("s", ["a", "b"])] "r \\union t;" = .ok [left] ∧
    Dialect.forest ⟨.extended, .standard⟩ [("r", ["a"]), ("t", ["a"]), ("s", ["a", "b"])] "s;" = .ok [right] ∧
    left.heading.names.Nodup ∧ right.heading.names.Nodup ∧ Node.sameName left.name right.name = false ∧
    (∀ serial, Node.newJoin .natural left right serial = .error (.ambiguousAttribute "a")) ∧
    Dialect.forest ⟨.extended, .standard⟩ [("r", ["a"]), ("t", ["a"]), ("s", ["a", "b"])]
      "(r \\union t) \\natural_join s;" = .error (.ambiguousAttribute "a") := by
  obtain ⟨left, hl, hpl⟩ := exists_single_of_any
    (x := Dialect.forest ⟨.extended, .standard⟩ [("r", ["a"]), ("t", ["a"]), ("s", ["a", "b"])] "r \\union t;")
    (p := fun n => n.name = none ∧ n.listed = .inl [⟨"a", none, false⟩] ∧ n.heading = [⟨"a", none, false⟩]) (by decide +kernel)
  obtain ⟨right, hr, hpr⟩ := exists_single_of_any
    (x := Dialect.forest ⟨.extended, .standard⟩ [("r", ["a"]), ("t", ["a"]), ("s", ["a", "b"])] "s;")
    (p := fun n => n.name = some "s" ∧ n.listed = .inl [⟨"a", some "s", false⟩, ⟨"b", some "s", false⟩] ∧
      n.heading = [⟨"a", some "s", false⟩, ⟨"b", some "s", false⟩]) (by decide +kernel)
  obtain ⟨hln, hll, hlh⟩ := of_decide_eq_true hpl
  obtain ⟨hrn, hrl, hrh⟩ := of_decide_eq_true hpr
  have hn : Node.sameName left.name right.name = false := by rw [hln, hrn]; decide
  refine ⟨left, right, hl, hr, by rw [hlh]; decide, by rw [hrh]; decide, hn, fun serial => ?_,
    eq_error_of_isAmbiguous (by decide +kernel)⟩
  have hjoin : Node.joinAttributes .natural [⟨"a", none, false⟩] [⟨"a", some "s", false⟩, ⟨"b", some "s", false⟩]
      = .error (.ambiguousAttribute "a") := eq_error_of_isAmbiguous (by decide +kernel)
  rw [Node.newJoin_eq hn hll hrl, hjoin]
  rfl

end RelAlg
