import RelAlg.Proofs.Reader.Statement
import RelAlg.Proofs.Sql.Merge

/-!
# What a text can come to

Over any schema a text comes to one of three ends, the same for its nodes, its SQL, the SQL of its parts and its drawings
(`outcome_of_text`). It is not of the language; or a name in it fails, by one of the kinds of errors that are reported to who
wrote it; or all four are there. `Reports` says of a single result, and `Build.Reports` of a computation, that it fails in no
other way. Each way to make a node has its lemma, and terms, declarations and statements follow the way they are made.
-/

namespace RelAlg

open Surface Sql

variable {α β : Type}

/-- The kinds of errors that a text of the language is refused for. -/
def ErrorKind.reported : List ErrorKind := [.input, .relationReference, .attributeReference]

/-- The result is there, or it fails by an error that is reported. -/
def Reports (x : Except Error α) : Prop := ∀ e, x = .error e → e.kind ∈ ErrorKind.reported

/-- A result that is there does not fail. -/
theorem reports_ok (a : α) : Reports (.ok a) := by
  intro e h
  cases h

/-- An error of a reported kind is reported. -/
theorem reports_error {e : Error} (h : e.kind ∈ ErrorKind.reported) : Reports (.error e : Except Error α) := by
  intro d hd
  cases hd
  exact h

/-- What is computed in two steps reports if both steps do. -/
theorem Reports.bind {x : Except Error α} {f : α → Except Error β} (hx : Reports x) (hf : ∀ a, x = .ok a → Reports (f a)) :
    Reports (x >>= f) := by
  intro e h
  cases x with
  | error d =>
    cases h
    exact hx _ rfl
  | ok a => exact hf a rfl e h

/-! ## Attributes -/

namespace AttributeList

variable {l : AttributeList}

/-- A reference that is not resolved is reported as unknown or ambiguous. -/
theorem reports_get (l : AttributeList) (reference : String) : Reports (l.get reference) := by
  unfold get
  split
  · exact reports_error (by simp [Error.kind, ErrorKind.reported])
  · exact reports_ok _
  · exact reports_error (by simp [Error.kind, ErrorKind.reported])

/-- References that are not all resolved are reported. -/
theorem reports_validate (l : AttributeList) (references : List String) : Reports (l.validate references) := by
  induction references with
  | nil => exact reports_ok ()
  | cons r rs ih => exact (reports_get l r).bind fun _ _ => ih

/-- Looking up several references fails only by an error that is reported. -/
theorem reports_resolve (l : AttributeList) (references : List String) : Reports (l.resolve references) := by
  induction references with
  | nil => exact reports_ok []
  | cons r rs ih => exact (reports_get l r).bind fun _ _ => ih.bind fun _ _ => reports_ok _

/-- Keeping some attributes fails only by an error that is reported. -/
theorem reports_trim (l : AttributeList) (references : List String) : Reports (l.trim references) := by
  refine (reports_resolve l references).bind fun kept _ => ?_
  split
  · exact reports_error (by simp [Error.kind, ErrorKind.reported])
  · exact reports_ok kept

/-- Giving attributes new names fails only by an error that is reported. -/
theorem reports_rename (l : AttributeList) (names : List Phrase) (qualifier : Option String) :
    Reports (l.rename names qualifier) := by
  unfold rename
  repeat' split
  all_goals first | exact reports_ok _ | exact reports_error (by simp [Error.kind, ErrorKind.reported])

end AttributeList

/-- An unknown relation is reported. -/
theorem Schema.reports_get (schema : Schema) (name : String) : Reports (schema.get name) := by
  unfold Schema.get
  split
  · exact reports_error (by simp [Error.kind, ErrorKind.reported])
  · exact reports_error (by simp [Error.kind, ErrorKind.reported])
  · exact reports_ok _

/-- A relation name that is taken is reported. -/
theorem Schema.reports_add (schema : Schema) (name : String) (names : List String) : Reports (schema.add name names) := by
  unfold Schema.add Schema.store
  split
  · exact reports_error (by simp [Error.kind, ErrorKind.reported])
  · exact reports_ok _

/-! ## One node -/

namespace Node

variable {schema other : Schema} {child left right n : Node}

/-- The node of a relation fails only if the relation is unknown. -/
theorem reports_newRelation (schema : Schema) (name : String) (serial : Nat) : Reports (newRelation schema name serial) :=
  (schema.reports_get name).bind fun _ _ => reports_ok _

/-- A selection fails only for a reference in its condition. -/
theorem Made.reports_newSelect (h : child.Made schema) (c : Condition) (serial : Nat) :
    Reports (child.newSelect c serial) := by
  unfold newSelect
  rw [h.attributes_eq]
  exact (child.heading.reports_validate c.references).bind fun _ _ => reports_ok _

/-- A projection fails only for one of its references. -/
theorem Made.reports_newProject (h : child.Made schema) (references : List String) (serial : Nat) :
    Reports (child.newProject references serial) := by
  unfold newProject
  rw [h.attributes_eq]
  exact (child.heading.reports_trim references).bind fun _ _ => reports_ok _

/-- A renaming fails only for a name that is reported. -/
theorem Made.reports_newRename (h : child.Made schema) (s : Schema) (name : Option String) (names : List Phrase)
    (serial : Nat) : Reports (newRename s child name names serial) := by
  unfold newRename
  rw [h.attributes_eq]
  dsimp only
  split
  · exact reports_error (by simp [Error.kind, ErrorKind.reported])
  · exact (child.heading.reports_rename names _).bind fun _ _ => reports_ok _

/-- The attributes of a join fail only by a condition that names others. -/
theorem reports_joinAttributes (op : Join) (l r : AttributeList) : Reports (joinAttributes op l r) := by
  cases op with
  | cross => exact reports_ok _
  | natural => exact (l.merge r).reports_trim _
  | conditional kind c => exact ((l.merge r).reports_validate c.references).bind fun _ _ => reports_ok _

/-- A join of nodes that were made fails only by an error that is reported. -/
theorem Made.reports_newJoin (hl : left.Made schema) (hr : right.Made other) (op : Join) (serial : Nat) :
    Reports (newJoin op left right serial) := by
  unfold newJoin
  rw [hl.listed, hr.listed]
  split
  · exact reports_error (by simp [Error.kind, ErrorKind.reported])
  · exact (reports_joinAttributes op left.heading right.heading).bind fun _ _ => reports_ok _

/-- A set operation on nodes that were made fails only if their attributes differ. -/
theorem Made.reports_newSetOperation (hl : left.Made schema) (hr : right.Made other) (op : SetOperator) (serial : Nat) :
    Reports (newSetOperation op left right serial) := by
  unfold newSetOperation columns
  rw [hl.listed, hr.listed]
  show Reports (if sameColumns _ _ then _ else _)
  split
  · exact reports_ok _
  · exact reports_error (by simp [Error.kind, ErrorKind.reported])

/-- A node that was made counts its attributes. -/
theorem Made.columnCount_eq (h : n.Made schema) : n.columnCount = .ok n.heading.length := by
  cases h <;> rfl

/-- An assignment of a node that was made fails only by an error that is reported. -/
theorem Made.reports_newAssign (h : child.Made schema) (name : Option String) (names : List Phrase) (serial : Nat) :
    Reports (child.newAssign name names serial) := by
  unfold newAssign
  rw [h.attributes_eq, h.columnCount_eq]
  cases given name with
  | none => exact reports_error (by simp [Error.kind, ErrorKind.reported])
  | some newName =>
    have hlast : Reports (child.heading.rename names (some newName) >>= fun attributes =>
        .ok (assign (Head.make (some newName) attributes serial) child)) :=
      (child.heading.reports_rename names _).bind fun _ _ => reports_ok _
    dsimp only
    split
    · exact hlast
    · show Reports (if names.length ≠ child.heading.length then _ else _)
      split
      · exact reports_error (by simp [Error.kind, ErrorKind.reported])
      · exact hlast

end Node

/-! ## Computations -/

namespace Build

/-- Where the computation fails, it fails by an error that is reported. -/
def Reports (b : Build α) : Prop := ∀ w e w', outcome b w = (.error e, w') → e.kind ∈ ErrorKind.reported

/-- Computations in a row report if each of them does, the second for every result of the first. -/
theorem Reports.bind {b : Build α} {f : α → Build β} (hb : Reports b)
    (hf : ∀ w a w', outcome b w = (.ok a, w') → Reports (f a)) : Reports (b >>= f) := by
  intro w e w' h
  rw [outcome_bind_eq] at h
  rcases hw : outcome b w with ⟨d | a, v⟩
  · rw [hw] at h
    cases h
    exact hb w _ _ hw
  · rw [hw] at h
    exact hf w a v hw v e w' h

/-- A result that is given does not fail. -/
theorem reports_pure (a : α) : Reports (pure a) := by
  intro w e w' h
  cases h

/-- A computation that does not touch the workspace reports if its result does. -/
theorem reports_lift {x : Except Error α} (h : RelAlg.Reports x) : Reports (liftM x) := by
  intro w e w' hw
  cases x with
  | ok a => cases hw
  | error d =>
    cases hw
    exact h _ rfl

/-- Placing a node reports if making it does, over every schema and number. -/
theorem reports_place {new : Schema → Nat → Except Error Node} (h : ∀ schema serial, RelAlg.Reports (new schema serial)) :
    Reports (place new) := by
  refine Reports.bind (fun w e w' hw => by cases hw) fun _ w _ _ => (reports_lift (h _ _)).bind fun _ n _ _ => ?_
  intro w e w' hw
  dsimp only at hw
  split at hw <;> cases hw

/-- A listing is made without fail. -/
theorem reports_listing (names : Phrase) : Reports (listing names) := by
  intro w e w' h
  cases names <;> cases h

/-- What is made aside fails as it does in its place. -/
theorem Reports.aside {b : Build α} (h : Reports b) : Reports (aside b) := by
  refine Reports.bind (fun w e w' hw => by cases hw) fun _ _ _ _ => h.bind fun _ a _ _ => ?_
  intro w e w' hw
  cases hw

/-- Making the node of a term as texts write it fails by reported errors only. -/
theorem reports_build {t : Term} (h : t.IsWritten) : Reports t.build := by
  induction h with
  | relation _ => exact reports_place fun schema serial => Node.reports_newRelation schema _ serial
  | select _ h ih =>
    exact ih.bind fun w child w' hc => reports_place fun _ => (steady_build h w child w' hc).2.reports_newSelect _
  | project _ h ih =>
    exact ih.bind fun w child w' hc => reports_place fun _ => (steady_build h w child w' hc).2.reports_newProject _
  | rename _ h ih =>
    exact ih.bind fun w child w' hc =>
      reports_place fun schema => (steady_build h w child w' hc).2.reports_newRename schema _ _
  | join _ hl hr ihl ihr =>
    exact ihl.bind fun w l v h₁ => ihr.bind fun w' r v' h₂ => reports_place fun _ =>
      (steady_build hl w l v h₁).2.reports_newJoin (steady_build hr w' r v' h₂).2 _
  | combine hl hr ihl ihr =>
    exact ihl.bind fun w l v h₁ => ihr.bind fun w' r v' h₂ => reports_place fun _ =>
      (steady_build hl w l v h₁).2.reports_newSetOperation (steady_build hr w' r v' h₂).2 _

/-! ## Declarations -/

/-- A dependency between two attributes of a written side fails only by the node of its side. -/
theorem reports_pair (kind : PairDependency) (op left right : String) {s : Side} {t : Term} (h : s.IsWritten t) :
    Reports (pair .standard kind (.word op :: pairPhrases left right s)) := by
  obtain ⟨name, hs⟩ := pair_of_isWritten kind op left right h
  rw [hs]
  exact (reports_build h.term).bind fun _ _ _ _ => (reports_listing _).bind fun _ _ _ _ =>
    (reports_listing _).bind fun _ _ _ _ => reports_pure _

/-- An inclusion between written sides fails only by the node of a side. -/
theorem reports_inclusion (kind : Inclusion) (op left right : String) {l r : Side} {t u : Term} (hl : l.IsWritten t)
    (hr : r.IsWritten u) : Reports (inclusion .standard kind (.word op :: inclusionPhrases left right l r)) := by
  rw [inclusion_of_sides, side_of_isWritten hl, side_of_isWritten hr]
  exact (reports_build hl.term).bind fun _ _ _ _ => (reports_build hr.term).bind fun _ _ _ _ =>
    (reports_listing _).bind fun _ _ _ _ => reports_pure _

/-- A key is made without fail. -/
theorem reports_primaryKey (op : String) (attributes name : Phrase) : Reports (primaryKey [.word op, attributes, name]) :=
  (reports_listing name).bind fun _ _ _ _ => (reports_listing attributes).bind fun _ _ _ _ => reports_pure _

/-- Every written declaration fails only by an error that is reported. -/
theorem Declares.reports {b : Build Node} (h : Declares b) : Reports b := by
  cases h with
  | key op => exact reports_primaryKey op _ _
  | pair kind op left right ht => exact reports_pair kind op left right ht
  | inclusion kind op left right hl hr => exact reports_inclusion kind op left right hl hr

theorem mapM_text?_words (names : List String) : (names.map Phrase.word).mapM Phrase.text? = some names := by
  induction names with
  | nil => rfl
  | cons n ns ih => simp [List.mapM_cons, ih, Phrase.word, Phrase.text?]

/-- A dependency that texts write has a caption: a key lists words, and any other two attributes. -/
theorem Declares.drawn {b : Build Node} (h : Declares b) : Steady b fun _ n => ∃ d, n.drawing = .ok d := by
  cases h with
  | @key op attributes name =>
    rw [primaryKey_of_parts]
    refine (steady_listing _).skip fun r => (steady_listing_phrase _).bind fun a => steady_pure fun _ ha => ?_
    have hwords : a.items.mapM Phrase.text? = some attributes := by
      rw [Listing.items, ha]
      exact mapM_text?_words attributes
    simp only [Node.drawing, Node.caption, keyLabel, hwords]
    exact ⟨_, rfl⟩
  | pair kind op left right ht =>
    obtain ⟨name, hs⟩ := pair_of_isWritten kind op left right ht
    rw [hs]
    refine (steady_build ht.term).bind fun child => (steady_listing _).skip fun r =>
      (steady_listing_phrase _).bind fun a => steady_pure fun _ ha _ => ?_
    have hpair : a.pair = .ok (left, right) := by rw [Listing.pair, Listing.items, ha]; rfl
    simp only [Node.drawing, Node.caption, hpair]
    exact ⟨_, rfl⟩
  | inclusion kind op left right hl hr =>
    rw [inclusion_of_sides]
    refine (steady_side hl).bind fun m => (steady_side hr).bind fun n => (steady_listing_phrase _).bind fun a =>
      steady_pure fun _ ha _ _ => ?_
    have hpair : a.pair = .ok (left, right) := by rw [Listing.pair, Listing.items, ha]; rfl
    simp only [Node.drawing, Node.caption, hpair]
    exact ⟨_, rfl⟩

/-! ## Statements -/

/-- An assignment to a name fails by reported errors only: none of the new attributes is a list. -/
theorem reports_define {schema : Schema} {child : Node} {name : String} {names : List String} (hm : child.Made schema)
    (hn : isName name = true) (hs : ∀ n ∈ names, isName n = true) :
    Reports (define child (.word name) (names.map Phrase.word)) := by
  refine (reports_place fun _ => hm.reports_newAssign _ _).bind fun w n w' h => ?_
  have hq : Steady (assign child (some name) (names.map Phrase.word)) fun _ n => ∃ attributes,
      n.attributes = .ok attributes ∧ attributes.hasList = false :=
    steady_place fun _ serial m hm' => by
      obtain ⟨attributes, hr, rfl⟩ := made_of_newAssign hm hn hm'
      have hl := AttributeList.isList_of_rename (fun n hn => ne_empty_of_isName (hs n hn)) hm.isList_eq hr
      exact ⟨attributes, rfl, by simpa [AttributeList.hasList] using hl⟩
  obtain ⟨-, attributes, ha, hl⟩ := hq w n w' h
  refine Reports.bind (fun w e w' hw => by cases hw) fun _ v _ _ => ?_
  rw [ha]
  refine Reports.bind (reports_lift (reports_ok attributes)) fun _ l _ he => ?_
  cases he
  refine (reports_lift ?_).bind fun _ _ _ _ => ?_
  · refine (Schema.reports_add v.schema name _).bind fun _ _ => ?_
    rw [hl]
    exact reports_ok _
  · intro w e w' hw
    cases hw

/-- A written statement fails only by an error that is reported. -/
theorem reports_statement {level : Level} {s : Statement} (hs : s.IsWritten level) :
    Reports (statement level .standard s) := by
  cases s with
  | query e =>
    obtain ⟨t, hd, hw⟩ := hs
    have hb : Reports (nodeOfParts level e.phrase.parts) := by
      rw [node_phrase e hd]
      exact reports_build hw
    exact hb
  | declare d =>
    obtain ⟨b, hb, he⟩ := node_declare hs
    have hr : Reports (nodeOfParts level d.phrase.parts) := by
      rw [he level]
      exact hb.reports.aside
    exact hr
  | assign name attributes op value =>
    obtain ⟨hn, ha, rfl, t, hd, hw⟩ := hs
    have hb : nodeOfParts level [value.phrase] = t.build := by
      rw [phrase_eq_list, node_single, node_phrase value hd]
    refine Reports.bind (fun w e w' hw => by cases hw) fun _ _ _ _ => ?_
    refine Reports.bind (b := nodeOfParts level [value.phrase]) ?_ fun w child w' hc => ?_
    · rw [hb]
      exact reports_build hw
    · rw [hb] at hc
      rw [unary_assign]
      refine reports_define (steady_build hw w child w' hc).2 hn ?_
      intro m hm
      cases attributes with
      | none => cases hm
      | some ns => exact ha ns rfl m hm

/-- Written statements fail only by an error that is reported. -/
theorem reports_nodes {level : Level} {ss : List Statement} (hs : ∀ s ∈ ss, s.IsWritten level) :
    Reports (nodes level .standard ss) := by
  induction ss with
  | nil => exact reports_pure []
  | cons s ss ih =>
    exact (reports_statement (hs s (by simp))).bind fun _ _ _ _ =>
      (ih fun t ht => hs t (List.mem_cons_of_mem s ht)).bind fun _ _ _ _ => reports_pure _

end Build

/-! ## Outputs -/

namespace Node

variable {schema : Schema} {n : Node}

/-- Every node of the algebra is drawn. -/
theorem Made.drawn (h : n.Made schema) : ∃ d, n.drawing = .ok d := by
  induction h with
  | relation => exact ⟨_, rfl⟩
  | select _ _ _ ih | project _ _ _ ih | rename _ _ _ _ ih =>
    obtain ⟨d, hd⟩ := ih
    simp only [drawing, hd]
    exact ⟨_, rfl⟩
  | join _ _ _ _ _ ihl ihr | setOperation _ _ _ ihl ihr =>
    obtain ⟨d, hd⟩ := ihl
    obtain ⟨d', hd'⟩ := ihr
    simp only [drawing, hd, hd']
    exact ⟨_, rfl⟩

/-- The parts of a node of the algebra, in order. -/
theorem Made.postOrder_eq (h : n.Made schema) : n.postOrder = .ok n.parts := by
  induction h with
  | relation => rfl
  | select _ _ _ ih | project _ _ _ ih | rename _ _ _ _ ih =>
    simp only [postOrder, ih, parts]
    rfl
  | join _ _ _ _ _ ihl ihr | setOperation _ _ _ ihl ihr =>
    simp only [postOrder, ihl, ihr, parts]
    rfl

/-- Nodes that each have a query or none are written in SQL. -/
theorem exists_sqlTexts (semantics : Semantics) {ns : List Node} (h : ∀ n ∈ ns, ∃ q, n.query = .ok q) :
    ∃ texts, sqlTexts semantics ns = .ok texts := by
  induction ns with
  | nil => exact ⟨[], rfl⟩
  | cons n ns ih =>
    obtain ⟨q, hq⟩ := h n (by simp)
    obtain ⟨texts, ht⟩ := ih fun m hm => h m (List.mem_cons_of_mem n hm)
    simp only [sqlTexts, hq, ht]
    exact ⟨_, rfl⟩

/-- Nodes that can each be drawn can be drawn together. -/
theorem exists_drawingTexts {ns : List Node} (h : ∀ n ∈ ns, ∃ d, n.drawing = .ok d) :
    ∃ texts, drawingTexts ns = .ok texts := by
  induction ns with
  | nil => exact ⟨[], rfl⟩
  | cons n ns ih =>
    obtain ⟨d, hd⟩ := h n (by simp)
    obtain ⟨texts, ht⟩ := ih fun m hm => h m (List.mem_cons_of_mem n hm)
    simp only [drawingTexts, hd, ht]
    exact ⟨_, rfl⟩

end Node

/-- The node of a statement has a query, or none is due. -/
theorem Stated.query_ok {schema extended : Schema} {n : Node} (h : Stated schema n extended) : ∃ q, n.query = .ok q := by
  cases h with
  | query h =>
    obtain ⟨q, hq⟩ := h.has_query
    exact ⟨_, hq⟩
  | assign h =>
    obtain ⟨q, hq⟩ := h.has_query
    exact ⟨_, Node.query_of_assign _ hq⟩
  | declare h =>
    obtain ⟨_, _, rfl⟩ | ⟨_, _, _, _, rfl, -⟩ | ⟨_, _, _, _, _, rfl, -⟩ := h.cases <;> exact ⟨_, rfl⟩

/-- The parts of a statement are in order, and each of them has a query or none. -/
theorem Stated.postOrder_ok {schema extended : Schema} {n : Node} (h : Stated schema n extended) :
    ∃ ks, n.postOrder = .ok ks ∧ ∀ k ∈ ks, ∃ q, k.query = .ok q := by
  have hmade : ∀ {m : Node}, m.Made schema → ∀ k ∈ m.parts, ∃ q, k.query = .ok q := by
    intro m hm k hk
    obtain ⟨q, hq⟩ := (hm.of_mem_parts k hk).has_query
    exact ⟨_, hq⟩
  have hself := h.query_ok
  cases h with
  | query h => exact ⟨_, h.postOrder_eq, hmade h⟩
  | @assign child name names attributes serial extended h =>
    refine ⟨child.parts ++ [.assign (Head.make (some name) attributes serial) child], ?_, ?_⟩
    · simp only [Node.postOrder, h.postOrder_eq]
      rfl
    · rw [List.forall_mem_append, List.forall_mem_singleton]
      exact ⟨hmade h, hself⟩
  | declare h =>
    obtain ⟨_, _, rfl⟩ | ⟨_, _, _, _, rfl, -⟩ | ⟨_, _, _, _, _, rfl, -⟩ := h.cases <;>
      exact ⟨[_], rfl, by rwa [List.forall_mem_singleton]⟩

namespace Build

/-- The node of a statement is drawn. -/
theorem drawn_of_statement {level : Level} {s : Statement} (hs : s.IsWritten level) {w w' : Workspace} {n : Node}
    (h : outcome (statement level .standard s) w = (.ok n, w')) : ∃ d, n.drawing = .ok d := by
  cases s with
  | query e =>
    obtain ⟨t, -, hw, ho⟩ := build_of_query hs h
    exact (steady_build hw w n w' ho).2.drawn
  | declare d =>
    obtain ⟨b, hb, he⟩ := node_declare hs
    have hd : Steady (nodeOfParts level d.phrase.parts) fun _ n => ∃ d, n.drawing = .ok d := by
      rw [he level]
      exact hb.drawn.aside
    exact (hd w n w' h).2
  | assign name attributes op value =>
    obtain ⟨hstated, hname⟩ := stated_of_statement hs h
    generalize w.schema = schema, w'.schema = extended at hstated
    cases hstated with
    | query hm => exact hm.drawn
    | assign hm =>
      obtain ⟨d, hd⟩ := hm.drawn
      simp only [Node.drawing, hd]
      exact ⟨_, rfl⟩
    | declare hm =>
      rw [hm.assigned?_eq] at hname
      cases hname

/-- Whatever nodes written statements have, all of them can be drawn. -/
theorem drawn_of_nodes {level : Level} {ss : List Statement} (hs : ∀ s ∈ ss, s.IsWritten level) {w w' : Workspace}
    {ns : List Node} (h : outcome (nodes level .standard ss) w = (.ok ns, w')) : ∀ n ∈ ns, ∃ d, n.drawing = .ok d := by
  intro n hn
  obtain ⟨s, -, _, _, hs, ho⟩ := (inTurn_of_nodes hs h).exists_statement n hn
  exact drawn_of_statement hs ho

end Build

/-- Every node of a chain is the node of a statement over some schema. -/
theorem Chain.stated_of_mem {schema : Schema} {ns : List Node} (h : Chain schema ns) :
    ∀ n ∈ ns, ∃ s extended, Stated s n extended := by
  induction h with
  | nil => exact fun n hn => absurd hn List.not_mem_nil
  | cons h _ ih =>
    rw [List.forall_mem_cons]
    exact ⟨⟨_, _, h⟩, ih⟩

/-! ## Texts -/

namespace Dialect

/-- All that is made of a text fails by the error. -/
def Fails (d : Dialect) (semantics : Semantics) (schema : Schema) (text : String) (e : Error) : Prop :=
  d.forest schema text = .error e ∧ d.sql semantics schema text = .error e ∧ d.sqlSequence semantics schema text = .error e
    ∧ d.drawings schema text = .error e

/-- Where the nodes of a text fail, all that is made of them fails by the same error. -/
theorem fails_of_forest {d : Dialect} {schema : Schema} {text : String} {e : Error} (semantics : Semantics)
    (h : d.forest schema text = .error e) : d.Fails semantics schema text e := by
  refine ⟨h, ?_, ?_, ?_⟩
  · rw [sql, h]
    rfl
  · rw [sqlSequence, h]
    rfl
  · rw [drawings, h]
    rfl

/-- Where the nodes of a text are there, its SQL is. -/
theorem exists_sql {d : Dialect} {schema : Schema} {text : String} {ns : List Node} (semantics : Semantics)
    (h : d.forest schema text = .ok ns) (hs : ∀ n ∈ ns, ∃ s extended, Stated s n extended) :
    ∃ texts, d.sql semantics schema text = .ok texts := by
  rw [sql, h]
  refine Node.exists_sqlTexts semantics fun n hn => ?_
  obtain ⟨s, extended, hstated⟩ := hs n hn
  exact hstated.query_ok

/-- What can be done with each member of a list can be done with the list. -/
theorem exists_mapM {f : α → Except Error β} {as : List α} (h : ∀ a ∈ as, ∃ b, f a = .ok b) : ∃ bs, as.mapM f = .ok bs := by
  induction as with
  | nil => exact ⟨[], rfl⟩
  | cons a as ih =>
    obtain ⟨b, hb⟩ := h a (by simp)
    obtain ⟨bs, hbs⟩ := ih fun c hc => h c (List.mem_cons_of_mem a hc)
    rw [List.mapM_cons, hb, hbs]
    exact ⟨_, rfl⟩

/-- Where the nodes of a text are there, the SQL of all their parts is. -/
theorem exists_sqlSequence {d : Dialect} {schema : Schema} {text : String} {ns : List Node} (semantics : Semantics)
    (h : d.forest schema text = .ok ns) (hs : ∀ n ∈ ns, ∃ s extended, Stated s n extended) :
    ∃ texts, d.sqlSequence semantics schema text = .ok texts := by
  rw [sqlSequence, h]
  refine exists_mapM fun n hn => ?_
  obtain ⟨s, extended, hstated⟩ := hs n hn
  obtain ⟨ks, hk, hq⟩ := hstated.postOrder_ok
  rw [hk]
  exact Node.exists_sqlTexts semantics hq

end Dialect

/-- A text comes to one of three ends. It is not of the language, and all that could be made of it fails as unreadable; or it
is, and all fails by one error over its input, a relation or an attribute; or it is, and there are nodes, SQL, the SQL of
all parts, and drawings. -/
theorem outcome_of_text (level : Level) (schema : Schema) (text : String) (semantics : Semantics) :
    parse level .standard text = .error .unreadable ∧
        Dialect.Fails ⟨level, .standard⟩ semantics schema text .unreadable ∨
      (∃ ss e, parse level .standard text = .ok ss ∧
        e.kind ∈ [ErrorKind.input, .relationReference, .attributeReference] ∧
        Dialect.Fails ⟨level, .standard⟩ semantics schema text e) ∨
      ∃ ss ns texts sequence pictures, parse level .standard text = .ok ss ∧
        Dialect.forest ⟨level, .standard⟩ schema text = .ok ns ∧
        Dialect.sql ⟨level, .standard⟩ semantics schema text = .ok texts ∧
        Dialect.sqlSequence ⟨level, .standard⟩ semantics schema text = .ok sequence ∧
        Dialect.drawings ⟨level, .standard⟩ schema text = .ok pictures := by
  cases hp : parse level .standard text with
  | error e =>
    obtain rfl : e = .unreadable := by
      rw [parse_eq] at hp
      cases hr : readText (statements level .standard) true text <;> rw [hr] at hp <;> cases hp
      rfl
    exact .inl ⟨rfl, Dialect.fails_of_forest semantics (Build.forest_of_error hp)⟩
  | ok ss =>
    have hw := isWritten_of_parse hp
    rcases ho : Build.outcome (Build.nodes level .standard ss) (.start schema) with ⟨e | ns, w⟩
    · refine .inr (.inl ⟨ss, e, rfl, Build.reports_nodes hw _ e w ho, Dialect.fails_of_forest semantics ?_⟩)
      exact (Build.forest_of_parse hp).trans (congrArg Prod.fst ho)
    · have hf : Dialect.forest ⟨level, .standard⟩ schema text = .ok ns :=
        (Build.forest_of_parse hp).trans (congrArg Prod.fst ho)
      have hs := (Build.chain_of_forest hf).stated_of_mem
      obtain ⟨texts, ht⟩ := Dialect.exists_sql semantics hf hs
      obtain ⟨sequence, hq⟩ := Dialect.exists_sqlSequence semantics hf hs
      obtain ⟨pictures, hd⟩ := Node.exists_drawingTexts (Build.drawn_of_nodes hw ho)
      refine .inr (.inr ⟨ss, ns, texts, sequence, pictures, rfl, hf, ht, hq, ?_⟩)
      rw [Dialect.drawings, hf]
      exact hd

end RelAlg
