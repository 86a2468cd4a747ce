import RelAlg.Proofs.Reader.Dependency
import RelAlg.Proofs.Renumber

/-!
# The nodes of dependencies

`Dependency.node` says which node a dependency has over a schema: its kind and its names as they were written, and the nodes of
the relations it speaks of. It fails where the first of these cannot be made. Main statement: a declaration makes the node of
the dependency that it stands for, and nothing else (`statement_of_states`).
-/

namespace RelAlg

open Surface Build

/-- The node of the relation, or of the selection on it. -/
def Subject.node (schema : Schema) (s : Subject) : Except Error Node := do
  let base ← Node.newRelation schema s.relation 0
  match s.condition with
  | none => return base
  | some c => base.newSelect c 0

/-- The node of the dependency, whose list of attributes has the mark. -/
def Dependency.node (schema : Schema) (mark : Nat) : Dependency → Except Error Node
  | key attributes relation => .ok (.primaryKey (.handed (.word relation)) ⟨Phrase.words attributes, some mark⟩)
  | pair kind left right subject => do
    let child ← subject.node schema
    return .pair kind (.handed (.word subject.relation)) ⟨Phrase.words [left, right], some mark⟩ child
  | inclusion kind left right first second => do
    let m ← first.node schema
    let n ← second.node schema
    return .inclusion kind (.handed (Phrase.words [first.relation, second.relation])) ⟨Phrase.words [left, right], some mark⟩ m n

/-- Make the node of the dependency, with the next mark. -/
def Dependency.build (d : Dependency) : Build Node := do
  let w ← get
  let n ← d.node w.schema w.mark
  set { w with mark := w.mark + 1 }
  return n

/-- A dependency that is made takes the next mark, and one that fails takes none. -/
theorem Dependency.outcome_build (d : Dependency) (w : Workspace) :
    outcome d.build w = match d.node w.schema w.mark with
      | .ok n => (.ok n, { w with mark := w.mark + 1 })
      | .error e => (.error e, w) := by
  show outcome (liftM (d.node w.schema w.mark) >>= _ : Build Node) w = _
  rw [outcome_bind_eq]
  cases d.node w.schema w.mark <;> rfl

/-! ## Subjects -/

/-- The relation of a written side has a name that texts write. -/
theorem Surface.Side.IsWritten.isName_relation {side : Side} {s : Subject} (h : side.IsWritten s.term) :
    isName s.relation = true := by
  obtain ⟨_ | c, name⟩ := s
  · cases h with
    | relation hn => exact hn
  · cases h with
    | selected _ _ hn => exact hn

/-- A node that has a name whatever number is at hand uses up none. -/
theorem outcome_place_named {new : Schema → Nat → Except Error Node} {w : Workspace}
    (hs : new w.schema w.serial = new w.schema 0) (hn : ∀ n, new w.schema 0 = .ok n → n.isNamed = true) :
    outcome (place new) w = (new w.schema 0, w) := by
  cases h : new w.schema 0 with
  | error e => exact outcome_place_error (hs.trans h)
  | ok n => rw [outcome_place_ok (hs.trans h), if_pos (hn n h)]

/-- A relation with a name takes no number. -/
theorem newRelation_of_ne {name : String} (h : name ≠ "") (schema : Schema) (serial : Nat) :
    Node.newRelation schema name serial = Node.newRelation schema name 0 := by
  simp [Node.newRelation, Head.make, given, h]

/-- A selection from a node with a name takes no number. -/
theorem newSelect_of_isNamed {child : Node} (h : child.isNamed = true) (c : Condition) (serial : Nat) :
    child.newSelect c serial = child.newSelect c 0 := by
  have hn : (given child.name).isSome = true := h
  simp [Node.newSelect, Head.make, hn]

/-- The node of a relation has the name of the relation. -/
theorem name_of_newRelation {schema : Schema} {name : String} {serial : Nat} {n : Node}
    (h : Node.newRelation schema name serial = .ok n) : n.name = some name := by
  obtain ⟨names, -, h⟩ := exists_ok_of_bind h
  cases h
  rfl

/-- A selection has the name of its operand. -/
theorem name_of_newSelect {child n : Node} {c : Condition} {serial : Nat} (h : child.newSelect c serial = .ok n) :
    n.name = child.name := by
  obtain ⟨attributes, -, h⟩ := exists_ok_of_bind h
  obtain ⟨_, -, h⟩ := exists_ok_of_bind h
  cases h
  rfl

/-- A node whose name is not empty has a name. -/
theorem isNamed_of_name {n : Node} {name : String} (h : n.name = some name) (hne : name ≠ "") : n.isNamed = true := by
  simp [Node.isNamed, h, given, hne]

/-- A subject has a name, so no serial number is used up for it. -/
theorem Subject.outcome_build {s : Subject} (h : s.relation ≠ "") (w : Workspace) :
    outcome s.term.build w = (s.node w.schema, w) := by
  obtain ⟨condition, name⟩ := s
  have hbase : outcome (Term.relation name).build w = (Node.newRelation w.schema name 0, w) :=
    outcome_place_named (newRelation_of_ne h _ _) fun _ hn => isNamed_of_name (name_of_newRelation hn) h
  cases condition with
  | none =>
    rw [term, hbase, node]
    cases Node.newRelation w.schema name 0 <;> rfl
  | some c =>
    show outcome ((Term.relation name).build >>= _) w = _
    rw [outcome_bind_eq, hbase, node]
    cases hn : Node.newRelation w.schema name 0 with
    | error e => rfl
    | ok base =>
      have hname := name_of_newRelation hn
      exact outcome_place_named (newSelect_of_isNamed (isNamed_of_name hname h) _ _)
        fun _ hs => isNamed_of_name ((name_of_newSelect hs).trans hname) h

/-- The node of a subject has the name of its relation. -/
theorem Subject.name_of_node {s : Subject} {schema : Schema} {n : Node} (h : s.node schema = .ok n) :
    n.name = some s.relation := by
  obtain ⟨base, hb, h⟩ := exists_ok_of_bind h
  have hname := name_of_newRelation hb
  obtain ⟨_ | c, name⟩ := s
  · cases h
    exact hname
  · exact (name_of_newSelect h).trans hname

/-! ## Declarations -/

/-- The parts of a dependency between two attributes make the node of its subject. -/
theorem pair_of_subject (kind : PairDependency) (op left right : String) {side : Side} {s : Subject}
    (h : side.IsWritten s.term) : pair .standard kind (.word op :: pairPhrases left right side) = do
      let child ← s.term.build
      return .pair kind (← listing (.word s.relation)) (← listing (Phrase.words [left, right])) child := by
  obtain ⟨_ | c, name⟩ := s
  · cases h with
    | relation _ => simp [pair, pairPhrases, Side.phrases, part, Subject.term, Term.build, relation]
  · cases h with
    | selected hd _ _ =>
      have hp : symbolPhrases (Lexicon.usual .select) = [.word (Lexicon.usual .select)] := rfl
      simp [pair, pairPhrases, Side.phrases, hp, part, selection, condition_of_denotes hd, Subject.term, Term.build, relation]

/-- What is made aside leaves the serial numbers alone. -/
theorem outcome_aside {α : Type} (b : Build α) (w : Workspace) : outcome (aside b) w = match outcome b w with
    | (.ok a, v) => (.ok a, { v with serial := w.serial })
    | (.error e, v) => (.error e, v) := by
  show outcome (b >>= _) w = _
  rw [outcome_bind_eq]
  rcases outcome b w with ⟨_ | a, v⟩ <;> rfl

/-- The computation makes the node of the dependency. -/
theorem aside_of_outcome {d : Dependency} {b : Build Node} (h : ∀ w, outcome b w = outcome d.build w) : aside b = d.build := by
  funext w
  show outcome (aside b) w = outcome d.build w
  rw [outcome_aside, h, d.outcome_build]
  cases d.node w.schema w.mark <;> rfl

/-- A written dependency between two attributes makes the node of the dependency. -/
theorem aside_pair (kind : PairDependency) (op left right : String) {side : Side} {s : Subject} (h : side.IsWritten s.term) :
    aside (pair .standard kind (.word op :: pairPhrases left right side)) = (Dependency.pair kind left right s).build := by
  refine aside_of_outcome fun w => ?_
  rw [pair_of_subject kind op left right h, outcome_bind_eq, s.outcome_build (ne_empty_of_isName h.isName_relation),
    Dependency.outcome_build, Dependency.node]
  cases s.node w.schema <;> rfl

/-- A written inclusion makes the node of the inclusion. -/
theorem aside_inclusion (kind : Inclusion) (op left right : String) {l r : Side} {first second : Subject}
    (hl : l.IsWritten first.term) (hr : r.IsWritten second.term) :
    aside (inclusion .standard kind (.word op :: inclusionPhrases left right l r))
      = (Dependency.inclusion kind left right first second).build := by
  refine aside_of_outcome fun w => ?_
  rw [inclusion_of_sides, side_of_isWritten hl, side_of_isWritten hr, outcome_bind_eq,
    first.outcome_build (ne_empty_of_isName hl.isName_relation), Dependency.outcome_build, Dependency.node]
  cases hm : first.node w.schema with
  | error e => rfl
  | ok m =>
    dsimp only
    rw [outcome_bind_eq, second.outcome_build (ne_empty_of_isName hr.isName_relation)]
    cases hn : second.node w.schema with
    | error e => rfl
    | ok n =>
      dsimp only
      rw [first.name_of_node hm, second.name_of_node hn]
      rfl

/-- A declaration makes the node of the dependency that it stands for, at every level. -/
theorem statement_of_states (level : Level) {x : Declaration} {d : Dependency} (h : x.States d) :
    statement level .standard (.declare x) = d.build := by
  show nodeOfParts level x.phrase.parts = d.build
  have hm := d.symbol_mem
  cases h with
  | key ha hn => exact (node_dependency level hm _ _).trans (aside_of_outcome fun _ => rfl)
  | pair kind left right hs =>
    rw [← aside_pair kind (Lexicon.usual kind.symbol) left right hs]
    refine (node_dependency level hm _ _).trans ?_
    cases kind <;> rfl
  | inclusion kind left right hl hr =>
    rw [← aside_inclusion kind (Lexicon.usual kind.symbol) left right hl hr]
    refine (node_dependency level hm _ _).trans ?_
    cases kind <;> rfl

/-- A declaration that succeeds makes the node of the dependency it stands for, with the next mark. -/
theorem node_of_states {level : Level} {x : Declaration} {d : Dependency} (hd : x.States d) {w v : Workspace} {n : Node}
    (h : outcome (statement level .standard (.declare x)) w = (.ok n, v)) :
    d.node w.schema w.mark = .ok n ∧ v = { w with mark := w.mark + 1 } := by
  rw [statement_of_states level hd, d.outcome_build] at h
  cases hn : d.node w.schema w.mark with
  | error e =>
    rw [hn] at h
    cases h
  | ok m =>
    rw [hn] at h
    cases h
    exact ⟨rfl, rfl⟩

/-- A declaration as texts write it stands for a dependency. -/
theorem Surface.Declaration.IsWritten.exists_states {x : Declaration} (h : x.IsWritten) : ∃ d, x.States d := by
  have hsubject : ∀ {side : Side} {t : Term}, side.IsWritten t → ∃ s : Subject, side.IsWritten s.term := by
    intro side t hw
    cases hw with
    | @relation name hn => exact ⟨⟨none, name⟩, .relation hn⟩
    | @selected clause c name hd hc hn => exact ⟨⟨some c, name⟩, .selected hd hc hn⟩
  cases x with
  | key op attributes name =>
    obtain ⟨rfl, ha, hn⟩ := h
    exact ⟨_, .key ha hn⟩
  | between op left right side =>
    obtain ⟨ho, t, ht⟩ := h
    obtain ⟨s, hs⟩ := hsubject ht
    rcases ho with rfl | rfl
    · exact ⟨_, .pair .multivalued left right hs⟩
    · exact ⟨_, .pair .functional left right hs⟩
  | inclusion op left right l r =>
    obtain ⟨ho, ⟨t, ht⟩, u, hu⟩ := h
    obtain ⟨first, hf⟩ := hsubject ht
    obtain ⟨second, hs⟩ := hsubject hu
    rcases ho with rfl | rfl
    · exact ⟨_, .inclusion .equivalence left right hf hs⟩
    · exact ⟨_, .inclusion .subsumption left right hf hs⟩

/-- The node of a dependency states one. -/
theorem Dependency.isDeclaration_of_node {d : Dependency} {schema : Schema} {mark : Nat} {n : Node}
    (h : d.node schema mark = .ok n) : n.isDeclaration = true := by
  cases d with
  | key => cases h; rfl
  | pair =>
    obtain ⟨_, -, h⟩ := exists_ok_of_bind h
    cases h
    rfl
  | inclusion =>
    obtain ⟨_, -, h⟩ := exists_ok_of_bind h
    obtain ⟨_, -, h⟩ := exists_ok_of_bind h
    cases h
    rfl

/-! ## Marks -/

namespace Build

variable {α β : Type}

/-- The computation hands out no marks. -/
def Unmarking (b : Build α) : Prop := ∀ w a w', outcome b w = (.ok a, w') → w'.mark = w.mark

/-- Computations in a row hand out no marks if none of them does. -/
theorem Unmarking.bind {b : Build α} {f : α → Build β} (hb : Unmarking b) (hf : ∀ a, Unmarking (f a)) :
    Unmarking (b >>= f) := by
  intro w r w' h
  obtain ⟨a, v, hv, hr⟩ := outcome_bind h
  rw [hf a v r w' hr, hb w a v hv]

/-- Placing a node hands out no marks. -/
theorem unmarking_place (new : Schema → Nat → Except Error Node) : Unmarking (place new) := by
  intro w n w' h
  cases hn : new w.schema w.serial with
  | error e =>
    rw [outcome_place_error hn] at h
    cases h
  | ok m =>
    rw [outcome_place_ok hn] at h
    cases h
    split <;> rfl

/-- The node of a term hands out no marks. -/
theorem unmarking_build (t : Term) : Unmarking t.build := by
  induction t with
  | relation => exact unmarking_place _
  | select _ _ ih | project _ _ ih | rename _ _ ih => exact ih.bind fun _ => unmarking_place _
  | join _ _ _ ihl ihr | combine _ _ _ ihl ihr => exact ihl.bind fun _ => ihr.bind fun _ => unmarking_place _

/-- What does not touch the workspace hands out no marks. -/
theorem unmarking_lift (x : Except Error α) : Unmarking (liftM x : Build α) := by
  intro w a w' h
  cases x <;> cases h
  rfl

/-- The definition of a relation hands out no marks. -/
theorem unmarking_define (child : Node) (name : Phrase) (names : List Phrase) : Unmarking (define child name names) := by
  have hget : Unmarking (get : Build Workspace) := by
    intro w a w' h
    cases h
    rfl
  have hset : ∀ schema, Unmarking (modify fun w => { w with schema } : Build PUnit) := by
    intro schema w a w' h
    cases h
    rfl
  have hpure : ∀ n, Unmarking (pure n : Build Node) := by
    intro n w a w' h
    cases h
    rfl
  exact (unmarking_place _).bind fun n => hget.bind fun _ => (unmarking_lift _).bind fun _ =>
    (unmarking_lift _).bind fun schema => (hset schema).bind fun _ => hpure n

/-- A declaration uses up one mark, and an algebraic statement none. -/
theorem mark_of_statement {level : Level} {s : Statement} (hs : s.IsWritten level) {w w' : Workspace} {n : Node}
    (h : outcome (statement level .standard s) w = (.ok n, w')) :
    w'.mark = w.mark + n.isDeclaration.toNat ∧ n.isDeclaration = !s.isAlgebra := by
  cases s with
  | query e =>
    obtain ⟨t, -, hw, ho⟩ := build_of_query hs h
    have hn : n.isDeclaration = false := by
      cases (steady_build hw w n w' ho).2 <;> rfl
    rw [unmarking_build t w n w' ho, hn]
    exact ⟨rfl, rfl⟩
  | assign name attributes op value =>
    obtain ⟨t, child, v, -, hw, hv, h⟩ := define_of_assign hs h
    obtain ⟨-, _, _, rfl⟩ := stated_of_assign hs hw hv h
    rw [unmarking_define _ _ _ v _ w' h, unmarking_build t w child v hv]
    exact ⟨rfl, rfl⟩
  | declare x =>
    obtain ⟨d, hd⟩ := Declaration.IsWritten.exists_states hs
    obtain ⟨hn, rfl⟩ := node_of_states hd h
    rw [d.isDeclaration_of_node hn]
    exact ⟨rfl, rfl⟩

/-- Statements use up a mark for every declaration among them. -/
theorem InTurn.mark_eq {level : Level} {w w' : Workspace} {ss : List Statement} {ns : List Node}
    (h : InTurn level w ss ns w') : w'.mark = w.mark + ns.countP Node.isDeclaration := by
  induction h with
  | nil => rfl
  | @cons w v u s n ss ns hs hn _ ih =>
    rw [ih, (mark_of_statement hs hn).1, List.countP_cons]
    cases n.isDeclaration <;> simp +arith

end Build

end RelAlg
