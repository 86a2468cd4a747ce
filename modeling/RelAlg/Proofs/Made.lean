import RelAlg.Dialect
import RelAlg.Proofs.Written

/-!
# The nodes of a text

`Node.Made schema n` says how a node of the algebra comes about over a schema: from operands that came about in the same way,
with the attributes that its operator gives it. `Chain schema ns` says the same of the nodes of statements that follow one
another, where an assignment extends the schema for the statements after it. The nodes of every accepted text are such a chain
(`chain_of_forest`), so what holds of all chains holds of all texts.
-/

namespace RelAlg

open Surface

/-! ## Outcomes that can be computed -/

/-- What comes of two steps comes of the second after the first. -/
theorem exists_ok_of_bind {α β : Type} {x : Except Error α} {f : α → Except Error β} {b : β} (h : x >>= f = .ok b) :
    ∃ a, x = .ok a ∧ f a = .ok b := by
  cases x with
  | error e => cases h
  | ok a => exact ⟨a, rfl, h⟩

/-- A test that succeeds on a result shows that the result is there. -/
theorem exists_ok_of_any {ε β : Type} {x : Except ε β} {p : β → Bool} (h : x.toOption.any p = true) :
    ∃ b, x = .ok b ∧ p b = true := by
  cases x with
  | error e => cases h
  | ok b => exact ⟨b, rfl, h⟩

/-- A run that gives something, and the state after it. -/
theorem exists_run_of_any {ε σ β : Type} {x : Except ε β × σ} {p : β → Bool} (h : x.1.toOption.any p = true) :
    ∃ b s, x = (.ok b, s) ∧ p b = true := by
  obtain ⟨b, hb, hp⟩ := exists_ok_of_any h
  exact ⟨b, x.2, Prod.ext hb rfl, hp⟩

/-- One node and no more. -/
theorem exists_single_of_any {ε : Type} {x : Except ε (List Node)} {p : Node → Bool}
    (h : (x.toOption.any fun ns => ns.length = 1 && ns.all p) = true) : ∃ n, x = .ok [n] ∧ p n = true := by
  obtain ⟨ns, rfl, hp⟩ := exists_ok_of_any h
  rw [Bool.and_eq_true, decide_eq_true_eq, List.length_eq_one_iff] at hp
  obtain ⟨⟨n, rfl⟩, hp⟩ := hp
  exact ⟨n, rfl, by simpa using hp⟩

/-! ## How nodes come about -/

/-- The attributes of a node; a node without an attribute list has none. -/
def Node.heading (n : Node) : AttributeList :=
  match n.listed with
  | .inl l => l
  | .inr _ => []

/-- A node of the algebra that was made over a schema as texts write it. -/
inductive Node.Made (schema : Schema) : Node → Prop where
  | relation {name : String} {names : List String} {serial : Nat} (hn : isName name = true)
      (hg : schema.get name = .ok names) :
      Made schema (.relation (Head.make (some name) (.ofNames names (some name)) serial))
  | select {child : Node} {c : Condition} {serial : Nat} (h : Made schema child) (hc : c.IsWritten)
      (hv : child.heading.validate c.references = .ok ()) :
      Made schema (.select (Head.make child.name child.heading serial) c child)
  | project {child : Node} {references : List String} {kept : AttributeList} {serial : Nat} (h : Made schema child)
      (hr : references ≠ []) (hk : child.heading.trim references = .ok kept) :
      Made schema (.project (Head.make child.name kept serial) child)
  | rename {child : Node} {target : Renaming} {renamed : AttributeList} {serial : Nat} (h : Made schema child)
      (ht : target.IsWritten) (hf : target.name?.any schema.contains = false)
      (hr : child.heading.rename (target.names.map Phrase.word) (target.name?.or child.name) = .ok renamed) :
      Made schema (.rename (Head.make (target.name?.or child.name) renamed serial) child)
  | join {op : Join} {left right : Node} {attributes : AttributeList} {serial : Nat} (hl : Made schema left)
      (hr : Made schema right) (ho : op.IsWritten) (hn : Node.sameName left.name right.name = false)
      (ha : Node.joinAttributes op left.heading right.heading = .ok attributes) :
      Made schema (.join (Head.make none attributes serial) op left right)
  | setOperation {op : SetOperator} {left right : Node} {serial : Nat} (hl : Made schema left) (hr : Made schema right)
      (hn : left.heading.names = right.heading.names) :
      Made schema (.setOperation (Head.make none (.ofNames left.heading.names none) serial) op left right)

namespace Node

/-- The node states a dependency. -/
def isDeclaration : Node → Bool
  | primaryKey .. | pair .. | inclusion .. => true
  | _ => false

/-- The nodes that a dependency speaks of. -/
def sides : Node → List Node
  | pair _ _ _ child => [child]
  | inclusion _ _ _ left right => [left, right]
  | _ => []

/-- The name that the node assigns its relation to. -/
def assigned? : Node → Option String
  | assign h _ => h.name
  | _ => none

/-- A dependency between nodes that were made over the schema, or a key of names that texts can write. -/
structure IsDeclared (schema : Schema) (n : Node) : Prop where
  declares : n.isDeclaration = true
  sides : ∀ k ∈ n.sides, k.Made schema
  key : ∀ table attributes, n = .primaryKey table attributes → ∃ name names, table.phrase = .word name ∧ isName name = true ∧
    attributes.phrase = Phrase.words names ∧ ∀ m ∈ names, isName m = true

/-- A node that was made has an attribute list. -/
theorem Made.listed {schema : Schema} {n : Node} (h : n.Made schema) : n.listed = .inl n.heading := by
  cases h <;> rfl

/-- A node of the algebra assigns nothing. -/
theorem Made.assigned?_eq {schema : Schema} {n : Node} (h : n.Made schema) : n.assigned? = none := by
  cases h <;> rfl

/-- What can be declared: a key, or a dependency over a node or over two. -/
theorem IsDeclared.cases {schema : Schema} {n : Node} (h : n.IsDeclared schema) :
    (∃ table attributes, n = .primaryKey table attributes) ∨
      (∃ kind table attributes child, n = .pair kind table attributes child ∧ child.Made schema) ∨
      ∃ kind tables attributes left right, n = .inclusion kind tables attributes left right ∧ left.Made schema ∧
        right.Made schema := by
  obtain ⟨hd, hs, -⟩ := h
  cases n with
  | primaryKey table attributes => exact .inl ⟨table, attributes, rfl⟩
  | pair kind table attributes child =>
    exact .inr (.inl ⟨kind, table, attributes, child, rfl, hs child List.mem_cons_self⟩)
  | inclusion kind tables attributes left right =>
    rw [Node.sides, List.forall_mem_cons, List.forall_mem_singleton] at hs
    exact .inr (.inr ⟨kind, tables, attributes, left, right, rfl, hs⟩)
  | relation | select | project | rename | assign | join | setOperation | bare => cases hd

/-- A dependency assigns nothing. -/
theorem IsDeclared.assigned?_eq {schema : Schema} {n : Node} (h : n.IsDeclared schema) : n.assigned? = none := by
  obtain ⟨_, _, rfl⟩ | ⟨_, _, _, _, rfl, -⟩ | ⟨_, _, _, _, _, rfl, -⟩ := h.cases <;> rfl

/-- The attributes of a node that was made can be asked for. -/
theorem Made.attributes_eq {schema : Schema} {n : Node} (h : n.Made schema) : n.attributes = .ok n.heading := by
  rw [attributes, h.listed]

/-! ## One node -/

variable {schema : Schema} {child left right n : Node} {serial : Nat}

/-- The node of a relation name that texts write was made over the schema. -/
theorem Made.of_newRelation {name : String} (hn : isName name = true) (h : newRelation schema name serial = .ok n) :
    n.Made schema := by
  obtain ⟨names, hg, h⟩ := exists_ok_of_bind h
  cases h
  exact .relation hn hg

/-- A selection by a written condition was made over the schema if its operand was. -/
theorem Made.of_newSelect {c : Condition} (hm : child.Made schema) (hc : c.IsWritten)
    (h : child.newSelect c serial = .ok n) : n.Made schema := by
  obtain ⟨attributes, ha, h⟩ := exists_ok_of_bind h
  obtain rfl : child.heading = attributes := Except.ok.inj (hm.attributes_eq.symm.trans ha)
  obtain ⟨_, hv, h⟩ := exists_ok_of_bind h
  cases h
  exact .select hm hc hv

/-- A projection to some references was made over the schema if its operand was. -/
theorem Made.of_newProject {references : List String} (hm : child.Made schema) (hr : references ≠ [])
    (h : child.newProject references serial = .ok n) : n.Made schema := by
  obtain ⟨attributes, ha, h⟩ := exists_ok_of_bind h
  obtain rfl : child.heading = attributes := Except.ok.inj (hm.attributes_eq.symm.trans ha)
  obtain ⟨kept, hk, h⟩ := exists_ok_of_bind h
  cases h
  exact .project hm hr hk

/-- A name that texts write is given. -/
theorem given_of_isName {name : Option String} (h : ∀ n, name = some n → isName n = true) : given name = name := by
  cases name with
  | none => rfl
  | some n => simp [given, ne_empty_of_isName (h n rfl)]

/-- A renaming with a written target was made over the schema if its operand was. -/
theorem Made.of_newRename {target : Renaming} (hm : child.Made schema) (ht : target.IsWritten)
    (h : newRename schema child target.name? (target.names.map Phrase.word) serial = .ok n) : n.Made schema := by
  unfold newRename at h
  rw [hm.attributes_eq, given_of_isName ht.1] at h
  cases hf : target.name?.any schema.contains with
  | true => simp only [hf, if_true] at h; cases h
  | false =>
    cases hr : child.heading.rename (target.names.map Phrase.word) (target.name?.or child.name) with
    | error e => simp only [bind, Except.bind, hf, hr] at h; cases h
    | ok renamed =>
      simp only [bind, Except.bind, hf, hr] at h
      cases h
      exact .rename hm ht hf hr

/-- A join with a written condition or none was made over the schema if its operands were. -/
theorem Made.of_newJoin {op : Join} (hl : left.Made schema) (hr : right.Made schema) (ho : op.IsWritten)
    (h : newJoin op left right serial = .ok n) : n.Made schema := by
  unfold newJoin at h
  rw [hl.listed, hr.listed] at h
  cases hn : sameName left.name right.name with
  | true => simp only [hn, if_true] at h; cases h
  | false =>
    cases ha : joinAttributes op left.heading right.heading with
    | error e => simp only [bind, Except.bind, hn, AttributeList.both, ha] at h; cases h
    | ok attributes =>
      simp only [bind, Except.bind, hn, AttributeList.both, ha] at h
      cases h
      exact .join hl hr ho hn ha

/-- A set operation was made over the schema if its operands were. -/
theorem Made.of_newSetOperation {op : SetOperator} (hl : left.Made schema) (hr : right.Made schema)
    (h : newSetOperation op left right serial = .ok n) : n.Made schema := by
  unfold newSetOperation columns at h
  rw [hl.listed, hr.listed] at h
  simp only [bind, Except.bind] at h
  split at h
  · rename_i hs
    cases h
    have hn : left.heading.names = right.heading.names := by
      simp only [sameColumns, Bool.and_eq_true, decide_eq_true_eq] at hs
      exact hs.1.1
    exact .setOperation hl hr hn
  · cases h

end Node

/-! ## Computations that leave the schema alone -/

namespace Build

variable {α β : Type}

/-- The outcome of a computation and the workspace after it. -/
abbrev outcome (b : Build α) (w : Workspace) : Except Error α × Workspace := (ExceptT.run b).run w

/-- Whatever the computation gives satisfies the predicate over the schema it started with, and it keeps that schema. -/
def Steady (b : Build α) (φ : Schema → α → Prop) : Prop :=
  ∀ w a w', outcome b w = (.ok a, w') → w'.schema = w.schema ∧ φ w.schema a

/-- The parts of a sequence are run one after the other, up to the first that fails. -/
theorem outcome_bind_eq (b : Build α) (f : α → Build β) (w : Workspace) :
    outcome (b >>= f) w = match outcome b w with
      | (.ok a, v) => outcome (f a) v
      | (.error e, v) => (.error e, v) := by
  show (ExceptT.bindCont f (b w).1 (b w).2) = _
  unfold ExceptT.bindCont
  rcases hb : b w with ⟨e | a, v⟩
  · simp only [outcome, ExceptT.run, StateT.run, hb]
    rfl
  · simp only [outcome, ExceptT.run, StateT.run, hb]

/-- A sequence that succeeds is two parts that succeed. -/
theorem outcome_bind {b : Build α} {f : α → Build β} {w w' : Workspace} {r : β}
    (h : outcome (b >>= f) w = (.ok r, w')) : ∃ a v, outcome b w = (.ok a, v) ∧ outcome (f a) v = (.ok r, w') := by
  rw [outcome_bind_eq] at h
  rcases hb : outcome b w with ⟨_ | a, v⟩
  · rw [hb] at h; cases h
  · rw [hb] at h; exact ⟨a, v, rfl, h⟩

/-- A computation that gives what satisfies one predicate gives what satisfies a wider one. -/
theorem Steady.mono {b : Build α} {φ ψ : Schema → α → Prop} (h : Steady b φ) (hi : ∀ s a, φ s a → ψ s a) : Steady b ψ := by
  intro w a w' hw
  obtain ⟨hs, ha⟩ := h w a w' hw
  exact ⟨hs, hi _ _ ha⟩

/-- Computations in a row leave the schema alone if each of them does. -/
theorem Steady.bind {b : Build α} {f : α → Build β} {φ : Schema → α → Prop} {ψ : Schema → β → Prop} (hb : Steady b φ)
    (hf : ∀ a, Steady (f a) fun s r => φ s a → ψ s r) : Steady (b >>= f) ψ := by
  intro w r w' h
  obtain ⟨a, v, h₁, h₂⟩ := outcome_bind h
  obtain ⟨hv, ha⟩ := hb w a v h₁
  obtain ⟨hw, hr⟩ := hf a v r w' h₂
  rw [hv] at hw hr
  exact ⟨hw, hr ha⟩

/-- What follows a computation whose value is of no interest. -/
theorem Steady.skip {b : Build α} {f : α → Build β} {ψ : Schema → β → Prop} (hb : Steady b fun _ _ => True)
    (hf : ∀ a, Steady (f a) ψ) : Steady (b >>= f) ψ := hb.bind fun a => (hf a).mono fun _ _ h _ => h

/-- A result that is given leaves the schema alone. -/
theorem steady_pure {a : α} {φ : Schema → α → Prop} (h : ∀ s, φ s a) : Steady (pure a) φ := by
  intro w b w' hw
  cases hw
  exact ⟨rfl, h _⟩

/-- Placing a node leaves the schema alone, and the node is as it was made. -/
theorem steady_place {new : Schema → Nat → Except Error Node} {φ : Schema → Node → Prop}
    (h : ∀ schema serial n, new schema serial = .ok n → φ schema n) : Steady (place new) φ := by
  intro w n w' hw
  obtain ⟨v, v', hv, hw⟩ := outcome_bind hw
  cases hv
  obtain ⟨m, u, hm, hw⟩ := outcome_bind hw
  cases hn : new w.schema w.serial with
  | error e => rw [hn] at hm; cases hm
  | ok k =>
    rw [hn] at hm
    cases hm
    dsimp only at hw
    split at hw
    · cases hw
      exact ⟨rfl, h _ _ _ hn⟩
    · obtain ⟨_, x, hx, hw⟩ := outcome_bind hw
      cases hx
      cases hw
      exact ⟨rfl, h _ _ _ hn⟩

/-- The node of a term as texts write it is made over the schema at hand. -/
theorem steady_build {t : Term} (h : t.IsWritten) : Steady t.build fun schema n => n.Made schema := by
  induction h with
  | relation h => exact steady_place fun _ _ _ hn => .of_newRelation h hn
  | select hc _ ih =>
    exact ih.bind fun child => steady_place fun _ _ _ hn hm => .of_newSelect hm hc hn
  | project hr _ ih =>
    exact ih.bind fun child => steady_place fun _ _ _ hn hm => .of_newProject hm hr hn
  | rename ht _ ih =>
    exact ih.bind fun child => steady_place fun _ _ _ hn hm => .of_newRename hm ht hn
  | join ho _ _ ihl ihr =>
    exact ihl.bind fun l => ihr.bind fun r => steady_place fun _ _ _ hn hr hl => .of_newJoin hl hr ho hn
  | combine _ _ ihl ihr =>
    exact ihl.bind fun l => ihr.bind fun r => steady_place fun _ _ _ hn hr hl => .of_newSetOperation hl hr hn

/-! ## Declarations -/

/-- The parts of a side make the node of its term. -/
theorem side_of_isWritten {s : Side} {t : Term} (h : s.IsWritten t) : side .standard (.group s.phrases) = t.build := by
  cases h with
  | relation _ => rfl
  | selected hd _ _ =>
    show selection .standard (.group [_]) (.word _) = _
    rw [selection, condition_of_denotes hd]
    rfl

/-- A written side of a dependency is a node that was made over the schema. -/
theorem steady_side {s : Side} {t : Term} (h : s.IsWritten t) :
    Steady (side .standard (.group s.phrases)) fun schema n => n.Made schema := by
  rw [side_of_isWritten h]
  exact steady_build h.term

/-- A listing keeps the names it was given. -/
theorem steady_listing_phrase (names : Phrase) : Steady (listing names) fun _ l => l.phrase = names := by
  intro w l w' h
  cases names <;> cases h <;> exact ⟨rfl, rfl⟩

/-- A listing leaves the schema alone. -/
theorem steady_listing (names : Phrase) : Steady (listing names) fun _ _ => True :=
  (steady_listing_phrase names).mono fun _ _ _ => trivial

/-- The parts of a dependency between two attributes make the node of its side. -/
theorem pair_of_isWritten (kind : PairDependency) (op left right : String) {s : Side} {t : Term} (h : s.IsWritten t) :
    ∃ name : String, pair .standard kind (.word op :: pairPhrases left right s) = do
      let child ← t.build
      return .pair kind (← listing (.word name)) (← listing (Phrase.words [left, right])) child := by
  cases h with
  | @relation name _ =>
    refine ⟨name, ?_⟩
    simp [pair, pairPhrases, Side.phrases, part, Term.build, relation]
  | @selected clause c name hd _ _ =>
    refine ⟨name, ?_⟩
    have hp : symbolPhrases (Lexicon.usual .select) = [.word (Lexicon.usual .select)] := rfl
    simp [pair, pairPhrases, Side.phrases, hp, part, selection, condition_of_denotes hd, Term.build, relation]

/-- A dependency between two attributes, from the parts of its side. -/
theorem steady_pair (kind : PairDependency) (op left right : String) {s : Side} {t : Term} (h : s.IsWritten t) :
    Steady (pair .standard kind (.word op :: pairPhrases left right s)) fun schema n => n.IsDeclared schema := by
  obtain ⟨name, hs⟩ := pair_of_isWritten kind op left right h
  rw [hs]
  refine (steady_build h.term).bind fun child => (steady_listing _).skip fun _ => (steady_listing _).skip fun _ =>
    steady_pure fun schema hm => ⟨rfl, ?_, fun _ _ he => by cases he⟩
  intro k hk
  rw [List.mem_singleton.mp hk]
  exact hm

/-- The parts of an inclusion make the nodes of its sides. -/
theorem inclusion_of_sides (kind : Inclusion) (op left right : String) (l r : Side) :
    inclusion .standard kind (.word op :: inclusionPhrases left right l r) = do
      let m ← side .standard (.group l.phrases)
      let n ← side .standard (.group r.phrases)
      return .inclusion kind (.handed (Phrase.words [m.name.getD "", n.name.getD ""]))
        (← listing (Phrase.words [left, right])) m n := rfl

/-- An inclusion, from the parts of its sides. -/
theorem steady_inclusion (kind : Inclusion) (op left right : String) {l r : Side} {t u : Term} (hl : l.IsWritten t)
    (hr : r.IsWritten u) : Steady (inclusion .standard kind (.word op :: inclusionPhrases left right l r))
      fun schema n => n.IsDeclared schema := by
  rw [inclusion_of_sides]
  refine (steady_side hl).bind fun m => (steady_side hr).bind fun n => (steady_listing _).skip fun _ =>
    steady_pure fun schema hn hm => ⟨rfl, ?_, fun _ _ he => by cases he⟩
  intro k hk
  rcases List.mem_cons.mp hk with rfl | hk
  · exact hm
  · rw [List.mem_singleton.mp hk]
    exact hn

/-- What is made aside leaves the schema alone as it does in its place. -/
theorem Steady.aside {b : Build α} {φ : Schema → α → Prop} (h : Steady b φ) : Steady (aside b) φ := by
  intro w a w' hw
  obtain ⟨v, u, hv, hw⟩ := outcome_bind hw
  cases hv
  obtain ⟨r, u', hr, hw⟩ := outcome_bind hw
  obtain ⟨hs, hp⟩ := h _ _ _ hr
  cases hw
  exact ⟨hs, hp⟩

/-- The parts of a key make its listings. -/
theorem primaryKey_of_parts (op : String) (attributes name : Phrase) : primaryKey [.word op, attributes, name] = do
    let table ← listing name
    let listed ← listing attributes
    return .primaryKey table listed := rfl

/-- A key of names that texts write is a declared node. -/
theorem steady_primaryKey (op : String) {attributes : List String} {name : String} (ha : ∀ n ∈ attributes, isName n = true)
    (hn : isName name = true) :
    Steady (primaryKey [.word op, Phrase.words attributes, .word name]) fun schema n => n.IsDeclared schema := by
  rw [primaryKey_of_parts]
  refine (steady_listing_phrase _).bind fun table => (steady_listing_phrase _).bind fun listed =>
    steady_pure fun _ hl ht => ⟨rfl, nofun, fun _ _ he => ?_⟩
  cases he
  exact ⟨name, attributes, ht, hn, hl, ha⟩

/-- Words that start with the symbol of a dependency make a dependency of its kind. -/
theorem node_dependency (level : Level) {s : Symbol} (h : s ∈ Symbol.dependencies) (second : Phrase) (rest : List Phrase) :
    nodeOfParts level (symbolPhrases (Lexicon.usual s) ++ second :: rest) = aside (
      if s = .primaryKey then primaryKey (.word (Lexicon.usual s) :: second :: rest)
      else if s = .functional then pair .standard .functional (.word (Lexicon.usual s) :: second :: rest)
      else if s = .multivalued then pair .standard .multivalued (.word (Lexicon.usual s) :: second :: rest)
      else if s = .inclusionEquivalence then inclusion .standard .equivalence (.word (Lexicon.usual s) :: second :: rest)
      else if s = .inclusionSubsumption then inclusion .standard .subsumption (.word (Lexicon.usual s) :: second :: rest)
      else throw (.unknownDependency (Lexicon.usual s))) := by
  have hp : ∀ s ∈ Symbol.dependencies, symbolPhrases (Lexicon.usual s) = [.word (Lexicon.usual s)] := by decide
  have hs : ∀ t ∈ Symbol.dependencies, ∀ s ∈ Symbol.dependencies,
      Lexicon.standard.spells t (Lexicon.usual s) = decide (s = t) := by decide
  have hi : isDependency .standard (.word (Lexicon.usual s) :: second :: rest) = .ok true := by
    simp only [Symbol.dependencies, List.mem_cons, List.not_mem_nil, or_false] at h
    rcases h with rfl | rfl | rfl | rfl | rfl <;> rfl
  rw [hp s h, nodeOfParts, List.singleton_append, node]
  simp only [hi, liftM_ok, pure_bind, if_true, dependency, part, List.getElem?_cons_zero, Phrase.text?, Option.any_some,
    hs .primaryKey (by decide) s h, hs .functional (by decide) s h, hs .multivalued (by decide) s h,
    hs .inclusionEquivalence (by decide) s h, hs .inclusionSubsumption (by decide) s h, decide_eq_true_eq]
  rfl

/-- The computation makes a dependency from parts that texts write. -/
inductive Declares : Build Node → Prop where
  | key (op : String) {attributes : List String} {name : String} (ha : ∀ n ∈ attributes, isName n = true)
      (hn : isName name = true) : Declares (primaryKey [.word op, Phrase.words attributes, .word name])
  | pair (kind : PairDependency) (op left right : String) {s : Side} {t : Term} (h : s.IsWritten t) :
      Declares (pair .standard kind (.word op :: pairPhrases left right s))
  | inclusion (kind : Inclusion) (op left right : String) {l r : Side} {t u : Term} (hl : l.IsWritten t)
      (hr : r.IsWritten u) : Declares (inclusion .standard kind (.word op :: inclusionPhrases left right l r))

/-- The words of a declaration make a dependency aside, at every level. -/
theorem node_declare {d : Declaration} (h : d.IsWritten) :
    ∃ b, Declares b ∧ ∀ level, nodeOfParts level d.phrase.parts = aside b := by
  cases d with
  | key op attributes name =>
    obtain ⟨rfl, ha, hn⟩ := h
    refine ⟨_, .key (Lexicon.usual .primaryKey) ha hn, fun level => ?_⟩
    rw [Declaration.phrase, Phrase.parts, node_dependency level (by decide), if_pos rfl]
  | between op left right side =>
    obtain ⟨ho, t, ht⟩ := h
    rcases ho with rfl | rfl
    · refine ⟨_, .pair .multivalued (Lexicon.usual .multivalued) left right ht, fun level => ?_⟩
      rw [Declaration.phrase, Phrase.parts, pairPhrases, node_dependency level (by decide), if_neg (by decide),
        if_neg (by decide), if_pos rfl]
    · refine ⟨_, .pair .functional (Lexicon.usual .functional) left right ht, fun level => ?_⟩
      rw [Declaration.phrase, Phrase.parts, pairPhrases, node_dependency level (by decide), if_neg (by decide), if_pos rfl]
  | inclusion op left right l r =>
    obtain ⟨ho, ⟨t, ht⟩, u, hu⟩ := h
    rcases ho with rfl | rfl
    · refine ⟨_, .inclusion .equivalence (Lexicon.usual .inclusionEquivalence) left right ht hu, fun level => ?_⟩
      rw [Declaration.phrase, Phrase.parts, inclusionPhrases, node_dependency level (by decide), if_neg (by decide),
        if_neg (by decide), if_neg (by decide), if_pos rfl]
    · refine ⟨_, .inclusion .subsumption (Lexicon.usual .inclusionSubsumption) left right ht hu, fun level => ?_⟩
      rw [Declaration.phrase, Phrase.parts, inclusionPhrases, node_dependency level (by decide), if_neg (by decide),
        if_neg (by decide), if_neg (by decide), if_neg (by decide), if_pos rfl]

/-- The words of a declaration make a declaration. -/
theorem steady_declare (level : Level) {d : Declaration} (h : d.IsWritten) :
    Steady (nodeOfParts level d.phrase.parts) fun schema n => n.IsDeclared schema := by
  obtain ⟨b, hb, he⟩ := node_declare h
  rw [he level]
  cases hb with
  | key op ha hn => exact (steady_primaryKey op ha hn).aside
  | pair kind op left right ht => exact (steady_pair kind _ left right ht).aside
  | inclusion kind op left right ht hu => exact (steady_inclusion kind _ left right ht hu).aside

end Build

/-! ## Statements -/

/-- The name that a statement assigns a relation to. -/
def Surface.Statement.assigned? : Statement → Option String
  | .assign name .. => some name
  | _ => none

/-- The node of a statement over a schema, and the schema after it. -/
inductive Stated (schema : Schema) : Node → Schema → Prop where
  | query {n : Node} (h : n.Made schema) : Stated schema n schema
  | assign {child : Node} {name : String} {names : List String} {attributes : AttributeList} {serial : Nat}
      {extended : Schema} (h : child.Made schema) (hn : isName name = true) (hs : ∀ n ∈ names, isName n = true)
      (hr : child.heading.rename (names.map Phrase.word) (some name) = .ok attributes)
      (ha : schema.add name attributes.names = .ok extended) :
      Stated schema (.assign (Head.make (some name) attributes serial) child) extended
  | declare {n : Node} (h : n.IsDeclared schema) : Stated schema n schema

/-- The nodes of statements that follow one another. -/
inductive Chain : Schema → List Node → Prop where
  | nil (schema : Schema) : Chain schema []
  | cons {schema extended : Schema} {n : Node} {ns : List Node} (h : Stated schema n extended) (hs : Chain extended ns) :
      Chain schema (n :: ns)

namespace Build

/-- An assignment that was made has the attributes of its operand under the new name. -/
theorem made_of_newAssign {schema : Schema} {child n : Node} {name : String} {names : List String} {serial : Nat}
    (hm : child.Made schema) (hn : isName name = true)
    (h : child.newAssign (some name) (names.map Phrase.word) serial = .ok n) :
    ∃ attributes, child.heading.rename (names.map Phrase.word) (some name) = .ok attributes
      ∧ n = .assign (Head.make (some name) attributes serial) child := by
  have hg : given (some name) = some name := Node.given_of_isName fun m hm => by cases hm; exact hn
  unfold Node.newAssign at h
  rw [hg, hm.attributes_eq] at h
  cases hr : child.heading.rename (names.map Phrase.word) (some name) with
  | ok attributes =>
    refine ⟨attributes, rfl, ?_⟩
    simp only [bind, Except.bind, hr] at h
    repeat' split at h
    all_goals cases h
    all_goals rfl
  | error e =>
    simp only [bind, Except.bind, hr] at h
    repeat' split at h
    all_goals cases h

/-- An assignment adds its relation to the schema under the names of its attributes. -/
theorem add_of_assigned {schema extended : Schema} {name : String} {attributes : AttributeList}
    (h : assigned schema (.word name) attributes = .ok extended) : schema.add name attributes.names = .ok extended := by
  obtain ⟨added, ha, h⟩ := exists_ok_of_bind h
  dsimp only at h
  split at h
  · cases h
  · cases h
    exact ha

/-- The parameters of an assignment are its name and its attribute names. -/
theorem unary_assign (child : Node) (name : String) (attributes : Option (List String)) :
    unary .standard (Lexicon.usual .assign) child (some (.group (.word name :: (attributes.map Phrase.words).toList)))
      = define child (.word name) ((attributes.getD []).map Phrase.word) := by
  cases attributes <;> rfl

/-- An assignment that succeeds is the node of a statement and extends the schema. -/
theorem stated_of_define {w w' : Workspace} {child n : Node} {name : String} {names : List String}
    (hm : child.Made w.schema) (hn : isName name = true) (hs : ∀ n ∈ names, isName n = true)
    (h : outcome (define child (.word name) (names.map Phrase.word)) w = (.ok n, w')) :
    Stated w.schema n w'.schema ∧ ∃ attributes serial, n = .assign (Head.make (some name) attributes serial) child := by
  obtain ⟨m, v, hp, h⟩ := outcome_bind h
  have hq : Steady (assign child (some name) (names.map Phrase.word)) fun _ m => ∃ attributes serial,
      child.heading.rename (names.map Phrase.word) (some name) = .ok attributes
        ∧ m = .assign (Head.make (some name) attributes serial) child :=
    steady_place fun _ serial m hm' => by
      obtain ⟨attributes, hr, rfl⟩ := made_of_newAssign hm hn hm'
      exact ⟨attributes, serial, hr, rfl⟩
  obtain ⟨hv, attributes, serial, hr, rfl⟩ := hq w m v hp
  obtain ⟨u, v', hu, h⟩ := outcome_bind h
  cases hu
  obtain ⟨l, v', hl, h⟩ := outcome_bind h
  cases hl
  obtain ⟨extended, v', he, h⟩ := outcome_bind h
  have he' : outcome (liftM (assigned v.schema (.word name) attributes) : Build Schema) v = (.ok extended, v') := he
  cases ha : assigned v.schema (.word name) attributes with
  | error e => rw [ha] at he'; cases he'
  | ok schema =>
    rw [ha] at he'
    cases he'
    cases h
    rw [hv] at ha
    exact ⟨.assign hm hn hs hr (add_of_assigned ha), attributes, serial, rfl⟩

/-- The new attribute names of an assignment, if it has any, are names. -/
theorem isName_of_names {attributes : Option (List String)} (h : ∀ ns, attributes = some ns → ∀ n ∈ ns, isName n = true) :
    ∀ n ∈ attributes.getD [], isName n = true := by
  cases attributes with
  | none => exact fun _ hn => absurd hn List.not_mem_nil
  | some ns => exact h ns rfl

/-- A query is the node of the term that it stands for. -/
theorem build_of_query {level : Level} {e : Expression} (hs : (Statement.query e).IsWritten level) {w w' : Workspace} {n : Node}
    (h : outcome (statement level .standard (.query e)) w = (.ok n, w')) :
    ∃ t, e.Denotes level t ∧ t.IsWritten ∧ outcome t.build w = (.ok n, w') := by
  obtain ⟨t, hd, hw⟩ := hs
  have hb : nodeOfParts level e.phrase.parts = t.build := node_phrase e hd
  exact ⟨t, hd, hw, hb ▸ h⟩

/-- An assignment is the node of its value with a name. -/
theorem define_of_assign {level : Level} {name op : String} {attributes : Option (List String)} {value : Expression}
    (hs : (Statement.assign name attributes op value).IsWritten level) {w w' : Workspace} {n : Node}
    (h : outcome (statement level .standard (.assign name attributes op value)) w = (.ok n, w')) :
    ∃ t child v, value.Denotes level t ∧ t.IsWritten ∧ outcome t.build w = (.ok child, v) ∧
      outcome (define child (.word name) ((attributes.getD []).map Phrase.word)) v = (.ok n, w') := by
  obtain ⟨-, -, rfl, t, hd, hw⟩ := hs
  obtain ⟨b, u, hu, h⟩ := outcome_bind h
  cases hu
  obtain ⟨child, v, hv, h⟩ := outcome_bind h
  have hb : nodeOfParts level [value.phrase] = t.build := by rw [phrase_eq_list, node_single, node_phrase value hd]
  refine ⟨t, child, v, hd, hw, hb ▸ hv, ?_⟩
  rwa [unary_assign] at h

/-- A written assignment whose value was made is the node of a statement and extends the schema. -/
theorem stated_of_assign {level : Level} {name op : String} {attributes : Option (List String)} {value : Expression}
    (hs : (Statement.assign name attributes op value).IsWritten level) {t : Term} (hw : t.IsWritten) {w v w' : Workspace}
    {child n : Node} (hv : outcome t.build w = (.ok child, v))
    (h : outcome (define child (.word name) ((attributes.getD []).map Phrase.word)) v = (.ok n, w')) :
    Stated w.schema n w'.schema ∧ ∃ attributes serial, n = .assign (Head.make (some name) attributes serial) child := by
  obtain ⟨hk, hm⟩ := steady_build hw w child v hv
  obtain ⟨hn, ha, -, -⟩ := hs
  rw [← hk] at hm ⊢
  exact stated_of_define hm hn (isName_of_names ha) h

/-- The node of a statement as texts write it. -/
theorem stated_of_statement {level : Level} {s : Statement} (hs : s.IsWritten level) {w w' : Workspace} {n : Node}
    (h : outcome (statement level .standard s) w = (.ok n, w')) :
    Stated w.schema n w'.schema ∧ n.assigned? = s.assigned? := by
  cases s with
  | query e =>
    obtain ⟨t, -, hw, ho⟩ := build_of_query hs h
    obtain ⟨hk, hm⟩ := steady_build hw w n w' ho
    rw [hk]
    exact ⟨.query hm, hm.assigned?_eq⟩
  | declare d =>
    obtain ⟨hk, hm⟩ := steady_declare level hs w n w' h
    rw [hk]
    exact ⟨.declare hm, hm.assigned?_eq⟩
  | assign name attributes op value =>
    obtain ⟨t, child, v, -, hw, hv, h⟩ := define_of_assign hs h
    obtain ⟨hstated, _, _, rfl⟩ := stated_of_assign hs hw hv h
    exact ⟨hstated, rfl⟩

/-- The nodes of statements as texts write them, made in turn: each statement starts from the workspace that the one before it
leaves. -/
inductive InTurn (level : Level) : Workspace → List Statement → List Node → Workspace → Prop where
  | nil (w : Workspace) : InTurn level w [] [] w
  | cons {w v u : Workspace} {s : Statement} {n : Node} {ss : List Statement} {ns : List Node} (hs : s.IsWritten level)
      (h : outcome (statement level .standard s) w = (.ok n, v)) (hr : InTurn level v ss ns u) :
      InTurn level w (s :: ss) (n :: ns) u

/-- The nodes of written statements were made in turn. -/
theorem inTurn_of_nodes {level : Level} {ss : List Statement} (hs : ∀ s ∈ ss, s.IsWritten level) {w w' : Workspace}
    {ns : List Node} (h : outcome (nodes level .standard ss) w = (.ok ns, w')) : InTurn level w ss ns w' := by
  induction ss generalizing w ns with
  | nil =>
    cases h
    exact .nil _
  | cons s ss ih =>
    obtain ⟨n, v, hn, h⟩ := outcome_bind h
    obtain ⟨ms, u, hm, h⟩ := outcome_bind h
    cases h
    exact .cons (hs s List.mem_cons_self) hn (ih (fun t ht => hs t (List.mem_cons_of_mem s ht)) hm)

/-- The nodes of the statements of a text were made in turn. -/
theorem inTurn_of_parse {level : Level} {text : String} {ss : List Statement} (hp : parse level .standard text = .ok ss)
    {w w' : Workspace} {ns : List Node} (h : outcome (nodes level .standard ss) w = (.ok ns, w')) :
    InTurn level w ss ns w' := inTurn_of_nodes (isWritten_of_parse hp) h

/-- Each of the nodes is that of a statement. -/
theorem InTurn.exists_statement {level : Level} {w v : Workspace} {ss : List Statement} {ns : List Node}
    (h : InTurn level w ss ns v) : ∀ n ∈ ns, ∃ s ∈ ss, ∃ u u', s.IsWritten level ∧
      outcome (statement level .standard s) u = (.ok n, u') := by
  induction h with
  | nil => exact List.forall_mem_nil _
  | cons hs h _ ih =>
    refine List.forall_mem_cons.mpr ⟨⟨_, List.mem_cons_self, _, _, hs, h⟩, fun n hn => ?_⟩
    obtain ⟨s, hm, hrest⟩ := ih n hn
    exact ⟨s, List.mem_cons_of_mem _ hm, hrest⟩

/-- Nodes that were made in turn are a chain. -/
theorem InTurn.chain {level : Level} {w v : Workspace} {ss : List Statement} {ns : List Node} (h : InTurn level w ss ns v) :
    Chain w.schema ns := by
  induction h with
  | nil => exact .nil _
  | cons hs h _ ih => exact .cons (stated_of_statement hs h).1 ih

/-- An attempt has the result of the computation. -/
theorem attempt_fst {α : Type} (b : Build α) (w : Workspace) : (b.attempt w).1 = (outcome b w).1 := by
  unfold attempt outcome
  rcases StateT.run (ExceptT.run b) w with ⟨_ | a, v⟩ <;> rfl

/-- What succeeds as an attempt succeeds as it is, and leaves the same workspace. -/
theorem outcome_of_attempt {α : Type} {b : Build α} {w v : Workspace} {a : α} (h : b.attempt w = (.ok a, v)) :
    outcome b w = (.ok a, v) := by
  unfold attempt at h
  unfold outcome
  rcases hb : StateT.run (ExceptT.run b) w with ⟨_ | c, u⟩
  · rw [hb] at h
    cases h
  · rw [hb] at h
    exact h

/-- A program that gives nodes was read, and they are the nodes of its statements. -/
theorem nodes_of_program {level : Level} {lex : Lexicon} {text : String} {w v : Workspace} {ns : List Node}
    (h : outcome (program level lex text) w = (.ok ns, v)) :
    ∃ ss, parse level lex text = .ok ss ∧ outcome (nodes level lex ss) w = (.ok ns, v) := by
  obtain ⟨ss, u, hs, h⟩ := outcome_bind h
  cases hp : parse level lex text with
  | error e =>
    rw [hp] at hs
    cases hs
  | ok ts =>
    rw [hp] at hs
    cases hs
    exact ⟨ss, rfl, h⟩

/-- A text that is not of the language has no nodes. -/
theorem forest_of_error {level : Level} {schema : Schema} {text : String} {e : Error}
    (h : parse level .standard text = .error e) : forest level .standard schema text = .error e := by
  unfold forest program
  rw [attempt_fst, h]
  rfl

/-- The nodes of a text are those of its statements, from a new workspace on. -/
theorem forest_of_parse {level : Level} {schema : Schema} {text : String} {ss : List Statement}
    (h : parse level .standard text = .ok ss) :
    forest level .standard schema text = (outcome (nodes level .standard ss) (.start schema)).1 := by
  unfold forest program
  rw [attempt_fst, h]
  rfl

/-- A text that gives nodes is accepted, and they are the nodes of its statements. -/
theorem nodes_of_forest {level : Level} {schema : Schema} {text : String} {ns : List Node}
    (h : forest level .standard schema text = .ok ns) : ∃ ss w, parse level .standard text = .ok ss ∧
      outcome (nodes level .standard ss) (.start schema) = (.ok ns, w) := by
  cases hp : parse level .standard text with
  | error e =>
    rw [forest_of_error hp] at h
    cases h
  | ok ss =>
    rw [forest_of_parse hp] at h
    exact ⟨ss, _, rfl, Prod.ext h rfl⟩

/-- The nodes of every accepted text are made one after the other. -/
theorem chain_of_forest {level : Level} {schema : Schema} {text : String} {ns : List Node}
    (h : forest level .standard schema text = .ok ns) : Chain schema ns := by
  obtain ⟨ss, w, hp, hn⟩ := nodes_of_forest h
  exact (inTurn_of_parse hp hn).chain

end Build

end RelAlg
