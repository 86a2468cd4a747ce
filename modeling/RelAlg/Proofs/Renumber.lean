import RelAlg.Proofs.Made

/-!
# Nodes under other numbers

A node without a name is known by a serial number, and a list that a dependency was given by a mark; both come from counters. A
computation that starts with the counters further on makes the same nodes under numbers that are further on by as much, and
fails with the same error (`Renumbers.nodes`). So what is made of statements does not depend on how many nodes were made
before them.
-/

namespace RelAlg

/-! ## Numbers further on -/

/-- The listing with its mark further on. -/
def Listing.renumber (m : Nat) (l : Listing) : Listing := { l with mark := l.mark.map (· + m) }

/-- The head with its serial number further on, if it keeps one. -/
def Head.renumber (k : Nat) (h : Head) : Head := if (given h.name).isSome then h else { h with serial := h.serial + k }

/-- The node with the serial numbers in it further on by `k` and the marks further on by `m`. -/
@[simp] def Node.renumber (k m : Nat) : Node → Node
  | relation h => relation (h.renumber k)
  | select h c n => select (h.renumber k) c (n.renumber k m)
  | project h n => project (h.renumber k) (n.renumber k m)
  | rename h n => rename (h.renumber k) (n.renumber k m)
  | assign h n => assign (h.renumber k) (n.renumber k m)
  | join h op l r => join (h.renumber k) op (l.renumber k m) (r.renumber k m)
  | setOperation h op l r => setOperation (h.renumber k) op (l.renumber k m) (r.renumber k m)
  | primaryKey r a => primaryKey (r.renumber m) (a.renumber m)
  | pair kind r a n => pair kind (r.renumber m) (a.renumber m) (n.renumber k m)
  | inclusion kind rs a l r => inclusion kind (rs.renumber m) (a.renumber m) (l.renumber k m) (r.renumber k m)
  | bare b => bare { b with serial := if (given b.name).isSome then b.serial else b.serial + k }

/-- The workspace with its counters further on. -/
def Workspace.ahead (w : Workspace) (k m : Nat) : Workspace := ⟨w.schema, w.serial + k, w.mark + m⟩

variable {k m : Nat}

/-- A head that is made with a number further on is the renumbered one; a name of its own takes no number either way. -/
theorem Head.renumber_make (name : Option String) (attributes : AttributeList) (serial : Nat) :
    (Head.make name attributes serial).renumber k = Head.make name attributes (serial + k) := by
  unfold Head.renumber Head.make
  by_cases h : (given name).isSome = true
  · simp [h]
  · simp [h]

/-- Numbers have no part in the name of a head. -/
@[simp] theorem Head.name_renumber (h : Head) : (h.renumber k).name = h.name := by
  unfold Head.renumber
  split <;> rfl

/-- Numbers have no part in the attributes of a head. -/
@[simp] theorem Head.attributes_renumber (h : Head) : (h.renumber k).attributes = h.attributes := by
  unfold Head.renumber
  split <;> rfl

/-- The kind of value that a listing is does not depend on which mark it has. -/
@[simp] theorem Listing.kind_renumber (l : Listing) : (l.renumber m).kind = l.kind := by
  obtain ⟨phrase, mark⟩ := l
  cases phrase <;> cases mark <;> rfl

namespace Node

/-- A renumbered node has the same name. -/
@[simp] theorem name_renumber (n : Node) : (n.renumber k m).name = n.name := by
  cases n <;> simp [renumber, name]

/-- A renumbered node has the same list of attributes, or the same reason to have none. -/
@[simp] theorem listed_renumber (n : Node) : (n.renumber k m).listed = n.listed := by
  cases n <;> simp [renumber, listed]

/-- A renumbered node has the same attributes. -/
@[simp] theorem attributes_renumber (n : Node) : (n.renumber k m).attributes = n.attributes := by
  rw [attributes, listed_renumber, attributes]

/-- A renumbered node has a name just if the node has one. -/
@[simp] theorem isNamed_renumber (n : Node) : (n.renumber k m).isNamed = n.isNamed := by
  rw [isNamed, name_renumber, isNamed]

/-- A renumbered node has the same columns to be compared by a set operator. -/
@[simp] theorem columns_renumber (n : Node) : (n.renumber k m).columns = n.columns := by
  rw [columns, listed_renumber, columns]

/-- A renumbered node has as many columns. -/
@[simp] theorem columnCount_renumber (n : Node) : (n.renumber k m).columnCount = n.columnCount := by
  cases n <;> simp [renumber, columnCount, listed, Listing.items, Listing.renumber]

/-! ## New nodes -/

theorem map_throw {α β : Type} (f : α → β) (e : Error) : f <$> (throw e : Except Error α) = throw e := rfl

theorem throw_bind {α β : Type} (e : Error) (f : α → Except Error β) : (throw e : Except Error α) >>= f = throw e := rfl

theorem ok_bind {α β : Type} (a : α) (f : α → Except Error β) : Except.ok a >>= f = f a := rfl

/-- A relation that is made with a number further on is the renumbered one, or fails in the same way. -/
theorem newRelation_renumber (schema : Schema) (name : String) (serial : Nat) :
    newRelation schema name (serial + k) = renumber k m <$> newRelation schema name serial := by
  simp [newRelation, renumber, Head.renumber_make]

/-- A selection from a renumbered node is the renumbered selection, or fails in the same way. -/
theorem newSelect_renumber (child : Node) (c : Condition) (serial : Nat) :
    (child.renumber k m).newSelect c (serial + k) = renumber k m <$> child.newSelect c serial := by
  simp [newSelect, renumber, Head.renumber_make]

/-- A projection of a renumbered node is the renumbered projection, or fails in the same way. -/
theorem newProject_renumber (child : Node) (references : List String) (serial : Nat) :
    (child.renumber k m).newProject references (serial + k) = renumber k m <$> child.newProject references serial := by
  simp [newProject, renumber, Head.renumber_make]

/-- A renaming of a renumbered node is the renumbered renaming, or fails in the same way. -/
theorem newRename_renumber (schema : Schema) (child : Node) (name : Option String) (names : List Phrase) (serial : Nat) :
    newRename schema (child.renumber k m) name names (serial + k)
      = renumber k m <$> newRename schema child name names serial := by
  unfold newRename
  by_cases hn : name.any schema.contains = true
  · simp [hn, throw_bind, map_throw]
  · simp [hn, renumber, Head.renumber_make]

/-- An assignment of a renumbered node is the renumbered assignment, or fails in the same way. -/
theorem newAssign_renumber (child : Node) (name : Option String) (names : List Phrase) (serial : Nat) :
    (child.renumber k m).newAssign name names (serial + k) = renumber k m <$> child.newAssign name names serial := by
  unfold newAssign
  cases given name with
  | none => simp [map_throw]
  | some n =>
    by_cases he : names.isEmpty = true
    · simp [he, renumber, Head.renumber_make]
    · rw [columnCount_renumber]
      cases child.columnCount with
      | error e => simp only [he]; rfl
      | ok count =>
        by_cases hc : names.length = count
        · simp [he, hc, ok_bind, renumber, Head.renumber_make]
        · simp [he, hc, ok_bind, throw_bind, map_throw]

/-- A join of renumbered nodes is the renumbered join, or fails in the same way. -/
theorem newJoin_renumber (op : Join) (left right : Node) (serial : Nat) :
    newJoin op (left.renumber k m) (right.renumber k m) (serial + k) = renumber k m <$> newJoin op left right serial := by
  unfold newJoin
  by_cases hn : sameName left.name right.name = true
  · simp [hn, throw_bind, map_throw]
  · simp [hn, renumber, Head.renumber_make]

/-- A set operation on renumbered nodes is the renumbered operation, or fails in the same way. -/
theorem newSetOperation_renumber (op : SetOperator) (left right : Node) (serial : Nat) :
    newSetOperation op (left.renumber k m) (right.renumber k m) (serial + k)
      = renumber k m <$> newSetOperation op left right serial := by
  unfold newSetOperation
  simp only [columns_renumber, map_bind]
  refine bind_congr fun l => bind_congr fun r => ?_
  split
  · simp [renumber, Head.renumber_make]
  · rfl

end Node

/-! ## Computations -/

namespace Build

variable {α β γ δ : Type}

/-- With the counters further on the second computation does what the first one does: both fail with the same error, or what
they give corresponds and the counters stay as far apart. -/
inductive Alike (k m : Nat) (f : α → β) (b : Build α) (b' : Build β) (w : Workspace) : Prop where
  | fails {e : Error} {v v' : Workspace} (h : outcome b w = (.error e, v)) (h' : outcome b' (w.ahead k m) = (.error e, v'))
  | gives {a : α} {v : Workspace} (h : outcome b w = (.ok a, v)) (h' : outcome b' (w.ahead k m) = (.ok (f a), v.ahead k m))
      (hs : w.serial ≤ v.serial)

/-- The computations do the same from every workspace, under numbers that are further on. -/
def Renumbers (k m : Nat) (f : α → β) (b : Build α) (b' : Build β) : Prop := ∀ w, Alike k m f b b' w

/-- A node that cannot be made leaves the workspace as it was. -/
theorem outcome_place_error {new : Schema → Nat → Except Error Node} {w : Workspace} {e : Error}
    (h : new w.schema w.serial = .error e) : outcome (place new) w = (.error e, w) := by
  show outcome (liftM (new w.schema w.serial) >>= _ : Build Node) w = _
  rw [outcome_bind_eq, h]
  rfl

/-- A node that is made takes the next number, unless it has a name. -/
theorem outcome_place_ok {new : Schema → Nat → Except Error Node} {w : Workspace} {n : Node}
    (h : new w.schema w.serial = .ok n) :
    outcome (place new) w = (.ok n, if n.isNamed then w else { w with serial := w.serial + 1 }) := by
  show outcome (liftM (new w.schema w.serial) >>= _ : Build Node) w = _
  rw [outcome_bind_eq, h]
  show outcome (if n.isNamed = true then pure n else set { w with serial := w.serial + 1 } >>= fun _ => pure n) w = _
  cases n.isNamed <;> rfl

namespace Renumbers

/-- Computations in a row renumber if each of them does, the later ones for every result of the earlier. -/
theorem bind {f : α → β} {g : γ → δ} {b : Build α} {b' : Build β} {next : α → Build γ} {next' : β → Build δ}
    (hb : Renumbers k m f b b') (hn : ∀ a, Renumbers k m g (next a) (next' (f a))) :
    Renumbers k m g (b >>= next) (b' >>= next') := by
  intro w
  cases hb w with
  | @fails e v v' h h' =>
    have hw : outcome (b >>= next) w = (.error e, v) := by rw [outcome_bind_eq, h]
    have hw' : outcome (b' >>= next') (w.ahead k m) = (.error e, v') := by rw [outcome_bind_eq, h']
    exact .fails hw hw'
  | @gives a v h h' hs =>
    have hw : outcome (b >>= next) w = outcome (next a) v := by rw [outcome_bind_eq, h]
    have hw' : outcome (b' >>= next') (w.ahead k m) = outcome (next' (f a)) (v.ahead k m) := by rw [outcome_bind_eq, h']
    cases hn a v with
    | fails h h' => exact .fails (hw.trans h) (hw'.trans h')
    | gives h h' hs' => exact .gives (hw.trans h) (hw'.trans h') (Nat.le_trans hs hs')

/-- A result that is given renumbers as the map says. -/
theorem pure (f : α → β) (a : α) : Renumbers k m f (Pure.pure a) (Pure.pure (f a)) :=
  fun w => .gives (v := w) rfl rfl (Nat.le_refl _)

/-- A failure is the same failure further on. -/
theorem throw (f : α → β) (e : Error) : Renumbers k m f (MonadExcept.throw e) (MonadExcept.throw e) := by
  intro w
  have h : outcome (MonadExcept.throw e : Build α) w = (.error e, w) := rfl
  have h' : outcome (MonadExcept.throw e : Build β) (w.ahead k m) = (.error e, w.ahead k m) := rfl
  exact .fails h h'

/-- A computation that does not touch the workspace renumbers if its results do. -/
theorem lift {f : α → β} {x : Except Error α} {y : Except Error β} (h : y = f <$> x) :
    Renumbers k m f (liftM x : Build α) (liftM y : Build β) := by
  subst h
  cases x with
  | error e => exact throw f e
  | ok a => exact pure f a

/-- What does not look at nodes does the same. -/
theorem same (x : Except Error α) : Renumbers k m id (liftM x : Build α) (liftM x : Build α) := lift (by simp)

/-- Placing a node renumbers if the node does that is made of the schema and the next number. -/
theorem place {new new' : Schema → Nat → Except Error Node}
    (h : ∀ schema serial, new' schema (serial + k) = Node.renumber k m <$> new schema serial) :
    Renumbers k m (Node.renumber k m) (Build.place new) (Build.place new') := by
  intro w
  have hw := h w.schema w.serial
  cases hn : new w.schema w.serial with
  | error e =>
    rw [hn] at hw
    exact .fails (outcome_place_error hn) (outcome_place_error hw)
  | ok n =>
    rw [hn] at hw
    have ho := outcome_place_ok hn
    have ho' := outcome_place_ok (w := w.ahead k m) hw
    rw [Node.isNamed_renumber] at ho'
    by_cases hm : n.isNamed = true
    · rw [if_pos hm] at ho ho'
      exact .gives ho ho' (Nat.le_refl _)
    · rw [if_neg hm] at ho ho'
      refine .gives ho (ho'.trans ?_) (Nat.le_succ _)
      rw [Workspace.ahead, Workspace.ahead, Nat.add_right_comm]

/-- What is made aside uses up no serial numbers on either side. -/
theorem aside {f : α → β} {b : Build α} {b' : Build β} (h : Renumbers k m f b b') :
    Renumbers k m f (Build.aside b) (Build.aside b') := by
  intro w
  have hb : ∀ {γ : Type} (x : Build γ) (u : Workspace), outcome (Build.aside x) u
      = outcome (x >>= fun a => do modify fun v => { v with serial := u.serial }; return a) u := fun x u => rfl
  cases h w with
  | @fails e v v' h h' =>
    have ho : outcome (Build.aside b) w = (.error e, v) := by rw [hb, outcome_bind_eq, h]
    have ho' : outcome (Build.aside b') (w.ahead k m) = (.error e, v') := by rw [hb, outcome_bind_eq, h']
    exact .fails ho ho'
  | @gives a v h h' hs =>
    have ho : outcome (Build.aside b) w = (.ok a, { v with serial := w.serial }) := by
      rw [hb, outcome_bind_eq, h]
      rfl
    have ho' : outcome (Build.aside b') (w.ahead k m) = (.ok (f a), ({ v with serial := w.serial } : Workspace).ahead k m) := by
      rw [hb, outcome_bind_eq, h']
      rfl
    exact .gives ho ho' (Nat.le_refl _)

/-- A listing takes the next mark, which is further on by the same distance. -/
theorem listing (names : Phrase) : Renumbers k m (Listing.renumber m) (Build.listing names) (Build.listing names) := by
  intro w
  cases names with
  | leaf s => exact .gives (v := w) rfl rfl (Nat.le_refl _)
  | list ps =>
    have ho : outcome (Build.listing (.list ps)) w = (.ok ⟨.list ps, some w.mark⟩, { w with mark := w.mark + 1 }) := rfl
    have ho' : outcome (Build.listing (.list ps)) (w.ahead k m)
        = (.ok (Listing.renumber m ⟨.list ps, some w.mark⟩), ({ w with mark := w.mark + 1 } : Workspace).ahead k m) := by
      show (Except.ok (Listing.mk (.list ps) (some (w.mark + m))), Workspace.mk w.schema (w.serial + k) (w.mark + m + 1)) = _
      rw [Workspace.ahead, Nat.add_right_comm]
      rfl
    exact .gives ho ho' (Nat.le_refl _)

/-- The workspace itself is the one whose numbers are further on. -/
theorem workspace : Renumbers k m (·.ahead k m) (get : Build Workspace) (get : Build Workspace) :=
  fun w => .gives (v := w) rfl rfl (Nat.le_refl _)

/-- A change of the schema has nothing to do with numbers. -/
theorem setSchema (schema : Schema) :
    Renumbers k m id (modify fun w => { w with schema } : Build PUnit) (modify fun w => { w with schema } : Build PUnit) :=
  fun w => .gives (v := { w with schema }) rfl rfl (Nat.le_refl _)

/-- The definition of a relation by an assignment renumbers. -/
theorem define (child : Node) (name : Phrase) (names : List Phrase) :
    Renumbers k m (Node.renumber k m) (Build.define child name names) (Build.define (child.renumber k m) name names) := by
  refine (place fun _ serial => child.newAssign_renumber (some (nameText name)) names serial).bind fun n =>
    workspace.bind fun w => ?_
  rw [Node.attributes_renumber]
  exact (same _).bind fun l => (same _).bind fun schema => (setSchema schema).bind fun _ => pure _ n

/-! ## Words -/

/-- Looking at one of the words renumbers: no number comes in. -/
theorem part (ps : List Phrase) (i : Nat) : Renumbers k m id (Build.part ps i) (Build.part ps i) := by
  unfold Build.part
  cases ps[i]? with
  | none => exact throw id _
  | some p => exact pure id p

/-- Asking for parameters renumbers: no number comes in. -/
theorem needed (params : Option Phrase) : Renumbers k m id (Build.needed params) (Build.needed params) := by
  cases params with
  | none => exact throw id _
  | some p => exact pure id p

/-- Reading a condition renumbers: no number comes in. -/
theorem condition (lex : Lexicon) (params : Phrase) :
    Renumbers k m id (Build.condition lex params) (Build.condition lex params) :=
  (part _ _).bind fun _ => same _

/-- The node of a relation name renumbers. -/
theorem relation (name : Phrase) : Renumbers k m (Node.renumber k m) (Build.relation name) (Build.relation name) := by
  cases name with
  | leaf s => exact place fun schema serial => Node.newRelation_renumber schema s serial
  | list ps => exact throw _ _

/-- The node of a projection renumbers, with its operand. -/
theorem project (origin : Origin) (child : Node) (references : List Phrase) :
    Renumbers k m (Node.renumber k m) (Build.project origin child references)
      (Build.project origin (child.renumber k m) references) := by
  unfold Build.project
  dsimp only
  split
  · exact place fun _ serial => child.newProject_renumber _ serial
  · rw [Node.attributes_renumber]
    exact (same _).bind fun _ => (same _).bind fun _ => throw _ _

/-- Reading new names renumbers: no number comes in. -/
theorem newNames (params : Phrase) : Renumbers k m id (Build.newNames params) (Build.newNames params) := by
  unfold Build.newNames
  split
  · exact throw _ _
  · exact throw _ _
  · exact pure id _
  · exact pure id _
  · exact pure id _

/-- The node of an operator with one operand renumbers, with its operand. -/
theorem unary (lex : Lexicon) (op : String) (child : Node) (params : Option Phrase) :
    Renumbers k m (Node.renumber k m) (Build.unary lex op child params) (Build.unary lex op (child.renumber k m) params) := by
  unfold Build.unary
  split
  · exact (needed _).bind fun _ => (condition _ _).bind fun c => place fun _ serial => child.newSelect_renumber c serial
  · split
    · rw [Node.attributes_renumber]
      exact (same _).bind fun _ => (needed _).bind fun _ => project _ _ _
    · split
      · exact (needed _).bind fun _ => (newNames _).bind fun ⟨name, names⟩ =>
          place fun schema serial => Node.newRename_renumber schema child name names serial
      · split
        · exact (needed _).bind fun _ => (part _ _).bind fun _ => define _ _ _
        · exact throw _ _

/-- The node of an operator with two operands renumbers, with its operands. -/
theorem binary (lex : Lexicon) (op : String) (left right : Node) (params : Option Phrase) :
    Renumbers k m (Node.renumber k m) (Build.binary lex op left right params)
      (Build.binary lex op (left.renumber k m) (right.renumber k m) params) := by
  have hjoin : ∀ j, Renumbers k m (Node.renumber k m) (Build.join j left right)
      (Build.join j (left.renumber k m) (right.renumber k m)) :=
    fun j => place fun _ serial => Node.newJoin_renumber j left right serial
  have hcombine : ∀ o, Renumbers k m (Node.renumber k m) (combine o left right)
      (combine o (left.renumber k m) (right.renumber k m)) :=
    fun o => place fun _ serial => Node.newSetOperation_renumber o left right serial
  unfold Build.binary
  split
  · exact hjoin _
  · split
    · exact hjoin _
    · split
      · exact (needed _).bind fun _ => (condition _ _).bind fun c => hjoin _
      · split
        · exact hcombine _
        · split
          · exact hcombine _
          · split
            · exact hcombine _
            · exact throw _ _

/-! ## Dependencies -/

/-- The selection on a side of a dependency renumbers. -/
theorem selection (lex : Lexicon) (params name : Phrase) :
    Renumbers k m (Node.renumber k m) (Build.selection lex params name) (Build.selection lex params name) :=
  (condition _ _).bind fun c => (relation _).bind fun base => place fun _ serial => base.newSelect_renumber c serial

/-- A side of a dependency renumbers, be it a relation or a selection from one. -/
theorem side (lex : Lexicon) (expr : Phrase) :
    Renumbers k m (Node.renumber k m) (Build.side lex expr) (Build.side lex expr) := by
  unfold Build.side
  split
  · exact relation _
  · exact relation _
  · exact (part _ _).bind fun _ => (part _ _).bind fun _ => selection _ _ _

/-- The node of a key renumbers, and so do the marks of its listings. -/
theorem primaryKey (parts : List Phrase) :
    Renumbers k m (Node.renumber k m) (Build.primaryKey parts) (Build.primaryKey parts) :=
  (part _ _).bind fun attributes => (part _ _).bind fun relation => (listing relation).bind fun r =>
    (listing attributes).bind fun a => pure (Node.renumber k m) (.primaryKey r a)

/-- The node of a dependency between two attributes renumbers, with its side. -/
theorem pair (lex : Lexicon) (kind : PairDependency) (parts : List Phrase) :
    Renumbers k m (Node.renumber k m) (Build.pair lex kind parts) (Build.pair lex kind parts) := by
  unfold Build.pair
  refine (part _ _).bind fun attributes => ?_
  have hpair : ∀ name child, Renumbers k m (Node.renumber k m)
      (do return .pair kind (← Build.listing name) (← Build.listing attributes) child : Build Node)
      (do return .pair kind (← Build.listing name) (← Build.listing attributes) (child.renumber k m) : Build Node) :=
    fun name child => (listing name).bind fun r => (listing attributes).bind fun a =>
      pure (Node.renumber k m) (.pair kind r a child)
  dsimp only [id]
  split
  · exact (part _ _).bind fun name => (relation _).bind fun child => hpair name child
  · exact (part _ _).bind fun params => (part _ _).bind fun name => (selection _ _ _).bind fun child => hpair name child

/-- The node of an inclusion renumbers, with both sides. -/
theorem inclusion (lex : Lexicon) (kind : Inclusion) (parts : List Phrase) :
    Renumbers k m (Node.renumber k m) (Build.inclusion lex kind parts) (Build.inclusion lex kind parts) := by
  unfold Build.inclusion
  refine (part _ _).bind fun attributes => (part _ _).bind fun sides => (part _ _).bind fun left => ?_
  cases left with
  | leaf s =>
    exact (relation _).bind fun l => (part _ _).bind fun _ => (relation _).bind fun r => (listing _).bind fun names =>
      (listing _).bind fun a => pure (Node.renumber k m) (.inclusion kind names a l r)
  | list ps =>
    refine (part _ _).bind fun right => (side _ _).bind fun l => (side _ _).bind fun r => ?_
    simp only [Node.name_renumber]
    exact (listing _).bind fun a => pure (Node.renumber k m) (.inclusion kind (.handed _) a l r)

/-- Whatever dependency the words state, its node renumbers. -/
theorem dependency (lex : Lexicon) (parts : List Phrase) :
    Renumbers k m (Node.renumber k m) (Build.dependency lex parts) (Build.dependency lex parts) := by
  refine aside ((part _ _).bind fun op => ?_)
  dsimp only [id]
  split
  · exact primaryKey _
  · split
    · exact pair _ _ _
    · split
      · exact pair _ _ _
      · split
        · exact inclusion _ _ _
        · split
          · exact inclusion _ _ _
          · exact throw _ _

/-! ## Nodes and statements -/

/-- The node of a list of words renumbers, by induction along the words as the node is made of them. -/
theorem node (level : Level) (lex : Lexicon) (assigns : String → Bool) (parts : List Phrase) :
    Renumbers k m (Node.renumber k m) (Build.node level lex assigns parts) (Build.node level lex assigns parts) := by
  -- The lists of words that a node is made of are lighter than its own.
  induction h : Phrase.weightAll parts using Nat.strongRecOn generalizing assigns parts with
  | ind n ih =>
    subst h
    rw [Build.node.eq_def]
    refine (same _).bind fun dep => ?_
    dsimp only [id]
    split
    · exact dependency _ _
    · split
      · exact throw _ _
      · exact relation _
      · rename_i inner
        exact ih _ (by simp only [Phrase.weightAll, Phrase.weight]; omega) _ _ rfl
      · rename_i first second rest
        have hrest : Phrase.weightAll rest < Phrase.weightAll (first :: second :: rest) := by
          have := Phrase.weight_pos first
          simp only [Phrase.weightAll]
          omega
        refine (same _).bind fun unary? => ?_
        dsimp only [id]
        split
        · exact (ih _ hrest _ _ rfl).bind fun child => unary _ _ _ _
        · split
          · exact (ih _ hrest _ _ rfl).bind fun child => unary _ _ _ _
          · refine (same _).bind fun binary? => ?_
            dsimp only [id]
            split
            · split
              · exact throw _ _
              · rename_i o ho
                obtain ⟨hl, hr⟩ := weight_lastOperation ho
                exact (ih _ hl _ _ rfl).bind fun l => (ih _ hr _ _ rfl).bind fun r => binary _ _ _ _ _
            · exact throw _ _

/-- The node of a statement renumbers. -/
theorem statement (level : Level) (lex : Lexicon) (s : Surface.Statement) :
    Renumbers k m (Node.renumber k m) (Build.statement level lex s) (Build.statement level lex s) := by
  unfold Build.statement
  split
  · exact (same _).bind fun _ => (node _ _ _ _).bind fun child => unary _ _ _ _
  · exact node _ _ _ _

/-- Statements make the same nodes wherever the counters are, under numbers that are further on. -/
theorem nodes (level : Level) (lex : Lexicon) (ss : List Surface.Statement) :
    Renumbers k m (List.map (Node.renumber k m)) (Build.nodes level lex ss) (Build.nodes level lex ss) := by
  induction ss with
  | nil => exact pure (List.map (Node.renumber k m)) []
  | cons s ss ih =>
    exact (statement level lex s).bind fun n => ih.bind fun ns => pure (List.map (Node.renumber k m)) (n :: ns)

end Renumbers

end Build

end RelAlg
