import RelAlg.Proofs.Compose
import RelAlg.Proofs.Declared
import RelAlg.Proofs.Outcome
import RelAlg.Proofs.Sql.Semantics

/-!
# Programs with dependencies

A program of the dependency language is a row of items, each a dependency or a statement of the algebra, and each with a
terminator behind it (`WritesAll`). Which of the two an item is depends on how it was written, even where a relation has the name
of a dependency: `Item.Makes` says which nodes a row of items has over a schema, and `Item.sqlTexts` which SQL an item has beside
its node. Main statement: the dependency language accepts exactly the programs of items, and makes their nodes and their SQL in
order (`forest_of_items`).
-/

namespace RelAlg

open Cursor Reader Surface Build

/-! ## Items -/

/-- A statement of the dependency language as it is meant. -/
inductive Item where
  | dependency (d : Dependency)
  | algebra (s : Statement)

namespace Item

/-- The item is a dependency. -/
def isDependency : Item → Bool
  | dependency _ => true
  | algebra _ => false

/-- The text starts with the item and its terminator: with a dependency, or with what is read as a statement of the algebra. -/
inductive Writes : Item → List Char → List Char → Prop where
  | dependency {d : Dependency} {text next rest : List Char} (h : d.Writes text next) (he : Marked .terminator next rest) :
      Writes (.dependency d) text rest
  | algebra {s : Statement} {text rest : List Char}
      (h : (Statement.reader .extended .standard).Leaves (Cursor.start text) s rest) : Writes (.algebra s) text rest

/-- The text is the items one after the other. -/
inductive WritesAll : List Item → List Char → Prop where
  | nil {text : List Char} (h : text.all isBlank = true) : WritesAll [] text
  | cons {item : Item} {items : List Item} {text rest : List Char} (h : item.Writes text rest) (hs : WritesAll items rest) :
      WritesAll (item :: items) text

end Item

/-- The statement stands for the item. -/
inductive Surface.Statement.Means : Statement → Item → Prop where
  | declare {x : Declaration} {d : Dependency} (h : x.States d) : Means (.declare x) (.dependency d)
  | algebra {s : Statement} (h : s.isAlgebra = true) (hw : s.IsWritten .extended) : Means s (.algebra s)

/-! ## Reading -/

/-- The dependency language reads the algebraic statements of the extended language. -/
theorem algebraReader_dependency :
    Statement.algebraReader .dependency .standard = Statement.reader .extended .standard := by
  have he : Expression.reader .dependency .standard = Expression.reader .extended .standard := Expression.reader_congr rfl
  show _ = Statement.algebraReader .extended .standard
  unfold Statement.algebraReader Statement.assignReader Statement.queryReader
  rw [he]

/-- A statement that was read ends with its terminator. -/
theorem before_of_statement {level : Level} {s : Statement} {c c' : Cursor}
    (h : Statement.reader level .standard c = some (s, c')) : c'.before = some ';' := by
  have hself : Extended [] c c := ⟨(List.append_nil _).symm, rfl, .refl _⟩
  obtain ⟨d, hd, -, hb⟩ := hself.statement h
  rw [h] at hd
  cases hd
  exact hb

/-- A statement of the algebra is read behind a terminator as at the start of a text. -/
theorem leaves_statement_iff {c : Cursor} (hb : SameEdge c.before none) {s : Statement} {rest : List Char} :
    (Statement.reader .extended .standard).Leaves c s rest ↔
      (Statement.reader .extended .standard).Leaves (Cursor.start c.rest) s rest :=
  leaves_iff_of_abreast (TokenFrame.statement .extended terminator_same) (fun _ _ h => h.text.1) (abreast_start hb)

/-- A declaration is read just where a dependency and a terminator are written. -/
theorem realizes_declare : (Statement.declareReader .dependency .standard).Realizes Statement.Means fun item text rest =>
    ∃ d, item = .dependency d ∧ ∃ next, d.Writes text next ∧ Marked .terminator next rest := by
  have hstated := realizes_declaration.bind fun x d hd =>
    Realizes.pure (M := Statement.Means) (a := .declare x) (b := .dependency d) (.declare hd)
  refine (hstated.bind fun s item hs => (realizes_mark .terminator).bind fun _ _ _ => .pure hs).congr fun item text rest => ?_
  constructor
  · rintro ⟨_, _, ⟨d, next, hd, rfl, rfl⟩, -, _, hm, rfl, rfl⟩
    exact ⟨d, rfl, _, hd, hm⟩
  · rintro ⟨d, rfl, next, hd, hm⟩
    exact ⟨_, next, ⟨d, next, hd, rfl, rfl⟩, (), rest, hm, rfl, rfl⟩

/-- No dependency is read where a statement of the algebra is written. -/
theorem declareReader_of_algebra {c : Cursor} {r : Statement × Cursor} (h : Statement.reader .extended .standard c = some r) :
    Statement.declareReader .dependency .standard c = none := by
  cases hd : Statement.declareReader .dependency .standard c with
  | none => rfl
  | some x =>
    obtain ⟨s, d, hs, -⟩ := bind_eq_some hd
    obtain ⟨declaration, e, he, -⟩ := bind_eq_some hs
    have hn : Statement.algebraReader .dependency .standard c = none := Statement.algebraReader_of_declaration he
    rw [algebraReader_dependency, h] at hn
    cases hn

/-- Where an item is written, a statement is read that stands for it. -/
theorem Item.Writes.leaves {item : Item} {c : Cursor} {rest : List Char} (hb : SameEdge c.before none)
    (h : item.Writes c.rest rest) : ∃ s, (Statement.reader .dependency .standard).Leaves c s rest ∧ s.Means item := by
  generalize ht : c.rest = text at h
  cases h with
  | dependency hd he =>
    subst ht
    obtain ⟨s, ⟨c', hs, hr⟩, hm⟩ := realizes_declare.reads ⟨_, rfl, _, hd, he⟩
    exact ⟨s, ⟨c', orElse_of_some hs, hr⟩, hm⟩
  | @algebra s _ _ hs =>
    subst ht
    obtain ⟨c', hs, hr⟩ := (leaves_statement_iff hb).mpr hs
    -- dependencies are tried first, even where a relation is named like one
    refine ⟨s, ⟨c', (orElse_of_none (declareReader_of_algebra hs)).trans ?_, hr⟩,
      .algebra (gives_isAlgebra rfl _ _ _ hs) (gives_statement .extended _ _ _ hs)⟩
    rw [algebraReader_dependency, hs]

/-- A statement that is read stands for an item that is written there. -/
theorem exists_item_of_reader {s : Statement} {c c' : Cursor} (hb : SameEdge c.before none)
    (h : Statement.reader .dependency .standard c = some (s, c')) : ∃ item : Item, s.Means item ∧ item.Writes c.rest c'.rest := by
  rcases orElse_eq_some h with h | ⟨-, h⟩
  · obtain ⟨_, hm, d, rfl, next, hd, he⟩ := realizes_declare.finds ⟨c', h, rfl⟩
    exact ⟨_, hm, .dependency hd he⟩
  · rw [algebraReader_dependency] at h
    exact ⟨.algebra s, .algebra (gives_isAlgebra rfl _ _ _ h) (gives_statement .extended _ _ _ h),
      .algebra ((leaves_statement_iff hb).mp ⟨c', h, rfl⟩)⟩

/-- Behind a statement a keyword may stand as at the start of a text. -/
theorem sameEdge_of_statement {level : Level} {s : Statement} {c c' : Cursor}
    (h : Statement.reader level .standard c = some (s, c')) : SameEdge c'.before none :=
  before_of_statement h ▸ sameEdge_none (.inl rfl)

/-- Items that are written are read one after the other. -/
theorem Item.WritesAll.runs {items : List Item} {c : Cursor} (hb : SameEdge c.before none) (h : WritesAll items c.rest) :
    ∃ ss c', Runs (Statement.reader .dependency .standard) c ss c' ∧ c'.ahead = [] ∧ List.Forall₂ Statement.Means ss items := by
  generalize ht : c.rest = text at h
  induction h generalizing c with
  | nil hblank => exact ⟨[], c, .nil c, ahead_of_blanks (ht ▸ hblank), .nil⟩
  | cons h _ ih =>
    subst ht
    obtain ⟨s, ⟨d, hs, rfl⟩, hm⟩ := h.leaves hb
    obtain ⟨ss, c', hruns, hend, hall⟩ := ih (sameEdge_of_statement hs) rfl
    exact ⟨s :: ss, c', .cons hs (advances_statement _ _ _ hs).2 hruns, hend, .cons hm hall⟩

/-- Statements that are read up to the end stand for items that are written. -/
theorem exists_items_of_runs {ss : List Statement} {c c' : Cursor} (hb : SameEdge c.before none)
    (h : Runs (Statement.reader .dependency .standard) c ss c') (hend : c'.ahead = []) :
    ∃ items, List.Forall₂ Statement.Means ss items ∧ Item.WritesAll items c.rest := by
  induction h with
  | nil c => exact ⟨[], .nil, .nil ((ahead_eq_nil_iff c).mp hend)⟩
  | cons hs _ _ ih =>
    obtain ⟨item, hm, hw⟩ := exists_item_of_reader hb hs
    obtain ⟨items, hall, hws⟩ := ih (sameEdge_of_statement hs) hend
    exact ⟨item :: items, .cons hm hall, .cons hw hws⟩

/-- The text writes the items of a program, of which there is one or more. -/
def Item.Program (items : List Item) (text : String) : Prop := items ≠ [] ∧ WritesAll items (Text.expandTabs text.toList)

/-- The text of a program is read as statements that stand for its items. -/
theorem Item.Program.parse {items : List Item} {text : String} (h : Program items text) :
    ∃ ss, parse .dependency .standard text = .ok ss ∧ List.Forall₂ Statement.Means ss items := by
  obtain ⟨hn, hw⟩ := h
  obtain ⟨ss, c', hruns, hend, hall⟩ := Item.WritesAll.runs (c := Cursor.start (Text.expandTabs text.toList)) (.refl _) hw
  refine ⟨ss, parse_of_runs ?_ hruns hend, hall⟩
  rintro rfl
  cases hall
  exact hn rfl

/-- The statements of a text stand for the items of a program that it writes. -/
theorem exists_program_of_parse {text : String} {ss : List Statement} (h : parse .dependency .standard text = .ok ss) :
    ∃ items, Item.Program items text ∧ List.Forall₂ Statement.Means ss items := by
  obtain ⟨hn, c', hruns, hend⟩ := runs_of_parse h
  obtain ⟨items, hall, hw⟩ := exists_items_of_runs (.refl _) hruns hend
  refine ⟨items, ⟨?_, hw⟩, hall⟩
  rintro rfl
  cases hall
  exact hn rfl

/-! ## Nodes -/

/-- Make the node of the item. -/
def Item.build : Item → Build Node
  | dependency d => d.build
  | algebra s => statement .extended .standard s

/-- A statement makes the node of the item it stands for. -/
theorem Surface.Statement.Means.statement_eq {s : Statement} {item : Item} (h : s.Means item) :
    statement .dependency .standard s = item.build := by
  cases h with
  | declare h => exact statement_of_states .dependency h
  | algebra _ hw => exact statement_of_includes rfl hw

/-- Statements make the nodes of the items they stand for, one after the other. -/
theorem nodes_of_means {ss : List Statement} {items : List Item} (h : List.Forall₂ Statement.Means ss items) :
    nodes .dependency .standard ss = items.mapM Item.build := by
  induction h with
  | nil => rfl
  | cons h _ ih => rw [nodes, List.mapM_cons, h.statement_eq, ih]

/-- The nodes of items over a schema, which every assignment extends; the next dependency takes the mark. A statement of the
algebra has the node that is made of it over the schema, with some number taken before it. -/
inductive Item.Makes : Schema → Nat → List Item → List Node → Prop where
  | nil (schema : Schema) (mark : Nat) : Makes schema mark [] []
  | dependency {schema : Schema} {mark : Nat} {d : Dependency} {n : Node} {items : List Item} {ns : List Node}
      (h : d.node schema mark = .ok n) (hs : Makes schema (mark + 1) items ns) :
      Makes schema mark (.dependency d :: items) (n :: ns)
  | algebra {schema : Schema} {mark serial : Nat} {s : Statement} {n : Node} {items : List Item} {ns : List Node}
      (hn : ((statement .extended .standard s).attempt ⟨schema, serial, mark⟩).1 = .ok n) (h : n.isDeclaration = false)
      (hs : Makes (schema ++ n.added?.toList) mark items ns) :
      Makes schema mark (.algebra s :: items) (n :: ns)

/-- Statements that stand for items make the nodes of the items. -/
theorem makes_of_means {ss : List Statement} {items : List Item} (h : List.Forall₂ Statement.Means ss items) {w v : Workspace}
    {ns : List Node} (hw : w.schema.IsSmall) (hn : outcome (nodes .dependency .standard ss) w = (.ok ns, v)) :
    Item.Makes w.schema w.mark items ns := by
  induction h generalizing w ns with
  | nil =>
    cases hn
    exact .nil _ _
  | @cons s item ss items h _ ih =>
    obtain ⟨n, u, hs, hn⟩ := outcome_bind hn
    obtain ⟨ms, v', hm, hn⟩ := outcome_bind hn
    cases hn
    cases h with
    | @declare x d hd =>
      obtain ⟨hnode, rfl⟩ := node_of_states hd hs
      exact .dependency hnode (ih (w := { w with mark := w.mark + 1 }) hw hm)
    | algebra ha hwritten =>
      rw [statement_of_includes (a := .extended) rfl hwritten] at hs
      obtain ⟨hstated, -⟩ := stated_of_statement hwritten hs
      obtain ⟨hmark, hdecl⟩ := mark_of_statement hwritten hs
      obtain ⟨hschema, hsmall, -⟩ := hstated.schema_eq hw
      rw [ha] at hdecl
      have hrest := ih hsmall hm
      rw [hmark, hdecl, hschema] at hrest
      have hmade : ((statement .extended .standard s).attempt w).1 = .ok n := by rw [attempt_fst, hs]
      exact .algebra hmade hdecl hrest

/-- The dependencies among the items, and nothing else, have nodes that state one. -/
theorem Item.Makes.isDeclaration_eq {schema : Schema} {mark : Nat} {items : List Item} {ns : List Node}
    (h : Makes schema mark items ns) : ns.map Node.isDeclaration = items.map Item.isDependency := by
  induction h with
  | nil => rfl
  | dependency h _ ih => rw [List.map_cons, List.map_cons, ih, Dependency.isDeclaration_of_node h, isDependency]
  | algebra _ h _ ih => rw [List.map_cons, List.map_cons, ih, h, isDependency]

/-! ## SQL -/

/-- The SQL statements of a dependency: only a key has one. -/
def Dependency.sqlTexts : Dependency → List String
  | key attributes relation => ["ALTER TABLE " ++ relation ++ " ADD PRIMARY KEY (" ++ ", ".intercalate attributes ++ ")"]
  | pair .. | inclusion .. => []

/-- The SQL statements of an item whose node is `n`. -/
def Item.sqlTexts (semantics : Sql.Semantics) (n : Node) : Item → Except Error (List String)
  | dependency d => .ok d.sqlTexts
  | algebra _ => Node.sqlTexts semantics [n]

/-- The SQL of nodes is that of the first and then that of the others. -/
theorem Node.sqlTexts_cons (semantics : Sql.Semantics) (n : Node) (ns : List Node) :
    Node.sqlTexts semantics (n :: ns) = do
      let ts ← Node.sqlTexts semantics [n]
      let us ← Node.sqlTexts semantics ns
      return ts ++ us := by
  simp only [Node.sqlTexts, bind, Except.bind]
  cases n.query with
  | error e => rfl
  | ok q => cases Node.sqlTexts semantics ns <;> simp [pure, Except.pure]

/-- A key changes its table. -/
theorem alterText_key (table attributes : String) : Sql.alterText table "ADD PRIMARY KEY" attributes
    = "ALTER TABLE " ++ table ++ " ADD PRIMARY KEY (" ++ attributes ++ ")" := by
  have hassoc : ∀ s t u v x y : String, s ++ t ++ u ++ v ++ x ++ y = s ++ t ++ (u ++ v ++ x) ++ y := by
    simp only [String.append_assoc, implies_true]
  have haction : " " ++ "ADD PRIMARY KEY" ++ " (" = " ADD PRIMARY KEY (" := by decide
  refine congrArg (· ++ ")") ((hassoc _ _ _ _ _ _).trans ?_)
  exact congrArg (fun action => "ALTER TABLE " ++ table ++ action ++ attributes) haction

/-- The node of a dependency has the SQL of the dependency. -/
theorem Dependency.sqlTexts_of_node {d : Dependency} {schema : Schema} {mark : Nat} {n : Node}
    (h : d.node schema mark = .ok n) (semantics : Sql.Semantics) : Node.sqlTexts semantics [n] = .ok d.sqlTexts := by
  cases d with
  | key attributes relation =>
    cases h
    have hlist := Listing.sqlText_of_words (l := ⟨Phrase.words attributes, some mark⟩) rfl
    have hquery : (Node.primaryKey (.handed (.word relation)) ⟨Phrase.words attributes, some mark⟩).query
        = .ok (some (.alter relation "ADD PRIMARY KEY" (", ".intercalate attributes))) := by
      rw [Node.query, hlist]
      rfl
    rw [sqlTexts, ← alterText_key, Node.sqlTexts, hquery]
    rfl
  | pair =>
    obtain ⟨_, -, h⟩ := exists_ok_of_bind h
    cases h
    rfl
  | inclusion =>
    obtain ⟨_, -, h⟩ := exists_ok_of_bind h
    obtain ⟨_, -, h⟩ := exists_ok_of_bind h
    cases h
    rfl

/-- The SQL statements of items are those of the single items, in order. -/
theorem Item.Makes.sqlTexts {schema : Schema} {mark : Nat} {items : List Item} {ns : List Node}
    (h : Makes schema mark items ns) (semantics : Sql.Semantics) (hq : ∀ n ∈ ns, ∃ q, n.query = .ok q) :
    ∃ texts, Node.sqlTexts semantics ns = .ok texts.flatten ∧
      List.Forall₂ (fun (p : Item × Node) ts => p.1.sqlTexts semantics p.2 = .ok ts) (items.zip ns) texts := by
  induction h with
  | nil => exact ⟨[], rfl, .nil⟩
  | dependency h _ ih =>
    obtain ⟨texts, ht, hall⟩ := ih fun n hn => hq n (List.mem_cons_of_mem _ hn)
    refine ⟨_ :: texts, ?_, .cons rfl hall⟩
    rw [Node.sqlTexts_cons, ht, Dependency.sqlTexts_of_node h]
    rfl
  | @algebra _ _ _ _ n _ _ _ _ _ ih =>
    obtain ⟨texts, ht, hall⟩ := ih fun n hn => hq n (List.mem_cons_of_mem _ hn)
    have hsingle : ∀ m ∈ [n], ∃ q, m.query = .ok q := List.forall_mem_singleton.mpr (hq n List.mem_cons_self)
    obtain ⟨ts, hts⟩ := Node.exists_sqlTexts semantics hsingle
    refine ⟨ts :: texts, ?_, .cons hts hall⟩
    rw [Node.sqlTexts_cons, ht, hts]
    rfl

/-- The dependency language accepts exactly the texts that write one or more items, each a dependency or a statement of the
algebra, where the condition of a selection may be laid out in any way. Such a text makes the nodes of its items one after the
other, over the schema with the relations that were assigned before, and fails where the first of them cannot be made: a
dependency makes the node of what was written, and everything else a node of the algebra. Its SQL is that of the items in
order: a change of a table for a key, nothing for the other dependencies, and for a statement of the algebra what its node
has. -/
theorem forest_of_items (definition : List (String × List String)) (text : String) :
    ((∃ ps, Dialect.phrases ⟨.dependency, .standard⟩ text = .ok ps) ↔ ∃ items, Item.Program items text) ∧
    (∀ (c : Condition) (ws : List Lexeme) (layout rest : List Char), c.Writes 1 ws → Laid ws layout →
      Braced c.Reads ("_\x7b".toList ++ (layout ++ '\x7d' :: rest)) rest) ∧
    ∀ items, Item.Program items text →
      Dialect.forest ⟨.dependency, .standard⟩ (.ofDefinition definition) text
        = ((items.mapM Item.build).attempt (.start (.ofDefinition definition))).1 ∧
      ∀ ns, Dialect.forest ⟨.dependency, .standard⟩ (.ofDefinition definition) text = .ok ns →
        Item.Makes (.ofDefinition definition) 0 items ns ∧ ns.map Node.isDeclaration = items.map Item.isDependency ∧
        ∀ semantics, ∃ texts,
          Dialect.sql ⟨.dependency, .standard⟩ semantics (.ofDefinition definition) text = .ok texts.flatten ∧
          List.Forall₂ (fun (p : Item × Node) ts => p.1.sqlTexts semantics p.2 = .ok ts) (items.zip ns) texts := by
  refine ⟨⟨?_, ?_⟩, fun c ws layout rest hw hl => hw.braced hl rest, fun items hitems => ?_⟩
  · rintro ⟨ps, hp⟩
    obtain ⟨-, ss, hs, -⟩ := Dialect.phrases_eq_ok_iff.mp hp
    obtain ⟨items, hitems, -⟩ := exists_program_of_parse hs
    exact ⟨items, hitems⟩
  · rintro ⟨items, hitems⟩
    obtain ⟨ss, hs, -⟩ := hitems.parse
    exact ⟨_, Dialect.phrases_eq_ok_iff.mpr ⟨rfl, ss, hs, rfl⟩⟩
  · obtain ⟨ss, hs, hall⟩ := hitems.parse
    have hforest : Dialect.forest ⟨.dependency, .standard⟩ (.ofDefinition definition) text
        = (outcome (nodes .dependency .standard ss) (.start (.ofDefinition definition))).1 := forest_of_parse hs
    refine ⟨?_, fun ns hn => ?_⟩
    · rw [hforest, attempt_fst, nodes_of_means hall]
    · have hmakes : Item.Makes (.ofDefinition definition) 0 items ns :=
        makes_of_means hall (Schema.isSmall_ofDefinition definition) (Prod.ext (hforest.symm.trans hn) rfl)
      refine ⟨hmakes, hmakes.isDeclaration_eq, fun semantics => ?_⟩
      have hchain : Chain (.ofDefinition definition) ns := chain_of_forest hn
      obtain ⟨texts, ht, hforall⟩ := hmakes.sqlTexts semantics fun n hmem => by
        obtain ⟨_, _, hstated⟩ := hchain.stated_of_mem n hmem
        exact hstated.query_ok
      refine ⟨texts, ?_, hforall⟩
      rw [Dialect.sql, hn]
      exact ht

/-- A relation is named like the word of a key, and a literal holds a terminator. -/
def keyedText : String :=
  "pk_\x7ba, B\x7d R; pk := \\project_\x7ba\x7d r; fd_\x7ba, b\x7d\\select_\x7ba = 'x;y'\x7d r;\n" ++
    "inc=_\x7ba, b\x7d (r, \\select_\x7ba > 1\x7d pk); pk \\union pk;"

/-- The SQL of the text, whose first, third and fourth items are dependencies. -/
def keyedSql : List String :=
  ["ALTER TABLE r ADD PRIMARY KEY (a, b)", "CREATE TEMPORARY TABLE pk(a) AS SELECT r.a FROM r",
    "SELECT a FROM (SELECT pk.a FROM pk UNION ALL SELECT pk.a FROM pk) AS _#1"]

theorem forest_of_keyedText : ∃ items ns, Item.Program items keyedText ∧
    Dialect.forest ⟨.dependency, .standard⟩ (.ofDefinition [("R", ["A", "b"])]) keyedText = .ok ns ∧
    Item.Makes (.ofDefinition [("R", ["A", "b"])]) 0 items ns ∧ items.map Item.isDependency = [true, false, true, true, false] ∧
    Dialect.sql ⟨.dependency, .standard⟩ .bag (.ofDefinition [("R", ["A", "b"])]) keyedText = .ok keyedSql := by
  obtain ⟨ns, hn, hp⟩ := exists_ok_of_any (p := fun ns => decide (ns.map Node.isDeclaration = [true, false, true, true, false]) &&
      (Node.sqlTexts .bag ns).toOption.any (· = keyedSql))
    (x := Dialect.forest ⟨.dependency, .standard⟩ (.ofDefinition [("R", ["A", "b"])]) keyedText) (by decide +kernel)
  rw [Bool.and_eq_true, decide_eq_true_eq] at hp
  obtain ⟨hd, hq⟩ := hp
  obtain ⟨texts, ht, hs⟩ := exists_ok_of_any hq
  obtain ⟨ss, w, hparse, -⟩ : ∃ ss w, parse .dependency .standard keyedText = .ok ss ∧
      outcome (nodes .dependency .standard ss) (.start (.ofDefinition [("R", ["A", "b"])])) = (.ok ns, w) := nodes_of_forest hn
  obtain ⟨haccepted, -, hall⟩ := forest_of_items [("R", ["A", "b"])] keyedText
  obtain ⟨items, hitems⟩ := haccepted.mp ⟨_, Dialect.phrases_eq_ok_iff.mpr ⟨rfl, ss, hparse, rfl⟩⟩
  obtain ⟨hmakes, heq, -⟩ := (hall items hitems).2 ns hn
  refine ⟨items, ns, hitems, hn, hmakes, heq ▸ hd, ?_⟩
  rw [Dialect.sql, hn]
  exact ht.trans (congrArg _ (of_decide_eq_true hs))

end RelAlg
