import RelAlg.Proofs.Made
import RelAlg.Proofs.Reader.Append

/-!
# What conditions compare

The conditions of a tree compare the operands that were written: no text is added to them, dropped or moved on the way from a
statement to its node (`compared_of_statement`). A text without quotes writes words only, so nothing but words is compared in
the trees that are made of it (`isWord_of_forest`).
-/

namespace RelAlg

open Cursor Reader Surface Build

/-! ## Operands of conditions -/

/-- The operands of a condition from left to right. -/
def Condition.operands : Condition → List String
  | operand text => [text]
  | unary _ child => child.operands
  | binary _ left right => left.operands ++ right.operands

/-- The operands of the condition of a join, if it has one. -/
def Join.operands : Join → List String
  | cross | natural => []
  | conditional _ condition => condition.operands

/-- The operands of the conditions of a term. -/
def Term.compared : Term → List String
  | relation _ => []
  | select condition operand => condition.operands ++ operand.compared
  | project _ operand | rename _ operand => operand.compared
  | join op left right => left.compared ++ (op.operands ++ right.compared)
  | combine _ left right => left.compared ++ right.compared

/-- The operands of the conditions of a node; a dependency asks for nothing. -/
def Node.compared : Node → List String
  | select _ condition child => condition.operands ++ child.compared
  | project _ child | rename _ child | assign _ child => child.compared
  | join _ op left right => left.compared ++ (op.operands ++ right.compared)
  | setOperation _ _ left right => left.compared ++ right.compared
  | relation _ | primaryKey .. | pair .. | inclusion .. | bare _ => []

/-- A dependency compares nothing. -/
theorem Node.IsDeclared.compared_eq {schema : Schema} {n : Node} (h : n.IsDeclared schema) : n.compared = [] := by
  obtain ⟨_, _, rfl⟩ | ⟨_, _, _, _, rfl, -⟩ | ⟨_, _, _, _, _, rfl, -⟩ := h.cases <;> rfl

/-! ## From a clause to its condition -/

namespace Condition

variable {c : Condition} {op left body right : Phrase}

/-- A condition that is read from two phrases is one connective over the condition of the second. -/
theorem ofPhrase_pair (h : ofPhrase .read .standard (.list [op, body]) = .ok c) :
    ∃ k child, ofPhrase .read .standard body = .ok child ∧ c = unary k child := by
  unfold ofPhrase at h
  obtain ⟨child, hb, h⟩ := exists_ok_of_bind h
  obtain ⟨k, -, h⟩ := exists_ok_of_bind h
  cases h
  exact ⟨k, child, hb, rfl⟩

/-- A condition that is read from three phrases is one connective between those of the first and of the last. -/
theorem ofPhrase_triple (h : ofPhrase .read .standard (.list [left, op, right]) = .ok c) :
    ∃ k l r, ofPhrase .read .standard left = .ok l ∧ ofPhrase .read .standard right = .ok r ∧ c = binary k l r := by
  unfold ofPhrase at h
  obtain ⟨l, hl, h⟩ := exists_ok_of_bind h
  obtain ⟨r, hr, h⟩ := exists_ok_of_bind h
  obtain ⟨k, -, h⟩ := exists_ok_of_bind h
  cases h
  exact ⟨k, l, r, hl, hr, rfl⟩

end Condition

/-- A condition has the operands of the clause that stands for it. -/
theorem Surface.Clause.Denotes.operands_eq {clause : Clause} {c : Condition} (h : clause.Denotes c) :
    c.operands = clause.operands.map Operand.text := by
  induction clause generalizing c with
  | compare left op right =>
    obtain ⟨k, l, r, hl, hr, rfl⟩ := Condition.ofPhrase_triple h
    cases hl
    cases hr
    rfl
  | defined op operand =>
    obtain ⟨k, child, hc, rfl⟩ := Condition.ofPhrase_pair h
    cases hc
    rfl
  | negate op body ih =>
    obtain ⟨k, child, hc, rfl⟩ := Condition.ofPhrase_pair h
    exact ih (c := child) hc
  | link left op right ihl ihr =>
    obtain ⟨k, l, r, hl, hr, rfl⟩ := Condition.ofPhrase_triple h
    rw [Condition.operands, Clause.operands, List.map_append, ihl hl, ihr hr]

/-! ## From an expression to its term -/

namespace Surface

/-- An operator with one operand compares the operands of its condition, before those under it. -/
theorem UnaryOp.Denotes.compared_eq {op : UnaryOp} {f : Term → Term} (h : op.Denotes f) (t : Term) :
    (f t).compared = op.operands.map Operand.text ++ t.compared := by
  cases h with
  | project | rename => rfl
  | select h => rw [Term.compared, UnaryOp.operands, h.operands_eq]

/-- An operator with two operands compares those of its condition between those of its two sides. -/
theorem BinaryOp.Denotes.compared_eq {level : Level} {op : BinaryOp} {f : Term → Term → Term} (h : op.Denotes level f)
    (t u : Term) : (f t u).compared = t.compared ++ (op.operands.map Operand.text ++ u.compared) := by
  cases h with
  | conditioned _ _ h => rw [Term.compared, Join.operands, BinaryOp.operands, h.operands_eq]
  | _ => rfl

mutual

/-- A term compares what the expression that stands for it writes. -/
theorem Expression.Denotes.compared_eq {level : Level} : (e : Expression) → {t : Term} → e.Denotes level t →
    t.compared = e.operands.map Operand.text
  | .relation name, _, h => by
    cases h
    rfl
  | .unary op e, _, h => by
    cases h with
    | unary ho he =>
      rw [ho.compared_eq, Expression.Denotes.compared_eq e he, Expression.operands, List.map_append]
  | .chain first links, _, h => by
    cases h with
    | chain hf hl =>
      rw [Links.Denotes.compared_eq links hl, Expression.Denotes.compared_eq first hf, Expression.operands, List.map_append]

/-- A chain compares the operands of its links in order. -/
theorem Links.Denotes.compared_eq {level : Level} : (links : Links) → {t u : Term} → Links.Denotes level t links u →
    u.compared = t.compared ++ links.operands.map Operand.text
  | .nil, _, _, h => by
    cases h
    exact (List.append_nil _).symm
  | .cons op e rest, _, _, h => by
    cases h with
    | cons ho he hr =>
      rw [Links.Denotes.compared_eq rest hr, ho.compared_eq, Expression.Denotes.compared_eq e he, Links.operands]
      simp only [List.map_append, List.append_assoc]

end

end Surface

/-! ## From a term to its node -/

namespace Node

variable {schema : Schema} {child left right n : Node} {serial : Nat}

/-- A relation compares nothing. -/
theorem compared_of_newRelation {name : String} (h : newRelation schema name serial = .ok n) : n.compared = [] := by
  obtain ⟨names, -, h⟩ := exists_ok_of_bind h
  cases h
  rfl

/-- A selection compares the operands of its condition and those under it. -/
theorem compared_of_newSelect {c : Condition} (h : child.newSelect c serial = .ok n) :
    n.compared = c.operands ++ child.compared := by
  obtain ⟨attributes, -, h⟩ := exists_ok_of_bind h
  obtain ⟨_, -, h⟩ := exists_ok_of_bind h
  cases h
  rfl

/-- A projection compares nothing of its own. -/
theorem compared_of_newProject {references : List String} (h : child.newProject references serial = .ok n) :
    n.compared = child.compared := by
  obtain ⟨attributes, -, h⟩ := exists_ok_of_bind h
  obtain ⟨kept, -, h⟩ := exists_ok_of_bind h
  cases h
  rfl

/-- A renaming compares nothing of its own. -/
theorem compared_of_newRename {name : Option String} {names : List Phrase}
    (h : newRename schema child name names serial = .ok n) : n.compared = child.compared := by
  unfold newRename at h
  dsimp only at h
  split at h
  · cases h
  · obtain ⟨attributes, -, h⟩ := exists_ok_of_bind h
    obtain ⟨renamed, -, h⟩ := exists_ok_of_bind h
    cases h
    rfl

/-- A join compares the operands of its condition between those of its two sides. -/
theorem compared_of_newJoin {op : Join} (h : newJoin op left right serial = .ok n) :
    n.compared = left.compared ++ (op.operands ++ right.compared) := by
  unfold newJoin at h
  split at h
  · cases h
  · obtain ⟨lists, -, h⟩ := exists_ok_of_bind h
    obtain ⟨attributes, -, h⟩ := exists_ok_of_bind h
    cases h
    rfl

/-- A set operation compares nothing of its own. -/
theorem compared_of_newSetOperation {op : SetOperator} (h : newSetOperation op left right serial = .ok n) :
    n.compared = left.compared ++ right.compared := by
  obtain ⟨l, -, h⟩ := exists_ok_of_bind h
  obtain ⟨r, -, h⟩ := exists_ok_of_bind h
  split at h
  · cases h
    rfl
  · cases h

end Node

/-! ## From a statement to its node -/

namespace Build

/-- The node of a term compares what the term does. -/
theorem steady_compared (t : Term) : Steady t.build fun _ n => n.compared = t.compared := by
  induction t with
  | relation name => exact steady_place fun _ _ _ h => Node.compared_of_newRelation h
  | select c operand ih =>
    exact ih.bind fun child => steady_place fun _ _ _ h hc => by rw [Node.compared_of_newSelect h, hc, Term.compared]
  | project references operand ih =>
    exact ih.bind fun child => steady_place fun _ _ _ h hc => (Node.compared_of_newProject h).trans hc
  | rename target operand ih =>
    exact ih.bind fun child => steady_place fun _ _ _ h hc => (Node.compared_of_newRename h).trans hc
  | join op left right ihl ihr =>
    exact ihl.bind fun l => ihr.bind fun r => steady_place fun _ _ _ h hr hl => by
      rw [Node.compared_of_newJoin h, hl, hr, Term.compared]
  | combine op left right ihl ihr =>
    exact ihl.bind fun l => ihr.bind fun r => steady_place fun _ _ _ h hr hl => by
      rw [Node.compared_of_newSetOperation h, hl, hr, Term.compared]

/-- The node of a statement compares what the statement writes. -/
theorem compared_of_statement {level : Level} {s : Statement} (hs : s.IsWritten level) {w w' : Workspace} {n : Node}
    (h : outcome (statement level .standard s) w = (.ok n, w')) : n.compared = s.operands.map Operand.text := by
  cases s with
  | query e =>
    obtain ⟨t, hd, -, ho⟩ := build_of_query hs h
    exact (steady_compared t w n w' ho).2.trans (Expression.Denotes.compared_eq e hd)
  | declare d => exact (steady_declare level hs w n w' h).2.compared_eq
  | assign name attributes op value =>
    obtain ⟨t, child, v, hd, hw, hv, h⟩ := define_of_assign hs h
    obtain ⟨-, _, _, rfl⟩ := stated_of_assign hs hw hv h
    exact (steady_compared t w child v hv).2.trans (Expression.Denotes.compared_eq value hd)

end Build

/-! ## Texts without quotes -/

/-- Neither kind of quote stands in the text. -/
def IsUnquoted (cs : List Char) : Prop := ∀ c ∈ cs, c ≠ '"' ∧ c ≠ '\''

/-- That there are no quotes can be computed. -/
theorem isUnquoted_of_all {cs : List Char} (h : cs.all (fun c => decide (c ≠ '"' ∧ c ≠ '\'')) = true) : IsUnquoted cs :=
  fun c hc => of_decide_eq_true (List.all_eq_true.mp h c hc)

/-- Expanding tabs brings no quotes in. -/
theorem IsUnquoted.expandTabs {cs : List Char} (h : IsUnquoted cs) (column : Nat) :
    IsUnquoted (Text.expandTabsFrom column cs) := by
  induction cs generalizing column with
  | nil => exact h
  | cons c cs ih =>
    have hcs : ∀ column, IsUnquoted (Text.expandTabsFrom column cs) := ih fun d hd => h d (List.mem_cons_of_mem c hd)
    have hcons : ∀ column, IsUnquoted (c :: Text.expandTabsFrom column cs) := by
      intro column d hd
      rcases List.mem_cons.mp hd with rfl | hd
      · exact h d List.mem_cons_self
      · exact hcs column d hd
    rw [Text.expandTabsFrom]
    split
    · intro d hd
      rcases List.mem_append.mp hd with hd | hd
      · rw [List.eq_of_mem_replicate hd]
        decide
      · exact hcs _ d hd
    · split
      · exact hcons _
      · exact hcons _

/-- The texts are the same, without quotes. -/
theorem Matching.unquoted : Matching fun r r' => r = r' ∧ IsUnquoted r :=
  .of_kept fun _ _ _ h => fun c hc => h c (List.mem_append_right _ hc)

/-- An operand that is read off a text without quotes is a word. -/
theorem isWord_of_reader {c c' : Cursor} {o : Operand} (hc : IsUnquoted c.ahead) (h : Operand.reader c = some (o, c')) :
    isWord o.text = true := by
  have hq : quoted c = none := by
    refine quoted_eq_none ?_
    cases ha : c.ahead with
    | nil => rfl
    | cons x xs => simpa using hc x (ha ▸ List.mem_cons_self)
  rw [operandReader_apply, hq] at h
  cases hr : reference c with
  | some r =>
    rw [hr] at h
    cases h
    exact (gives_reference c r.1 r.2 hr).1
  | none =>
    cases hn : number c with
    | some r =>
      rw [hr, hn] at h
      cases h
      exact IsNumeral.isWord (gives_number c r.1 r.2 hn)
    | none =>
      rw [hr, hn] at h
      cases h

/-- A statement that is read off a text without quotes compares words, and the text behind it has no quotes either. -/
theorem over_isWord_of_statement {level : Level} {s : Statement} {c c' : Cursor} (hc : IsUnquoted c.rest)
    (h : Statement.reader level .standard c = some (s, c')) :
    s.Over (fun o => isWord o.text = true) ∧ IsUnquoted c'.rest := by
  let F := TokenFrame.ofMatching Matching.unquoted 0
  let G := F.usual.telling (χ := fun o => isWord o.text = true)
    fun ws c d o c' hcd hr => isWord_of_reader hcd.text.2 hr
  have hterm : Records 1 G.later (fun _ e _ => IsUnquoted e.rest) Eq (fun _ => []) (markReader .standard .terminator)
      (markReader .standard .terminator) := by
    refine fun _ => terminator_follows Matching.unquoted (fun r r' h => by rw [h.1]) fun e d x y he hx _ => ?_
    show IsUnquoted (e.advance 1).rest
    rw [rest_advance, hx]
    exact fun z hz => he.text.2 z (hx ▸ List.mem_cons_of_mem ';' hz)
  have hs := G.statement level hterm fun _ _ => TokenFrame.declaration
  cases hs [] c c (F.here_of_later c c ⟨⟨rfl, hc⟩, rfl, .refl _⟩) with
  | refuse hn _ =>
    rw [h] at hn
    cases hn
  | read hr _ halike hrest _ _ =>
    rw [h] at hr
    cases hr
    exact ⟨halike.2, hrest⟩

/-- Statements that are read off a text without quotes have words for operands. -/
theorem over_isWord_of_runs {level : Level} {ss : List Statement} {c c' : Cursor} (hc : IsUnquoted c.rest)
    (h : Runs (Statement.reader level .standard) c ss c') : ∀ s ∈ ss, s.Over fun o => isWord o.text = true := by
  induction h with
  | nil => intro s hs; cases hs
  | cons h _ _ ih =>
    obtain ⟨hover, hd⟩ := over_isWord_of_statement hc h
    intro s hs
    rcases List.mem_cons.mp hs with rfl | hs
    · exact hover
    · exact ih hd s hs

/-- The trees of a text without quotes compare words only. -/
theorem isWord_of_forest {level : Level} {schema : Schema} {text : String} {ns : List Node} (ht : IsUnquoted text.toList)
    (h : forest level .standard schema text = .ok ns) : ∀ n ∈ ns, ∀ s ∈ n.compared, isWord s = true := by
  obtain ⟨ss, w, hp, hn⟩ := nodes_of_forest h
  obtain ⟨-, c', hruns, -⟩ := runs_of_parse hp
  have hover := over_isWord_of_runs (ht.expandTabs 0) hruns
  intro n hmem x hx
  obtain ⟨s, hs, _, _, hw, hs'⟩ := (inTurn_of_parse hp hn).exists_statement n hmem
  rw [compared_of_statement hw hs'] at hx
  obtain ⟨o, ho, rfl⟩ := List.mem_map.mp hx
  exact hover s hs o ho

end RelAlg
