import Mathlib
import RelAlg.Build.Node

/-!
# Terms

A `Term` is an expression of the algebra as it is meant, whatever it was written like: operators over operands, grouped. Its
node is made from the bottom up and from left to right (`Term.build`). A written expression keeps runs of operators flat;
`Expression.Denotes` says which term it stands for in the usual spelling, and `node_phrase` that the node made of its words
is the node of that term.
-/

namespace RelAlg

open Surface Build

/-- An expression of the algebra as it is meant. -/
inductive Term where
  | relation (name : String)
  | select (condition : Condition) (operand : Term)
  | project (references : List String) (operand : Term)
  | rename (target : Renaming) (operand : Term)
  | join (op : Join) (left right : Term)
  | combine (op : SetOperator) (left right : Term)

/-- The new relation name that a renaming writes, if it writes one. -/
def Surface.Renaming.name? : Renaming → Option String
  | relation name | both name _ => some name
  | attributes _ => none

/-- The new attribute names that a renaming writes. -/
def Surface.Renaming.names : Renaming → List String
  | relation _ => []
  | attributes names | both _ names => names

/-- The node of a term: operands first, the left one before the right one. -/
def Term.build : Term → Build Node
  | relation name => place fun schema => Node.newRelation schema name
  | select condition operand => do
    let child ← operand.build
    place fun _ => child.newSelect condition
  | project references operand => do
    let child ← operand.build
    place fun _ => child.newProject references
  | rename target operand => do
    let child ← operand.build
    place fun schema => Node.newRename schema child target.name? (target.names.map Phrase.word)
  | join op left right => do
    let l ← left.build
    let r ← right.build
    place fun _ => Node.newJoin op l r
  | combine op left right => do
    let l ← left.build
    let r ← right.build
    place fun _ => Node.newSetOperation op l r

namespace Surface

/-! ## What a written expression stands for -/

/-- The clause stands for the condition. -/
def Clause.Denotes (clause : Clause) (condition : Condition) : Prop :=
  Condition.ofPhrase .read .standard clause.phrase = .ok condition

theorem Clause.denotes_compare {left right : Operand} {op : String} {k : Connective}
    (h : Condition.binaryOf .standard (.leaf op) = .ok k) :
    (Clause.compare left op right).Denotes (.binary k (.operand left.text) (.operand right.text)) := by
  simp only [Denotes, phrase, Operand.phrase, Condition.ofPhrase, h]
  rfl

theorem Clause.denotes_defined (operand : Operand) :
    (Clause.defined (Lexicon.usual .defined) operand).Denotes (.unary .defined (.operand operand.text)) := by
  simp only [Denotes, phrase, Operand.phrase, Condition.ofPhrase]
  rfl

theorem Clause.Denotes.negate {body : Clause} {c : Condition} (h : body.Denotes c) :
    (Clause.negate (Lexicon.usual .not) body).Denotes (.unary .not c) := by
  unfold Denotes at h
  simp only [Denotes, phrase, Condition.ofPhrase, h]
  rfl

theorem Clause.Denotes.link {left right : Clause} {op : String} {l r : Condition} {k : Connective} (hl : left.Denotes l)
    (hr : right.Denotes r) (h : Condition.binaryOf .standard (.leaf op) = .ok k) :
    (Clause.link left op right).Denotes (.binary k l r) := by
  unfold Denotes at hl hr
  simp only [Denotes, phrase, Condition.ofPhrase, hl, hr, h]
  rfl

/-- The operator with its parameters makes the term of its operand. -/
inductive UnaryOp.Denotes : UnaryOp → (Term → Term) → Prop where
  | project (references : List String) :
      Denotes (.project (Lexicon.usual .project) references) (Term.project references)
  | select {clause : Clause} {condition : Condition} (h : clause.Denotes condition) :
      Denotes (.select (Lexicon.usual .select) clause) (Term.select condition)
  | rename (target : Renaming) : Denotes (.rename (Lexicon.usual .rename) target) (Term.rename target)

/-- The operator makes the term of its two operands. The core language has three of them. -/
inductive BinaryOp.Denotes (level : Level) : BinaryOp → (Term → Term → Term) → Prop where
  | cross : Denotes level (.plain (Lexicon.usual .join)) (Term.join .cross)
  | union : Denotes level (.plain (Lexicon.usual .union)) (Term.combine .union)
  | difference : Denotes level (.plain (Lexicon.usual .difference)) (Term.combine .difference)
  | natural (hl : level.includes .extended = true) :
      Denotes level (.plain (Lexicon.usual .naturalJoin)) (Term.join .natural)
  | intersect (hl : level.includes .extended = true) :
      Denotes level (.plain (Lexicon.usual .intersect)) (Term.combine .intersect)
  | conditioned (hl : level.includes .extended = true) {s : Symbol} {kind : ConditionalJoin}
      (hs : (s, kind) ∈ conditionalJoins) {clause : Clause} {condition : Condition} (h : clause.Denotes condition) :
      Denotes level (.conditioned (Lexicon.usual s) clause) (Term.join (.conditional kind condition))

mutual

/-- The expression stands for the term. A chain is taken from the left. -/
inductive Expression.Denotes (level : Level) : Expression → Term → Prop where
  | relation (name : String) : Expression.Denotes level (.relation name) (.relation name)
  | unary {op : UnaryOp} {f : Term → Term} {e : Expression} {t : Term} (ho : op.Denotes f)
      (he : Expression.Denotes level e t) : Expression.Denotes level (.unary op e) (f t)
  | chain {first : Expression} {links : Links} {t u : Term} (hf : Expression.Denotes level first t)
      (hl : Links.Denotes level t links u) : Expression.Denotes level (.chain first links) u

/-- After an operand that stands for the first term, the links of a chain make the second one. -/
inductive Links.Denotes (level : Level) : Term → Links → Term → Prop where
  | nil (t : Term) : Links.Denotes level t .nil t
  | cons {op : BinaryOp} {f : Term → Term → Term} {e : Expression} {rest : Links} {t u v : Term}
      (ho : op.Denotes level f) (he : Expression.Denotes level e u) (hr : Links.Denotes level (f t u) rest v) :
      Links.Denotes level t (.cons op e rest) v

end

end Surface

/-! ## One node from its words -/

namespace Build

/-- A step that cannot fail is no step. -/
theorem liftM_ok {α : Type} (a : α) : (liftM (Except.ok a : Except Error α) : Build α) = pure a := rfl

/-- A condition among parameters is the one that its clause stands for. -/
theorem condition_of_denotes {clause : Clause} {c : Condition} (h : clause.Denotes c) :
    condition .standard (.group [clause.phrase]) = pure c := by
  unfold Clause.Denotes at h
  simp only [condition, part, Phrase.parts, List.getElem?_cons_zero, pure_bind, h, liftM_ok]

/-- Words hold no list. -/
theorem leadingWords_words (texts : List String) : Phrase.leadingWords (texts.map Phrase.word) = (texts, true) := by
  induction texts with
  | nil => rfl
  | cons s texts ih => simp [Phrase.leadingWords, ih]

/-- What needs the attribute list of a node fails without one, whatever stands before it. -/
theorem attributes_bind_place (child : Node) (references : List String) :
    (do let _ ← child.attributes; place fun _ => child.newProject references : Build Node)
      = place fun _ => child.newProject references := by
  cases h : child.attributes with
  | ok l => rfl
  | error e =>
    have hn : child.newProject references = fun _ => .error e := by
      funext serial
      simp [Node.newProject, h, bind, Except.bind]
    rw [hn]
    rfl

/-- An operator with one operand makes the node of its term from the node of the operand. -/
theorem unary_of_denotes {op : UnaryOp} {f : Term → Term} (h : op.Denotes f) :
    ∃ s params, op.phrases = [.word s, params] ∧ Lexicon.standard.isUnary? (some s) = some true ∧
      (∀ p ps, isDependency .standard (.word s :: p :: ps) = .ok false) ∧
      ∀ t : Term, (do let child ← t.build; unary .standard s child (some params)) = (f t).build := by
  cases h with
  | project references =>
    refine ⟨_, _, rfl, by decide, fun p ps => rfl, fun t => ?_⟩
    rw [Term.build]
    congr 1
    funext child
    have h1 : Lexicon.standard.spells .select (Lexicon.usual .project) = false := by decide
    have h2 : Lexicon.standard.spells .project (Lexicon.usual .project) = true := by decide
    simp only [unary, h1, h2, Bool.false_eq_true, if_false, if_true, needed, pure_bind, Phrase.words, Phrase.parts, project,
      leadingWords_words]
    exact attributes_bind_place child references
  | @select clause condition h =>
    refine ⟨_, _, rfl, by decide, fun p ps => rfl, fun t => ?_⟩
    rw [Term.build]
    congr 1
    funext child
    have h1 : Lexicon.standard.spells .select (Lexicon.usual .select) = true := by decide
    simp only [unary, h1, if_true, needed, pure_bind, condition_of_denotes h]
  | rename target =>
    refine ⟨_, _, rfl, by decide, fun p ps => rfl, fun t => ?_⟩
    rw [Term.build]
    congr 1
    funext child
    have h1 : Lexicon.standard.spells .select (Lexicon.usual .rename) = false := by decide
    have h2 : Lexicon.standard.spells .project (Lexicon.usual .rename) = false := by decide
    have h3 : Lexicon.standard.spells .rename (Lexicon.usual .rename) = true := by decide
    simp only [unary, h1, h2, h3, Bool.false_eq_true, if_false, if_true, needed, pure_bind]
    cases target <;> rfl

/-- The levels from the extended one on. -/
theorem extended_or_dependency {level : Level} (hl : level.includes .extended = true) :
    level = .extended ∨ level = .dependency := by
  cases level <;> first | exact Or.inl rfl | exact Or.inr rfl | cases hl

/-- The parameters of an operator with two operands, if it has any. -/
def operatorParams : BinaryOp → Option Phrase
  | .plain _ => none
  | .conditioned _ clause => some (.group [clause.phrase])

/-- An operator with two operands makes the node of its term from the nodes of the operands. -/
theorem binary_of_denotes {level : Level} {op : BinaryOp} {f : Term → Term → Term} (h : op.Denotes level f) :
    ∃ s, op.phrases = .word s :: (operatorParams op).toList ∧ Lexicon.isBinary? level .standard (some s) = some true ∧
      Lexicon.standard.isAssignCharacter s = false ∧
      ∀ t u : Term, (do let l ← t.build; let r ← u.build; binary .standard s l r (operatorParams op)) = (f t u).build := by
  cases h with
  | cross => exact ⟨_, rfl, by cases level <;> decide, by decide, fun t u => rfl⟩
  | union => exact ⟨_, rfl, by cases level <;> decide, by decide, fun t u => rfl⟩
  | difference => exact ⟨_, rfl, by cases level <;> decide, by decide, fun t u => rfl⟩
  | natural hl =>
    rcases extended_or_dependency hl with rfl | rfl <;> exact ⟨_, rfl, by decide, by decide, fun t u => rfl⟩
  | intersect hl =>
    rcases extended_or_dependency hl with rfl | rfl <;> exact ⟨_, rfl, by decide, by decide, fun t u => rfl⟩
  | @conditioned hl s kind hs clause c h =>
    have hb : Lexicon.isBinary? level .standard (some (Lexicon.usual s)) = some true := by
      simp only [conditionalJoins, List.mem_cons, Prod.mk.injEq, List.not_mem_nil, or_false] at hs
      rcases extended_or_dependency hl with rfl | rfl <;>
        rcases hs with ⟨rfl, -⟩ | ⟨rfl, -⟩ | ⟨rfl, -⟩ | ⟨rfl, -⟩ <;> decide
    have ha : Lexicon.standard.isAssignCharacter (Lexicon.usual s) = false := by
      cases s <;> decide
    have hj : Lexicon.standard.spells .join (Lexicon.usual s) = false
        ∧ Lexicon.standard.spells .naturalJoin (Lexicon.usual s) = false
        ∧ conditionalJoin? .standard (Lexicon.usual s) = some kind := by
      simp only [conditionalJoins, List.mem_cons, Prod.mk.injEq, List.not_mem_nil, or_false] at hs
      rcases hs with ⟨rfl, rfl⟩ | ⟨rfl, rfl⟩ | ⟨rfl, rfl⟩ | ⟨rfl, rfl⟩ <;> decide
    refine ⟨_, rfl, hb, ha, fun t u => ?_⟩
    rw [Term.build]
    simp only [binary, hj, Bool.false_eq_true, if_false, needed, operatorParams, pure_bind, condition_of_denotes h]
    rfl

/-! ## The node of an expression -/

/-- The node of the words of a part of a text. -/
abbrev nodeOfParts (level : Level) (parts : List Phrase) : Build Node :=
  node level .standard Lexicon.standard.isAssignCharacter parts

/-- A single word is a relation, in every lexicon. -/
theorem node_leaf (level : Level) (lex : Lexicon) (assigns : String → Bool) (name : String) :
    node level lex assigns [.leaf name] = relation (.leaf name) := by
  rw [node]
  rfl

/-- A single list stands for its members, in every lexicon. -/
theorem node_list (level : Level) (lex : Lexicon) (assigns : String → Bool) (inner : List Phrase) :
    node level lex assigns [.list inner] = node level lex assigns inner := by
  rw [node]
  rfl

theorem node_single (level : Level) (inner : List Phrase) :
    nodeOfParts level [.list inner] = nodeOfParts level inner := node_list level _ _ inner

/-- Operands with operators between them: the first part is a list, and the second an operator with two operands. -/
def IsChain (level : Level) (lex : Lexicon) (parts : List Phrase) : Prop :=
  ∃ first rest, parts = .list first :: rest ∧
    ∀ second more, rest = second :: more →
      ∃ s, second = .leaf s ∧ Lexicon.isBinary? level lex (some s) = some true ∧ lex.isAssignCharacter s = false

/-- The last operator of a chain is the one before the last operand, or before a list of parameters and the last operand. -/
theorem lastOperation?_of_params (left : List Phrase) (s : String) (params : Option (List Phrase)) (inner : List Phrase) :
    lastOperation? (left ++ .word s :: (params.map Phrase.group).toList ++ [.list inner])
      = some ⟨left, .word s, params.map Phrase.group, .list inner⟩ := by
  cases params <;> simp [lastOperation?]

/-- The last operator of a chain that goes on with one operator and one operand. -/
theorem lastOperation?_append (left : List Phrase) (op : BinaryOp) {s : String} (inner : List Phrase)
    (h : op.phrases = .word s :: (operatorParams op).toList) :
    lastOperation? (left ++ op.phrases ++ [.list inner])
      = some ⟨left, .word s, operatorParams op, .list inner⟩ := by
  rw [h]
  cases op with
  | plain op => exact lastOperation?_of_params left s none inner
  | conditioned op clause => exact lastOperation?_of_params left s (some [clause.phrase]) inner

/-- A chain that goes on with one operator and one operand is a chain. -/
theorem IsChain.append {level : Level} {lex : Lexicon} {left : List Phrase} (hc : IsChain level lex left) {op : BinaryOp}
    {s : String} (h : op.phrases = .word s :: (operatorParams op).toList) (hb : Lexicon.isBinary? level lex (some s) = some true)
    (ha : lex.isAssignCharacter s = false) (p : Phrase) : IsChain level lex (left ++ op.phrases ++ [p]) := by
  obtain ⟨first, rest, rfl, hr⟩ := hc
  refine ⟨first, rest ++ op.phrases ++ [p], by simp, ?_⟩
  intro second more hs
  cases rest with
  | nil =>
    rw [h] at hs
    simp only [List.nil_append, List.cons_append, List.cons.injEq] at hs
    exact ⟨s, hs.1.symm, hb, ha⟩
  | cons q qs =>
    simp only [List.cons_append, List.cons.injEq] at hs
    exact hr second qs (by rw [hs.1])

/-- A list whose second part is an operator with two operands, and whose first is a list, is divided at its last operator. -/
theorem node_operation {level : Level} {lex : Lexicon} {assigns : String → Bool} {settings : List Setting}
    (hlex : lex.dependencyOperators = .ok settings) {first more : List Phrase} {t : String}
    (hb : Lexicon.isBinary? level lex (some t) = some true) (ha : assigns t = false) {o : LastOperation}
    (ho : lastOperation? (.list first :: .leaf t :: more) = some o) :
    node level lex assigns (.list first :: .leaf t :: more) = (do
      let l ← node level lex assigns o.left
      let r ← node level lex (assignsIn lex assigns o.right) o.right.parts
      binary lex o.op.text l r o.params) := by
  have hd : isDependency lex (.list first :: .leaf t :: more) = .ok false := by
    rw [isDependency, hlex]
    simp [Phrase.text?, pure, Except.pure, bind, Except.bind]
  have hu : isUnary lex (.list first) = .ok false := rfl
  have hs : isBinary level lex (.leaf t) = .ok true := by
    simp only [isBinary, Phrase.text?, hb, answered]
  have ht : (Phrase.text? (.leaf t)).any assigns = false := ha
  rw [node]
  simp only [hd, hu, hs, ht, liftM_ok, pure_bind, Bool.false_eq_true, if_false, if_true]
  split
  · rename_i h'; rw [ho] at h'; cases h'
  · rename_i o' h'
    rw [ho] at h'
    cases h'
    rfl

/-- The node of a chain is that of what stands before its last operator, and of the last operand. -/
theorem node_chain {level : Level} {lex : Lexicon} {settings : List Setting} (hlex : lex.dependencyOperators = .ok settings)
    {left : List Phrase} (hc : IsChain level lex left) {op : BinaryOp} {s : String}
    (h : op.phrases = .word s :: (operatorParams op).toList) (hb : Lexicon.isBinary? level lex (some s) = some true)
    (ha : lex.isAssignCharacter s = false) (inner : List Phrase) :
    node level lex lex.isAssignCharacter (left ++ op.phrases ++ [.list inner]) = (do
      let l ← node level lex lex.isAssignCharacter left
      let r ← node level lex lex.isAssignCharacter inner
      binary lex s l r (operatorParams op)) := by
  have hl := lastOperation?_append left op inner h
  obtain ⟨first, rest, hp, hr⟩ := hc.append h hb ha (.list inner)
  obtain ⟨second, more, rfl⟩ : ∃ second more, rest = second :: more := by
    cases rest with
    | nil => simp [h] at hp; cases left <;> simp at hp
    | cons second more => exact ⟨second, more, rfl⟩
  obtain ⟨t, rfl, hb', ha'⟩ := hr second more rfl
  rw [hp] at hl ⊢
  exact node_operation hlex hb' ha' hl

/-- The words of an expression are a list. -/
theorem phrase_eq_list (e : Expression) : e.phrase = .list e.phrase.parts := by
  cases e <;> simp [Expression.phrase, Phrase.parts]

/-- A relation name by itself is no dependency. -/
theorem node_relation (level : Level) (name : String) :
    nodeOfParts level [.leaf name] = (Term.relation name).build := node_leaf level _ _ name

mutual

/-- The node made of the words of an expression is the node of the term that it stands for. -/
theorem node_phrase {level : Level} : (e : Expression) → {t : Term} → e.Denotes level t →
    nodeOfParts level e.phrase.parts = t.build
  | .relation name, _, h => by
    cases h
    exact node_relation level name
  | .unary op e, _, h => by
    cases h with
    | @unary _ f _ u ho he =>
      obtain ⟨s, params, hp, hu, hd, hf⟩ := unary_of_denotes ho
      have hs : isUnary .standard (.leaf s) = .ok true := by
        simp only [isUnary, Phrase.text?, Option.isSome_some, if_true, hu, answered]
      have hc : node level .standard Lexicon.standard.isAssignCharacter [e.phrase] = u.build := by
        rw [phrase_eq_list]
        exact (node_single level _).trans (node_phrase e he)
      rw [← hf, Expression.phrase, hp]
      show nodeOfParts level [.leaf s, params, e.phrase] = _
      rw [nodeOfParts, node]
      simp only [hd, hs, liftM_ok, pure_bind, Bool.false_eq_true, if_false, if_true, hc]
      rfl
  | .chain first links, _, h => by
    cases h with
    | chain hf hl =>
      have hn := node_phrase first hf
      have hc : IsChain level .standard [first.phrase] := ⟨first.phrase.parts, [], by rw [← phrase_eq_list], nofun⟩
      refine node_links links hl hc ?_
      rw [phrase_eq_list, node_single, hn]

/-- The node made of a chain that goes on with links is the node of the term that they make. -/
theorem node_links {level : Level} : (links : Links) → {t u : Term} → Links.Denotes level t links u →
    {left : List Phrase} → IsChain level .standard left → nodeOfParts level left = t.build →
    nodeOfParts level (left ++ links.phrases) = u.build
  | .nil, _, _, h, left, _, hn => by
    cases h
    simpa [Links.phrases] using hn
  | .cons op e rest, _, _, h, left, hc, hn => by
    cases h with
    | cons ho he hr =>
      obtain ⟨s, hp, hb, ha, hf⟩ := binary_of_denotes ho
      have hn' : nodeOfParts level (left ++ op.phrases ++ [.list e.phrase.parts]) = (do
          let l ← nodeOfParts level left
          let r ← nodeOfParts level e.phrase.parts
          binary .standard s l r (operatorParams op)) := node_chain rfl hc hp hb ha e.phrase.parts
      rw [← phrase_eq_list, hn, node_phrase e he, hf] at hn'
      have hc' := hc.append hp hb ha e.phrase
      have := node_links rest hr hc' hn'
      simpa [Links.phrases] using this

end

end Build

end RelAlg
