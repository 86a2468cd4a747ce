import RelAlg.Node.Compare
import RelAlg.Proofs.Declared
import RelAlg.Proofs.NaturalJoin

/-!
# Equality of nodes

What a comparison looks at in a node, apart from its operands, is the node's stamp. Two nodes are compared stamp by stamp, each
node before its operands and the left operand first, and the first place where the stamps differ decides (`Node.compare_eq`):
there the nodes differ, or they cannot be compared if only the left one has a condition. So nodes are equal exactly if they have
the same stamps throughout, which is an equivalence. A list that was read is the same only as itself, so a dependency is never
equal to the one that is made of the same text again; everything else is (`repeats_of_program`).
-/

namespace RelAlg

open Surface Build

/-! ## Stamps -/

/-- What tells a listing from others: its mark, or its names if it has none. -/
def Listing.key (l : Listing) : Phrase ⊕ Nat :=
  match l.mark with
  | none => .inl l.phrase
  | some i => .inr i

/-- Listings are the same just if their keys are. -/
theorem Listing.same_eq (l m : Listing) : l.same m = decide (l.key = m.key) := by
  obtain ⟨p, _ | i⟩ := l <;> obtain ⟨q, _ | j⟩ := m <;> simp [same, key]

/-- How many operands a node with the operator has. -/
def Operator.arity : Operator → Nat
  | relation | primaryKey => 0
  | select | project | rename | assign | pairDependency _ => 1
  | crossJoin | naturalJoin | conditionalJoin _ | setOperation _ | inclusion _ => 2

/-- What a comparison looks at in a node, apart from its operands. -/
structure Stamp where
  operator : Option Operator
  name : Option String
  attributes : List String
  condition : Option Condition
  listings : List (Phrase ⊕ Nat)
  deriving DecidableEq

/-- What comes of a comparison at a place where the stamps differ. -/
def Stamp.against (x y : Stamp) : Except Error Bool :=
  if x.condition.isSome && y.condition.isNone then .error .incomparable else .ok false

namespace Node

/-- The listings of a dependency. -/
def listings : Node → List Listing
  | primaryKey r a | pair _ r a _ | inclusion _ r a _ _ => [r, a]
  | _ => []

def operands : Node → List Node
  | select _ _ n | project _ n | rename _ n | assign _ n | pair _ _ _ n => [n]
  | join _ _ l r | setOperation _ _ l r | inclusion _ _ _ l r => [l, r]
  | relation _ | primaryKey .. | bare _ => []

def stamp (n : Node) : Stamp := ⟨n.operator?, n.name, n.heading.qualifiedNames, n.condition?, n.listings.map Listing.key⟩

/-- The stamps of a node and of the nodes under it, each before those of its operands. -/
def stamps : Node → List Stamp
  | select h c n => (select h c n).stamp :: n.stamps
  | project h n => (project h n).stamp :: n.stamps
  | rename h n => (rename h n).stamp :: n.stamps
  | assign h n => (assign h n).stamp :: n.stamps
  | pair k r a n => (pair k r a n).stamp :: n.stamps
  | join h op l r => (join h op l r).stamp :: (l.stamps ++ r.stamps)
  | setOperation h op l r => (setOperation h op l r).stamp :: (l.stamps ++ r.stamps)
  | inclusion k r a m n => (inclusion k r a m n).stamp :: (m.stamps ++ n.stamps)
  | n => [n.stamp]

/-- No part of the node is bare. -/
def isWhole : Node → Bool
  | select _ _ n | project _ n | rename _ n | assign _ n | pair _ _ _ n => n.isWhole
  | join _ _ l r | setOperation _ _ l r | inclusion _ _ _ l r => l.isWhole && r.isWhole
  | relation _ | primaryKey .. => true
  | bare _ => false

/-- The stamps of a node are its own and those of its operands. -/
theorem stamps_eq (n : Node) : n.stamps = n.stamp :: n.operands.flatMap stamps := by
  cases n <;> simp [stamps, operands]

/-- The operands of a whole node are whole. -/
theorem isWhole_of_mem_operands {n k : Node} (h : n.isWhole = true) (hk : k ∈ n.operands) : k.isWhole = true := by
  cases n <;> simp [operands] at hk <;> simp [isWhole] at h <;> grind

/-- What holds of a node if it holds of its operands holds of every node. -/
theorem operands_induction {P : Node → Prop} (h : ∀ n, (∀ k ∈ n.operands, P k) → P n) (n : Node) : P n := by
  induction n with
  | relation | primaryKey | bare => exact h _ nofun
  | select _ _ _ ih | project _ _ ih | rename _ _ ih | assign _ _ ih | pair _ _ _ _ ih =>
    exact h _ (List.forall_mem_singleton.mpr ih)
  | join _ _ _ _ ihl ihr | setOperation _ _ _ _ ihl ihr | inclusion _ _ _ _ _ ihl ihr =>
    exact h _ (List.forall_mem_cons.mpr ⟨ihl, List.forall_mem_singleton.mpr ihr⟩)

/-- The operator tells how many operands there are. -/
theorem length_operands (n : Node) : n.operands.length = (n.operator?.map Operator.arity).getD 0 := by
  cases n with
  | join _ op => cases op <;> rfl
  | _ => rfl

/-- Nodes with the same stamp have as many operands. -/
theorem length_operands_of_stamp {m n : Node} (h : m.stamp = n.stamp) : m.operands.length = n.operands.length := by
  rw [length_operands, length_operands, show m.operator? = n.operator? from congrArg Stamp.operator h]

/-! ## Rows of stamps -/

/-- No row of stamps of nodes goes on where another one ends. -/
theorem flatMap_stamps_inj {ms ns : List Node} {us vs : List Stamp}
    (hm : ∀ m ∈ ms, ∀ (n : Node) (us vs : List Stamp), m.stamps ++ us = n.stamps ++ vs → m.stamps = n.stamps ∧ us = vs)
    (hl : ms.length = ns.length) (h : ms.flatMap stamps ++ us = ns.flatMap stamps ++ vs) :
    ms.flatMap stamps = ns.flatMap stamps ∧ us = vs := by
  induction ms generalizing ns with
  | nil =>
    obtain rfl := List.length_eq_zero_iff.mp hl.symm
    exact ⟨rfl, h⟩
  | cons m ms ih =>
    obtain ⟨n, ns, rfl⟩ := List.exists_cons_of_length_eq_add_one hl.symm
    simp only [List.flatMap_cons, List.append_assoc] at h ⊢
    obtain ⟨hfirst, hrest⟩ := hm m List.mem_cons_self n _ _ h
    obtain ⟨hothers, hend⟩ := ih (fun k hk => hm k (List.mem_cons_of_mem m hk)) (Nat.succ.inj hl) hrest
    exact ⟨by rw [hfirst, hothers], hend⟩

/-- Where rows of stamps of two nodes start alike, the nodes have the same stamps. -/
theorem stamps_append_inj {m n : Node} {us vs : List Stamp} (h : m.stamps ++ us = n.stamps ++ vs) :
    m.stamps = n.stamps ∧ us = vs := by
  induction m using operands_induction generalizing n us vs with
  | _ m ih =>
    rw [stamps_eq m, stamps_eq n] at h ⊢
    obtain ⟨hs, h⟩ := List.cons.inj h
    -- the first stamp tells how many operands follow
    obtain ⟨hall, hend⟩ := flatMap_stamps_inj (fun k hk n us vs => ih k hk) (length_operands_of_stamp hs) h
    exact ⟨by rw [hs, hall], hend⟩

end Node

/-- The first place where two lists differ. -/
def firstDifference? {α : Type} [DecidableEq α] : List α → List α → Option (α × α)
  | x :: xs, y :: ys => if x = y then firstDifference? xs ys else some (x, y)
  | _, _ => none

section FirstDifference

variable {α : Type} [DecidableEq α] {xs ys us vs : List α}

/-- A common start has no difference. -/
theorem firstDifference?_append_self (xs us vs : List α) :
    firstDifference? (xs ++ us) (xs ++ vs) = firstDifference? us vs := by
  induction xs with
  | nil => rfl
  | cons x xs ih => rw [List.cons_append, List.cons_append, firstDifference?, if_pos rfl, ih]

/-- A list does not differ from itself. -/
theorem firstDifference?_self (xs : List α) : firstDifference? xs xs = none := by
  induction xs with
  | nil => rfl
  | cons x xs ih => rw [firstDifference?, if_pos rfl, ih]

/-- What follows the first difference does not matter. -/
theorem firstDifference?_append {d : α × α} (h : firstDifference? xs ys = some d) :
    firstDifference? (xs ++ us) (ys ++ vs) = some d := by
  induction xs generalizing ys with
  | nil => cases h
  | cons x xs ih =>
    cases ys with
    | nil => cases h
    | cons y ys =>
      rw [firstDifference?] at h
      rw [List.cons_append, List.cons_append, firstDifference?]
      split at h
      · rename_i he
        rw [if_pos he, ih h]
      · rename_i he
        rw [if_neg he, h]

/-- Lists that differ nowhere are equal as far as both go. -/
theorem exists_append_of_firstDifference? (h : firstDifference? xs ys = none) : ∃ us vs, xs ++ us = ys ++ vs := by
  induction xs generalizing ys with
  | nil => exact ⟨ys, [], by simp⟩
  | cons x xs ih =>
    cases ys with
    | nil => exact ⟨[], x :: xs, by simp⟩
    | cons y ys =>
      rw [firstDifference?] at h
      split at h
      · rename_i he
        obtain ⟨us, vs, huv⟩ := ih h
        exact ⟨us, vs, by rw [he, List.cons_append, List.cons_append, huv]⟩
      · cases h

/-- The first difference is the same from the other side, turned round. -/
theorem firstDifference?_swap (xs ys : List α) :
    firstDifference? ys xs = (firstDifference? xs ys).map Prod.swap := by
  induction xs generalizing ys with
  | nil => cases ys <;> rfl
  | cons x xs ih =>
    cases ys with
    | nil => rfl
    | cons y ys =>
      rw [firstDifference?, firstDifference?]
      by_cases he : x = y
      · rw [if_pos he, if_pos he.symm, ih]
      · rw [if_neg he, if_neg (Ne.symm he)]
        rfl

end FirstDifference

namespace Node

/-- What the first difference of two rows of stamps says of the nodes. -/
def decided : Option (Stamp × Stamp) → Except Error Bool
  | none => .ok true
  | some (x, y) => x.against y

/-- Nodes whose stamps differ nowhere have the same stamps. -/
theorem stamps_eq_of_firstDifference? {m n : Node} (h : firstDifference? m.stamps n.stamps = none) : m.stamps = n.stamps := by
  obtain ⟨us, vs, huv⟩ := exists_append_of_firstDifference? h
  exact (stamps_append_inj huv).1

/-! ## One step -/

/-- Compare operands from left to right, up to the first that differ. -/
def compareAll : List Node → List Node → Except Error Bool
  | m :: ms, n :: ns => do if ← m.compareOperand n then compareAll ms ns else return false
  | _, _ => .ok true

/-- One operand is compared by itself. -/
theorem compareAll_single (m n : Node) : compareAll [m] [n] = m.compareOperand n := by
  rw [compareAll]
  rcases m.compareOperand n with _ | _ | _ <;> rfl

/-- Of two operands the right ones are compared only if the left ones are equal. -/
theorem compareAll_pair (l r l' r' : Node) :
    compareAll [l, r] [l', r'] = do if ← l.compareOperand l' then r.compareOperand r' else return false := by
  rw [compareAll, compareAll_single]

/-- A whole node is not bare, so nothing is decided before it is compared. -/
theorem compareBare_of_isWhole {m n : Node} (h : m.isWhole = true) (x : Except Error Bool) : compareBare m n x = x := by
  cases m with
  | bare => cases h
  | _ => cases n <;> rfl

/-- Both nodes are of one kind. -/
inductive SameKind : Node → Node → Prop where
  | relation (h k : Head) : SameKind (relation h) (relation k)
  | select (h : Head) (c : Condition) (m : Node) (k : Head) (d : Condition) (n : Node) : SameKind (select h c m) (select k d n)
  | project (h : Head) (m : Node) (k : Head) (n : Node) : SameKind (project h m) (project k n)
  | rename (h : Head) (m : Node) (k : Head) (n : Node) : SameKind (rename h m) (rename k n)
  | assign (h : Head) (m : Node) (k : Head) (n : Node) : SameKind (assign h m) (assign k n)
  | join (h : Head) (op : Join) (l r : Node) (k : Head) (op' : Join) (l' r' : Node) : SameKind (join h op l r) (join k op' l' r')
  | setOperation (h : Head) (op : SetOperator) (l r : Node) (k : Head) (op' : SetOperator) (l' r' : Node) :
      SameKind (setOperation h op l r) (setOperation k op' l' r')
  | primaryKey (r a s b : Listing) : SameKind (primaryKey r a) (primaryKey s b)
  | pair (kind : PairDependency) (r a : Listing) (m : Node) (kind' : PairDependency) (s b : Listing) (n : Node) :
      SameKind (pair kind r a m) (pair kind' s b n)
  | inclusion (kind : Inclusion) (r a : Listing) (m n : Node) (kind' : Inclusion) (s b : Listing) (m' n' : Node) :
      SameKind (inclusion kind r a m n) (inclusion kind' s b m' n')
  | bare (a b : Bare) : SameKind (bare a) (bare b)

/-- Nodes of different kinds have different operators. -/
theorem sameKind_of_operator?_eq {m n : Node} (h : m.operator? = n.operator?) : SameKind m n := by
  -- the operator of a join is known only with its sort, those of all other kinds are fixed
  cases m with
  | join _ op =>
    cases n with
    | join => exact .join _ _ _ _ _ _ _ _
    | _ => cases op <;> cases h
  | _ =>
    cases n with
    | join _ op => cases op <;> cases h
    | _ => first | constructor | cases h

/-- Nodes of different kinds differ, or cannot be compared if only the left one has a condition. -/
theorem compareOperand_of_not_sameKind {m n : Node} (h : ¬SameKind m n) : m.compareOperand n = m.stamp.against n.stamp := by
  unfold compareOperand
  split
  case h_12 => rfl
  all_goals exact absurd (by constructor) h

attribute [local simp] stamp operator? name heading listed condition? listings operands isWhole Head.same AttributeList.same
  Listing.same_eq

/-- Nodes of one kind are compared by their stamps first and then, if these are the same, operand by operand. -/
theorem compareOperand_of_sameKind {m n : Node} (hm : m.isWhole = true) (h : SameKind m n) :
    m.compareOperand n = if m.stamp = n.stamp then compareAll m.operands n.operands else m.stamp.against n.stamp := by
  -- in every case `hs` says that the test of the comparison is for the same stamp
  cases h with
  | relation h k =>
    have hs : (Node.relation h).stamp = (Node.relation k).stamp ↔ h.same k = true := by simp
    simp only [hs, compareOperand]
    cases h.same k <;> rfl
  | select h c m k d n =>
    have hs : (Node.select h c m).stamp = (Node.select k d n).stamp ↔ (c = d && h.same k) = true := by
      simp
      tauto
    simp only [hs, compareOperand, operands, compareAll_single]
    rfl
  | project h m k n =>
    have hs : (Node.project h m).stamp = (Node.project k n).stamp ↔ h.same k = true := by simp
    simp only [hs, compareOperand, operands, compareAll_single]
    rfl
  | rename h m k n =>
    have hs : (Node.rename h m).stamp = (Node.rename k n).stamp ↔ h.same k = true := by simp
    simp only [hs, compareOperand, operands, compareAll_single]
    rfl
  | assign h m k n =>
    have hs : (Node.assign h m).stamp = (Node.assign k n).stamp ↔ h.same k = true := by simp
    simp only [hs, compareOperand, operands, compareAll_single]
    rfl
  | join h op l r k op' l' r' =>
    have hs : (Node.join h op l r).stamp = (Node.join k op' l' r').stamp ↔ (op = op' && h.same k) = true := by
      cases op <;> cases op' <;> simp
      tauto
    simp only [hs, compareOperand, operands, compareAll_pair]
    rfl
  | setOperation h op l r k op' l' r' =>
    have hs : (Node.setOperation h op l r).stamp = (Node.setOperation k op' l' r').stamp ↔ (op = op' && h.same k) = true := by
      simp
    simp only [hs, compareOperand, operands, compareAll_pair]
    rfl
  | primaryKey r a s b =>
    have hs : (Node.primaryKey r a).stamp = (Node.primaryKey s b).stamp ↔ (a.same b && r.same s) = true := by
      simp
      tauto
    simp only [hs, compareOperand]
    cases a.same b && r.same s <;> rfl
  | pair kind r a m kind' s b n =>
    have hs : (Node.pair kind r a m).stamp = (Node.pair kind' s b n).stamp ↔ (kind = kind' && a.same b && r.same s) = true := by
      simp
      tauto
    have hw : m.isWhole = true := hm
    simp only [hs, compareOperand, operands, compareAll_single, compareBare_of_isWhole hw]
    rfl
  | inclusion kind r a m n kind' s b m' n' =>
    have hs : (Node.inclusion kind r a m n).stamp = (Node.inclusion kind' s b m' n').stamp ↔
        (kind = kind' && a.same b && r.same s) = true := by
      simp
      tauto
    obtain ⟨hl, hr⟩ := Bool.and_eq_true_iff.mp hm
    simp only [hs, compareOperand, operands, compareAll_pair, compareBare_of_isWhole hl, compareBare_of_isWhole hr]
    rfl
  | bare => cases hm

/-- Where the stamps are the same the operands decide, and else the stamps do. -/
theorem compareOperand_step {m : Node} (hm : m.isWhole = true) (n : Node) :
    m.compareOperand n = if m.stamp = n.stamp then compareAll m.operands n.operands else m.stamp.against n.stamp := by
  by_cases h : SameKind m n
  · exact compareOperand_of_sameKind hm h
  · have hne : m.stamp ≠ n.stamp := fun hs => h (sameKind_of_operator?_eq (congrArg Stamp.operator hs))
    rw [if_neg hne, compareOperand_of_not_sameKind h]

/-! ## Whole nodes -/

/-- Nodes with different stamps are never equal. -/
theorem against_ne_ok_true (x y : Stamp) : x.against y ≠ .ok true := by
  unfold Stamp.against
  split <;> simp

/-- Operands are compared by the first difference in all their stamps, if each of them is. -/
theorem compareAll_eq {ms ns : List Node}
    (hm : ∀ m ∈ ms, ∀ n : Node, m.compareOperand n = decided (firstDifference? m.stamps n.stamps))
    (hl : ms.length = ns.length) :
    compareAll ms ns = decided (firstDifference? (ms.flatMap stamps) (ns.flatMap stamps)) := by
  induction ms generalizing ns with
  | nil =>
    obtain rfl := List.length_eq_zero_iff.mp hl.symm
    rfl
  | cons m ms ih =>
    obtain ⟨n, ns, rfl⟩ := List.exists_cons_of_length_eq_add_one hl.symm
    rw [compareAll, hm m List.mem_cons_self, List.flatMap_cons, List.flatMap_cons]
    cases hd : firstDifference? m.stamps n.stamps with
    | none =>
      rw [stamps_eq_of_firstDifference? hd, firstDifference?_append_self]
      exact ih (fun k hk => hm k (List.mem_cons_of_mem m hk)) (Nat.succ.inj hl)
    | some d =>
      obtain ⟨x, y⟩ := d
      rw [firstDifference?_append hd]
      show (x.against y >>= _) = x.against y
      unfold Stamp.against
      split <;> rfl

/-- Two operands are compared by the first place where their stamps differ. -/
theorem compareOperand_eq {m : Node} (hm : m.isWhole = true) (n : Node) :
    m.compareOperand n = decided (firstDifference? m.stamps n.stamps) := by
  induction m using operands_induction generalizing n with
  | _ m ih =>
    rw [stamps_eq m, stamps_eq n, firstDifference?, compareOperand_step hm]
    by_cases hs : m.stamp = n.stamp
    · rw [if_pos hs, if_pos hs]
      exact compareAll_eq (fun k hk => ih k hk (isWhole_of_mem_operands hm hk)) (length_operands_of_stamp hs)
    · rw [if_neg hs, if_neg hs]
      rfl

/-- Two nodes are compared by the first place where their stamps differ. -/
theorem compare_eq {m : Node} (hm : m.isWhole = true) (n : Node) :
    m.compare n = decided (firstDifference? m.stamps n.stamps) := by
  rw [compare, compareBare_of_isWhole hm, compareOperand_eq hm]

/-- Nodes are equal exactly if their stamps are. -/
theorem compare_eq_ok_true_iff {m n : Node} (hm : m.isWhole = true) : m.compare n = .ok true ↔ m.stamps = n.stamps := by
  rw [compare_eq hm]
  constructor
  · intro h
    cases hd : firstDifference? m.stamps n.stamps with
    | none => exact stamps_eq_of_firstDifference? hd
    | some d =>
      rw [hd] at h
      exact absurd h (against_ne_ok_true _ _)
  · intro h
    rw [h, firstDifference?_self]
    rfl

/-- Where one direction fails, the other one tells the nodes apart. -/
theorem compare_swap {m n : Node} (hm : m.isWhole = true) (hn : n.isWhole = true) {e : Error} (h : m.compare n = .error e) :
    e = .incomparable ∧ n.compare m = .ok false := by
  rw [compare_eq hm] at h
  rw [compare_eq hn, firstDifference?_swap]
  cases hd : firstDifference? m.stamps n.stamps with
  | none =>
    rw [hd] at h
    cases h
  | some d =>
    obtain ⟨x, y⟩ := d
    rw [hd] at h
    show e = _ ∧ y.against x = .ok false
    have h : x.against y = .error e := h
    unfold Stamp.against at h ⊢
    split at h
    · rename_i hc
      cases h
      rw [Bool.and_eq_true, Option.isSome_iff_ne_none, Option.isNone_iff_eq_none] at hc
      simp [hc.2]
    · cases h

/-! ## Nodes of texts -/

/-- A node of the algebra is whole. -/
theorem Made.isWhole {schema : Schema} {n : Node} (h : n.Made schema) : n.isWhole = true := by
  induction h with
  | relation => rfl
  | select _ _ _ ih | project _ _ _ ih | rename _ _ _ _ ih => exact ih
  | join _ _ _ _ _ ihl ihr | setOperation _ _ _ ihl ihr => simp [ihl, ihr]

/-- The node stands in a tree that the dependency language makes of a text, whatever was made before it. -/
def IsRead (n : Node) : Prop :=
  ∃ text w ns v root, (program .dependency .standard text).attempt w = (.ok ns, v) ∧ root ∈ ns ∧ n ∈ root :: root.trees

end Node

/-- The node of a statement is whole. -/
theorem Stated.isWhole {schema extended : Schema} {n : Node} (h : Stated schema n extended) : n.isWhole = true := by
  cases h with
  | query h => exact h.isWhole
  | assign h => exact h.isWhole
  | declare h =>
    obtain ⟨_, _, rfl⟩ | ⟨_, _, _, child, rfl, hc⟩ | ⟨_, _, _, left, right, rfl, hl, hr⟩ := h.cases
    · rfl
    · exact hc.isWhole
    · simp [Node.isWhole, hl.isWhole, hr.isWhole]

namespace Node

/-- A tree in a node is one of its parts or the node itself. -/
theorem mem_parts_of_mem_trees {n k : Node} (h : k ∈ n.trees) : k ∈ n.parts ∨ k = n := by
  cases n with
  | assign head child =>
    rw [trees, List.mem_append, List.mem_singleton] at h
    exact h
  | _ => exact .inl h

/-- A node that was read is whole. -/
theorem IsRead.isWhole {n : Node} (h : n.IsRead) : n.isWhole = true := by
  obtain ⟨text, w, ns, v, root, hp, hr, hn⟩ := h
  obtain ⟨ss, hs, hnodes⟩ := nodes_of_program (outcome_of_attempt hp)
  obtain ⟨schema, extended, hstated⟩ := (inTurn_of_parse hs hnodes).chain.stated_of_mem root hr
  rcases List.mem_cons.mp hn with rfl | hn
  · exact hstated.isWhole
  · rcases mem_parts_of_mem_trees hn with hn | rfl
    · exact (hstated.made_of_mem_parts n hn).isWhole
    · exact hstated.isWhole

/-! ## Nodes under other numbers -/

variable {k m k' m' : Nat}

/-- A renumbered node has the same operator. -/
theorem operator?_renumber (n : Node) : (n.renumber k m).operator? = n.operator? := by
  cases n with
  | join _ op => cases op <;> rfl
  | _ => rfl

/-- A renumbered node has the same condition. -/
theorem condition?_renumber (n : Node) : (n.renumber k m).condition? = n.condition? := by
  cases n with
  | join _ op => cases op <;> rfl
  | _ => rfl

/-- The listings of a renumbered node have their marks further on. -/
theorem listings_renumber (n : Node) : (n.renumber k m).listings = n.listings.map (Listing.renumber m) := by
  cases n <;> rfl

/-- The operands of a renumbered node are the renumbered ones. -/
theorem operands_renumber (n : Node) : (n.renumber k m).operands = n.operands.map (renumber k m) := by
  cases n <;> rfl

/-- A renumbered node is whole just if the node is. -/
theorem isWhole_renumber (n : Node) : (n.renumber k m).isWhole = n.isWhole := by
  induction n <;> simp_all [isWhole]

/-- Only listings are told by their numbers. -/
theorem stamp_renumber (n : Node) : (n.renumber k m).stamp
    = { n.stamp with listings := n.listings.map fun l => (l.renumber m).key } := by
  rw [stamp, operator?_renumber, name_renumber, condition?_renumber, listings_renumber, heading, listed_renumber, List.map_map]
  rfl

/-- Without listings the stamps do not show the numbers. -/
theorem stamps_renumber_of_operands {n : Node} (hl : n.listings = [])
    (ho : ∀ x ∈ n.operands, (x.renumber k m).stamps = x.stamps) : (n.renumber k m).stamps = n.stamps := by
  rw [stamps_eq, stamps_eq n, stamp_renumber, operands_renumber, List.flatMap_map, List.flatMap_congr ho, hl]
  congr 1
  rw [stamp, hl]
  rfl

/-- A node of the algebra has the same stamps under other numbers. -/
theorem Made.stamps_renumber {schema : Schema} {n : Node} (h : n.Made schema) : (n.renumber k m).stamps = n.stamps := by
  induction h with
  | relation => exact stamps_renumber_of_operands rfl nofun
  | select _ _ _ ih | project _ _ _ ih | rename _ _ _ _ ih =>
    exact stamps_renumber_of_operands rfl (List.forall_mem_singleton.mpr ih)
  | join _ _ _ _ _ ihl ihr | setOperation _ _ _ ihl ihr =>
    exact stamps_renumber_of_operands rfl (List.forall_mem_cons.mpr ⟨ihl, List.forall_mem_singleton.mpr ihr⟩)

/-- A dependency has no condition of its own. -/
theorem condition?_of_isDeclaration {n : Node} (h : n.isDeclaration = true) : n.condition? = none := by
  cases n with
  | primaryKey | pair | inclusion => rfl
  | relation | select | project | rename | assign | join | setOperation | bare => cases h

/-- A dependency with a list that was read differs from itself under other marks. -/
theorem compare_renumber_of_isDeclaration {n : Node} (hw : n.isWhole = true) (hd : n.isDeclaration = true) {p : Phrase} {i : Nat}
    (hl : ⟨p, some i⟩ ∈ n.listings) (hne : m ≠ m') : (n.renumber k m).compare (n.renumber k' m') = .ok false := by
  rw [compare_eq ((isWhole_renumber n).trans hw), stamps_eq, stamps_eq (n.renumber k' m'), firstDifference?, if_neg]
  · show Stamp.against _ _ = _
    rw [Stamp.against, stamp_renumber]
    have hc : n.stamp.condition = none := condition?_of_isDeclaration hd
    simp [hc]
  · rw [stamp_renumber, stamp_renumber]
    intro h
    have hkey := List.map_inj_left.mp (congrArg Stamp.listings h) _ hl
    exact hne (Nat.add_left_cancel (Sum.inr.inj hkey))

end Node

/-- The node of a dependency has a listing with the mark that it took. -/
theorem Dependency.exists_marked_of_node {d : Dependency} {schema : Schema} {mark : Nat} {n : Node}
    (h : d.node schema mark = .ok n) : ∃ p, ⟨p, some mark⟩ ∈ n.listings := by
  cases d with
  | key =>
    cases h
    exact ⟨_, List.mem_cons_of_mem _ List.mem_cons_self⟩
  | pair =>
    obtain ⟨_, -, h⟩ := exists_ok_of_bind h
    cases h
    exact ⟨_, List.mem_cons_of_mem _ List.mem_cons_self⟩
  | inclusion =>
    obtain ⟨_, -, h⟩ := exists_ok_of_bind h
    obtain ⟨_, -, h⟩ := exists_ok_of_bind h
    cases h
    exact ⟨_, List.mem_cons_of_mem _ List.mem_cons_self⟩

namespace Build

variable {level : Level} {ss : List Statement} {w v u : Workspace} {ns : List Node}

/-- The list of a dependency that was read has a mark. -/
theorem InTurn.exists_marked (h : InTurn level w ss ns v) :
    ∀ n ∈ ns, n.isDeclaration = true → ∃ p i, ⟨p, some i⟩ ∈ n.listings := by
  intro n hn hd
  obtain ⟨s, -, _, _, hs, ho⟩ := h.exists_statement n hn
  have hkind := (mark_of_statement hs ho).2
  cases s with
  | assign | query =>
    rw [hkind] at hd
    cases hd
  | declare x =>
    obtain ⟨d, hstates⟩ := Declaration.IsWritten.exists_states hs
    obtain ⟨p, hp⟩ := d.exists_marked_of_node (node_of_states hstates ho).1
    exact ⟨p, _, hp⟩

/-- What is made of statements anywhere is made of them from the first numbers on, under other numbers. -/
theorem exists_base_of_nodes (h : outcome (nodes level .standard ss) w = (.ok ns, v)) :
    ∃ ms v₀, outcome (nodes level .standard ss) ⟨w.schema, 0, 0⟩ = (.ok ms, v₀) ∧
      ns = ms.map (Node.renumber w.serial w.mark) ∧ v = v₀.ahead w.serial w.mark := by
  have hw : Workspace.ahead ⟨w.schema, 0, 0⟩ w.serial w.mark = w := by simp [Workspace.ahead]
  cases Renumbers.nodes (k := w.serial) (m := w.mark) level .standard ss ⟨w.schema, 0, 0⟩ with
  | fails _ h' =>
    rw [hw, h] at h'
    cases h'
  | gives h₀ h' _ =>
    rw [hw, h] at h'
    obtain ⟨hns, hv⟩ := Prod.mk.inj h'
    exact ⟨_, _, h₀, Except.ok.inj hns, hv⟩

/-- Nodes that are made from the first number on are made from any other on, with their numbers further on. -/
theorem nodes_of_base (h : outcome (nodes level .standard ss) ⟨u.schema, 0, 0⟩ = (.ok ns, v)) :
    outcome (nodes level .standard ss) u = (.ok (ns.map (Node.renumber u.serial u.mark)), v.ahead u.serial u.mark) := by
  have hu : Workspace.ahead ⟨u.schema, 0, 0⟩ u.serial u.mark = u := by simp [Workspace.ahead]
  cases Renumbers.nodes (k := u.serial) (m := u.mark) level .standard ss ⟨u.schema, 0, 0⟩ with
  | fails h₀ _ =>
    rw [h] at h₀
    cases h₀
  | gives h₀ h' _ =>
    rw [h] at h₀
    cases h₀
    rw [hu] at h'
    exact h'

/-- The nodes of the statements of a text are those of the text. -/
theorem attempt_program {text : String} (hp : parse level .standard text = .ok ss)
    (h : outcome (nodes level .standard ss) w = (.ok ns, v)) : (program level .standard text).attempt w = (.ok ns, v) := by
  have ho : outcome (program level .standard text) w = (.ok ns, v) := by
    rw [program, hp]
    exact h
  unfold outcome at ho
  rw [attempt, ho]

end Build

/-- The nodes are equal in both directions, or in neither if they state a dependency. -/
def Node.Repeats (a b : Node) : Prop := a.compare b = .ok (!a.isDeclaration) ∧ b.compare a = .ok (!a.isDeclaration)

/-- A node of a statement under different marks is equal to itself, unless it states a dependency. -/
theorem Stated.repeats {schema extended : Schema} {n : Node} (h : Stated schema n extended) {k m k' m' : Nat}
    (hm : n.isDeclaration = true → m ≠ m' ∧ ∃ p i, ⟨p, some i⟩ ∈ n.listings) : (n.renumber k m).Repeats (n.renumber k' m') := by
  have hwhole := h.isWhole
  have hkind : (n.renumber k m).isDeclaration = n.isDeclaration := by cases n <;> rfl
  unfold Node.Repeats
  rw [hkind]
  cases hd : n.isDeclaration with
  | true =>
    obtain ⟨hne, p, i, hl⟩ := hm hd
    exact ⟨Node.compare_renumber_of_isDeclaration hwhole hd hl hne, Node.compare_renumber_of_isDeclaration hwhole hd hl hne.symm⟩
  | false =>
    have hstamps : ∀ {k m : Nat}, (n.renumber k m).stamps = n.stamps := by
      cases h with
      | query h => exact h.stamps_renumber
      | assign h => exact Node.stamps_renumber_of_operands rfl (List.forall_mem_singleton.mpr h.stamps_renumber)
      | declare h =>
        rw [h.declares] at hd
        cases hd
    exact ⟨(Node.compare_eq_ok_true_iff ((Node.isWhole_renumber n).trans hwhole)).mpr (hstamps.trans hstamps.symm),
      (Node.compare_eq_ok_true_iff ((Node.isWhole_renumber n).trans hwhole)).mpr (hstamps.trans hstamps.symm)⟩

/-- A text that is read again over the same schema makes the same nodes again, but no list of a dependency is the same. -/
theorem repeats_of_program {level : Level} {text : String} {w v u : Workspace} {as : List Node}
    (h : (program level .standard text).attempt w = (.ok as, v)) (hs : u.schema = w.schema) (hm : v.mark ≤ u.mark) :
    ∃ bs u', (program level .standard text).attempt u = (.ok bs, u') ∧ List.Forall₂ Node.Repeats as bs := by
  obtain ⟨ss, hp, hn⟩ := nodes_of_program (outcome_of_attempt h)
  obtain ⟨ns, v₀, hbase, rfl, rfl⟩ := exists_base_of_nodes hn
  have hturn := inTurn_of_parse hp hbase
  have hagain := nodes_of_base (hs ▸ hbase)
  refine ⟨_, _, attempt_program hp hagain, ?_⟩
  rw [List.forall₂_map_left_iff, List.forall₂_map_right_iff, List.forall₂_same]
  intro n hmem
  obtain ⟨_, _, hstated⟩ := hturn.chain.stated_of_mem n hmem
  -- a dependency has used up a mark in the first run, and the second one starts behind it
  refine hstated.repeats fun hd => ⟨?_, hturn.exists_marked n hmem hd⟩
  have hcount : 0 < ns.countP Node.isDeclaration := List.countP_pos_iff.mpr ⟨n, hmem, hd⟩
  have hmark := hturn.mark_eq
  have hle : v₀.mark + w.mark ≤ u.mark := hm
  simp only at hmark
  omega

/-- Nodes of texts are compared by the first place where their stamps differ, and this is an equivalence as far as it goes. Every
node is equal to itself, equality goes both ways and can be chained, and `Node.differs` tells the opposite. Nodes that differ
can be incomparable in one direction, where a node with a condition meets one that has none, but not in both. A text that is
read twice over the same schema makes nodes that are equal pairwise, except for its dependencies, which differ. -/
theorem compare_of_isRead {a b : Node} (ha : a.IsRead) (hb : b.IsRead) :
    a.compare b = Node.decided (firstDifference? a.stamps b.stamps) ∧
    a.compare a = .ok true ∧
    (∀ t, a.compare b = .ok t → b.compare a = .ok t ∨ t = false ∧ b.compare a = .error .incomparable) ∧
    (∀ e, a.compare b = .error e → e = .incomparable ∧ b.compare a = .ok false) ∧
    (∀ c, a.compare b = .ok true → b.compare c = .ok true → a.compare c = .ok true) ∧
    a.differs b = (a.compare b).map (!·) ∧
    ∀ text w v u as, (program .dependency .standard text).attempt w = (.ok as, v) → u.schema = w.schema → v.mark ≤ u.mark →
      ∃ bs u', (program .dependency .standard text).attempt u = (.ok bs, u') ∧ List.Forall₂ Node.Repeats as bs := by
  have haw := ha.isWhole
  have hbw := hb.isWhole
  refine ⟨Node.compare_eq haw b, (Node.compare_eq_ok_true_iff haw).mpr rfl, fun t ht => ?_, fun e => Node.compare_swap haw hbw,
    fun c hab hbc => ?_, ?_, fun text w v u as => repeats_of_program⟩
  · cases hba : b.compare a with
    | error e =>
      obtain ⟨rfl, hab⟩ := Node.compare_swap hbw haw hba
      rw [ht] at hab
      exact .inr ⟨Except.ok.inj hab, rfl⟩
    | ok s =>
      have hiff : t = true ↔ s = true := by
        have hab := Node.compare_eq_ok_true_iff (n := b) haw
        have hba' := Node.compare_eq_ok_true_iff (n := a) hbw
        rw [ht] at hab
        rw [hba] at hba'
        constructor
        · rintro rfl
          exact Except.ok.inj (hba'.mpr (hab.mp rfl).symm)
        · rintro rfl
          exact Except.ok.inj (hab.mpr (hba'.mp rfl).symm)
      rw [Bool.eq_iff_iff.mpr hiff]
      exact .inl rfl
  · rw [Node.compare_eq_ok_true_iff haw] at hab ⊢
    exact hab.trans ((Node.compare_eq_ok_true_iff hbw).mp hbc)
  · unfold Node.differs
    cases a.compare b <;> rfl

/-! ## Some nodes -/

/-- The node of a relation with one column. -/
def columnNode (name column : String) : Node := .relation ⟨some name, [⟨column, some name, false⟩], 0⟩

/-- A join without a name is known by its serial number. -/
def joinedNode (serial : Nat) : Node :=
  .join ⟨none, [⟨"a", some "r", false⟩, ⟨"b", some "s", false⟩], serial⟩ .cross (columnNode "r" "a") (columnNode "s" "b")

/-- Equal nodes under three numbers. -/
theorem compare_of_joinedNodes : (joinedNode 1).IsRead ∧ (joinedNode 2).IsRead ∧ (joinedNode 3).IsRead ∧
    joinedNode 1 ≠ joinedNode 2 ∧ (joinedNode 1).compare (joinedNode 3) = .ok true := by
  obtain ⟨ns, v, hn, hp⟩ := exists_run_of_any (p := fun ns => ns = [joinedNode 1, joinedNode 2, joinedNode 3])
    (x := (program .dependency .standard "r \\join s; r \\join s; r \\join s;").attempt (.start [("r", ["a"]), ("s", ["b"])]))
    (by decide +kernel)
  obtain rfl := of_decide_eq_true hp
  have h₁ : (joinedNode 1).IsRead := ⟨_, _, _, _, joinedNode 1, hn, by simp, List.mem_cons_self⟩
  have h₂ : (joinedNode 2).IsRead := ⟨_, _, _, _, joinedNode 2, hn, by simp, List.mem_cons_self⟩
  have h₃ : (joinedNode 3).IsRead := ⟨_, _, _, _, joinedNode 3, hn, by simp, List.mem_cons_self⟩
  obtain ⟨-, -, -, -, htrans, -⟩ := compare_of_isRead h₁ h₂
  exact ⟨h₁, h₂, h₃, by decide, htrans (joinedNode 3) rfl rfl⟩

/-- The selection of the rows in which the column of a relation is one. -/
def selectedNode : Node :=
  .select ⟨some "r", [⟨"a", some "r", false⟩], 0⟩ (.binary .equal (.operand "a") (.operand "1")) (columnNode "r" "a")

/-- A run that gives the nodes and leaves the workspace. -/
theorem eq_run_of_parts {x : Except Error (List Node) × Workspace} {ns : List Node} {w : Workspace}
    (h : x.1.toOption = some ns ∧ x.2.schema = w.schema ∧ x.2.serial = w.serial ∧ x.2.mark = w.mark) : x = (.ok ns, w) := by
  obtain ⟨_ | ms, schema, serial, mark⟩ := x
  · cases h.1
  · obtain ⟨hn, rfl, rfl, rfl⟩ := h
    cases hn
    rfl

/-- A selection cannot be compared with its relation, though the relation can be compared with it; and a key that is read twice
differs from itself. -/
theorem comparisons_fail : ∃ m n k l v w,
    (program .dependency .standard "\\select_\x7ba = 1\x7d r; r;").attempt (.start [("r", ["a"])]) = (.ok [m, n], v) ∧
    m.compare n = .error .incomparable ∧ n.compare m = .ok false ∧
    (program .dependency .standard "pk_\x7ba\x7d r;").attempt (.start [("r", ["a"])]) = (.ok [k], w) ∧
    (program .dependency .standard "pk_\x7ba\x7d r;").attempt w = (.ok [l], { w with mark := w.mark + 1 }) ∧
    k.compare l = .ok false := by
  refine ⟨selectedNode, columnNode "r" "a", .primaryKey (.handed (.word "r")) ⟨Phrase.words ["a"], some 0⟩,
    .primaryKey (.handed (.word "r")) ⟨Phrase.words ["a"], some 1⟩, ⟨[("r", ["a"])], 1, 0⟩, ⟨[("r", ["a"])], 1, 1⟩,
    eq_run_of_parts ?_, rfl, rfl, eq_run_of_parts ?_, eq_run_of_parts ?_, rfl⟩ <;> decide +kernel

end RelAlg
