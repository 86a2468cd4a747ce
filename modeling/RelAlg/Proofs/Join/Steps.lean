import RelAlg.Proofs.Join.Regroup
import RelAlg.Proofs.Schema

/-!
# Joins as they are written in a row

A tree of joins over relations, written without the parentheses around an operand on the right, is a first relation followed
by `Steps`: a join without condition and a relation, or a join with a condition and the row of joins up to that condition.
`Node.steps` are the steps of a node, and `Steps.table` joins them from left to right. For a node that regroups
(`Node.regroups`) this gives its rows.
-/

namespace RelAlg

variable {α : Type}

/-- A join without condition. -/
inductive PlainJoin where
  | cross
  | natural
  deriving DecidableEq, Repr

/-- The join that it is. -/
def PlainJoin.toJoin : PlainJoin → Join
  | cross => .cross
  | natural => .natural

/-- What follows the first relation of a row of joins. -/
inductive Steps where
  | nil
  | plain (op : PlainJoin) (name : String) (rest : Steps)
  | conditioned (kind : ConditionalJoin) (condition : Condition) (first : String) (item rest : Steps)

namespace Steps

/-- The step of a join whose right operand is a row of joins. Without a condition nothing shows where that row ends. -/
def ofJoin (first : String) (item : Steps) : Join → Steps
  | .cross => plain .cross first item
  | .natural => plain .natural first item
  | .conditional kind condition => conditioned kind condition first item nil

/-- A join without a condition is a plain step. -/
theorem ofJoin_of_isPlain {op : Join} (h : op.isPlain = true) (first : String) (item : Steps) :
    ∃ p : PlainJoin, p.toJoin = op ∧ ofJoin first item op = plain p first item := by
  cases op with
  | cross => exact ⟨.cross, rfl, rfl⟩
  | natural => exact ⟨.natural, rfl, rfl⟩
  | conditional kind condition => cases h

/-- Steps after steps. -/
def append : Steps → Steps → Steps
  | nil, ts => ts
  | plain op name rest, ts => plain op name (rest.append ts)
  | conditioned kind condition first item rest, ts => conditioned kind condition first item (rest.append ts)

/-- Behind a join there is at least one step. -/
theorem append_ofJoin_ne_nil (ss : Steps) (first : String) (item : Steps) (op : Join) :
    ss.append (ofJoin first item op) ≠ nil := by
  cases ss <;> cases op <;> nofun

variable [DecidableEq α]

/-- A table joined with the tables of the steps, one after the other. -/
def table (v : Values α) (leaf : String → Table α) : Table α → Steps → Table α
  | t, nil => t
  | t, plain op name rest => rest.table v leaf (t.join v op.toJoin (leaf name))
  | t, conditioned kind condition first item rest =>
    rest.table v leaf (t.join v (.conditional kind condition) (item.table v leaf (leaf first)))

/-- The joins of the steps, each with the attributes of its right operand. -/
def spine (v : Values α) (leaf : String → Table α) : Steps → List (Join × AttributeList)
  | nil => []
  | plain op name rest => (op.toJoin, (leaf name).heading) :: rest.spine v leaf
  | conditioned kind condition first item rest =>
    (.conditional kind condition, (item.table v leaf (leaf first)).heading) :: rest.spine v leaf

/-- Every reference of a condition fits an attribute on one of its sides. -/
def Valid (v : Values α) (leaf : String → Table α) : Table α → Steps → Prop
  | _, nil => True
  | t, plain op name rest => rest.Valid v leaf (t.join v op.toJoin (leaf name))
  | t, conditioned kind condition first item rest =>
    (∀ r ∈ condition.references, ∃ b ∈ t.heading ++ (item.table v leaf (leaf first)).heading,
      (Reference.ofText r).fits b = true)
    ∧ rest.Valid v leaf (t.join v (.conditional kind condition) (item.table v leaf (leaf first)))

variable {v : Values α} {leaf : String → Table α}

/-- Joining with steps in a row is joining with the first and then with the others. -/
theorem table_append (t : Table α) (ss ts : Steps) :
    (ss.append ts).table v leaf t = ts.table v leaf (ss.table v leaf t) := by
  induction ss generalizing t with
  | nil => rfl
  | plain op name rest ih => exact ih _
  | conditioned kind condition first item rest _ ih => exact ih _

/-- The joins of steps in a row are those of the first and then those of the others. -/
theorem spine_append (ss ts : Steps) : (ss.append ts).spine v leaf = ss.spine v leaf ++ ts.spine v leaf := by
  induction ss with
  | nil => rfl
  | plain op name rest ih => exact congrArg _ ih
  | conditioned kind condition first item rest _ ih => exact congrArg _ ih

/-- Steps in a row are valid if each part is where it starts. -/
theorem valid_append {t : Table α} {ss ts : Steps} (hs : ss.Valid v leaf t) (ht : ts.Valid v leaf (ss.table v leaf t)) :
    (ss.append ts).Valid v leaf t := by
  induction ss generalizing t with
  | nil => exact ht
  | plain op name rest ih => exact ih hs ht
  | conditioned kind condition first item rest _ ih => exact ⟨hs.1, ih hs.2 ht⟩

/-- Joining tables that fit their headings gives one that fits. -/
theorem fits_table (hl : ∀ name, (leaf name).Fits) {t : Table α} (ht : t.Fits) (ss : Steps) : (ss.table v leaf t).Fits := by
  induction ss generalizing t with
  | nil => exact ht
  | plain op name rest ih => exact ih (ht.join (hl name) v _)
  | conditioned kind condition first item rest ihi ihr => exact ihr (ht.join (ihi (hl first)) v _)

omit [DecidableEq α] in
/-- A reference of a join that is passed still fits an attribute, as the join before it hides none that is named. -/
theorem exists_fits_heading {a t c : AttributeList} {x y : Join} (hp : Join.passes a x y c = true) {r : String}
    (hr : r ∈ y.references) (hv : ∃ b ∈ t ++ c, (Reference.ofText r).fits b = true) :
    ∃ b ∈ x.heading a t ++ c, (Reference.ofText r).fits b = true := by
  obtain ⟨b, hb, hf⟩ := hv
  rcases List.mem_append.mp hb with hb | hb
  · cases x with
    | cross => exact ⟨b, List.mem_append_left _ (List.mem_append_right _ hb), hf⟩
    | natural =>
      by_cases hn : a.isNew b = true
      · exact ⟨b, List.mem_append_left _ (List.mem_append_right _ (List.mem_filter.mpr ⟨hb, hn⟩)), hf⟩
      · -- A hidden attribute has the name of one on the left, and the reference names no relation.
        rw [AttributeList.isNew_iff] at hn
        push Not at hn
        obtain ⟨e, he, heb⟩ := hn
        rw [ne_eq, Bool.not_eq_false] at heb
        obtain ⟨hl, -, hname⟩ := Attribute.matches_iff.mp heb
        have hre : (Reference.ofText r).name = e.name := (Reference.fits_iff.mp hf).2.1.trans hname.symm
        cases y with
        | cross => cases hr
        | natural => cases hr
        | conditional kind condition =>
          simp only [Join.passes, Bool.and_eq_true, List.all_eq_true, Bool.or_eq_true, decide_eq_true_eq] at hp
          rcases hp.2 r hr with hq | hq
          · exact ⟨e, List.mem_append_left _ (List.mem_append_left _ he), Reference.fits_iff.mpr ⟨hl, hre, .inl hq⟩⟩
          · exact absurd hre.symm (hq e he)
    | conditional _ _ => cases hp
  · exact ⟨b, List.mem_append_right _ hb, hf⟩

/-- A join without condition passes over all steps on its right. -/
theorem join_table (hl : ∀ name, (leaf name).Fits) {a t : Table α} (ha : a.Fits) (ht : t.Fits) {op : Join} {ss : Steps}
    (hp : ∀ s ∈ ss.spine v leaf, Join.passes a.heading op s.1 s.2 = true) (hv : ss.Valid v leaf t) :
    a.join v op (ss.table v leaf t) = ss.table v leaf (a.join v op t) ∧ ss.Valid v leaf (a.join v op t) := by
  induction ss generalizing t with
  | nil => exact ⟨rfl, trivial⟩
  | plain y name rest ih =>
    have hy : ∀ r ∈ y.toJoin.references, ∃ b ∈ t.heading ++ (leaf name).heading, (Reference.ofText r).fits b = true := by
      cases y <;> nofun
    have hj := Table.join_join (v := v) ha ht (hl name) (hp _ List.mem_cons_self) hy
    have hr := ih (ht.join (hl name) v y.toJoin) (fun s hs => hp s (List.mem_cons_of_mem _ hs)) hv
    rw [hj] at hr
    exact hr
  | conditioned kind condition first item rest _ ih =>
    have hf := fits_table hl (hl first) item (v := v)
    have h₁ := hp _ List.mem_cons_self
    have hj := Table.join_join (v := v) ha ht hf h₁ hv.1
    obtain ⟨he, hr⟩ := ih (ht.join hf v (.conditional kind condition)) (fun s hs => hp s (List.mem_cons_of_mem _ hs)) hv.2
    rw [hj] at he hr
    exact ⟨he, fun r hr => exists_fits_heading h₁ hr (hv.1 r hr), hr⟩

end Steps

/-! ## Trees of joins -/

namespace Node

/-- The node is made of relations and joins. -/
def isJoinTree : Node → Bool
  | relation _ => true
  | join _ _ left right => left.isJoinTree && right.isJoinTree
  | _ => false

/-- The first relation of a tree of joins. -/
def first : Node → String
  | join _ _ left _ => left.first
  | n => n.name.getD ""

/-- The attributes of the first relation. -/
def firstHeading : Node → AttributeList
  | join _ _ left _ => left.firstHeading
  | n => n.heading

/-- The steps after the first relation. -/
def steps : Node → Steps
  | join _ op left right => left.steps.append (.ofJoin right.first right.steps op)
  | _ => .nil

/-- The joins of the steps, each with the attributes of its right operand. -/
def spine : Node → List (Join × AttributeList)
  | join _ op left right =>
    left.spine ++ if op.isPlain then (op, right.firstHeading) :: right.spine else [(op, right.heading)]
  | _ => []

/-- Every join without condition may pass over the joins on its right. -/
def regroups : Node → Bool
  | join _ op left right =>
    left.regroups && right.regroups && (!op.isPlain || right.spine.all fun s => Join.passes left.heading op s.1 s.2)
  | _ => true

end Node

/-- The attributes have texts for names, under qualifiers that are names. -/
def AttributeList.IsQualified (l : AttributeList) : Prop :=
  ∀ a ∈ l, a.isList = false ∧ ∃ q, a.qualifier = some q ∧ isName q = true

/-- Under qualifiers an attribute as it is written is found as itself, if it is found. -/
theorem AttributeList.IsQualified.eq_of_get {l : AttributeList} (hq : l.IsQualified) {a b : Attribute} (ha : a ∈ l)
    (h : l.get a.qualified = .ok b) : b = a := by
  obtain ⟨hl, q, hqa, hn⟩ := hq a ha
  have hw : a.qualified = q ++ "." ++ a.name := by
    rw [Attribute.qualified, Node.given_of_isName (fun p hp => by rw [hqa] at hp; cases hp; exact hn), hqa]
  obtain ⟨hb, hfb⟩ := mem_of_get h
  by_cases hd : '.' ∈ a.name.toList
  · -- The reference is divided inside the name, so what stands before is no name.
    have hs : a.qualified = q ++ "." ++ (Reference.ofText a.name).qualifier ++ "." ++ (Reference.ofText a.name).name := by
      rw [hw]
      conv_lhs => rw [Reference.eq_append_of_mem hd]
      simp only [String.append_assoc]
    rw [hs, Reference.ofText_append (Reference.not_mem_name _), Reference.fits_iff] at hfb
    obtain ⟨p, hp, hpn⟩ := (hq b hb).2
    exfalso
    rcases hfb.2.2 with he | he
    · exact absurd (congrArg String.toList he) (by simp)
    · rw [hp] at he
      cases he
      exact not_dot_of_isName hpn (by simp)
  · have hf : (Reference.ofText a.qualified).fits a = true := by
      rw [hw, Reference.ofText_append hd, Reference.fits_iff]
      exact ⟨hl, rfl, .inr hqa⟩
    have hm : a ∈ l.filter (Reference.ofText a.qualified).fits := List.mem_filter.mpr ⟨ha, hf⟩
    rw [get_eq_ok_iff.mp h] at hm
    exact (List.mem_singleton.mp hm).symm

/-- The attributes of a join, and that the references of its condition stand for some of them. -/
theorem Join.heading_of_joinAttributes {op : Join} {l r attributes : AttributeList}
    (hq : AttributeList.IsQualified (l ++ r)) (h : Node.joinAttributes op l r = .ok attributes) :
    attributes = op.heading l r
      ∧ ∀ ref ∈ op.references, ∃ b ∈ l ++ r, (Reference.ofText ref).fits b = true := by
  cases op with
  | cross => cases h; exact ⟨rfl, nofun⟩
  | natural =>
    refine ⟨?_, nofun⟩
    have hsub : ∀ a ∈ l ++ r.filter l.isNew, a ∈ l ++ r := fun a ha =>
      List.mem_append.mpr ((List.mem_append.mp ha).imp id List.mem_of_mem_filter)
    have hrefs : Node.naturalReferences l r = AttributeList.qualifiedNames (l ++ r.filter l.isNew) :=
      (List.map_append ..).symm
    have hf : List.Forall₂ (fun a b => AttributeList.get (l ++ r) a.qualified = .ok b) (l ++ r.filter l.isNew) attributes := by
      have := (AttributeList.trim_ok h).1
      rwa [hrefs, AttributeList.qualifiedNames, List.forall₂_map_left_iff] at this
    show attributes = l ++ r.filter l.isNew
    generalize l ++ r.filter l.isNew = kept at hsub hf
    clear h
    induction hf with
    | nil => rfl
    | cons hab _ ih =>
      rw [ih fun a ha => hsub a (List.mem_cons_of_mem _ ha), hq.eq_of_get (hsub _ List.mem_cons_self) hab]
  | conditional kind condition =>
    obtain ⟨rfl, hv⟩ := Node.joinAttributes_conditional h
    refine ⟨rfl, fun ref hr => ?_⟩
    obtain ⟨b, hb⟩ := AttributeList.get_of_validate hv ref hr
    exact ⟨b, AttributeList.mem_of_get hb⟩

namespace Node

variable {schema : Schema} {n : Node}

/-- The attributes of a tree of joins are all under names of relations. -/
theorem Made.isQualified (h : n.Made schema) (hj : n.isJoinTree = true) : n.heading.IsQualified := by
  induction h with
  | relation hn _ =>
    intro a ha
    obtain ⟨m, -, rfl⟩ := List.mem_map.mp ha
    exact ⟨rfl, _, rfl, hn⟩
  | join _ _ _ _ ha ihl ihr =>
    rw [isJoinTree, Bool.and_eq_true] at hj
    exact forall_mem_joinAttributes ha (ihl hj.1) (ihr hj.2)
  | select => cases hj
  | project => cases hj
  | rename => cases hj
  | setOperation => cases hj

variable [DecidableEq α]

/-- The table of a relation. -/
def leafTable (schema : Schema) (db : Database α) (name : String) : Table α :=
  match schema.get name with
  | .ok names => ⟨.ofNames names (some name), db name⟩
  | .error _ => ⟨[], 0⟩

omit [DecidableEq α] in
/-- The table of a relation fits its heading if the database fits the schema. -/
theorem fits_leafTable {db : Database α} (h : db.Fits schema) (name : String) : (leafTable schema db name).Fits := by
  intro x hx
  unfold leafTable at hx ⊢
  split at hx
  · rename_i names hg
    rw [h _ (mem_of_lookup (Schema.get_eq_ok hg).1) x hx, AttributeList.ofNames, List.length_map]
  · simp at hx

/-- The attributes and rows of a node. -/
def table (v : Values α) (db : Database α) (n : Node) : Table α := ⟨n.heading, n.rows v .bag db⟩

/-- A node that regroups is its first relation joined with its steps one by one. -/
theorem Made.table_eq (h : n.Made schema) {db : Database α} (hdb : db.Fits schema) (v : Values α)
    (hj : n.isJoinTree = true) (hr : n.regroups = true) :
    n.table v db = n.steps.table v (leafTable schema db) (leafTable schema db n.first)
      ∧ n.steps.spine v (leafTable schema db) = n.spine
      ∧ n.steps.Valid v (leafTable schema db) (leafTable schema db n.first)
      ∧ (leafTable schema db n.first).heading = n.firstHeading := by
  induction h with
  | @relation name names serial hn hg =>
    have hl : leafTable schema db name = ⟨.ofNames names (some name), db name⟩ := by rw [leafTable, hg]
    refine ⟨hl.symm, rfl, trivial, ?_⟩
    show (leafTable schema db name).heading = _
    rw [hl]
    rfl
  | @join op left right attributes serial hml hmr ho hn ha ihl ihr =>
    rw [isJoinTree, Bool.and_eq_true] at hj
    rw [regroups, Bool.and_eq_true, Bool.and_eq_true] at hr
    obtain ⟨⟨hrl, hrr⟩, hpass⟩ := hr
    obtain ⟨htl, hsl, hvl, hfl⟩ := ihl hj.1 hrl
    obtain ⟨htr, hsr, hvr, hfr⟩ := ihr hj.2 hrr
    have hleaf := fits_leafTable hdb
    have hql : AttributeList.IsQualified (left.heading ++ right.heading) := fun a hm =>
      (List.mem_append.mp hm).elim (hml.isQualified hj.1 a) (hmr.isQualified hj.2 a)
    obtain ⟨hh, hrefs⟩ := Join.heading_of_joinAttributes hql ha
    have ht : (Node.join (Head.make none attributes serial) op left right).table v db
        = (left.table v db).join v op (right.table v db) := by
      show Table.mk attributes _ = _
      rw [hh]
      rfl
    rw [ht, steps, Steps.table_append, Steps.spine_append, hsl, spine, first, ← htl]
    cases hop : op.isPlain with
    | true =>
      obtain ⟨p, rfl, hstep⟩ := Steps.ofJoin_of_isPlain hop right.first right.steps
      have hlf : (left.table v db).Fits := htl ▸ Steps.fits_table hleaf (hleaf _) _
      rw [hop, Bool.not_true, Bool.false_or, List.all_eq_true] at hpass
      obtain ⟨he, hv⟩ := Steps.join_table hleaf hlf (hleaf right.first) (hsr ▸ hpass) hvr
      rw [hstep]
      refine ⟨?_, ?_, Steps.valid_append hvl ?_, hfl⟩
      · rw [htr, he, Steps.table]
      · rw [Steps.spine, hsr, hfr, if_pos rfl]
      · rw [← htl]
        exact hv
    | false =>
      cases op with
      | cross => cases hop
      | natural => cases hop
      | conditional kind condition =>
        refine ⟨?_, ?_, Steps.valid_append hvl ?_, hfl⟩
        · rw [htr]
          rfl
        · rw [Steps.ofJoin, Steps.spine, ← htr]
          rfl
        · rw [← htl, Steps.ofJoin, Steps.Valid, ← htr]
          exact ⟨hrefs, trivial⟩
  | select => cases hj
  | project => cases hj
  | rename => cases hj
  | setOperation => cases hj

end Node

end RelAlg
