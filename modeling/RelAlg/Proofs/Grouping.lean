import RelAlg.Proofs.Term

/-!
# Operators group to the left

A flat list of operands with operators between them is taken apart from its right end, and what is left of it is looked at anew
each time. Going through the list once from its left end gives the same: the first operand is made, and then each operator is
applied to what there is so far and to the operand that follows it (`node_eq_foldlM`). This is an equality of computations, so
it holds of the node, of the error and of the workspace that is left.
-/

namespace RelAlg.Build

/-! ## Links -/

/-- An operator with two operands of the extended language. One that has a condition has it as words. -/
inductive Combiner where
  | join
  | naturalJoin
  | conditionalJoin (kind : ConditionalJoin) (condition : Phrase)
  | setOperation (op : SetOperator)

namespace Combiner

/-- The symbol of the operator. -/
def symbol : Combiner → Symbol
  | join => .join
  | naturalJoin => .naturalJoin
  | conditionalJoin .theta _ => .thetaJoin
  | conditionalJoin .fullOuter _ => .fullOuterJoin
  | conditionalJoin .leftOuter _ => .leftOuterJoin
  | conditionalJoin .rightOuter _ => .rightOuterJoin
  | setOperation .union => .union
  | setOperation .difference => .difference
  | setOperation .intersect => .intersect

/-- The parameters: a list of one condition, or none. -/
def params : Combiner → Option (List Phrase)
  | conditionalJoin _ condition => some [condition]
  | join | naturalJoin | setOperation _ => none

/-- The operators are all that the extended language has between two operands. -/
theorem exists_symbol_iff (s : Symbol) : (∃ c : Combiner, c.symbol = s) ↔ s ∈ Lexicon.coreBinary ++ Lexicon.extendedBinary := by
  constructor
  · rintro ⟨c, rfl⟩
    cases c with
    | conditionalJoin kind condition => cases kind <;> simp [symbol, Lexicon.coreBinary, Lexicon.extendedBinary]
    | setOperation op => cases op <;> decide
    | _ => decide
  · intro h
    simp only [Lexicon.coreBinary, Lexicon.extendedBinary, List.cons_append, List.nil_append, List.mem_cons,
      List.not_mem_nil, or_false] at h
    rcases h with rfl | rfl | rfl | rfl | rfl | rfl | rfl | rfl | rfl
    · exact ⟨setOperation .difference, rfl⟩
    · exact ⟨setOperation .union, rfl⟩
    · exact ⟨join, rfl⟩
    · exact ⟨setOperation .intersect, rfl⟩
    · exact ⟨naturalJoin, rfl⟩
    · exact ⟨conditionalJoin .theta (.group []), rfl⟩
    · exact ⟨conditionalJoin .fullOuter (.group []), rfl⟩
    · exact ⟨conditionalJoin .leftOuter (.group []), rfl⟩
    · exact ⟨conditionalJoin .rightOuter (.group []), rfl⟩

theorem isBinary?_symbol {level : Level} (hl : level.includes .extended = true) (c : Combiner) :
    Lexicon.isBinary? level .standard (some (Lexicon.usual c.symbol)) = some true := by
  have hall : ∀ s ∈ Lexicon.coreBinary ++ Lexicon.extendedBinary,
      Lexicon.isBinary? level .standard (some (Lexicon.usual s)) = some true := by
    rcases extended_or_dependency hl with rfl | rfl <;> decide
  exact hall _ ((exists_symbol_iff c.symbol).mp ⟨c, rfl⟩)

theorem not_isAssign_symbol (c : Combiner) : Lexicon.standard.isAssign (Lexicon.usual c.symbol) = false := by
  have hall : ∀ s ∈ Lexicon.coreBinary ++ Lexicon.extendedBinary, Lexicon.standard.isAssign (Lexicon.usual s) = false := by
    decide
  exact hall _ ((exists_symbol_iff c.symbol).mp ⟨c, rfl⟩)

end Combiner

/-- An operator and the operand that follows it. -/
structure Link where
  combiner : Combiner
  operand : List Phrase

namespace Link

/-- The words of a link: the operator, its parameters if it has any, and the list of its operand. -/
def phrases (k : Link) : List Phrase :=
  .word (Lexicon.usual k.combiner.symbol) :: (k.combiner.params.map Phrase.group).toList ++ [.group k.operand]

/-- Apply the operator of a link to the node so far and to the node of its operand. -/
def apply (level : Level) (assigns : String → Bool) (left : Node) (k : Link) : Build Node := do
  let right ← node level .standard assigns k.operand
  binary .standard (Lexicon.usual k.combiner.symbol) left right (k.combiner.params.map Phrase.group)

end Link

/-! ## Lists of links -/

section

variable {level : Level} {assigns : String → Bool}

/-- The last link of a list is applied to what the list without it makes. -/
theorem node_append_link (hl : level.includes .extended = true) (ha : ∀ w, assigns w = true → Lexicon.standard.isAssign w = true)
    (first : List Phrase) (links : List Link) (k : Link) :
    node level .standard assigns (.group first :: (links ++ [k]).flatMap Link.phrases) = (do
      let left ← node level .standard assigns (.group first :: links.flatMap Link.phrases)
      k.apply level assigns left) := by
  have hlast : lastOperation? (.group first :: (links ++ [k]).flatMap Link.phrases)
      = some ⟨.group first :: links.flatMap Link.phrases, .word (Lexicon.usual k.combiner.symbol),
          k.combiner.params.map Phrase.group, .list k.operand⟩ := by
    rw [List.flatMap_append, List.flatMap_singleton, Link.phrases, ← List.cons_append, ← List.append_assoc]
    exact lastOperation?_of_params _ _ _ _
  -- the second part of the list is the operator of its first link, whichever that is
  obtain ⟨j, more, hj⟩ : ∃ (j : Link) (more : List Phrase),
      (links ++ [k]).flatMap Link.phrases = .word (Lexicon.usual j.combiner.symbol) :: more := by
    cases links with
    | nil => exact ⟨k, _, rfl⟩
    | cons j js => exact ⟨j, _, rfl⟩
  have hassign : assigns (Lexicon.usual j.combiner.symbol) = false := by
    rw [Bool.eq_false_iff]
    exact fun h => Bool.false_ne_true (j.combiner.not_isAssign_symbol.symm.trans (ha _ h))
  rw [hj] at hlast ⊢
  exact node_operation rfl (j.combiner.isBinary?_symbol hl) hassign hlast

/-- The node of a flat list of operands with operators between them, at every level that has the extended language and
whichever words of the second place are assignments: make the first operand, and then, from left to right, the operand of each
link, and apply the operator of the link to what there is so far and to that operand. -/
theorem node_eq_foldlM (hl : level.includes .extended = true) (ha : ∀ w, assigns w = true → Lexicon.standard.isAssign w = true)
    (first : List Phrase) (links : List Link) :
    node level .standard assigns (.group first :: links.flatMap Link.phrases) = (do
      let left ← node level .standard assigns first
      links.foldlM (Link.apply level assigns) left) := by
  induction links using List.reverseRecOn with
  | nil =>
    simp only [List.flatMap_nil, List.foldlM_nil, bind_pure]
    exact node_list level .standard assigns first
  | append_singleton links k ih =>
    rw [node_append_link hl ha, ih, bind_assoc]
    simp only [List.foldlM_append, List.foldlM_cons, List.foldlM_nil, bind_pure]

end

/-- A difference before a theta join is made first, although the join binds closer where a text has the two. -/
theorem nodeOf_joined_difference : Level.includes .extended .extended = true ∧
    (∀ w, Lexicon.standard.isAssign w = true → Lexicon.standard.isAssign w = true) ∧
    nodeOf .extended .standard (.group [.group [.word "r"], .word "\\difference", .group [.word "s"], .word "\\theta_join",
      .group [.group [.word "a", .word "=", .word "b"]], .group [.word "t"]]) = (do
        let r ← nodeOf .extended .standard (.group [.word "r"])
        let s ← nodeOf .extended .standard (.group [.word "s"])
        let difference ← binary .standard "\\difference" r s none
        let t ← nodeOf .extended .standard (.group [.word "t"])
        binary .standard "\\theta_join" difference t (some (.group [.group [.word "a", .word "=", .word "b"]]))) := by
  have hassign : ∀ w, Lexicon.standard.isAssign w = true → Lexicon.standard.isAssign w = true := fun _ h => h
  have h := node_eq_foldlM (by decide : Level.includes .extended .extended = true) hassign [.word "r"]
    [⟨.setOperation .difference, [.word "s"]⟩, ⟨.conditionalJoin .theta (.group [.word "a", .word "=", .word "b"]), [.word "t"]⟩]
  refine ⟨by decide, hassign, h.trans ?_⟩
  simp only [List.foldlM_cons, List.foldlM_nil, bind_pure, Link.apply, bind_assoc]
  rfl

end RelAlg.Build
