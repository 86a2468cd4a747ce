import RelAlg.Proofs.Join.Steps
import RelAlg.Proofs.Sql.ConditionText

/-!
# Reading joins back from SQL

The SQL of a tree of joins writes the joins in a row, without parentheses around an operand on the right. From the text the
first relation and the steps after it can be read back (`Steps.text_inj`), so trees with one text are joined from the same
steps; where both regroup, they have the same rows. Where they do not, the same text may stand for trees with different rows.
-/

namespace RelAlg

open Sql

variable {α : Type}

/-! ## Lists of columns -/

/-- A list starts with its first member. -/
theorem exists_commaList_cons (name : String) (names : List String) :
    ∃ rest, commaList (name :: names) = name ++ rest := by
  cases names with
  | nil => exact ⟨"", by simp [commaList]⟩
  | cons m names => exact ⟨", " ++ commaList (m :: names), by simp [commaList, String.append_assoc]⟩

/-- A list has the characters of its members, commas and blanks. -/
theorem mem_commaList {names : List String} {c : Char} (h : c ∈ (commaList names).toList) :
    c = ',' ∨ c = ' ' ∨ ∃ n ∈ names, c ∈ n.toList := by
  induction names with
  | nil => simp [commaList] at h
  | cons name names ih =>
    cases names with
    | nil => exact .inr (.inr ⟨name, List.mem_cons_self, by simpa [commaList] using h⟩)
    | cons m names =>
      have hc : commaList (name :: m :: names) = name ++ ", " ++ commaList (m :: names) := String.intercalate_cons_cons
      rw [hc, String.toList_append, String.toList_append, List.mem_append, List.mem_append] at h
      rcases h with (h | h) | h
      · exact .inr (.inr ⟨name, List.mem_cons_self, h⟩)
      · rcases List.mem_cons.mp h with h | h
        · exact .inl h
        · exact .inr (.inl (List.mem_singleton.mp h))
      · exact (ih h).imp id (Or.imp id fun ⟨n, hn, hm⟩ => ⟨n, List.mem_cons_of_mem _ hn, hm⟩)

/-- An attribute under a name that texts write is written with it. -/
theorem qualified_of_isName {a : Attribute} {q : String} (hq : a.qualifier = some q) (hn : isName q = true) :
    a.qualified = q ++ "." ++ a.name := by
  rw [Attribute.qualified, Node.given_of_isName (fun p hp => by rw [hq] at hp; cases hp; exact hn), hq]

/-- Attributes under qualifiers are no empty list. -/
theorem isEmpty_commaList {l : AttributeList} (hne : l ≠ []) (hq : l.IsQualified) :
    (commaList l.qualifiedNames).isEmpty = false := by
  obtain ⟨a, as, rfl⟩ := List.exists_cons_of_ne_nil hne
  obtain ⟨-, q, hqa, hn⟩ := hq a List.mem_cons_self
  obtain ⟨rest, hrest⟩ := exists_commaList_cons a.qualified (AttributeList.qualifiedNames as)
  show (commaList (a.qualified :: AttributeList.qualifiedNames as)).isEmpty = false
  rw [hrest, qualified_of_isName hqa hn]
  simp

/-- The text of a selection without filters. -/
theorem text_select {columns : List String} {source : Source} {s : String} (h : (commaList columns).isEmpty = false)
    (hs : source.text .bag = some s) :
    (Query.select none columns source []).text .bag = "SELECT " ++ commaList columns ++ " FROM " ++ s := by
  simp only [Query.text, Blocks.text, h, hs, nameText, filterText, List.foldl_nil]
  simp

/-! ## Texts of steps -/

/-- How SQL writes a join without condition. -/
def PlainJoin.word : PlainJoin → String
  | cross => "CROSS JOIN"
  | natural => "NATURAL JOIN"

/-- The relation can be an operand. -/
def Schema.IsLeaf (schema : Schema) (name : String) : Prop := isName name = true ∧ ∃ names, schema.get name = .ok names

/-- The text of a relation as an operand of a join. -/
def Schema.leafText (schema : Schema) (name : String) : String :=
  "(SELECT " ++ commaList (AttributeList.ofNames ((schema.get name).toOption.getD []) (some name)).qualifiedNames
    ++ " FROM " ++ name ++ ") AS " ++ name

/-- A relation as an operand is written with its own name first. -/
theorem Schema.IsLeaf.exists_leafText {schema : Schema} {name : String} (h : schema.IsLeaf name) :
    ∃ rest : List Char, (schema.leafText name).toList = "(SELECT ".toList ++ (name.toList ++ '.' :: rest) := by
  obtain ⟨hn, names, hg⟩ := h
  obtain ⟨-, hne⟩ := Schema.get_eq_ok hg
  obtain ⟨n, ns, rfl⟩ := List.exists_cons_of_ne_nil hne
  obtain ⟨rest, hrest⟩ := exists_commaList_cons (name ++ "." ++ n) (AttributeList.ofNames ns (some name)).qualifiedNames
  have hq : (AttributeList.ofNames (n :: ns) (some name)).qualifiedNames
      = (name ++ "." ++ n) :: (AttributeList.ofNames ns (some name)).qualifiedNames :=
    congrArg (· :: _) (qualified_of_isName (a := ⟨n, some name, false⟩) rfl hn)
  refine ⟨n.toList ++ (rest ++ " FROM " ++ name ++ ") AS " ++ name).toList, ?_⟩
  rw [Schema.leafText, hg]
  show ("(SELECT " ++ commaList (AttributeList.ofNames (n :: ns) (some name)).qualifiedNames
    ++ " FROM " ++ name ++ ") AS " ++ name).toList = _
  rw [hq, hrest]
  simp

/-- A relation is read back from its text as an operand. -/
theorem Schema.leafText_inj {schema : Schema} {m n : String} (hm : schema.IsLeaf m) (hn : schema.IsLeaf n) {q r : List Char}
    (h : (schema.leafText m).toList ++ q = (schema.leafText n).toList ++ r) : m = n ∧ q = r := by
  obtain ⟨x, hx⟩ := hm.exists_leafText
  obtain ⟨y, hy⟩ := hn.exists_leafText
  have he : m.toList ++ '.' :: (x ++ q) = n.toList ++ '.' :: (y ++ r) := by
    have := h
    rw [hx, hy] at this
    simpa using this
  have hp : ∀ {u : String}, isName u = true → ∀ c ∈ u.toList, decide (c ≠ '.') = true := fun hu c hc =>
    decide_eq_true fun e => not_dot_of_isName hu (e ▸ hc)
  have hd : ∀ {q : List Char}, ∀ c ∈ ('.' :: q).head?, decide (c ≠ '.') = false := by
    rintro q c ⟨⟩
    decide
  obtain ⟨hname, -⟩ := append_inj_of_all (hp hm.1) (hp hn.1) hd hd he
  obtain rfl := String.toList_inj.mp hname
  exact ⟨rfl, List.append_cancel_left h⟩

namespace Steps

/-- The text of steps. -/
def text (schema : Schema) : Steps → String
  | nil => ""
  | plain op name rest => " " ++ op.word ++ " " ++ schema.leafText name ++ rest.text schema
  | conditioned kind condition first item rest =>
    " " ++ conditionalJoinWord kind ++ " " ++ schema.leafText first ++ item.text schema ++ " ON " ++ condition.sqlText
      ++ rest.text schema

/-- The steps have relations of the schema and conditions that can be read back. -/
def IsWritten (schema : Schema) : Steps → Prop
  | nil => True
  | plain _ name rest => schema.IsLeaf name ∧ rest.IsWritten schema
  | conditioned _ condition first item rest =>
    schema.IsLeaf first ∧ condition.IsWritten ∧ condition.literalsClosed = true ∧ item.IsWritten schema
      ∧ rest.IsWritten schema

/-- The word that follows a blank after which steps start, or end at a condition. -/
def word : Steps → String
  | nil => "ON"
  | plain op _ _ => op.word
  | conditioned kind _ _ _ _ => conditionalJoinWord kind

/-- What may follow the steps in a row: nothing, or the condition that ends them. -/
def Ends (q : List Char) : Prop := q = [] ∨ ∃ r, q = ' ' :: ("ON".toList ++ ' ' :: r)

variable {schema : Schema} {ss ts : Steps} {q r : List Char}

/-- The text of steps in a row is that of the first and then that of the others. -/
theorem text_append (schema : Schema) (ss ts : Steps) : (ss.append ts).text schema = ss.text schema ++ ts.text schema := by
  induction ss with
  | nil => simp [append, text]
  | plain op name rest ih => simp only [append, text, ih, String.append_assoc]
  | conditioned kind condition first item rest _ ih => simp only [append, text, ih, String.append_assoc]

/-- Steps in a row are written if both parts are. -/
theorem isWritten_append (hs : ss.IsWritten schema) (ht : ts.IsWritten schema) : (ss.append ts).IsWritten schema := by
  induction ss with
  | nil => exact ht
  | plain op name rest ih => exact ⟨hs.1, ih hs.2⟩
  | conditioned kind condition first item rest _ ih =>
    obtain ⟨hf, hw, hc, hi, hr⟩ := hs
    exact ⟨hf, hw, hc, hi, ih hr⟩

/-- The characters of a step without a condition and of what follows it. -/
theorem toList_plain (op : PlainJoin) (name : String) (rest : Steps) (q : List Char) :
    ((plain op name rest).text schema).toList ++ q
      = ' ' :: (op.word.toList ++ ' ' :: ((schema.leafText name).toList ++ ((rest.text schema).toList ++ q))) := by
  simp [text]

/-- The characters of a step with a condition and of what follows it. -/
theorem toList_conditioned (kind : ConditionalJoin) (condition : Condition) (first : String) (item rest : Steps)
    (q : List Char) : ((conditioned kind condition first item rest).text schema).toList ++ q
      = ' ' :: ((conditionalJoinWord kind).toList ++ ' ' :: ((schema.leafText first).toList ++ ((item.text schema).toList
        ++ ' ' :: ("ON".toList ++ ' ' :: (condition.sqlText.toList ++ ((rest.text schema).toList ++ q)))))) := by
  simp [text]

/-- Steps and what follows them are empty, or they start with their word. -/
theorem exists_word (schema : Schema) (ss : Steps) (hq : Ends q) : (ss = nil ∧ q = [])
    ∨ ∃ tail, (ss.text schema).toList ++ q = ' ' :: (ss.word.toList ++ ' ' :: tail) := by
  cases ss with
  | nil =>
    rcases hq with rfl | ⟨r, rfl⟩
    · exact .inl ⟨rfl, rfl⟩
    · exact .inr ⟨r, rfl⟩
  | plain op name rest => exact .inr ⟨_, toList_plain ..⟩
  | conditioned kind condition first item rest => exact .inr ⟨_, toList_conditioned ..⟩

/-- Steps, or what ends them, do not go on the word before them. -/
theorem stops_text (schema : Schema) (ss : Steps) (hq : Ends q) : Stops ((ss.text schema).toList ++ q) := by
  rcases exists_word schema ss hq with ⟨rfl, rfl⟩ | ⟨tail, h⟩
  · exact stops_nil
  · rw [h]
    exact stops_blank _

/-- The words that may follow a blank. -/
def words : List String :=
  ["CROSS JOIN", "NATURAL JOIN", "JOIN", "FULL OUTER JOIN", "LEFT OUTER JOIN", "RIGHT OUTER JOIN", "ON"]

/-- Only these words start steps or end them. -/
theorem word_mem (ss : Steps) : ss.word ∈ words := by
  have hp : ∀ op : PlainJoin, op.word ∈ words := by intro op; cases op <;> decide
  have hc : ∀ kind, conditionalJoinWord kind ∈ words := by intro kind; cases kind <;> decide
  cases ss with
  | nil => decide
  | plain op => exact hp op
  | conditioned kind => exact hc kind

/-- The words differ in their first letters. -/
theorem words_inj : ∀ u ∈ words, ∀ w ∈ words, u.toList.head? = w.toList.head? → u = w := by decide

/-- Texts that are the same start with the same word. -/
theorem word_eq (hq : Ends q) (hr : Ends r) (h : (ss.text schema).toList ++ q = (ts.text schema).toList ++ r) :
    ss.word = ts.word := by
  have hhead : ∀ (us : Steps) (tail : List Char), (us.word.toList ++ tail).head? = us.word.toList.head? := by
    intro us tail
    have hne : ∀ w ∈ words, w.toList ≠ [] := by decide
    exact List.head?_append_of_ne_nil _ (hne _ us.word_mem)
  rcases exists_word schema ss hq with ⟨rfl, rfl⟩ | ⟨x, hx⟩ <;> rcases exists_word schema ts hr with ⟨rfl, rfl⟩ | ⟨y, hy⟩
  · rfl
  · rw [hy] at h
    cases h
  · rw [hx] at h
    cases h
  · rw [hx, hy, List.cons_eq_cons] at h
    refine words_inj _ ss.word_mem _ ts.word_mem ?_
    rw [← hhead ss (' ' :: x), ← hhead ts (' ' :: y), h.2]

/-- Steps are read back from their text. -/
theorem text_inj (hs : ss.IsWritten schema) (ht : ts.IsWritten schema) (hq : Ends q) (hr : Ends r)
    (h : (ss.text schema).toList ++ q = (ts.text schema).toList ++ r) : ss = ts ∧ q = r := by
  have hplain : ∀ op : PlainJoin, op.word ≠ "ON" ∧ ∀ kind, op.word ≠ conditionalJoinWord kind := by
    intro op
    cases op <;> exact ⟨by decide, by intro kind; cases kind <;> decide⟩
  have hcond : ∀ kind, conditionalJoinWord kind ≠ "ON" := by intro kind; cases kind <;> decide
  induction ss generalizing ts q r with
  | nil =>
    have hw := word_eq hq hr h
    cases ts with
    | nil => exact ⟨rfl, h⟩
    | plain op => exact absurd hw.symm (hplain op).1
    | conditioned kind => exact absurd hw.symm (hcond kind)
  | plain op name rest ih =>
    have hw := word_eq hq hr h
    cases ts with
    | nil => exact absurd hw (hplain op).1
    | conditioned kind => exact absurd hw ((hplain op).2 kind)
    | plain op' name' rest' =>
      have hop : op = op' := by
        change op.word = op'.word at hw
        revert hw
        cases op <;> cases op' <;> decide
      subst hop
      rw [toList_plain, toList_plain] at h
      simp only [List.cons.injEq, true_and, List.append_cancel_left_eq] at h
      obtain ⟨rfl, h₁⟩ := Schema.leafText_inj hs.1 ht.1 h
      obtain ⟨rfl, h₂⟩ := ih hs.2 ht.2 hq hr h₁
      exact ⟨rfl, h₂⟩
  | conditioned kind condition first item rest ihi ihr =>
    have hw := word_eq hq hr h
    cases ts with
    | nil => exact absurd hw (hcond kind)
    | plain op => exact absurd hw.symm ((hplain op).2 kind)
    | conditioned kind' condition' first' item' rest' =>
      obtain ⟨hf, hc, hl, hi, hrest⟩ := hs
      obtain ⟨hf', hc', hl', hi', hrest'⟩ := ht
      have hk : kind = kind' := by
        change conditionalJoinWord kind = conditionalJoinWord kind' at hw
        revert hw
        cases kind <;> cases kind' <;> decide
      subst hk
      rw [toList_conditioned, toList_conditioned] at h
      simp only [List.cons.injEq, true_and, List.append_cancel_left_eq] at h
      obtain ⟨rfl, h₁⟩ := Schema.leafText_inj hf hf' h
      -- The steps inside end at the condition that belongs to this join.
      obtain ⟨rfl, h₂⟩ := ihi hi hi' (.inr ⟨_, rfl⟩) (.inr ⟨_, rfl⟩) h₁
      simp only [List.cons.injEq, true_and, List.append_cancel_left_eq] at h₂
      obtain ⟨rfl, h₃⟩ := Condition.sqlText_inj hc hc' hl hl' (stops_text schema rest hq) (stops_text schema rest' hr) h₂
      obtain ⟨rfl, h₄⟩ := ihr hrest hrest' hq hr h₃
      exact ⟨rfl, h₄⟩

end Steps

/-! ## Texts of trees -/

/-- Every literal in the condition of the join ends at the quote that closes it. -/
def Join.literalsClosed : Join → Bool
  | cross | natural => true
  | conditional _ condition => condition.literalsClosed

namespace Node

/-- Every literal in a condition of the tree ends at the quote that closes it. -/
def literalsClosed : Node → Bool
  | join _ op left right => op.literalsClosed && left.literalsClosed && right.literalsClosed
  | _ => true

variable {schema : Schema} {n : Node}

/-- The step of a written join with closed literals is written. -/
theorem isWritten_ofJoin {op : Join} {first : String} {item : Steps} (hf : schema.IsLeaf first)
    (hi : item.IsWritten schema) (ho : op.IsWritten) (hc : op.literalsClosed = true) :
    (Steps.ofJoin first item op).IsWritten schema := by
  cases op with
  | cross => exact ⟨hf, hi⟩
  | natural => exact ⟨hf, hi⟩
  | conditional kind condition => exact ⟨hf, ho, hc, hi, trivial⟩

/-- The steps of a tree of joins with closed literals are written. -/
theorem Made.steps_isWritten (h : n.Made schema) (hj : n.isJoinTree = true) (hc : n.literalsClosed = true) :
    schema.IsLeaf n.first ∧ n.steps.IsWritten schema := by
  induction h with
  | relation hn hg => exact ⟨⟨hn, _, hg⟩, trivial⟩
  | join _ _ ho _ _ ihl ihr =>
    rw [isJoinTree, Bool.and_eq_true] at hj
    simp only [literalsClosed, Bool.and_eq_true] at hc
    obtain ⟨hfl, hsl⟩ := ihl hj.1 hc.1.2
    obtain ⟨hfr, hsr⟩ := ihr hj.2 hc.2
    exact ⟨hfl, Steps.isWritten_append hsl (isWritten_ofJoin hfr hsr ho hc.1.1)⟩
  | select => cases hj
  | project => cases hj
  | rename => cases hj
  | setOperation => cases hj

/-- The text of a join is its left operand, its word, its right operand and its condition. -/
theorem exists_toSql {op : Join} (ho : op.IsWritten) (schema : Schema) (first : String) (item : Steps) :
    ∃ o, op.toSql = .ok o ∧ " " ++ o.word ++ " " ++ (schema.leafText first ++ item.text schema) ++ o.ending
      = (Steps.ofJoin first item op).text schema := by
  cases op with
  | cross =>
    exact ⟨.cross, rfl, by simp [Steps.ofJoin, Steps.text, JoinOp.word, JoinOp.ending, PlainJoin.word, String.append_assoc]⟩
  | natural =>
    exact ⟨.natural, rfl, by simp [Steps.ofJoin, Steps.text, JoinOp.word, JoinOp.ending, PlainJoin.word, String.append_assoc]⟩
  | conditional kind condition =>
    obtain ⟨p, hp⟩ := Predicate.exists_ofCondition ho
    refine ⟨.conditional kind p, by rw [Join.toSql, hp]; rfl, ?_⟩
    simp [Steps.ofJoin, Steps.text, JoinOp.word, JoinOp.ending, String.append_assoc,
      Condition.text_of_writes (Predicate.writes_of_ofCondition hp)]

/-- The query of a tree of joins, and its text as an operand. -/
theorem Made.exists_joinQuery (h : n.Made schema) (hj : n.isJoinTree = true) :
    ∃ source, n.query = .ok (some (.select none n.heading.qualifiedNames source []))
      ∧ (n.operandSource (.select none n.heading.qualifiedNames source [])).text .bag
        = some (schema.leafText n.first ++ n.steps.text schema) := by
  induction h with
  | @relation name names serial hn hg =>
    have hgiven : given (some name) = some name := given_of_isName (by rintro q ⟨⟩; exact hn)
    have hlabel : (Node.relation (Head.make (some name) (.ofNames names (some name)) serial)).label = name := by
      simp only [label, labelOf, Node.name, Head.make, hgiven]
    have hmade : (Node.relation (Head.make (some name) (.ofNames names (some name)) serial)).Made schema := .relation hn hg
    have hne : AttributeList.ofNames names (some name) ≠ [] := by
      simpa [AttributeList.ofNames] using (Schema.get_eq_ok hg).2
    refine ⟨.table (some name), rfl, ?_⟩
    show some ("(" ++ (Query.select none (AttributeList.ofNames names (some name)).qualifiedNames (.table (some name)) []).text
      .bag ++ ") AS " ++ _) = some (schema.leafText name ++ "")
    rw [hlabel, text_select (isEmpty_commaList hne (hmade.isQualified rfl)) rfl, Schema.leafText, hg]
    refine congrArg some (String.toList_inj.mp ?_)
    simp [Except.toOption]
  | @join op left right attributes serial hml hmr ho hn ha ihl ihr =>
    rw [isJoinTree, Bool.and_eq_true] at hj
    obtain ⟨sl, hql, htl⟩ := ihl hj.1
    obtain ⟨sr, hqr, htr⟩ := ihr hj.2
    obtain ⟨o, ho, htext⟩ := exists_toSql ho schema right.first right.steps
    refine ⟨.joined o (left.operandSource (.select none left.heading.qualifiedNames sl []))
      (right.operandSource (.select none right.heading.qualifiedNames sr [])), ?_, ?_⟩
    · exact query_of_join _ hql hqr ho
    · show some (nameText (Source.text .bag _) ++ " " ++ o.word ++ " " ++ nameText (Source.text .bag _) ++ o.ending) = _
      rw [htl, htr, steps, Steps.text_append, ← htext, first]
      simp only [nameText, Option.getD_some, String.append_assoc]
  | select => cases hj
  | project => cases hj
  | rename => cases hj
  | setOperation => cases hj

/-- Every attribute of a tree of joins is one of the schema. -/
theorem Made.exists_mem_schema (h : n.Made schema) (hj : n.isJoinTree = true) :
    ∀ a ∈ n.heading, ∃ e ∈ schema, a.name ∈ e.2 := by
  induction h with
  | relation _ hg =>
    intro a ha
    obtain ⟨m, hm, rfl⟩ := List.mem_map.mp ha
    exact ⟨_, mem_of_lookup (Schema.get_eq_ok hg).1, hm⟩
  | join _ _ _ _ ha ihl ihr =>
    rw [isJoinTree, Bool.and_eq_true] at hj
    exact forall_mem_joinAttributes ha (ihl hj.1) (ihr hj.2)
  | select => cases hj
  | project => cases hj
  | rename => cases hj
  | setOperation => cases hj

/-- No capital letter stands among the columns of a tree of joins, so the word after them is found. -/
theorem Made.isUpper_columns (h : n.Made schema) (hj : n.isJoinTree = true)
    (hs : ∀ e ∈ schema, ∀ m ∈ e.2, ∀ c ∈ m.toList, c.isUpper = false) :
    ∀ c ∈ (commaList n.heading.qualifiedNames).toList, c.isUpper = false := by
  intro c hc
  rcases mem_commaList hc with rfl | rfl | ⟨m, hm, hc⟩
  · decide
  · decide
  · obtain ⟨a, ha, rfl⟩ := List.mem_map.mp hm
    obtain ⟨-, q, hqa, hn⟩ := h.isQualified hj a ha
    obtain ⟨e, he, hname⟩ := h.exists_mem_schema hj a ha
    rw [qualified_of_isName hqa hn, String.toList_append, String.toList_append, List.mem_append, List.mem_append] at hc
    rcases hc with (hc | hc) | hc
    · exact Text.isUpper_of_isSmall (isSmall_of_isName hn c hc)
    · rw [List.mem_singleton.mp hc]
      decide
    · exact hs e he a.name hname c hc

/-- The text of a tree of joins: its columns, and its relation or its joins in a row. -/
theorem Made.exists_joinText (h : n.Made schema) (hj : n.isJoinTree = true) :
    ∃ q s, n.query = .ok (some q) ∧ q.text .bag = "SELECT " ++ commaList n.heading.qualifiedNames ++ " FROM " ++ s
      ∧ (n.steps ≠ .nil ∧ s = schema.leafText n.first ++ n.steps.text schema ∨ n.steps = .nil ∧ s = n.first) := by
  obtain ⟨source, hq, ht⟩ := h.exists_joinQuery hj
  have hne := isEmpty_commaList h.heading_ne_nil (h.isQualified hj)
  cases h with
  | relation hn hg =>
    cases hq
    exact ⟨_, _, rfl, text_select hne rfl, .inr ⟨rfl, rfl⟩⟩
  | join =>
    have hs : source.text .bag = some _ := ht
    exact ⟨_, _, hq, text_select hne hs, .inl ⟨Steps.append_ofJoin_ne_nil _ _ _ _, rfl⟩⟩
  | select => cases hj
  | project => cases hj
  | rename => cases hj
  | setOperation => cases hj

/-- The columns and what follows them are read back from the text of a tree of joins. -/
theorem Made.columns_eq_of_text_eq {m : Node} (hm : m.Made schema) (hn : n.Made schema)
    (hs : ∀ e ∈ schema, ∀ m ∈ e.2, ∀ c ∈ m.toList, c.isUpper = false) (hjm : m.isJoinTree = true)
    (hjn : n.isJoinTree = true) {s t : String}
    (h : "SELECT " ++ commaList m.heading.qualifiedNames ++ " FROM " ++ s
      = "SELECT " ++ commaList n.heading.qualifiedNames ++ " FROM " ++ t) :
    commaList m.heading.qualifiedNames = commaList n.heading.qualifiedNames ∧ s = t := by
  have hu : ∀ {k : Node}, k.Made schema → k.isJoinTree = true →
      ∀ c ∈ (commaList k.heading.qualifiedNames).toList ++ [' '], (!c.isUpper) = true := by
    intro k hk hkj c hc
    rcases List.mem_append.mp hc with hc | hc
    · rw [hk.isUpper_columns hkj hs c hc]
      rfl
    · rw [List.mem_singleton.mp hc]
      decide
  have hf : ∀ {r : List Char}, ∀ c ∈ ('F' :: r).head?, (!c.isUpper) = false := by
    rintro r c ⟨⟩
    decide
  have hsplit : ((commaList m.heading.qualifiedNames).toList ++ [' ']) ++ 'F' :: ("ROM ".toList ++ s.toList)
      = ((commaList n.heading.qualifiedNames).toList ++ [' ']) ++ 'F' :: ("ROM ".toList ++ t.toList) := by
    simpa using congrArg String.toList h
  obtain ⟨hc, ht⟩ := append_inj_of_all (hu hm hjm) (hu hn hjn) hf hf hsplit
  exact ⟨String.toList_inj.mp (List.append_cancel_right hc), String.toList_inj.mp (by simpa using ht)⟩

/-- Trees of joins have the same text just if they have the same columns and the same relations in a row, with the same joins
between them. -/
theorem Made.text_eq_iff {m : Node} (hm : m.Made schema) (hn : n.Made schema)
    (hs : ∀ e ∈ schema, ∀ m ∈ e.2, ∀ c ∈ m.toList, c.isUpper = false) (hjm : m.isJoinTree = true)
    (hjn : n.isJoinTree = true) (hcm : m.literalsClosed = true) (hcn : n.literalsClosed = true) {p q : Query}
    (hp : m.query = .ok (some p)) (hq : n.query = .ok (some q)) :
    p.text .bag = q.text .bag ↔ commaList m.heading.qualifiedNames = commaList n.heading.qualifiedNames
      ∧ m.first = n.first ∧ m.steps = n.steps := by
  obtain ⟨p', s, hp', hps, hsource⟩ := hm.exists_joinText hjm
  obtain ⟨q', t, hq', hqt, htarget⟩ := hn.exists_joinText hjn
  rw [hp] at hp'
  rw [hq] at hq'
  cases hp'
  cases hq'
  obtain ⟨hlm, hwm⟩ := hm.steps_isWritten hjm hcm
  obtain ⟨hln, hwn⟩ := hn.steps_isWritten hjn hcn
  rw [hps, hqt]
  constructor
  · intro h
    obtain ⟨hcolumns, rfl⟩ := hm.columns_eq_of_text_eq hn hs hjm hjn h
    refine ⟨hcolumns, ?_⟩
    -- A relation that stands alone starts with a small letter, a row of joins with a parenthesis.
    have hopen : ∀ {a b rest : String}, isName a = true → schema.IsLeaf b → a ≠ schema.leafText b ++ rest := by
      intro a b rest ha hb he
      obtain ⟨x, hx⟩ := hb.exists_leafText
      have hp : '(' ∈ a.toList := by rw [he, String.toList_append, hx]; simp
      exact absurd (isSmall_of_isName ha '(' hp) (by decide)
    rcases hsource with ⟨-, rfl⟩ | ⟨hsm, rfl⟩ <;> rcases htarget with ⟨-, ht⟩ | ⟨hsn, ht⟩
    · rw [← String.toList_inj, String.toList_append, String.toList_append] at ht
      obtain ⟨hfirst, hrest⟩ := Schema.leafText_inj hlm hln ht
      refine ⟨hfirst, (Steps.text_inj hwm hwn (.inl rfl) (.inl rfl) ?_).1⟩
      rw [hrest]
    · exact absurd ht.symm (hopen hln.1 hlm)
    · exact absurd ht (hopen hlm.1 hln)
    · exact ⟨ht, hsm.trans hsn.symm⟩
  · rintro ⟨hcolumns, hfirst, hsteps⟩
    rw [hcolumns]
    congr 1
    rw [hfirst, hsteps] at hsource
    rcases hsource with ⟨hsm, rfl⟩ | ⟨hsm, rfl⟩ <;> rcases htarget with ⟨hsn, rfl⟩ | ⟨hsn, rfl⟩
    · rfl
    · exact absurd hsn hsm
    · exact absurd hsm hsn
    · rfl

end Node

/-! ## One text, one meaning -/

/-- A text with one statement of the algebra has its node and the text of its query. -/
theorem sql_of_forest {d : Dialect} {semantics : Semantics} {schema : Schema} {text : String} {n : Node} {q : Query}
    (hf : d.forest schema text = .ok [n]) (hq : n.query = .ok (some q)) :
    d.sql semantics schema text = .ok [q.text semantics] := by
  rw [Dialect.sql, hf]
  simp only [bind, Except.bind, Node.sqlTexts, hq]
  rfl

/-- A tree of joins that is the only node of a text was made over the schema. -/
theorem made_of_forest {level : Level} {schema : Schema} {text : String} {n : Node}
    (hf : Dialect.forest ⟨level, .standard⟩ schema text = .ok [n]) (hj : n.isJoinTree = true) : n.Made schema := by
  cases Build.chain_of_forest hf with
  | cons h _ =>
    cases h with
    | query h => exact h
    | assign => cases hj
    | declare h =>
      have hd := h.1
      cases n <;> simp [Node.isDeclaration, Node.isJoinTree] at hd hj

/-- Two texts make trees of joins that have one SQL text. -/
structure SharesText (definition : List (String × List String)) (s t : String) (m n : Node) : Prop where
  left : Dialect.forest ⟨.extended, .standard⟩ (.ofDefinition definition) s = .ok [m]
  right : Dialect.forest ⟨.extended, .standard⟩ (.ofDefinition definition) t = .ok [n]
  leftTree : m.isJoinTree = true
  rightTree : n.isJoinTree = true
  same : Dialect.sql ⟨.extended, .standard⟩ .bag (.ofDefinition definition) s
    = Dialect.sql ⟨.extended, .standard⟩ .bag (.ofDefinition definition) t

/-- Whether two texts share their SQL text can be computed. -/
theorem exists_sharesText (definition : List (String × List String)) (s t : String) (p q : Node → Bool)
    (hm : ((Dialect.forest ⟨.extended, .standard⟩ (.ofDefinition definition) s).toOption.any fun ns =>
      ns.length = 1 && ns.all fun n => n.isJoinTree && p n) = true)
    (hn : ((Dialect.forest ⟨.extended, .standard⟩ (.ofDefinition definition) t).toOption.any fun ns =>
      ns.length = 1 && ns.all fun n => n.isJoinTree && q n) = true)
    (hs : (Dialect.sql ⟨.extended, .standard⟩ .bag (.ofDefinition definition) s).toOption
      = (Dialect.sql ⟨.extended, .standard⟩ .bag (.ofDefinition definition) t).toOption) :
    ∃ m n, SharesText definition s t m n ∧ p m = true ∧ q n = true := by
  obtain ⟨m, hm, hpm⟩ := exists_single_of_any hm
  obtain ⟨n, hn, hqn⟩ := exists_single_of_any hn
  rw [Bool.and_eq_true] at hpm hqn
  obtain ⟨p, -, hp, -⟩ := (made_of_forest hm hpm.1).exists_joinText hpm.1
  obtain ⟨q, -, hq, -⟩ := (made_of_forest hn hqn.1).exists_joinText hqn.1
  refine ⟨m, n, ⟨hm, hn, hpm.1, hqn.1, ?_⟩, hpm.2, hqn.2⟩
  rw [sql_of_forest hm hp, sql_of_forest hn hq] at hs ⊢
  simpa [Except.toOption] using hs

variable [DecidableEq α]

/-- Trees of joins have one SQL text just if they have the same columns and, read from left to right without parentheses, the
same relations and joins. They then have the same rows over every database, where no join without condition has a join on its
right that it may not pass. -/
theorem sql_eq_iff_and_rows_eq (definition : List (String × List String)) (level : Level) (s t : String) (m n : Node)
    (hm : Dialect.forest ⟨level, .standard⟩ (.ofDefinition definition) s = .ok [m])
    (hn : Dialect.forest ⟨level, .standard⟩ (.ofDefinition definition) t = .ok [n])
    (hjm : m.isJoinTree = true) (hjn : n.isJoinTree = true) (hcm : m.literalsClosed = true) (hcn : n.literalsClosed = true) :
    (Dialect.sql ⟨level, .standard⟩ .bag (.ofDefinition definition) s
        = Dialect.sql ⟨level, .standard⟩ .bag (.ofDefinition definition) t
      ↔ commaList m.heading.qualifiedNames = commaList n.heading.qualifiedNames ∧ m.first = n.first ∧ m.steps = n.steps)
    ∧ (Dialect.sql ⟨level, .standard⟩ .bag (.ofDefinition definition) s
        = Dialect.sql ⟨level, .standard⟩ .bag (.ofDefinition definition) t →
      m.regroups = true → n.regroups = true → ∀ (v : Values α) (db : Database α), db.Fits (.ofDefinition definition) →
        m.rows v .bag db = n.rows v .bag db) := by
  have hmm := made_of_forest hm hjm
  have hmn := made_of_forest hn hjn
  obtain ⟨p, -, hp, -⟩ := hmm.exists_joinText hjm
  obtain ⟨q, -, hq, -⟩ := hmn.exists_joinText hjn
  have hiff := hmm.text_eq_iff hmn (Schema.isUpper_ofDefinition definition) hjm hjn hcm hcn hp hq
  rw [sql_of_forest hm hp, sql_of_forest hn hq, Except.ok.injEq, List.cons.injEq, eq_self, and_true]
  refine ⟨hiff, fun htext hrm hrn v db hdb => ?_⟩
  obtain ⟨-, hfirst, hsteps⟩ := hiff.mp htext
  have htable : m.table v db = n.table v db := by
    rw [(hmm.table_eq hdb v hjm hrm).1, (hmn.table_eq hdb v hjn hrn).1, hfirst, hsteps]
  exact congrArg Table.rows htable

/-- Three relations with one attribute each. -/
def threeDefinition : List (String × List String) := [("r", ["a"]), ("s", ["b"]), ("t", ["c"])]

/-- One row in the first and the last relation, none between them. -/
def gapDatabase : Database Nat
  | "r" => {[some 1]}
  | "t" => {[some 5]}
  | _ => 0

/-- Every constant is zero, and every comparison is equality. -/
def equalValues : Values Nat := ⟨fun _ => 0, fun _ a b => a = b⟩

/-- The last two relations are joined first. -/
def innerText (join : String) : String := "r \\join (s " ++ join ++ " t);"

/-- The first two relations are joined first. -/
def outerText (join : String) : String := "(r \\join s) " ++ join ++ " t;"

/-- A left join may be grouped with either side. -/
theorem left_join_regrouped : ∃ m n, SharesText threeDefinition (innerText "\\left_outer_join_\x7bb = c\x7d")
      (outerText "\\left_outer_join_\x7bb = c\x7d") m n
    ∧ m.steps = n.steps ∧ m.rows equalValues .bag gapDatabase = n.rows equalValues .bag gapDatabase := by
  have hf : gapDatabase.Fits (.ofDefinition threeDefinition) := by
    unfold Database.Fits
    decide +kernel
  obtain ⟨m, n, h, hm, hn⟩ := exists_sharesText threeDefinition (innerText "\\left_outer_join_\x7bb = c\x7d")
    (outerText "\\left_outer_join_\x7bb = c\x7d") (fun n => n.literalsClosed && n.regroups)
    (fun n => n.literalsClosed && n.regroups) (by decide +kernel) (by decide +kernel) (by decide +kernel)
  rw [Bool.and_eq_true] at hm hn
  obtain ⟨htext, hrows⟩ := @sql_eq_iff_and_rows_eq Nat _ threeDefinition .extended _ _ m n h.left h.right h.leftTree h.rightTree
    hm.1 hn.1
  exact ⟨m, n, h, (htext.mp h.same).2.2, hrows h.same hm.2 hn.2 equalValues gapDatabase hf⟩

/-- Two texts make trees of joins that have one SQL text and different rows over a database. -/
def Collides (definition : List (String × List String)) (s t : String) (v : Values α) (db : Database α) : Prop :=
  ∃ m n, SharesText definition s t m n ∧ m.rows v .bag db ≠ n.rows v .bag db

/-- Texts with one SQL text and different rows collide, as can be computed. -/
theorem collides_of_rows {definition : List (String × List String)} {s t : String} {v : Values α} {db : Database α}
    (x y : Multiset (Row α)) (hne : x ≠ y)
    (hm : ((Dialect.forest ⟨.extended, .standard⟩ (.ofDefinition definition) s).toOption.any fun ns =>
      ns.length = 1 && ns.all fun n => n.isJoinTree && decide (n.rows v .bag db = x)) = true)
    (hn : ((Dialect.forest ⟨.extended, .standard⟩ (.ofDefinition definition) t).toOption.any fun ns =>
      ns.length = 1 && ns.all fun n => n.isJoinTree && decide (n.rows v .bag db = y)) = true)
    (hs : (Dialect.sql ⟨.extended, .standard⟩ .bag (.ofDefinition definition) s).toOption
      = (Dialect.sql ⟨.extended, .standard⟩ .bag (.ofDefinition definition) t).toOption) :
    Collides definition s t v db := by
  obtain ⟨m, n, h, hm, hn⟩ := exists_sharesText definition s t _ _ hm hn hs
  rw [decide_eq_true_eq] at hm hn
  exact ⟨m, n, h, by rwa [hm, hn]⟩

/-- Three relations with the same attribute. -/
def sharedDefinition : List (String × List String) := [("r", ["a"]), ("s", ["a"]), ("t", ["a"])]

/-- The first relation has another value than the others. -/
def sharedDatabase : Database Nat
  | "r" => {[some 1]}
  | "s" => {[some 2]}
  | "t" => {[some 2]}
  | _ => 0

/-- Every constant is what is written, and every comparison is the order of texts. -/
def textValues : Values String := ⟨id, fun _ a b => a < b⟩

/-- One row in all relations. -/
def oneDatabase : Database String := fun _ => {[some ""]}

/-- None of the three conditions can be left out. A right join keeps rows that a join before it would remove; a natural join
compares a name with that of another relation if it comes last; and a literal with a quote in it reads as two. -/
theorem sql_texts_collide :
    Collides threeDefinition (innerText "\\right_outer_join_\x7bb = c\x7d") (outerText "\\right_outer_join_\x7bb = c\x7d")
      equalValues gapDatabase
    ∧ Collides sharedDefinition (innerText "\\natural_join") (outerText "\\natural_join") equalValues sharedDatabase
    ∧ Collides threeDefinition "r \\join_\x7b\"b' < 'a\" < \"c\"\x7d s;" "r \\join_\x7b\"b\" < \"a' < 'c\"\x7d s;" textValues
      oneDatabase := by
  refine ⟨?_, ?_, ?_⟩
  · exact collides_of_rows {[some 1, none, some 5]} {[none, none, some 5]} (by decide) (by decide +kernel) (by decide +kernel)
      (by decide +kernel)
  · exact collides_of_rows {[some 1, some 2]} 0 (by decide) (by decide +kernel) (by decide +kernel) (by decide +kernel)
  · exact collides_of_rows {[some "", some ""]} 0 (by decide) (by decide +kernel) (by decide +kernel) (by decide +kernel)

end RelAlg
