import RelAlg.Proofs.Compared
import RelAlg.Proofs.Sql.JoinText
import RelAlg.Proofs.Sql.Merge

/-!
# Set and bag semantics

The SQL of a text with set semantics is its SQL with bag semantics after two replacements: `SELECT DISTINCT ` for every
`SELECT `, and one blank for every ` ALL `. Both words have capital letters, and of what a text and a schema bring into the SQL
only texts between quotes have any; so an occurrence is always one that a query or a set operator printed. `Rewrites` says so
of one part of a text whatever stands behind it, so that the parts of a query can be put together.
-/

namespace RelAlg

open Sql

/-! ## Replacing -/

namespace Text

/-- The characters after the first `skip` of them, with `new` for every occurrence of `old`, from left to right. -/
def replaceFrom (old new : List Char) : Nat → List Char → List Char
  | _, [] => []
  | skip + 1, _ :: cs => replaceFrom old new skip cs
  | 0, c :: cs =>
    if old.isPrefixOf (c :: cs) then new ++ replaceFrom old new (old.length - 1) cs
    else c :: replaceFrom old new 0 cs

/-- The text with `new` for every occurrence of `old`, which is not empty. -/
def replaceAll (old new text : String) : String := String.ofList (replaceFrom old.toList new.toList 0 text.toList)

/-- A part that is to be skipped is passed over. -/
theorem replaceFrom_append (old new part rest : List Char) :
    replaceFrom old new part.length (part ++ rest) = replaceFrom old new 0 rest := by
  induction part with
  | nil => rfl
  | cons c part ih => exact ih

/-- The texts differ at a place that both have. -/
def apart : List Char → List Char → Bool
  | x :: xs, y :: ys => x ≠ y || apart xs ys
  | _, _ => false

/-- No occurrence of a text that starts with the first two characters starts in the part, if the second of them does not
follow it. -/
def inert (old : List Char) : List Char → Bool
  | [] => true
  | [_] => 2 ≤ old.length
  | c :: d :: cs => apart old (c :: d :: cs) && inert old (d :: cs)

/-- Texts that differ at a place they both have do not start alike, whatever follows the second. -/
theorem not_isPrefixOf_of_apart {old part : List Char} (h : apart old part = true) (rest : List Char) :
    old.isPrefixOf (part ++ rest) = false := by
  induction old generalizing part with
  | nil => cases part <;> cases h
  | cons x xs ih =>
    cases part with
    | nil => cases h
    | cons y ys =>
      rw [apart, Bool.or_eq_true, decide_eq_true_eq] at h
      rw [List.cons_append, List.isPrefixOf_cons_cons, Bool.and_eq_false_iff]
      exact h.imp beq_false_of_ne ih

/-- What follows does not start with the second character of the text that is looked for. -/
def Clear (old rest : List Char) : Prop := ∀ x, old[1]? = some x → rest.head? ≠ some x

/-- What follows two parts is clear if it is clear behind each. -/
theorem Clear.append {old part rest : List Char} (hp : Clear old part) (hr : Clear old rest) : Clear old (part ++ rest) := by
  cases part with
  | nil => exact hr
  | cons c part => exact hp

/-- Replacing makes the one part of the other, whatever follows. -/
def Turns (old new part part' : List Char) : Prop :=
  ∀ rest, Clear old rest → replaceFrom old new 0 (part ++ rest) = part' ++ replaceFrom old new 0 rest

variable {old new p p' q q' : List Char}

/-- Replacing in two parts that stand together is replacing in each, as no occurrence reaches from one into the other. -/
theorem Turns.append (hp : Turns old new p p') (hq : Turns old new q q') (hc : Clear old q) :
    Turns old new (p ++ q) (p' ++ q') := by
  intro rest hr
  rw [List.append_assoc, hp _ (hc.append hr), hq rest hr, List.append_assoc]

/-- An occurrence is replaced. -/
theorem turns_self (h : old ≠ []) : Turns old new old new := by
  intro rest _
  obtain ⟨c, cs, rfl⟩ := List.exists_cons_of_ne_nil h
  have hp : (c :: cs).isPrefixOf (c :: (cs ++ rest)) = true := List.isPrefixOf_iff_prefix.mpr (List.prefix_append _ rest)
  rw [List.cons_append, replaceFrom, if_pos hp]
  exact congrArg (new ++ ·) (replaceFrom_append _ _ cs rest)

/-- A part in which no occurrence starts stays as it is. -/
theorem turns_of_inert (h : inert old p = true) : Turns old new p p := by
  intro rest hr
  induction p with
  | nil => rfl
  | cons c cs ih =>
    have hstart : old.isPrefixOf (c :: (cs ++ rest)) = false := by
      cases cs with
      | cons d cs =>
        rw [inert, Bool.and_eq_true] at h
        exact not_isPrefixOf_of_apart h.1 rest
      | nil =>
        -- the occurrence would go on behind the part
        obtain _ | ⟨a, _ | ⟨b, more⟩⟩ := old
        · cases h
        · cases h
        · have hb := hr b rfl
          cases rest with
          | nil => simp [List.isPrefixOf]
          | cons x xs =>
            have hne : b ≠ x := fun he => hb (he ▸ rfl)
            simp [List.isPrefixOf, hne]
    have htail : inert old cs = true := by
      cases cs with
      | nil => rfl
      | cons d cs =>
        rw [inert, Bool.and_eq_true] at h
        exact h.2
    rw [List.cons_append, replaceFrom, if_neg (by simp [hstart]), ih htail, List.cons_append]

/-- No occurrence starts in a part without capital letters, if its second character is one. -/
theorem inert_of_not_upper {a b : Char} {more : List Char} (hb : b.isUpper = true) (h : ∀ c ∈ p, c.isUpper = false) :
    inert (a :: b :: more) p = true := by
  induction p with
  | nil => rfl
  | cons c cs ih =>
    cases cs with
    | nil => simp [inert]
    | cons d cs =>
      have hne : b ≠ d := by
        rintro rfl
        rw [h b (by simp)] at hb
        cases hb
      rw [inert, ih fun x hx => h x (List.mem_cons_of_mem c hx)]
      simp [apart, hne]

/-- A part without capital letters does not start with the second character of the text that is looked for. -/
theorem clear_of_not_upper {a b : Char} {more : List Char} (hb : b.isUpper = true) (h : ∀ c ∈ p, c.isUpper = false) :
    Clear (a :: b :: more) p := by
  intro x hx he
  obtain rfl : b = x := Option.some.inj hx
  rw [h b (List.mem_of_mem_head? he)] at hb
  cases hb

end Text

/-! ## Texts with the two semantics -/

namespace Sql

open Text

/-- Replacing makes a text with set semantics of one with bag semantics, whatever follows. -/
def Rewrites (bag set : String) : Prop :=
  ∃ mid, Turns "SELECT ".toList "SELECT DISTINCT ".toList bag.toList mid ∧ Clear "SELECT ".toList bag.toList
    ∧ Turns " ALL ".toList " ".toList mid set.toList ∧ Clear " ALL ".toList mid

variable {s s' t t' : String}

/-- Both replacements work part by part. -/
theorem Rewrites.append (hs : Rewrites s s') (ht : Rewrites t t') : Rewrites (s ++ t) (s' ++ t') := by
  obtain ⟨mid, h₁, hc₁, h₂, hc₂⟩ := hs
  obtain ⟨mid', h₁', hc₁', h₂', hc₂'⟩ := ht
  refine ⟨mid ++ mid', ?_, ?_, ?_, hc₂.append hc₂'⟩
  · rw [String.toList_append]
    exact h₁.append h₁' hc₁'
  · rw [String.toList_append]
    exact hc₁.append hc₁'
  · rw [String.toList_append]
    exact h₂.append h₂' hc₂'

/-- The text stays as it is, whatever follows. -/
abbrev Stays (s : String) : Prop := Rewrites s s

/-- Neither replacement finds anything in the text or at its end. -/
def isInert (s : String) : Bool :=
  inert "SELECT ".toList s.toList && inert " ALL ".toList s.toList && s.toList.head? ≠ some 'E' && s.toList.head? ≠ some 'A'

/-- A text in which neither replacement finds anything stays as it is. -/
theorem stays_of_isInert (h : isInert s = true) : Stays s := by
  simp only [isInert, Bool.and_eq_true, decide_eq_true_eq] at h
  refine ⟨s.toList, turns_of_inert h.1.1.1, ?_, turns_of_inert h.1.1.2, ?_⟩
  · intro x hx
    cases hx
    exact h.1.2
  · intro x hx
    cases hx
    exact h.2

/-- The text has no capital letters. -/
def IsSmallText (s : String) : Prop := ∀ c ∈ s.toList, c.isUpper = false

/-- A text without capital letters stays as it is. -/
theorem IsSmallText.stays (h : IsSmallText s) : Stays s :=
  ⟨s.toList, turns_of_inert (inert_of_not_upper (by decide) h), clear_of_not_upper (by decide) h,
    turns_of_inert (inert_of_not_upper (by decide) h), clear_of_not_upper (by decide) h⟩

/-- A word in front of a text. -/
theorem Rewrites.after {w : String} (hw : isInert w = true) (h : Rewrites s s') : Rewrites (w ++ s) (w ++ s') :=
  (stays_of_isInert hw).append h

/-- A word behind a text. -/
theorem Rewrites.before {w : String} (hw : isInert w = true) (h : Rewrites s s') : Rewrites (s ++ w) (s' ++ w) :=
  h.append (stays_of_isInert hw)

/-- The word that opens a query gets `DISTINCT` behind it. -/
theorem rewrites_select : Rewrites "SELECT " "SELECT DISTINCT " := by
  refine ⟨"SELECT DISTINCT ".toList, turns_self (by decide), ?_, turns_of_inert (by decide), ?_⟩
  · intro x hx
    cases hx
    decide
  · intro x hx
    cases hx
    decide

/-- The word behind a set operator is dropped. -/
theorem rewrites_all : Rewrites " ALL " " " := by
  refine ⟨" ALL ".toList, turns_of_inert (by decide), ?_, turns_self (by decide), ?_⟩
  · intro x hx
    cases hx
    decide
  · intro x hx
    cases hx
    decide

/-- A whole text is made of the other by replacing. -/
theorem replaceAll_of_turns {mid : List Char} (h₁ : Turns "SELECT ".toList "SELECT DISTINCT ".toList s.toList mid)
    (h₂ : Turns " ALL ".toList " ".toList mid t.toList) :
    replaceAll " ALL " " " (replaceAll "SELECT " "SELECT DISTINCT " s) = t := by
  have hnil : ∀ old, Clear old [] := fun _ _ _ h => by cases h
  have h₁ := h₁ [] (hnil _)
  have h₂ := h₂ [] (hnil _)
  simp only [List.append_nil, replaceFrom] at h₁ h₂
  rw [replaceAll, replaceAll, h₁, String.toList_ofList (l := mid), h₂, String.ofList_toList]

/-- At the end of a text the two replacements make what `Rewrites` says. -/
theorem Rewrites.eq (h : Rewrites s t) : replaceAll " ALL " " " (replaceAll "SELECT " "SELECT DISTINCT " s) = t := by
  obtain ⟨mid, h₁, -, h₂, -⟩ := h
  exact replaceAll_of_turns h₁ h₂

/-! ## Names and conditions -/

/-- Words have no capital letters. -/
theorem isSmallText_of_isWord (h : isWord s = true) : IsSmallText s := by
  rw [isWord, Bool.and_eq_true, List.all_eq_true] at h
  intro c hc
  have hw := h.2 c hc
  simp only [isWordChar, Bool.or_eq_true, decide_eq_true_eq] at hw
  rcases hw with ((hw | rfl) | rfl) | rfl
  · exact isUpper_of_isSmall hw
  all_goals decide

/-- Names have no capital letters. -/
theorem isSmallText_of_isName (h : isName s = true) : IsSmallText s := isSmallText_of_isWord (isWord_of_isName h)

/-- A list of small texts is a small text, as commas and blanks are small. -/
theorem isSmallText_commaList {names : List String} (h : ∀ n ∈ names, IsSmallText n) : IsSmallText (commaList names) := by
  intro c hc
  rcases mem_commaList hc with rfl | rfl | ⟨n, hn, hc⟩
  · decide
  · decide
  · exact h n hn c hc

/-- A name stays as it is, and so does the word for a missing one. -/
theorem stays_nameText {name : Option String} (h : ∀ n, name = some n → IsSmallText n) : Stays (nameText name) := by
  cases name with
  | none => exact stays_of_isInert (by decide)
  | some n => exact (h n rfl).stays

/-- A condition over words stays as it is. -/
theorem Predicate.Writes.stays {c : Condition} {p : Predicate} (h : Writes c p) (hc : ∀ o ∈ c.operands, isWord o = true) :
    Stays p.text := by
  induction h with
  | operand text => exact (isSmallText_of_isWord (hc text List.mem_cons_self)).stays
  | negation _ ih => exact (ih hc).after (by decide)
  | notNull _ ih => exact (ih hc).before (by decide)
  | @binary op l r p q _ _ ihl ihr =>
    have hop : Stays (" " ++ op.text ++ " ") := by cases op <;> exact stays_of_isInert (by decide)
    have hl := ihl fun o ho => hc o (List.mem_append_left _ ho)
    have hr := ihr fun o ho => hc o (List.mem_append_right _ ho)
    have htext : (Predicate.binary op p q).text = "(" ++ p.text ++ (" " ++ op.text ++ " ") ++ q.text ++ ")" := by
      simp only [Predicate.text, String.append_assoc]
    rw [htext]
    exact (((hl.after (by decide)).append hop).append hr).before (by decide)

/-- Filters stay as they are if each of them does. -/
theorem stays_filterText {filters : List Predicate} (h : ∀ p ∈ filters, Stays p.text) : Stays (filterText filters) := by
  have hfold : ∀ (text : String), Stays text → Stays (filters.foldl
      (fun text p => if text.isEmpty then p.text else "(" ++ text ++ ") AND (" ++ p.text ++ ")") text) := by
    induction filters with
    | nil => exact fun _ ht => ht
    | cons p filters ih =>
      intro text ht
      refine ih (fun q hq => h q (List.mem_cons_of_mem p hq)) _ ?_
      have hp := h p List.mem_cons_self
      dsimp only
      split
      · exact hp
      · exact (((ht.after (by decide)).before (by decide)).append hp).before (by decide)
  exact hfold "" (stays_of_isInert (by decide))

/-! ## Queries -/

/-- The target of a query stays as it is if its names are small. -/
theorem Target.stays {t : Target} (hn : ∀ n, t.name = some n → IsSmallText n) (hc : ∀ n ∈ t.columns, IsSmallText n) :
    Stays t.text :=
  ((((stays_nameText hn).after (by decide)).before (by decide)).append (isSmallText_commaList hc).stays).before (by decide)

/-- The source of a query with the two semantics. -/
def Source.IsRewritten (s : Source) : Prop := Rewrites (nameText (s.text .bag)) (nameText (s.text .set))

/-- A query that shows columns, over a source that is rewritten. -/
structure Query.IsRewritten (target : Option Target) (columns : List String) (source : Source) (filters : List Predicate) :
    Prop where
  target : ∀ t, target = some t → Stays t.text
  shown : (commaList columns).isEmpty = false
  columns : ∀ n ∈ columns, IsSmallText n
  source : source.IsRewritten
  filters : ∀ p ∈ filters, Stays p.text

/-- A query is rewritten by its parts: its opening word, and the source. -/
theorem Query.IsRewritten.rewrites {target : Option Target} {columns : List String} {source : Source}
    {filters : List Predicate} (h : IsRewritten target columns source filters) :
    Rewrites ((Query.select target columns source filters).text .bag)
      ((Query.select target columns source filters).text .set) := by
  have hstart : Stays ((target.map Target.text).getD "") := by
    cases ht : target with
    | none => exact stays_of_isInert (by decide)
    | some t => exact h.target t ht
  have hend : Stays (if (filterText filters).isEmpty then "" else " WHERE " ++ filterText filters) := by
    split
    · exact stays_of_isInert (by decide)
    · exact (stays_filterText h.filters).after (by decide)
  have hbody : Rewrites ("SELECT " ++ commaList columns ++ " FROM " ++ nameText (source.text .bag))
      ("SELECT DISTINCT " ++ commaList columns ++ " FROM " ++ nameText (source.text .set)) :=
    ((rewrites_select.append (isSmallText_commaList h.columns).stays).before (by decide)).append h.source
  simp only [Query.text, Blocks.text, h.shown]
  exact (hstart.append hbody).append hend

/-- A table name is the same with both semantics. -/
theorem Source.isRewritten_table {name : Option String} (h : ∀ n, name = some n → IsSmallText n) :
    (Source.table name).IsRewritten := stays_nameText h

/-- A renamed query is rewritten with the query in it. -/
theorem Source.isRewritten_renamed {q : Query} {name : Option String} {columns : List String}
    (hq : Rewrites (q.text .bag) (q.text .set)) (hn : ∀ n, name = some n → IsSmallText n)
    (hc : ∀ n ∈ columns, IsSmallText n) : (Source.renamed q name columns).IsRewritten :=
  (((((hq.after (by decide)).before (by decide)).append (stays_nameText hn)).before (by decide)).append
    (isSmallText_commaList hc).stays).before (by decide)

/-- A labelled query is rewritten with the query in it. -/
theorem Source.isRewritten_labelled {q : Query} {label : String} (hq : Rewrites (q.text .bag) (q.text .set))
    (hl : Stays label) : (Source.labelled q label).IsRewritten :=
  ((hq.after (by decide)).before (by decide)).append hl

/-- A set operator says `ALL` with bag semantics. -/
theorem Source.isRewritten_combined {op : SetOperator} {l r : Query} {label : String}
    (hl : Rewrites (l.text .bag) (l.text .set)) (hr : Rewrites (r.text .bag) (r.text .set)) (hlabel : Stays label) :
    (Source.combined op l r label).IsRewritten := by
  have hop : Stays (" " ++ setWord op) := by cases op <;> exact stays_of_isInert (by decide)
  have hbag : nameText ((Source.combined op l r label).text .bag)
      = "(" ++ l.text .bag ++ (" " ++ setWord op) ++ " ALL " ++ r.text .bag ++ ") AS " ++ label := by
    simp only [Source.text, nameText, Option.getD_some, allWord, String.append_assoc]
    rfl
  have hset : nameText ((Source.combined op l r label).text .set)
      = "(" ++ l.text .set ++ (" " ++ setWord op) ++ " " ++ r.text .set ++ ") AS " ++ label := by
    simp only [Source.text, nameText, Option.getD_some, allWord, String.append_assoc, String.empty_append]
  rw [Source.IsRewritten, hbag, hset]
  exact (((((hl.after (by decide)).append hop).append rewrites_all).append hr).before (by decide)).append hlabel

/-- A join is rewritten if both sides are and its end stays as it is. -/
theorem Source.isRewritten_joined {op : JoinOp} {l r : Source} (hl : l.IsRewritten) (hr : r.IsRewritten)
    (ho : Stays op.ending) : (Source.joined op l r).IsRewritten := by
  have hop : Stays (" " ++ op.word ++ " ") := by
    rcases op with _ | _ | ⟨kind, condition⟩
    · exact stays_of_isInert (by decide)
    · exact stays_of_isInert (by decide)
    · show Stays (" " ++ conditionalJoinWord kind ++ " ")
      cases kind <;> exact stays_of_isInert (by decide)
  have htext : ∀ semantics, nameText ((Source.joined op l r).text semantics)
      = nameText (l.text semantics) ++ (" " ++ op.word ++ " ") ++ nameText (r.text semantics) ++ op.ending := by
    intro semantics
    simp only [Source.text, nameText, Option.getD_some, String.append_assoc]
  rw [Source.IsRewritten, htext, htext]
  exact ((hl.append hop).append hr).append ho

end Sql

/-! ## Names -/

/-- Every attribute name of the schema has characters, and none of them is a capital letter. -/
def Schema.IsNamed (schema : Schema) : Prop := ∀ e ∈ schema, ∀ n ∈ e.2, n ≠ "" ∧ IsSmallText n

/-- The schema of a definition without empty attribute names has small names. -/
theorem Schema.isNamed_ofDefinition {definition : List (String × List String)} (h : ∀ e ∈ definition, "" ∉ e.2) :
    (ofDefinition definition).IsNamed :=
  Schema.names_ofDefinition fun e he _ hn =>
    ⟨Text.lower_ne_empty fun hempty => h e he (hempty ▸ hn), fun _ hc => Text.isUpper_of_mem_lower hc⟩

/-- A name that texts write is not empty and small. -/
theorem isNamed_of_isName {n : String} (h : isName n = true) : n ≠ "" ∧ IsSmallText n :=
  ⟨ne_empty_of_isName h, isSmallText_of_isName h⟩

namespace AttributeList

/-- Every attribute of the list has a name without capital letters. -/
def IsNamed (l : AttributeList) : Prop := ∀ a ∈ l, a.name ≠ "" ∧ IsSmallText a.name

/-- The names of a named list are small and not empty. -/
theorem IsNamed.names {l : AttributeList} (h : l.IsNamed) : ∀ n ∈ l.names, n ≠ "" ∧ IsSmallText n := by
  intro n hn
  obtain ⟨a, ha, rfl⟩ := List.mem_map.mp hn
  exact h a ha

/-- New names that texts write keep a list named. -/
theorem IsNamed.of_rename {l renamed : AttributeList} (hl : l.IsNamed) {names : List String} {qualifier : Option String}
    (hn : ∀ n ∈ names, isName n = true) (h : l.rename (names.map Phrase.word) qualifier = .ok renamed) : renamed.IsNamed :=
  forall_name_of_rename (fun _ => isNamed_of_isName) hl hn h

end AttributeList

namespace Node

variable {schema : Schema} {n : Node}

/-- Over a named schema the attributes of every node are named. -/
theorem Made.isNamed_heading (h : n.Made schema) (hs : schema.IsNamed) : n.heading.IsNamed :=
  h.forall_name (fun _ => isNamed_of_isName) hs

/-- The columns of a node are printed, without capital letters. -/
theorem Made.isSmallText_columns (h : n.Made schema) (hs : schema.IsNamed) :
    (commaList n.heading.qualifiedNames).isEmpty = false ∧ ∀ m ∈ n.heading.qualifiedNames, IsSmallText m := by
  have hnamed := h.isNamed_heading hs
  constructor
  · obtain ⟨a, as, he⟩ := List.exists_cons_of_ne_nil h.heading_ne_nil
    obtain ⟨rest, hrest⟩ := exists_commaList_cons a.qualified (AttributeList.qualifiedNames as)
    have hne : a.qualified ≠ "" := by
      unfold Attribute.qualified
      split
      · simp
      · exact (hnamed a (he ▸ List.mem_cons_self)).1
    rw [he]
    show (commaList (a.qualified :: AttributeList.qualifiedNames as)).isEmpty = false
    rw [hrest]
    simp [hne]
  · intro m hm c hc
    obtain ⟨a, ha, rfl⟩ := List.mem_map.mp hm
    have hname := (hnamed a ha).2
    unfold Attribute.qualified at hc
    rw [given_of_isName (h.isName_qualifier a ha)] at hc
    cases hq : a.qualifier with
    | none =>
      rw [hq] at hc
      exact hname c hc
    | some q =>
      rw [hq] at hc
      simp only [String.toList_append, List.mem_append] at hc
      rcases hc with (hc | hc) | hc
      · exact isSmallText_of_isName (h.isName_qualifier a ha q hq) c hc
      · rw [List.mem_singleton.mp hc]
        decide
      · exact hname c hc

/-- The label of a node stays as it is: it is a small name or a number. -/
theorem Made.stays_label (h : n.Made schema) : Stays n.label := by
  refine IsSmallText.stays fun c hc => ?_
  rw [label, labelOf, given_of_isName h.isName_name] at hc
  cases hn : n.name with
  | some q =>
    rw [hn] at hc
    exact isSmallText_of_isName (h.isName_name q hn) c hc
  | none =>
    rw [hn] at hc
    simp only [String.toList_append, List.mem_append, Nat.toString_eq_repr, Nat.toList_repr] at hc
    rcases hc with hc | hc
    · simp only [String.reduceToList, List.mem_cons, List.not_mem_nil, or_false] at hc
      rcases hc with rfl | rfl <;> decide
    · have hd := Nat.isDigit_of_mem_toDigits (by decide) (by decide) hc
      exact Text.isUpper_of_isSmall (by simp [isSmall, hd])

/-! ## Statements -/

/-- An operand of a join is rewritten as its query is. -/
theorem isRewritten_operandSource {columns : List String} {source : Source} {filters : List Predicate} (h : n.Made schema)
    (hq : Query.IsRewritten none columns source filters) :
    (n.operandSource (.select none columns source filters)).IsRewritten := by
  unfold operandSource
  split
  · exact hq.source
  · exact Source.isRewritten_labelled hq.rewrites h.stays_label

/-- The condition of a join stays as it is if its operands are words. -/
theorem stays_ending {op : Join} {o : JoinOp} (ho : op.toSql = .ok o) (hc : ∀ s ∈ op.operands, isWord s = true) :
    Stays o.ending := by
  rcases op with _ | _ | ⟨kind, condition⟩
  · cases ho
    exact stays_of_isInert (by decide)
  · cases ho
    exact stays_of_isInert (by decide)
  · obtain ⟨p, hp, ho⟩ := exists_ok_of_bind ho
    cases ho
    exact ((Predicate.writes_of_ofCondition hp).stays hc).after (by decide)

/-- The query of a node that compares words is rewritten. -/
theorem Made.exists_isRewritten (h : n.Made schema) (hs : schema.IsNamed) (hc : ∀ s ∈ n.compared, isWord s = true) :
    ∃ columns source filters, n.query = .ok (some (.select none columns source filters))
      ∧ Query.IsRewritten none columns source filters := by
  have hnone : ∀ t : Target, none = some t → Stays t.text := fun _ he => by cases he
  have hname : ∀ {m : Node}, m.Made schema → ∀ q, m.name = some q → IsSmallText q := fun hm q hq =>
    isSmallText_of_isName (hm.isName_name q hq)
  induction h with
  | @relation name names serial hn hg =>
    have hm : Made schema (.relation (Head.make (some name) (.ofNames names (some name)) serial)) := .relation hn hg
    obtain ⟨hshown, hsmall⟩ := hm.isSmallText_columns hs
    exact ⟨_, _, _, rfl, hnone, hshown, hsmall, Source.isRewritten_table (hname hm), fun _ hp => by cases hp⟩
  | select h hw hv ih =>
    obtain ⟨columns, source, filters, hq, hr⟩ := ih fun s hm => hc s (List.mem_append_right _ hm)
    obtain ⟨p, hp⟩ := Predicate.exists_ofCondition hw
    refine ⟨columns, source, filters ++ [p], ?_, hnone, hr.shown, hr.columns, hr.source, ?_⟩
    · rw [query_of_select _ hq hp, Query.columns, hr.shown]
      rfl
    · intro f hf
      rcases List.mem_append.mp hf with hf | hf
      · exact hr.filters f hf
      · rw [List.mem_singleton.mp hf]
        exact (Predicate.writes_of_ofCondition hp).stays fun o ho => hc o (List.mem_append_left _ ho)
  | @project child references kept serial h hr hk ih =>
    have hm : Made schema (.project (Head.make child.name kept serial) child) := .project h hr hk
    obtain ⟨hshown, hsmall⟩ := hm.isSmallText_columns hs
    obtain ⟨columns, source, filters, hq, hr⟩ := ih hc
    exact ⟨_, source, filters, query_of_project _ hq, hnone, hshown, hsmall, hr.source, hr.filters⟩
  | @rename child target renamed serial h ht hf hr ih =>
    have hm : Made schema (.rename (Head.make (target.name?.or child.name) renamed serial) child) := .rename h ht hf hr
    obtain ⟨hshown, hsmall⟩ := hm.isSmallText_columns hs
    obtain ⟨columns, source, filters, hq, hrw⟩ := ih hc
    refine ⟨_, _, _, query_of_rename _ hq, hnone, hshown, hsmall, ?_, fun _ hp => by cases hp⟩
    exact Source.isRewritten_renamed hrw.rewrites (hname hm) fun m hmem => ((hm.isNamed_heading hs).names m hmem).2
  | @join op left right attributes serial hl hr ho hn ha ihl ihr =>
    have hm : Made schema (.join (Head.make none attributes serial) op left right) := .join hl hr ho hn ha
    obtain ⟨hshown, hsmall⟩ := hm.isSmallText_columns hs
    obtain ⟨_, _, _, hql, hwl⟩ := ihl fun s hm => hc s (List.mem_append_left _ hm)
    obtain ⟨_, _, _, hqr, hwr⟩ := ihr fun s hm => hc s (List.mem_append_right _ (List.mem_append_right _ hm))
    obtain ⟨o, hsql, -⟩ := exists_toSql_get ho ha
    refine ⟨_, _, _, query_of_join _ hql hqr hsql, hnone, hshown, hsmall, ?_, fun _ hp => by cases hp⟩
    exact Source.isRewritten_joined (isRewritten_operandSource hl hwl) (isRewritten_operandSource hr hwr)
      (stays_ending hsql fun s hm => hc s (List.mem_append_right _ (List.mem_append_left _ hm)))
  | @setOperation op left right serial hl hr hn ihl ihr =>
    have hm : Made schema (.setOperation (Head.make none (.ofNames left.heading.names none) serial) op left right) :=
      .setOperation hl hr hn
    obtain ⟨hshown, hsmall⟩ := hm.isSmallText_columns hs
    obtain ⟨_, _, _, hql, hwl⟩ := ihl fun s hm => hc s (List.mem_append_left _ hm)
    obtain ⟨_, _, _, hqr, hwr⟩ := ihr fun s hm => hc s (List.mem_append_right _ hm)
    refine ⟨_, _, _, query_of_setOperation _ op hql hqr, hnone, hshown, hsmall, ?_, fun _ hp => by cases hp⟩
    exact Source.isRewritten_combined hwl.rewrites hwr.rewrites hm.stays_label

end Node

/-- A change of a table is the same with both semantics. Its first word starts like `ALL`, but nothing stands before it. -/
theorem Sql.replaceAll_alterText {table attributes : String} (ht : IsSmallText table) (ha : IsSmallText attributes) :
    Text.replaceAll " ALL " " " (Text.replaceAll "SELECT " "SELECT DISTINCT " (alterText table "ADD PRIMARY KEY" attributes))
      = alterText table "ADD PRIMARY KEY" attributes := by
  obtain ⟨mid, h₁, hc₁, h₂, hc₂⟩ :=
    ((ht.stays.before (w := " " ++ "ADD PRIMARY KEY" ++ " (") (by decide)).append ha.stays).before (w := ")") (by decide)
  have htext : alterText table "ADD PRIMARY KEY" attributes
      = "ALTER TABLE " ++ (table ++ (" " ++ "ADD PRIMARY KEY" ++ " (") ++ attributes ++ ")") := by
    unfold alterText
    simp only [String.append_assoc]
  have hword : ∀ {old new}, Text.inert old "ALTER TABLE ".toList = true →
      Text.Turns old new "ALTER TABLE ".toList "ALTER TABLE ".toList := Text.turns_of_inert
  have h₁ := (hword (by decide)).append h₁ hc₁
  have h₂ := (hword (by decide)).append h₂ hc₂
  rw [← String.toList_append] at h₁ h₂
  rw [htext]
  exact replaceAll_of_turns h₁ h₂

/-- A listing of words prints them with commas between them. -/
theorem Listing.sqlText_of_words {l : Listing} {names : List String} (h : l.phrase = Phrase.words names) :
    l.sqlText = commaList names := by
  have htexts : (names.map Phrase.word).map Phrase.text = names := by
    rw [List.map_map]
    exact (List.map_congr_left fun n _ => rfl).trans (List.map_id names)
  rw [Listing.sqlText, h]
  exact congrArg commaList htexts

/-- What a statement adds to a schema has names too. -/
theorem Stated.isNamed {schema extended : Schema} {n : Node} (h : Stated schema n extended) (hs : schema.IsNamed) :
    extended.IsNamed :=
  h.names (fun _ => isNamed_of_isName) (fun _ hn => ⟨Text.lower_ne_empty hn.1, fun _ hc => Text.isUpper_of_mem_lower hc⟩) hs

/-- The SQL of a statement with set semantics is made of the one with bag semantics. -/
theorem Stated.text_set {schema extended : Schema} {n : Node} (h : Stated schema n extended) (hs : schema.IsNamed)
    (hc : ∀ s ∈ n.compared, isWord s = true) :
    ∃ q?, n.query = .ok q? ∧ ∀ q, q? = some q →
      q.text .set = Text.replaceAll " ALL " " " (Text.replaceAll "SELECT " "SELECT DISTINCT " (q.text .bag)) := by
  cases h with
  | query h =>
    obtain ⟨columns, source, filters, hq, hr⟩ := h.exists_isRewritten hs hc
    refine ⟨_, hq, fun q he => ?_⟩
    cases he
    exact hr.rewrites.eq.symm
  | @assign child name names attributes serial _ h hn hnames hr ha =>
    have hnamed := (h.isNamed_heading hs).of_rename hnames hr
    obtain ⟨columns, source, filters, hq, hrw⟩ := h.exists_isRewritten hs hc
    have htarget : Stays (Target.text ⟨some name, attributes.names⟩) :=
      Target.stays (fun m he => by cases he; exact isSmallText_of_isName hn) fun m hm => (hnamed.names m hm).2
    have hassigned : Query.IsRewritten (some ⟨some name, attributes.names⟩) columns source filters :=
      ⟨fun t he => by cases he; exact htarget, hrw.shown, hrw.columns, hrw.source, hrw.filters⟩
    refine ⟨_, Node.query_of_assign _ hq, fun q he => ?_⟩
    cases he
    exact hassigned.rewrites.eq.symm
  | declare h =>
    obtain ⟨table, attributes, rfl⟩ | ⟨_, _, _, _, rfl, -⟩ | ⟨_, _, _, _, _, rfl, -⟩ := h.cases
    · obtain ⟨name, names, ht, hn, hl, hnames⟩ := h.key table attributes rfl
      refine ⟨_, rfl, fun q he => ?_⟩
      cases he
      rw [ht, Listing.sqlText_of_words hl]
      exact (replaceAll_alterText (isSmallText_of_isName hn)
        (isSmallText_commaList fun m hm => isSmallText_of_isName (hnames m hm))).symm
    · exact ⟨none, rfl, fun q he => by cases he⟩
    · exact ⟨none, rfl, fun q he => by cases he⟩

/-- The SQL of a chain with set semantics is its SQL with bag semantics after the two replacements. -/
theorem Chain.sqlTexts_set {schema : Schema} {ns : List Node} (h : Chain schema ns) (hs : schema.IsNamed)
    (hc : ∀ n ∈ ns, ∀ s ∈ n.compared, isWord s = true) :
    Node.sqlTexts .set ns = (Node.sqlTexts .bag ns).map
      (List.map fun t => Text.replaceAll " ALL " " " (Text.replaceAll "SELECT " "SELECT DISTINCT " t)) := by
  induction h with
  | nil => rfl
  | cons h _ ih =>
    obtain ⟨q?, hq, htext⟩ := h.text_set hs (hc _ List.mem_cons_self)
    have ih := ih (h.isNamed hs) fun n hn => hc n (List.mem_cons_of_mem _ hn)
    simp only [Node.sqlTexts, hq, ih, bind, Except.bind]
    cases Node.sqlTexts .bag _ with
    | error e => rfl
    | ok texts =>
      cases q? with
      | none => rfl
      | some q =>
        simp only [Except.map, Option.map_some, htext q rfl]
        rfl

/-- Over a schema without empty attribute names, the SQL of a text without quotes with set semantics is its SQL with bag
semantics, statement by statement, with `SELECT DISTINCT ` for every `SELECT ` and then a blank for every ` ALL `. -/
theorem sql_set_eq_map_bag (level : Level) (definition : List (String × List String)) (text : String)
    (hn : ∀ e ∈ definition, "" ∉ e.2) (ht : ∀ c ∈ text.toList, c ≠ '"' ∧ c ≠ '\'') :
    Dialect.sql ⟨level, .standard⟩ .set (.ofDefinition definition) text =
      (Dialect.sql ⟨level, .standard⟩ .bag (.ofDefinition definition) text).map
        (List.map fun t => Text.replaceAll " ALL " " " (Text.replaceAll "SELECT " "SELECT DISTINCT " t)) := by
  unfold Dialect.sql
  cases hf : Dialect.forest ⟨level, .standard⟩ (.ofDefinition definition) text with
  | error e => rfl
  | ok ns => exact (Build.chain_of_forest hf).sqlTexts_set (Schema.isNamed_ofDefinition hn) (isWord_of_forest ht hf)

/-- An attribute may be called `all`, and a key is the same with both semantics. -/
theorem sql_set_eq_map_bag_of_union :
    Dialect.sql ⟨.dependency, .standard⟩ .bag (.ofDefinition [("R", ["A"]), ("s", ["a"])])
        "t(all) := \\select_\x7ba < 2\x7d r \\union s; pk_\x7ba\x7d s;"
      = .ok ["CREATE TEMPORARY TABLE t(all) AS SELECT a FROM (SELECT r.a FROM r WHERE (a < 2) UNION ALL SELECT s.a FROM s) AS _#1",
          "ALTER TABLE s ADD PRIMARY KEY (a)"]
    ∧ Dialect.sql ⟨.dependency, .standard⟩ .set (.ofDefinition [("R", ["A"]), ("s", ["a"])])
        "t(all) := \\select_\x7ba < 2\x7d r \\union s; pk_\x7ba\x7d s;"
      = .ok ["CREATE TEMPORARY TABLE t(all) AS SELECT DISTINCT a FROM (SELECT DISTINCT r.a FROM r WHERE (a < 2) "
            ++ "UNION SELECT DISTINCT s.a FROM s) AS _#1",
          "ALTER TABLE s ADD PRIMARY KEY (a)"] := by
  obtain ⟨texts, hbag, ht⟩ := exists_ok_of_any
    (x := Dialect.sql ⟨.dependency, .standard⟩ .bag (.ofDefinition [("R", ["A"]), ("s", ["a"])])
      "t(all) := \\select_\x7ba < 2\x7d r \\union s; pk_\x7ba\x7d s;")
    (p := fun texts => texts =
      ["CREATE TEMPORARY TABLE t(all) AS SELECT a FROM (SELECT r.a FROM r WHERE (a < 2) UNION ALL SELECT s.a FROM s) AS _#1",
        "ALTER TABLE s ADD PRIMARY KEY (a)"]) (by decide +kernel)
  obtain rfl := of_decide_eq_true ht
  refine ⟨hbag, ?_⟩
  rw [sql_set_eq_map_bag, hbag]
  · exact congrArg Except.ok (by decide +kernel)
  · decide
  · have hall : ∀ cs : List Char, cs.all (fun c => c ≠ '"' && c ≠ '\'') = true → ∀ c ∈ cs, c ≠ '"' ∧ c ≠ '\'' :=
      fun cs h c hc => by simpa using List.all_eq_true.mp h c hc
    exact hall _ (by decide +kernel)

end RelAlg
