import RelAlg.Proofs.Reader.Operand

/-!
# Conditions that are read

`Condition.Writes` says which lexemes write a condition in the extended language: negation binds tighter than the linking
operators, these share one level and group to the right, and parentheses may stand around any part. Whatever lexemes write
a condition, reading them gives a clause that stands for it (`Condition.Writes.reader`). A smaller language reads the same
lexemes if no test whether an operand is defined is among them (`Condition.hasTest`). An attribute may be named like a word
of the language: the negation gives way where no clause follows it.
-/

namespace RelAlg

open Surface Reader Cursor

/-- The linking operators and the symbols that spell them. -/
def Connective.linkSymbols : List (Symbol × Connective) := [(.and, and), (.or, or)]

/-- The lexemes write the condition. At rank 0 no linking operator stands outside parentheses; at rank 1 one may. -/
inductive Condition.Writes : Nat → Condition → List Lexeme → Prop where
  | compare {left right : String} {s : Symbol} {op : Connective} {l o r : Lexeme} (hl : l.IsOperand left)
      (hs : s ∈ comparatorSymbols) (hop : (s, op) ∈ Connective.binarySymbols) (ho : o.chars = (Lexicon.usual s).toList)
      (hr : r.IsOperand right) : Writes 0 (.binary op (.operand left) (.operand right)) [l, o, r]
  | defined {operand : String} {w o : Lexeme} (hw : w.Spells .defined) (ho : o.IsOperand operand) :
      Writes 0 (.unary .defined (.operand operand)) [w, .mark '(' rfl, o, .mark ')' rfl]
  | negate {body : Condition} {w : Lexeme} {ws : List Lexeme} (hw : w.Spells .not) (hb : Writes 0 body ws) :
      Writes 0 (.unary .not body) (w :: ws)
  | parens {c : Condition} {ws : List Lexeme} (h : Writes 1 c ws) : Writes 0 c (.mark '(' rfl :: (ws ++ [.mark ')' rfl]))
  | link {left right : Condition} {s : Symbol} {op : Connective} {w : Lexeme} {ls rs : List Lexeme}
      (hl : Writes 0 left ls) (hop : (s, op) ∈ Connective.linkSymbols) (hw : w.Spells s) (hr : Writes 1 right rs) :
      Writes 1 (.binary op left right) (ls ++ w :: rs)
  | loose {c : Condition} {ws : List Lexeme} (h : Writes 0 c ws) : Writes 1 c ws

theorem Connective.linkSymbols_subset : ∀ p ∈ linkSymbols, p ∈ binarySymbols := by decide

/-- The symbols of the connectives with two operands are told apart by their spelling. -/
theorem Condition.binaryOf_of_mem {s : Symbol} {op : Connective} (h : (s, op) ∈ Connective.binarySymbols) :
    binaryOf .standard (.leaf (Lexicon.usual s)) = .ok op := by
  have hall : ∀ p ∈ Connective.binarySymbols, Connective.ofSpelling? Connective.binarySymbols .standard (Lexicon.usual p.1)
      = some p.2 := by decide
  have := hall _ h
  simp only [binaryOf, Phrase.text?, Option.bind_some, this]

/-- The condition tests somewhere whether an operand is defined. -/
def Condition.hasTest : Condition → Bool
  | operand _ => false
  | unary op child => op = .defined || child.hasTest
  | binary _ left right => left.hasTest || right.hasTest

namespace Surface.Clause

variable {level : Level}

/-! ## What is refused -/

/-- No operand is read where none of the characters that start one is ahead. -/
theorem operandReader_eq_none {c : Cursor} (hn : c.ahead.head?.all (fun x => !isNameStart x) = true)
    (hq : c.ahead.head?.all (fun x => x ≠ '"' && x ≠ '\'') = true) (hd : number c = none) : Operand.reader c = none := by
  rw [operandReader_apply, reference_eq_none hn, quoted_eq_none hq, hd]
  rfl

theorem simple_eq_none {c : Cursor} (hop : Operand.reader c = none)
    (hdef : caselessKeyword true (Lexicon.usual .defined) c = none) : simple level .standard c = none := by
  have hcomp : comparison .standard c = none := bind_of_none hop
  unfold simple
  split
  · exact (orElse_of_none hcomp).trans (bind_of_none hdef)
  · exact hcomp

/-- The step of the reader of clauses that no linking operator divides. -/
def tightStep (level : Level) (tight : Reader Clause) : Reader Clause :=
  (do
    let op ← negation .standard
    let body ← tight
    pure (negate op body))
  <|> simple level .standard <|> parenthesized .standard (linkedReader .standard tight)

theorem tightReader_eq (level : Level) : tightReader level .standard = recursive (tightStep level) := rfl

/-- A step refuses where each of its ways to start does. -/
theorem tightStep_eq_none {tight : Reader Clause} {c : Cursor}
    (hneg : caselessKeyword true (Lexicon.usual .not) c = none) (hop : Operand.reader c = none)
    (hdef : caselessKeyword true (Lexicon.usual .defined) c = none) (hpar : markReader .standard .parenLeft c = none) :
    tightStep level tight c = none :=
  (orElse_of_none (bind_of_none hneg)).trans ((orElse_of_none (simple_eq_none hop hdef)).trans (bind_of_none hpar))

/-- A clause that no linking operator divides is not read where a comparison operator or a point is ahead. -/
theorem tightReader_eq_none {c : Cursor} {x : Char} {rest : List Char} (hc : c.ahead = x :: rest)
    (hx : x ∈ "=!<>.".toList) (hd : number c = none) : tightReader level .standard c = none := by
  have hall : ("=!<>.".toList.all fun x => !startsLike "not" x && !startsLike "defined" x && !isNameStart x
      && (x ≠ '"' && x ≠ '\'') && x ≠ '(') = true := by decide
  have hx := List.all_eq_true.mp hall x hx
  simp only [Bool.and_eq_true, decide_eq_true_eq] at hx
  obtain ⟨⟨⟨⟨h₁, h₂⟩, h₃⟩, h₄⟩, h₅⟩ := hx
  rw [tightReader_eq, recursive_apply]
  refine tightStep_eq_none (caselessKeyword_of_head (by decide) (by rw [hc]; exact h₁))
    (operandReader_eq_none (by rw [hc]; exact h₃) (by rw [hc]; simpa using h₄) hd)
    (caselessKeyword_of_head (by decide) (by rw [hc]; exact h₂)) (markReader_eq_none rfl ?_)
  rw [hc]
  exact fun e => h₅ (Option.some.inj e)

/-! ## A name like the negation -/

/-- Where the negation is read at the start of a word, it is the whole word. -/
theorem length_of_negation {word rest : List Char} (hw : ∀ x ∈ word, isNameChar x = true)
    (hr : rest.head?.all (fun x => x = '.' || isBreak x) = true)
    (ht : Text.upper ((word ++ rest).take 3) = ['N', 'O', 'T'])
    (hb : caselessBoundary true ((word ++ rest).drop 3).head? = true) : word.length = 3 := by
  rcases Nat.lt_trichotomy word.length 3 with hlt | he | hgt
  · -- too short: the character behind the word is no letter of it
    cases rest with
    | nil =>
      rw [List.append_nil, List.take_of_length_le (Nat.le_of_lt hlt),
        upper_of_ascii fun x hx => toNat_lt_of_isNameChar (hw x hx)] at ht
      have := congrArg List.length ht
      simp only [List.length_map, List.length_cons, List.length_nil] at this
      omega
    | cons x rest =>
      have hx : Text.upperChar x = [x] ∧ x ∉ ['N', 'O', 'T'] := by
        have hP : (x = '.' || isBreak x) = true := hr
        rcases Bool.or_eq_true_iff.mp hP with hp | hp
        · rw [of_decide_eq_true hp]; decide
        · have := of_isBreak (P := fun x => Text.upperChar x = [x] ∧ x ∉ ['N', 'O', 'T']) hp (by decide)
          simpa using this
      have hm : x ∈ (word ++ x :: rest).take 3 := by
        obtain ⟨n, hn⟩ : ∃ n, 3 - word.length = n + 1 := ⟨3 - word.length - 1, by omega⟩
        rw [List.take_append, hn]
        simp
      have hu : x ∈ Text.upper ((word ++ x :: rest).take 3) := List.mem_flatMap.mpr ⟨x, hm, by rw [hx.1]; simp⟩
      rw [ht] at hu
      exact absurd hu hx.2
  · exact he
  · -- too long: a letter follows that belongs to the word
    obtain ⟨y, ys, hy⟩ : ∃ y ys, word.drop 3 = y :: ys := List.exists_cons_of_ne_nil (by simpa using hgt)
    have hyw : isNameChar y = true := hw y (List.mem_of_mem_drop (hy ▸ List.mem_cons_self))
    rw [List.drop_append_of_le_length (Nat.le_of_lt hgt), hy] at hb
    have hyb : caselessBoundary true (some y) = false := by
      refine of_toNat_lt (P := fun y => isNameChar y = true → caselessBoundary true (some y) = false) (by decide)
        (toNat_lt_of_isNameChar hyw) hyw
    rw [List.cons_append, List.head?_cons, hyb] at hb
    cases hb

/-- Where the negation is read off a name, the name is passed. -/
theorem negation_of_identifier {c m : Cursor} {op : String} {word rest : List Char} (hc : c.ahead = word ++ rest)
    (hw : isIdentifier (String.ofList word) = true) (hr : rest.head?.all (fun x => x = '.' || isBreak x) = true)
    (hn : caselessKeyword true (Lexicon.usual .not) c = some (op, m)) :
    m.rest = rest ∧ m = (c.skipWhile isBlank).advance word.length ∧
      later (tightStep level) c m = tightReader level .standard m := by
  rw [caselessKeyword_apply, hc] at hn
  split at hn
  · rename_i h
    simp only [Bool.and_eq_true, decide_eq_true_eq] at h
    have hl := length_of_negation (isNameChar_of_isIdentifier hw) hr h.1.1 h.2
    obtain rfl : (c.skipWhile isBlank).advance 3 = m := (Prod.mk.inj (Option.some.inj hn)).2
    have ha : (c.skipWhile isBlank).rest = word ++ rest := hc
    refine ⟨by rw [rest_advance, ha, ← hl, List.drop_left], by rw [hl], ?_⟩
    obtain ⟨gap, hg⟩ : ∃ gap, c.skipWhile isBlank = c.advance gap := ⟨_, rfl⟩
    have hlen := congrArg List.length ha
    rw [hg, rest_advance, List.length_drop, List.length_append, hl] at hlen
    rw [hg, advance_advance]
    exact later_advance (tightStep level) c (gap + 3) (by omega) (by omega)
  · cases hn

/-- Where the negation is read off the left operand of a comparison, no clause is behind it. -/
theorem tightReader_of_comparison {c m d e : Cursor} {op o : String} {x : Operand}
    (hn : negation .standard c = some (op, m)) (hl : Operand.reader c = some (x, d))
    (ho : comparator .standard d = some (o, e)) :
    later (tightStep level) c m = tightReader level .standard m ∧ tightReader level .standard m = none := by
  obtain ⟨y, hy, hy'⟩ := head_of_keyword (by decide) hn
  rw [operandReader_apply] at hl
  cases hr : reference c with
  | some r =>
    rw [hr] at hl
    obtain ⟨s, d'⟩ := r
    obtain rfl : d' = d := congrArg Prod.snd (Option.some.inj hl)
    -- what ends the name: a blank or the comparison operator, or the point before an attribute name
    obtain ⟨z, hz', hz⟩ := head_of_comparator ho
    obtain ⟨rest, hd⟩ := List.head?_eq_some_iff.mp hz
    have hmark : isBreak z = true ∧ z ∈ "=!<>.".toList ∧ isNumeralChar z = false := by
      revert z
      simp +decide
    rcases exists_of_reference hr with ⟨word, hw, hc, -, he, hend⟩ | ⟨relation, column, hw, hw', hc, -, -, -⟩
    · have hbreak : d'.rest.head?.all (fun x => x = '.' || isBreak x) = true := by
        cases hrest : d'.rest with
        | nil => rfl
        | cons u us =>
          cases hu : isBlank u with
          | true => simp [isBreak, hu]
          | false =>
            have hd' : u = z := by
              rw [Cursor.ahead, skipWhile, hrest, List.takeWhile_cons_of_neg (by simp [hu])] at hd
              exact (List.cons.inj (hrest.symm.trans hd)).1
            simp [hd', hmark.1]
      obtain ⟨-, hm, hlater⟩ := negation_of_identifier hc hw hbreak hn
      rw [hlater, hm, ← he]
      exact ⟨rfl, tightReader_eq_none hd hmark.2.1 (number_of_head (by rw [hd]; simp [hmark.2.2]))⟩
    · obtain ⟨hm, -, hlater⟩ := negation_of_identifier hc hw rfl hn
      have hma : m.ahead = '.' :: (column ++ d'.rest) := by
        rw [Cursor.ahead, skipWhile, hm, List.takeWhile_cons_of_neg (by decide)]
        exact hm
      obtain ⟨u, us, rfl, hu, -⟩ := exists_cons_of_isIdentifier hw'
      have hdigit : u.isDigit = false :=
        of_toNat_lt (P := fun y => isNameStart y = true → y.isDigit = false) (by decide)
          (toNat_lt_of_isNameChar (isNameChar_of_isNameStart hu)) hu
      refine ⟨hlater, tightReader_eq_none hma (by decide) (number_eq_none (by rw [hma]; rfl) ?_)⟩
      rw [hma]
      simp [unsignedPart, hdigit]
  | none =>
    -- the negation starts with a letter, as no other operand does
    have hq : quoted c = none := by
      refine quoted_eq_none ?_
      rw [hy, Option.all_some]
      have : y ≠ '"' ∧ y ≠ '\'' := by constructor <;> rintro rfl <;> exact absurd hy' (by decide)
      simpa using this
    have hnum : number c = none := by
      refine number_of_head ?_
      rw [hy, Option.all_some, Bool.not_eq_true']
      cases hd : isNumeralChar y with
      | false => rfl
      | true =>
        have hf : startsLike (Lexicon.usual .not) y = true := hy'
        rw [(of_isNumeralChar hd).2.2.2.2] at hf
        cases hf
    rw [hr, hq, hnum] at hl
    cases hl

/-- The negation gives way to a comparison whose left operand is named like it. -/
theorem negated_eq_none {c d e : Cursor} {o : String} {x : Operand} (hl : Operand.reader c = some (x, d))
    (ho : comparator .standard d = some (o, e)) :
    (do
      let op ← negation .standard
      let body ← later (tightStep level) c
      pure (negate op body) : Reader Clause) c = none := by
  cases hn : negation .standard c with
  | none => exact bind_of_none hn
  | some r =>
    obtain ⟨hlater, hnone⟩ := @tightReader_of_comparison level _ _ _ _ _ _ _ hn hl ho
    exact (bind_of_some hn).trans (bind_of_none (hlater.trans hnone))

/-! ## One clause -/

/-- A comparison comes before a test whether an operand is defined. -/
theorem simple_of_comparison {c : Cursor} {r : Clause × Cursor} (h : comparison .standard c = some r) :
    simple level .standard c = some r := by
  unfold simple
  split
  · exact orElse_of_some h
  · exact h

/-- A comparison is read, also where its left operand is named like the negation. -/
theorem tightReader_compare {l o r : Lexeme} {left right : String} {s : Symbol} {c d e c' : Cursor} (hl : l.IsOperand left)
    (hs : s ∈ comparatorSymbols) (ho : o.chars = (Lexicon.usual s).toList) (hr : r.IsOperand right) (h₁ : Past l c d)
    (h₂ : Past o d e) (h₃ : Past r e c') :
    ∃ x y : Operand, x.text = left ∧ y.text = right ∧
      tightReader level .standard c = some (compare x (Lexicon.usual s) y, c') := by
  obtain ⟨x, hx, hxr⟩ := hl.reader h₁
  obtain ⟨y, hy, hyr⟩ := hr.reader h₃
  have hc := comparator_of_past hs ho h₂ (hr.head_ne h₃)
  have hcomp : comparison .standard c = some (compare x (Lexicon.usual s) y, c') :=
    (bind_of_some hxr).trans ((bind_of_some hc).trans (bind_of_some hyr))
  refine ⟨x, y, hx, hy, ?_⟩
  rw [tightReader_eq, recursive_apply]
  exact (orElse_of_none (negated_eq_none hxr hc)).trans (orElse_of_some (simple_of_comparison hcomp))

/-- A test whether an operand is defined is read. -/
theorem simple_defined {w o : Lexeme} {operand : String} {c c' : Cursor} (hl : level.includes .extended = true)
    (hw : w.Spells .defined) (ho : o.IsOperand operand) (h : Passes [w, .mark '(' rfl, o, .mark ')' rfl] c c') :
    ∃ x : Operand, x.text = operand ∧
      simple level .standard c = some (defined (Lexicon.usual .defined) x, c') := by
  obtain ⟨d, h₁, h⟩ := Passes.cons_iff.mp h
  obtain ⟨e, h₂, h⟩ := Passes.cons_iff.mp h
  obtain ⟨f, h₃, h⟩ := Passes.cons_iff.mp h
  obtain ⟨g, h₄, h⟩ := Passes.cons_iff.mp h
  cases h
  obtain ⟨x, hx, hxr⟩ := ho.reader h₃
  -- the word could be an attribute, but no comparison operator follows it
  obtain ⟨y, -, hyr⟩ := (Lexeme.IsOperand.reference (.name ⟨hw.isIdentifier (by decide), rfl⟩)).reader h₁
  have hcmp : Clause.comparator .standard d = none := comparator_eq_none (by rw [h₂.ahead]; rfl)
  refine ⟨x, hx, ?_⟩
  unfold simple
  rw [if_pos hl]
  refine (orElse_of_none ((bind_of_some hyr).trans (bind_of_none hcmp))).trans ?_
  refine (bind_of_some (hw.keyword h₁ (by decide) true)).trans ?_
  refine (bind_of_some (literalReader_of_past h₂ rfl)).trans ?_
  exact (bind_of_some hxr).trans (bind_of_some (literalReader_of_past h₄ rfl))

/-- Only a parenthesis opens a clause between parentheses. -/
theorem tightStep_parens {tight : Reader Clause} {clause : Clause} {u v : Unit} {c d e c' : Cursor}
    (h₁ : markReader .standard .parenLeft c = some (u, d)) (h₂ : linkedReader .standard tight d = some (clause, e))
    (h₃ : markReader .standard .parenRight e = some (v, c')) : tightStep level tight c = some (clause, c') := by
  have hc : c.ahead = '(' :: d.rest := ahead_of_mark h₁
  have hneg : caselessKeyword true (Lexicon.usual .not) c = none :=
    caselessKeyword_of_head (by decide) (by rw [hc]; rfl)
  have hdef : caselessKeyword true (Lexicon.usual .defined) c = none :=
    caselessKeyword_of_head (by decide) (by rw [hc]; rfl)
  have hop : Operand.reader c = none :=
    operandReader_eq_none (by rw [hc]; rfl) (by rw [hc]; rfl) (number_of_head (by rw [hc]; rfl))
  refine (orElse_of_none (bind_of_none hneg)).trans ((orElse_of_none (simple_eq_none hop hdef)).trans ?_)
  exact (bind_of_some h₁).trans ((bind_of_some h₂).trans (bind_of_some h₃))

/-! ## Clauses -/

/-- A linking operator and the clause after it. -/
def linkPart (tight : Reader Clause) : Reader (String × Clause) := do
  let op ← linker .standard
  let next ← tight
  pure (op, next)

/-- A linking operator is read. -/
theorem linker_of_past {w : Lexeme} {s : Symbol} {op : Connective} {c c' : Cursor}
    (hop : (s, op) ∈ Connective.linkSymbols) (hw : w.Spells s) (h : Past w c c') :
    linker .standard c = some (Lexicon.usual s, c') := by
  simp only [Connective.linkSymbols, List.mem_cons, Prod.mk.injEq, List.not_mem_nil, or_false] at hop
  rcases hop with ⟨rfl, -⟩ | ⟨rfl, -⟩
  · exact orElse_of_some (hw.keyword h (by decide) true)
  · have hand : caselessKeyword true (Lexicon.usual .and) c = none :=
      Lexeme.keyword_of_clash (.inl hw) h (by decide) (by decide) (by decide)
    exact (orElse_of_none hand).trans (hw.keyword h (by decide) true)

/-- No linking operator is read where a mark is ahead, or nothing. -/
theorem linker_eq_none {c : Cursor} (hc : c.ahead.head?.all isMark = true) : linker .standard c = none := by
  have hhead : ∀ {P : Char → Bool}, (" \n\t\r(),;\x7b\x7d=!<>".toList.all P) = true → c.ahead.head?.all P = true := by
    intro P hP
    cases hh : c.ahead.head? with
    | none => rfl
    | some x =>
      rw [hh, Option.all_some] at hc
      exact of_isBreak (by rw [isBreak, hc, Bool.or_true]) hP
  have hand : caselessKeyword true (Lexicon.usual .and) c = none := caselessKeyword_of_head (by decide) (hhead (by decide))
  have hor : caselessKeyword true (Lexicon.usual .or) c = none := caselessKeyword_of_head (by decide) (hhead (by decide))
  exact (orElse_of_none hand).trans hor

/-- The condition is read from the first place to the second: at rank 0 as one clause, at rank 1 as clauses with linking
operators between them. -/
def ReadTo (tight : Reader Clause) (c c' : Cursor) : Nat → Condition → Prop
  | 0, condition => ∃ clause, tight c = some (clause, c') ∧ clause.Denotes condition
  | _ + 1, condition => ∃ first others d, tight c = some (first, d) ∧ d.rest.length ≤ c.rest.length ∧
      Runs (linkPart tight) d others c' ∧ (linkAll first others).Denotes condition

/-- Clauses with linking operators between them are read up to a mark or to the end. -/
theorem ReadTo.linkedReader {tight : Reader Clause} {c c' : Cursor} {condition : Condition}
    (h : ReadTo tight c c' 1 condition) (hc : c'.ahead.head?.all isMark = true) :
    ∃ clause, linkedReader .standard tight c = some (clause, c') ∧ clause.Denotes condition := by
  obtain ⟨first, others, d, hf, -, hr, hd⟩ := h
  exact ⟨_, (bind_of_some hf).trans (bind_of_some (many_of_runs hr (bind_of_none (linker_eq_none hc)))), hd⟩

/-- Whatever lexemes write a condition, it is read off them, if the language has the tests that are in it. -/
theorem readTo_of_writes {k : Nat} {condition : Condition} {ws : List Lexeme} (h : Condition.Writes k condition ws)
    (hx : condition.hasTest = true → level.includes .extended = true) {tight : Reader Clause} {c c' : Cursor}
    (ht : AgreesFrom tight (tightReader level .standard) c) (hp : Passes ws c c') : ReadTo tight c c' k condition := by
  induction h generalizing tight c c' with
  | compare hl hs hop ho hr =>
    obtain ⟨d, h₁, hp⟩ := Passes.cons_iff.mp hp
    obtain ⟨e, h₂, hp⟩ := Passes.cons_iff.mp hp
    obtain ⟨f, h₃, hp⟩ := Passes.cons_iff.mp hp
    cases hp
    obtain ⟨x, y, rfl, rfl, hxy⟩ := @tightReader_compare level _ _ _ _ _ _ _ _ _ _ hl hs ho hr h₁ h₂ h₃
    exact ⟨_, ht.here.trans hxy, denotes_compare (Condition.binaryOf_of_mem hop)⟩
  | defined hw ho =>
    obtain ⟨x, rfl, hread⟩ := simple_defined (hx rfl) hw ho hp
    obtain ⟨d, h₁, hp⟩ := Passes.cons_iff.mp hp
    refine ⟨_, ?_, denotes_defined x⟩
    rw [ht.here, tightReader_eq, recursive_apply]
    have hneg : caselessKeyword true (Lexicon.usual .not) c = none :=
      Lexeme.keyword_of_clash (.inl hw) h₁ (by decide) (by decide) (by decide)
    exact (orElse_of_none (bind_of_none hneg)).trans (orElse_of_some hread)
  | negate hw hb ih =>
    obtain ⟨d, h₁, hp⟩ := Passes.cons_iff.mp hp
    obtain ⟨body, hbody, hd⟩ := ih hx (agreesFrom_later (tightStep level) h₁) hp
    refine ⟨_, ?_, hd.negate⟩
    rw [ht.here, tightReader_eq, recursive_apply]
    exact orElse_of_some ((bind_of_some (hw.keyword h₁ (by decide) true)).trans (bind_of_some hbody))
  | parens h ih =>
    obtain ⟨d, h₁, hp⟩ := Passes.cons_iff.mp hp
    obtain ⟨e, h₂, hp⟩ := Passes.append.mp hp
    obtain ⟨f, h₃, hp⟩ := Passes.cons_iff.mp hp
    cases hp
    obtain ⟨clause, hc, hd⟩ := (ih hx (agreesFrom_later (tightStep level) h₁) h₂).linkedReader (by rw [h₃.ahead]; rfl)
    refine ⟨clause, ?_, hd⟩
    rw [ht.here, tightReader_eq, recursive_apply]
    exact tightStep_parens (markReader_of_past h₁ rfl) hc (markReader_of_past h₃ rfl)
  | @link left right s op w ls rs hl hop hw hr ihl ihr =>
    obtain ⟨d, h₁, hp⟩ := Passes.append.mp hp
    obtain ⟨e, h₂, hp⟩ := Passes.cons_iff.mp hp
    have hx' : (left.hasTest || right.hasTest) = true → level.includes .extended = true := hx
    rw [Bool.or_eq_true] at hx'
    obtain ⟨first, hf, hdf⟩ := ihl (fun h => hx' (.inl h)) ht h₁
    obtain ⟨next, others, f, hn, hlen, hruns, hdn⟩ :=
      ihr (fun h => hx' (.inr h)) ((ht.of_passes h₁).of_passes (.cons h₂ (.nil e))) hp
    have hpart : linkPart tight d = some ((Lexicon.usual s, next), f) :=
      (bind_of_some (linker_of_past hop hw h₂)).trans (bind_of_some hn)
    have hlt := h₂.length_lt
    refine ⟨first, (Lexicon.usual s, next) :: others, d, hf, h₁.length_le, .cons hpart (by omega) hruns, ?_⟩
    exact hdf.link hdn (Condition.binaryOf_of_mem (Connective.linkSymbols_subset _ hop))
  | loose h ih =>
    obtain ⟨clause, hc, hd⟩ := ih hx ht hp
    exact ⟨clause, [], c', hc, hp.length_le, .nil c', hd⟩

end Surface.Clause

/-- Whatever lexemes write a condition, reading them up to a mark gives a clause that stands for it. -/
theorem Condition.Writes.reader {condition : Condition} {ws : List Lexeme} (h : condition.Writes 1 ws) {c c' d : Cursor}
    {w : Lexeme} (hp : Passes ws c c') (hw : Past w c' d) (hm : isMark w.first = true) :
    ∃ clause, Clause.reader .extended .standard c = some (clause, c') ∧ clause.Denotes condition :=
  (Clause.readTo_of_writes h (fun _ => rfl) (.refl _ c) hp).linkedReader (by rw [hw.ahead]; exact hm)

end RelAlg
