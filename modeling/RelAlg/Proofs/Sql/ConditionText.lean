import RelAlg.Proofs.Schema
import RelAlg.Proofs.Sql.Predicate

/-!
# Reading conditions back from SQL

The SQL text of a condition says what the condition was, also where more text follows: if two texts of conditions go on so that
they are equal, the conditions are equal and so is what follows (`Condition.sqlText_inj`). Every literal must end at its own
closing quote (`isClosed`); one that was written between double quotes may hold a single quote and then reads as two.
-/

namespace RelAlg

/-- A text is divided in one way only into characters of a class and what starts with none of them. -/
theorem append_inj_of_all {p : Char → Bool} {xs ys r s : List Char} (hx : ∀ c ∈ xs, p c = true) (hy : ∀ c ∈ ys, p c = true)
    (hr : ∀ c ∈ r.head?, p c = false) (hs : ∀ c ∈ s.head?, p c = false) (h : xs ++ r = ys ++ s) : xs = ys ∧ r = s := by
  have ht : ∀ {r : List Char}, (∀ c ∈ r.head?, p c = false) → r.takeWhile p = [] := by
    intro r hr
    cases r with
    | nil => rfl
    | cons c r => rw [List.takeWhile_cons, hr c rfl]; rfl
  have he := congrArg (List.takeWhile p) h
  rw [List.takeWhile_append_of_pos hx, List.takeWhile_append_of_pos hy, ht hr, ht hs, List.append_nil, List.append_nil] at he
  subst he
  exact ⟨rfl, List.append_cancel_left h⟩

/-! ## Literals -/

/-- A text that starts with a quote ends at the quote that closes it. -/
def isClosed (s : String) : Bool :=
  match s.toList with
  | '\'' :: body => (Quoted.split '\'' body).2 = ['\'']
  | _ => true

/-- A closed literal is divided at its own end, whatever follows that is no quote. -/
theorem Quoted.split_append_of_closed {cs r : List Char} (h : (split '\'' cs).2 = ['\'']) (hr : r.head? ≠ some '\'') :
    split '\'' (cs ++ r) = ((split '\'' cs).1, '\'' :: r) := by
  fun_induction split '\'' cs with
  | case1 => cases h
  | case2 c hc => cases h
  | case3 c hc =>
    cases h
    cases r with
    | nil => rfl
    | cons d r =>
      have hd : d ≠ '\'' := fun e => hr (by rw [e]; rfl)
      simp [split, isPlain, isPair, hd]
  | case4 c d rest hc r' ih =>
    have hi := ih h
    simp only [List.cons_append] at hi ⊢
    rw [split, if_pos hc, hi]
  | case5 c d rest hc hp r' ih =>
    have hi := ih h
    have hp' : isPair '\'' c d (rest ++ r) = true := by
      cases rest with
      | nil => cases h
      | cons e rest => exact hp
    simp only [List.cons_append]
    rw [split, if_neg hc, if_pos hp', hi]
  | case6 c d rest hc hp => cases h

/-- What may follow a condition or an operand in SQL. -/
def Stops (r : List Char) : Prop := ∀ c ∈ r.head?, c = ' ' ∨ c = ')'

theorem stops_nil : Stops [] := nofun

/-- A blank goes on no operand. -/
theorem stops_blank (r : List Char) : Stops (' ' :: r) := by
  rintro c ⟨⟩
  exact .inl rfl

/-- A closing parenthesis goes on no operand. -/
theorem stops_paren (r : List Char) : Stops (')' :: r) := by
  rintro c ⟨⟩
  exact .inr rfl

/-- All characters of a word may stand in words. -/
theorem isWordChar_of_isWord {s : String} (h : isWord s = true) : ∀ c ∈ s.toList, isWordChar c = true := by
  rw [isWord, Bool.and_eq_true, List.all_eq_true] at h
  exact h.2

/-- An operand starts with a character of a word or with a quote. -/
theorem IsOperand.exists_cons {s : String} (h : IsOperand s) :
    ∃ x xs, s.toList = x :: xs ∧ (isWordChar x = true ∨ x = '\'') := by
  rcases h with ⟨h, -⟩ | ⟨body, rfl⟩
  · cases hs : s.toList with
    | nil => rw [isWord, hs] at h; cases h
    | cons x xs => exact ⟨x, xs, rfl, .inl (isWordChar_of_isWord h x (by simp [hs]))⟩
  · exact ⟨'\'', body ++ ['\''], String.toList_ofList, .inr rfl⟩

/-- A closed literal in a text is divided off at its closing quote. -/
theorem split_quoted {body r : List Char} (hc : isClosed (String.ofList ('\'' :: body ++ ['\''])) = true) (hr : Stops r) :
    Quoted.split '\'' (body ++ '\'' :: r) = (body, '\'' :: r) := by
  have hs : (Quoted.split '\'' (body ++ ['\''])).2 = ['\''] := by
    simpa only [isClosed, List.cons_append, String.toList_ofList, decide_eq_true_eq] using hc
  have hq : r.head? ≠ some '\'' := by
    intro he
    rcases hr '\'' he with h | h <;> exact absurd h (by decide)
  have hb := Quoted.split_append '\'' (body ++ ['\''])
  rw [hs] at hb
  have hf := Quoted.split_append_of_closed hs hq
  rwa [List.append_cancel_right hb, List.append_assoc] at hf

/-- An operand ends where a blank or a parenthesis follows it. -/
theorem IsOperand.append_inj {s t : String} {q r : List Char} (hs : IsOperand s) (ht : IsOperand t) (hcs : isClosed s = true)
    (hct : isClosed t = true) (hq : Stops q) (hr : Stops r) (h : s.toList ++ q = t.toList ++ r) : s = t ∧ q = r := by
  have hw : ∀ {r : List Char}, Stops r → ∀ c ∈ r.head?, isWordChar c = false := by
    intro r hr c hc
    rcases hr c hc with rfl | rfl <;> decide
  rcases hs with hs | ⟨b, rfl⟩ <;> rcases ht with ht | ⟨d, rfl⟩
  · obtain ⟨he, hqr⟩ := append_inj_of_all (isWordChar_of_isWord hs.1) (isWordChar_of_isWord ht.1) (hw hq) (hw hr) h
    exact ⟨String.toList_inj.mp he, hqr⟩
  · obtain ⟨x, xs, hx, -⟩ := IsOperand.exists_cons (.inl hs)
    have hwx := isWordChar_of_isWord hs.1 x (by simp [hx])
    rw [hx, String.toList_ofList] at h
    rw [(List.cons_eq_cons.mp h).1] at hwx
    exact absurd hwx (by decide)
  · obtain ⟨x, xs, hx, -⟩ := IsOperand.exists_cons (.inl ht)
    have hwx := isWordChar_of_isWord ht.1 x (by simp [hx])
    rw [hx, String.toList_ofList] at h
    rw [← (List.cons_eq_cons.mp h).1] at hwx
    exact absurd hwx (by decide)
  · simp only [String.toList_ofList, List.cons_append, List.cons.injEq, true_and, List.append_assoc, List.nil_append] at h
    have he := congrArg (Quoted.split '\'') h
    rw [split_quoted hcs hq, split_quoted hct hr] at he
    simp only [Prod.mk.injEq, List.cons.injEq, true_and] at he
    exact ⟨by rw [he.1], he.2⟩

/-! ## Conditions -/

/-- How SQL writes a connective between two operands. -/
def Connective.sqlWord (k : Connective) : String := ((Sql.BinaryOp.ofConnective? k).map Sql.BinaryOp.text).getD ""

namespace Condition

/-- The SQL text of a condition. -/
def sqlText : Condition → String
  | operand text => text
  | unary .not child => "NOT " ++ child.sqlText
  | unary _ child => child.sqlText ++ " IS NOT NULL"
  | binary op left right => "(" ++ left.sqlText ++ " " ++ op.sqlWord ++ " " ++ right.sqlText ++ ")"

/-- The SQL form of a condition has its text. -/
theorem text_of_writes {c : Condition} {p : Sql.Predicate} (h : Sql.Predicate.Writes c p) : p.text = c.sqlText := by
  induction h with
  | operand text => rfl
  | negation _ ih => rw [Sql.Predicate.text, sqlText, ih]
  | notNull _ ih => rw [Sql.Predicate.text, sqlText, ih]; nofun
  | binary op _ _ ihl ihr =>
    have ho : op.text = op.connective.sqlWord := by cases op <;> rfl
    rw [Sql.Predicate.text, sqlText, ihl, ihr, ho]

/-- Every operand that starts with a quote ends at the quote that closes it. -/
def literalsClosed : Condition → Bool
  | operand text => isClosed text
  | unary _ child => child.literalsClosed
  | binary _ left right => left.literalsClosed && right.literalsClosed

/-- The characters of a condition with a connective between two parts. -/
theorem toList_binary (op : Connective) (l r : Condition) (q : List Char) : (binary op l r).sqlText.toList ++ q
    = '(' :: (l.sqlText.toList ++ ' ' :: (op.sqlWord.toList ++ ' ' :: (r.sqlText.toList ++ ')' :: q))) := by
  simp [sqlText]

/-- The characters of a negation. -/
theorem toList_not (c : Condition) (q : List Char) :
    (unary .not c).sqlText.toList ++ q = 'N' :: 'O' :: 'T' :: ' ' :: (c.sqlText.toList ++ q) := by
  simp [sqlText]

/-- The characters of a test for a value. -/
theorem toList_defined (s : String) (q : List Char) :
    (unary .defined (operand s)).sqlText.toList ++ q = s.toList ++ ' ' :: ("IS".toList ++ ' ' :: ("NOT NULL".toList ++ q)) := by
  simp [sqlText]

/-- Words without blanks end at the first blank. -/
theorem word_inj {s t : String} {q r : List Char} (hs : ' ' ∉ s.toList) (ht : ' ' ∉ t.toList)
    (h : s.toList ++ ' ' :: q = t.toList ++ ' ' :: r) : s = t ∧ q = r := by
  have hp : ∀ {u : String}, ' ' ∉ u.toList → ∀ c ∈ u.toList, decide (c ≠ ' ') = true := fun hu c hc =>
    decide_eq_true fun e => hu (e ▸ hc)
  have hb : ∀ {q : List Char}, ∀ c ∈ (' ' :: q).head?, decide (c ≠ ' ') = false := by
    rintro q c ⟨⟩
    decide
  obtain ⟨he, hqr⟩ := append_inj_of_all (hp hs) (hp ht) hb hb h
  exact ⟨String.toList_inj.mp he, (List.cons_eq_cons.mp hqr).2⟩

/-- The word of a connective is one word. -/
theorem blank_not_mem_sqlWord (op : Connective) : ' ' ∉ op.sqlWord.toList := by cases op <;> decide

/-- The word tells the connective. -/
theorem sqlWord_inj {op op' : Connective} (h : op.isUnary = false) (h' : op'.isUnary = false)
    (he : op.sqlWord = op'.sqlWord) : op = op' := by
  revert h h' he
  cases op <;> cases op' <;> decide

/-- No connective has the word of a test for a value. -/
theorem sqlWord_ne_is (op : Connective) : op.sqlWord ≠ "IS" := by cases op <;> decide

/-- The text of a condition goes on with no operator of comparison after its first operand, if it starts with one. -/
theorem operand_ne_sqlText {s : String} {c : Condition} (hs : IsOperand s) (hcs : isClosed s = true) (hc : c.IsWritten)
    (hcc : c.literalsClosed = true) {op : Connective} {q r : List Char} (h : s.toList ++ ' ' :: (op.sqlWord.toList ++ ' ' :: q)
      = c.sqlText.toList ++ r) : False := by
  obtain ⟨x, xs, hx, hw⟩ := hs.exists_cons
  have hne : ∀ y ys, c.sqlText.toList ++ r = y :: ys → isWordChar y = true ∨ y = '\'' := by
    intro y ys hy
    rw [← h, hx] at hy
    exact (List.cons_eq_cons.mp hy).1 ▸ hw
  cases hc with
  | compare ho hl hr => exact absurd (hne _ _ (toList_binary ..)) (by decide)
  | link ho hl hr => exact absurd (hne _ _ (toList_binary ..)) (by decide)
  | negate hb => exact absurd (hne _ _ (toList_not ..)) (by decide)
  | defined ht =>
    rw [toList_defined] at h
    obtain ⟨-, hrest⟩ := hs.append_inj ht hcs hcc (stops_blank _) (stops_blank _) h
    obtain ⟨hword, -⟩ := word_inj (blank_not_mem_sqlWord op) (by decide) (List.cons_eq_cons.mp hrest).2
    exact sqlWord_ne_is op hword

/-- The text of a condition says what the condition is and where it ends. -/
theorem sqlText_inj {c d : Condition} (hc : c.IsWritten) (hd : d.IsWritten) (hcc : c.literalsClosed = true)
    (hcd : d.literalsClosed = true) {q r : List Char} (hq : Stops q) (hr : Stops r)
    (h : c.sqlText.toList ++ q = d.sqlText.toList ++ r) : c = d ∧ q = r := by
  have hstart : ∀ {s : String} {ys zs : List Char} {y : Char}, IsOperand s → y :: ys = s.toList ++ zs →
      isWordChar y = true ∨ y = '\'' := by
    intro s ys zs y hs he
    obtain ⟨x, xs, hx, hw⟩ := hs.exists_cons
    rw [hx] at he
    exact (List.cons_eq_cons.mp he).1 ▸ hw
  -- Which of the four forms both are is seen at the first character, except between the two with a parenthesis.
  induction hc generalizing d q r with
  | @compare op s t ho hs ht =>
    simp only [literalsClosed, Bool.and_eq_true] at hcc
    rw [toList_binary] at h
    cases hd with
    | @compare op' s' t' ho' hs' ht' =>
      simp only [literalsClosed, Bool.and_eq_true] at hcd
      rw [toList_binary, List.cons_eq_cons] at h
      obtain ⟨rfl, h₁⟩ := hs.append_inj hs' hcc.1 hcd.1 (stops_blank _) (stops_blank _) h.2
      obtain ⟨hop, h₂⟩ := word_inj (blank_not_mem_sqlWord op) (blank_not_mem_sqlWord op') (List.cons_eq_cons.mp h₁).2
      obtain ⟨rfl, h₃⟩ := ht.append_inj ht' hcc.2 hcd.2 (stops_paren _) (stops_paren _) h₂
      have hu : ∀ {k : Connective}, k.isComparison = true → k.isUnary = false := by intro k; cases k <;> decide
      rw [sqlWord_inj (hu ho) (hu ho') hop]
      exact ⟨rfl, (List.cons_eq_cons.mp h₃).2⟩
    | link ho' hl' hr' =>
      simp only [literalsClosed, Bool.and_eq_true] at hcd
      rw [toList_binary, List.cons_eq_cons] at h
      exact (operand_ne_sqlText hs hcc.1 hl' hcd.1 h.2).elim
    | negate hb => rw [toList_not] at h; exact absurd (List.cons_eq_cons.mp h).1 (by decide)
    | defined ht' => rw [toList_defined] at h; exact absurd (hstart ht' h) (by decide)
  | @defined s hs =>
    rw [toList_defined] at h
    cases hd with
    | compare => rw [toList_binary] at h; exact absurd (hstart hs h.symm) (by decide)
    | link => rw [toList_binary] at h; exact absurd (hstart hs h.symm) (by decide)
    | negate => rw [toList_not] at h; exact absurd (hstart hs h.symm) (by decide)
    | @defined t ht =>
      rw [toList_defined] at h
      obtain ⟨rfl, h⟩ := hs.append_inj ht hcc hcd (stops_blank _) (stops_blank _) h
      exact ⟨rfl, by simpa using h⟩
  | @negate body hb ih =>
    rw [toList_not] at h
    cases hd with
    | compare => rw [toList_binary] at h; exact absurd (List.cons_eq_cons.mp h).1 (by decide)
    | link => rw [toList_binary] at h; exact absurd (List.cons_eq_cons.mp h).1 (by decide)
    | defined ht => rw [toList_defined] at h; exact absurd (hstart ht h) (by decide)
    | negate hb' =>
      rw [toList_not] at h
      obtain ⟨rfl, he⟩ := ih hb' hcc hcd hq hr (by simpa using h)
      exact ⟨rfl, he⟩
  | @link op l r' ho hl hr' ihl ihr =>
    simp only [literalsClosed, Bool.and_eq_true] at hcc
    rw [toList_binary] at h
    cases hd with
    | compare ho' hs' ht' =>
      simp only [literalsClosed, Bool.and_eq_true] at hcd
      rw [toList_binary, List.cons_eq_cons] at h
      exact (operand_ne_sqlText hs' hcd.1 hl hcc.1 h.2.symm).elim
    | negate hb => rw [toList_not] at h; exact absurd (List.cons_eq_cons.mp h).1 (by decide)
    | defined ht' => rw [toList_defined] at h; exact absurd (hstart ht' h) (by decide)
    | @link op' l' r'' ho' hl' hr'' =>
      simp only [literalsClosed, Bool.and_eq_true] at hcd
      rw [toList_binary, List.cons_eq_cons] at h
      obtain ⟨rfl, h₁⟩ := ihl hl' hcc.1 hcd.1 (stops_blank _) (stops_blank _) h.2
      obtain ⟨hop, h₂⟩ := word_inj (blank_not_mem_sqlWord op) (blank_not_mem_sqlWord op') (List.cons_eq_cons.mp h₁).2
      obtain ⟨rfl, h₃⟩ := ihr hr'' hcc.2 hcd.2 (stops_paren _) (stops_paren _) h₂
      have hu : ∀ {k : Connective}, k = .and ∨ k = .or → k.isUnary = false := by rintro k (rfl | rfl) <;> rfl
      rw [sqlWord_inj (hu ho) (hu ho') hop]
      exact ⟨rfl, (List.cons_eq_cons.mp h₃).2⟩

end Condition

end RelAlg
