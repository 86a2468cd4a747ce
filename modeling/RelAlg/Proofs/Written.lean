import RelAlg.Proofs.Reader.Gives
import RelAlg.Proofs.Term

/-!
# What a text can write

In the usual spelling, a name that was read is in small letters (`isName`), an operand is a word or a text between quotes,
and a condition has every connective over operands of its own kind (`Condition.IsWritten`); a clause that was read has the
operators of the level it was read at (`Clause.IsSpelled`). Every expression that was read stands for a term put together
from such parts: `gives_expression` for expressions, `gives_statement` for statements.
-/

namespace RelAlg

open Surface Reader

/-! ## Names and operands -/

/-- A character that a name may go on with. -/
def isSmall (c : Char) : Bool := c.isLower || c.isDigit || c = '_'

/-- A name in small letters. -/
def isName (s : String) : Bool :=
  match s.toList with
  | [] => false
  | x :: xs => x.isLower && xs.all isSmall

/-- A name in any letter case. -/
def isIdentifier (s : String) : Bool :=
  match s.toList with
  | [] => false
  | x :: xs => isNameStart x && xs.all isNameChar

/-- Names are written in ASCII. -/
theorem toNat_lt_of_isNameChar {c : Char} (h : isNameChar c = true) : c.toNat < 128 := by
  have hc : c.isAlpha = true ∨ c.isDigit = true ∨ c = '_' := by
    simpa [isNameChar, Char.isAlphanum, or_assoc] using h
  have hv : c.toNat = c.val.toNat := rfl
  rcases hc with h | h | rfl
  · simp only [Char.isAlpha, Char.isUpper, Char.isLower, Bool.or_eq_true, Bool.and_eq_true, decide_eq_true_eq,
      UInt32.le_iff_toNat_le, ge_iff_le] at h
    have h₁ : 'Z'.val.toNat = 90 := rfl
    have h₂ : 'z'.val.toNat = 122 := rfl
    omega
  · simp only [Char.isDigit, Bool.and_eq_true, decide_eq_true_eq, UInt32.le_iff_toNat_le] at h
    have h₁ : '9'.val.toNat = 57 := rfl
    omega
  · decide

/-- What may start a name may also go on in it. -/
theorem isNameChar_of_isNameStart {c : Char} (h : isNameStart c = true) : isNameChar c = true := by
  have : c.isAlpha = true := h
  simp [isNameChar, Char.isAlphanum, this]

/-- A character of a reference or of a number. -/
def isWordChar (c : Char) : Bool := isSmall c || c = '.' || c = '+' || c = '-'

/-- A reference or a number: no blank, no parenthesis and no quote stands in it. -/
def isWord (s : String) : Bool := !s.toList.isEmpty && s.toList.all isWordChar

/-- A text between single quotes. -/
def IsQuoted (s : String) : Prop := ∃ body, s = String.ofList ('\'' :: body ++ ['\''])

/-- Digits, or a point and digits with or without digits before it. -/
inductive IsUnsigned : List Char → Prop where
  | whole {ds : List Char} (hd : ∀ d ∈ ds, d.isDigit = true) (hn : ds ≠ []) : IsUnsigned ds
  | fraction {ds fs : List Char} (hd : ∀ d ∈ ds, d.isDigit = true) (hf : ∀ d ∈ fs, d.isDigit = true) (hn : fs ≠ []) :
      IsUnsigned (ds ++ '.' :: fs)

/-- A numeral, with a sign or without. -/
def IsNumeral (cs : List Char) : Prop := ∃ sign ∈ [[], ['+'], ['-']], ∃ ds, cs = sign ++ ds ∧ IsUnsigned ds

/-- A letter that is made small is small. -/
theorem isLower_toLower {c : Char} (h : c.isAlpha = true) : c.toLower.isLower = true := by
  unfold Char.toLower
  split
  · rename_i hu
    have h1 : 65 ≤ c.val.toNat := hu.1
    have h2 : c.val.toNat ≤ 90 := hu.2
    have hv : (c.val + ('a'.val - 'A'.val)).toNat = c.val.toNat + 32 := by
      rw [UInt32.toNat_add]
      have : ('a'.val - 'A'.val).toNat = 32 := rfl
      omega
    simp only [Char.isLower, Bool.and_eq_true, decide_eq_true_eq, ge_iff_le, UInt32.le_iff_toNat_le, hv]
    exact ⟨by show 97 ≤ _; omega, by show _ ≤ 122; omega⟩
  · rename_i hu
    have hn : c.isUpper = false := by simpa [Char.isUpper] using hu
    simpa [Char.isAlpha, hn] using h

/-- A character of a name is small once it is in small letters. -/
theorem isSmall_toLower {c : Char} (h : isNameChar c = true) : isSmall c.toLower = true := by
  have hc : c.isAlpha = true ∨ c.isDigit = true ∨ c = '_' := by
    simpa [isNameChar, Char.isAlphanum, or_assoc] using h
  rcases hc with h | h | rfl
  · simp [isSmall, isLower_toLower h]
  · have hv : c.val ≤ 57 := by
      simp only [Char.isDigit, Bool.and_eq_true, decide_eq_true_eq] at h
      exact h.2
    have : c.toLower = c := by
      unfold Char.toLower
      rw [dif_neg]
      rintro ⟨h1, -⟩
      exact absurd (UInt32.le_trans h1 hv) (by decide)
    simp [isSmall, this, h]
  · decide

/-- Small letters are small characters. -/
theorem isSmall_of_isLower {c : Char} (h : c.isLower = true) : isSmall c = true := by simp [isSmall, h]

/-- Small characters may stand in words. -/
theorem isWordChar_of_isSmall {c : Char} (h : isSmall c = true) : isWordChar c = true := by simp [isWordChar, h]

/-- A name has small characters only. -/
theorem isSmall_of_isName {s : String} (h : isName s = true) : ∀ c ∈ s.toList, isSmall c = true := by
  unfold isName at h
  split at h
  · cases h
  · rename_i x xs hs
    rw [Bool.and_eq_true] at h
    rw [hs]
    intro c hc
    rcases List.mem_cons.mp hc with rfl | hc
    · exact isSmall_of_isLower h.1
    · exact List.all_eq_true.mp h.2 c hc

/-- A name is not empty. -/
theorem ne_empty_of_isName {s : String} (h : isName s = true) : s ≠ "" := by
  rintro rfl
  cases h

/-- A name is a word. -/
theorem isWord_of_isName {s : String} (h : isName s = true) : isWord s = true := by
  have hn : s.toList ≠ [] := fun e => ne_empty_of_isName h (String.toList_eq_nil_iff.mp e)
  rw [isWord, Bool.and_eq_true, List.all_eq_true]
  exact ⟨by simpa using hn, fun c hc => isWordChar_of_isSmall (isSmall_of_isName h c hc)⟩

/-- A relation name, a point and an attribute name are a word. -/
theorem isWord_qualified {first second : String} (h₁ : isName first = true) (h₂ : isName second = true) :
    isWord (first ++ "." ++ second) = true := by
  have hw : ∀ c ∈ (first ++ "." ++ second).toList, isWordChar c = true := by
    intro c hc
    simp only [String.toList_append, List.mem_append] at hc
    rcases hc with (hc | hc) | hc
    · exact isWordChar_of_isSmall (isSmall_of_isName h₁ c hc)
    · rw [List.mem_singleton.mp hc]; decide
    · exact isWordChar_of_isSmall (isSmall_of_isName h₂ c hc)
  rw [isWord, Bool.and_eq_true, List.all_eq_true]
  exact ⟨by simp, hw⟩

/-- A character of a name may stand in a reference. -/
theorem continuesReference_of_isSmall {c : Char} (h : isSmall c = true) : Condition.continuesReference c = true := by
  have hc : c.isLower = true ∨ c.isDigit = true ∨ c = '_' := by simpa [isSmall, or_assoc] using h
  rcases hc with h | h | rfl
  · simp [Condition.continuesReference, Char.isAlphanum, Char.isAlpha, h]
  · simp [Condition.continuesReference, Char.isAlphanum, h]
  · decide

/-- A name looks like a reference, with more of one behind it or without. -/
theorem isReference_append {s t : String} (hs : isName s = true) (ht : t.toList.all Condition.continuesReference = true) :
    Condition.isReference (s ++ t) = true := by
  have hsmall := isSmall_of_isName hs
  unfold isName at hs
  split at hs
  · cases hs
  · rename_i x xs hx
    rw [hx] at hsmall
    have hfirst : Condition.startsReference x = true := by
      simp [Condition.startsReference, Char.isAlpha, (Bool.and_eq_true_iff.mp hs).1]
    have hothers : xs.all Condition.continuesReference = true :=
      List.all_eq_true.mpr fun c hc => continuesReference_of_isSmall (hsmall c (List.mem_cons_of_mem x hc))
    simp only [Condition.isReference, String.toList_append, hx, List.cons_append, List.all_append, hfirst, hothers, ht,
      Bool.and_self]

/-- What looks like a reference starts with a letter or an underscore. -/
theorem isReference_of_head {s : String} {c : Char} (hs : s.toList.head? = some c) (hc : Condition.startsReference c = false) :
    Condition.isReference s = false := by
  obtain ⟨cs, hcs⟩ := List.head?_eq_some_iff.mp hs
  simp [Condition.isReference, hcs, hc]

/-- The sign that was divided off is one of two, or there is none. -/
theorem signPart_cases (cs : List Char) : signPart cs ∈ [[], ['+'], ['-']] ∧ ∃ rest, cs = signPart cs ++ rest := by
  unfold signPart
  split
  · exact ⟨by simp, _, rfl⟩
  · exact ⟨by simp, _, rfl⟩
  · exact ⟨by simp, _, rfl⟩

/-- What is read after the sign of a number is digits, with a point among them or without. -/
theorem isUnsigned_unsignedPart {cs : List Char} (h : unsignedPart cs ≠ []) : IsUnsigned (unsignedPart cs) := by
  have hd : ∀ ds : List Char, ∀ d ∈ ds.takeWhile Char.isDigit, d.isDigit = true :=
    fun ds d hd => List.all_eq_true.mp List.all_takeWhile d hd
  unfold unsignedPart at h ⊢
  split at h
  · dsimp only at h ⊢
    split at h
    · rename_i hf
      rw [if_pos hf]
      exact .whole (hd cs) h
    · rename_i after _ hf
      rw [if_neg hf]
      exact .fraction (hd cs) (hd after) (by simpa using hf)
  · exact .whole (hd cs) h

/-- Digits and points may stand in a word. -/
theorem IsUnsigned.isWordChar {ds : List Char} (h : IsUnsigned ds) : ∀ c ∈ ds, isWordChar c = true := by
  have hdigit : ∀ {c : Char}, c.isDigit = true → RelAlg.isWordChar c = true := fun h => by simp [RelAlg.isWordChar, isSmall, h]
  intro c hc
  cases h with
  | whole hd _ => exact hdigit (hd c hc)
  | fraction hd hf _ =>
    rcases List.mem_append.mp hc with hc | hc
    · exact hdigit (hd c hc)
    · rcases List.mem_cons.mp hc with rfl | hc
      · decide
      · exact hdigit (hf c hc)

/-- There is a digit in a number. -/
theorem IsUnsigned.ne_nil {ds : List Char} (h : IsUnsigned ds) : ds ≠ [] := by
  cases h with
  | whole _ hn => exact hn
  | fraction _ _ _ => simp

/-- A numeral is a word. -/
theorem IsNumeral.isWord {s : String} (h : IsNumeral s.toList) : isWord s = true := by
  obtain ⟨sign, hs, ds, he, hd⟩ := h
  rw [RelAlg.isWord, he, Bool.and_eq_true, List.all_eq_true]
  refine ⟨by simp [hd.ne_nil], fun c hc => ?_⟩
  rcases List.mem_append.mp hc with hc | hc
  · simp only [List.mem_cons, List.not_mem_nil, or_false] at hs
    rcases hs with rfl | rfl | rfl
    · cases hc
    · rw [List.mem_singleton.mp hc]; decide
    · rw [List.mem_singleton.mp hc]; decide
  · exact hd.isWordChar c hc

namespace Reader

/-- A name that was read is in small letters. -/
theorem gives_bareName : bareName.Gives fun s => isName s = true := by
  intro c s c' h
  unfold bareName at h
  split at h
  · rename_i x xs hc
    split at h
    · rename_i hx
      cases h
      simp only [isName, String.toList_ofList, List.map_cons, Bool.and_eq_true, List.all_eq_true, List.mem_map]
      refine ⟨isLower_toLower hx, ?_⟩
      rintro d ⟨e, he, rfl⟩
      exact isSmall_toLower (List.all_eq_true.mp List.all_takeWhile e he)
    · cases h
  · cases h

/-- A name that was read is one, in small letters. -/
theorem gives_name : name.Gives fun s => isName s = true := gives_skip fun _ => gives_bareName

/-- A reference that was read is a word that looks like a reference. -/
theorem gives_reference : reference.Gives fun s => isWord s = true ∧ Condition.isReference s = true := by
  refine gives_bind gives_name fun first h₁ => gives_skip fun o => ?_
  cases o with
  | none => exact gives_pure ⟨isWord_of_isName h₁, by simpa using isReference_append (t := "") h₁ rfl⟩
  | some _ =>
    refine gives_bind gives_bareName fun second h₂ => gives_pure ⟨isWord_qualified h₁ h₂, ?_⟩
    rw [String.append_assoc]
    refine isReference_append h₁ (List.all_eq_true.mpr fun c hc => ?_)
    rw [String.toList_append, List.mem_append] at hc
    rcases hc with hc | hc
    · rw [List.mem_singleton.mp hc]
      decide
    · exact continuesReference_of_isSmall (isSmall_of_isName h₂ c hc)

/-- A number that was read is a numeral. -/
theorem gives_number : number.Gives fun s => IsNumeral s.toList := by
  refine gives_skip fun _ => ?_
  intro c s c' h
  dsimp only at h
  split at h
  · cases h
  · rename_i hd
    cases h
    exact ⟨_, (signPart_cases c.rest).1, _, String.toList_ofList, isUnsigned_unsignedPart (by simpa using hd)⟩

/-- A quoted text that was read stands between single quotes. -/
theorem gives_quoted : quoted.Gives IsQuoted := gives_skip fun body => gives_pure ⟨body, rfl⟩

/-- A keyword comes out as it is spelled. -/
theorem gives_caselessKeyword (joined : Bool) (spelling : String) :
    (caselessKeyword joined spelling).Gives fun s => s = spelling := by
  refine gives_skip fun _ => ?_
  intro c s c' h
  dsimp only at h
  split at h
  · cases h; rfl
  · cases h

/-- A keyword that was read comes out as it is spelled in the lexicon, whatever the case in the text. -/
theorem gives_keyword (spelling : String) : (keyword spelling).Gives fun s => s = spelling := by
  refine gives_skip fun _ => ?_
  intro c s c' h
  dsimp only at h
  split at h
  · cases h; rfl
  · cases h

/-- A symbol that was read comes out as it is spelled. -/
theorem gives_symbol (text : String) : (symbol text).Gives fun s => s = text := gives_skip fun _ => gives_pure rfl

/-- What was read out of some texts is one of them. -/
theorem gives_oneOf (texts : List String) : (oneOf texts).Gives fun s => s ∈ texts := by
  have hs : ∀ p ∈ texts.map symbol, p.Gives fun s => s ∈ texts := by
    intro p hp
    obtain ⟨text, ht, rfl⟩ := List.mem_map.mp hp
    exact (gives_symbol text).mono fun s h => h ▸ ht
  unfold oneOf
  split
  · exact gives_longestOf hs
  · exact gives_firstOf hs

end Reader

/-- The text of one side of a comparison as texts write it: a reference, a numeral, or a text between single quotes. -/
def IsOperand (s : String) : Prop := (isWord s = true ∧ (Condition.isReference s = true ∨ IsNumeral s.toList)) ∨ IsQuoted s

/-- An operand that was read is one that texts write. -/
theorem Surface.gives_operand : Operand.reader.Gives fun o => IsOperand o.text := by
  refine gives_firstOf fun p hp => ?_
  simp only [List.mem_cons, List.not_mem_nil, or_false] at hp
  rcases hp with rfl | rfl | rfl
  · exact gives_bind gives_reference fun s h => gives_pure (.inl ⟨h.1, .inl h.2⟩)
  · exact gives_bind gives_quoted fun s h => gives_pure (.inr h)
  · exact gives_bind gives_number fun s h => gives_pure (.inl ⟨h.isWord, .inr h⟩)

/-! ## Conditions -/

/-- The connective compares two operands. -/
def Connective.isComparison : Connective → Bool
  | not | defined | and | or => false
  | equal | notEqual | less | lessEqual | greater | greaterEqual => true

/-- A condition as texts write it: every connective stands over operands of its own kind. -/
inductive Condition.IsWritten : Condition → Prop where
  | compare {op : Connective} {left right : String} (ho : op.isComparison = true) (hl : IsOperand left)
      (hr : IsOperand right) : IsWritten (.binary op (.operand left) (.operand right))
  | defined {text : String} (h : IsOperand text) : IsWritten (.unary .defined (.operand text))
  | negate {body : Condition} (h : IsWritten body) : IsWritten (.unary .not body)
  | link {op : Connective} {left right : Condition} (ho : op = .and ∨ op = .or) (hl : IsWritten left)
      (hr : IsWritten right) : IsWritten (.binary op left right)

namespace Surface

/-- The clause stands for a condition as texts write it. -/
def Clause.IsWritten (clause : Clause) : Prop := ∃ c, clause.Denotes c ∧ c.IsWritten

/-- A clause with the operators of a level, as readers spell them. -/
inductive Clause.IsSpelled (level : Level) : Clause → Prop where
  | compare {left right : Operand} {op : String} (hl : IsOperand left.text) (ho : op ∈ comparatorSymbols.map Lexicon.usual)
      (hr : IsOperand right.text) : IsSpelled level (.compare left op right)
  | defined {operand : Operand} (hl : level.includes .extended = true) (h : IsOperand operand.text) :
      IsSpelled level (.defined (Lexicon.usual .defined) operand)
  | negate {body : Clause} (h : IsSpelled level body) : IsSpelled level (.negate (Lexicon.usual .not) body)
  | link {left right : Clause} {op : String} (hl : IsSpelled level left)
      (ho : op = Lexicon.usual .and ∨ op = Lexicon.usual .or) (hr : IsSpelled level right) :
      IsSpelled level (.link left op right)

namespace Clause

/-- Every comparator of the usual spelling stands for a comparison. -/
theorem exists_comparison {op : String} (ho : op ∈ comparatorSymbols.map Lexicon.usual) :
    ∃ k : Connective, k.isComparison = true ∧ Condition.binaryOf .standard (.leaf op) = .ok k := by
  simp only [comparatorSymbols, List.map_cons, List.map_nil, List.mem_cons, List.not_mem_nil, or_false] at ho
  rcases ho with rfl | rfl | rfl | rfl | rfl | rfl | rfl <;> exact ⟨_, by decide, rfl⟩

/-- The usual words for "and" and "or" stand for these connectives. -/
theorem exists_link {op : String} (ho : op = Lexicon.usual .and ∨ op = Lexicon.usual .or) :
    ∃ k : Connective, (k = .and ∨ k = .or) ∧ Condition.binaryOf .standard (.leaf op) = .ok k := by
  rcases ho with rfl | rfl
  · exact ⟨.and, .inl rfl, rfl⟩
  · exact ⟨.or, .inr rfl, rfl⟩

/-- A clause with operators as they are spelled stands for a condition. -/
theorem IsSpelled.isWritten {level : Level} {clause : Clause} (h : clause.IsSpelled level) : clause.IsWritten := by
  induction h with
  | compare hl ho hr =>
    obtain ⟨k, hk, hb⟩ := exists_comparison ho
    exact ⟨_, denotes_compare hb, .compare hk hl hr⟩
  | defined _ h => exact ⟨_, denotes_defined _, .defined h⟩
  | negate _ ih =>
    obtain ⟨c, hd, hw⟩ := ih
    exact ⟨_, hd.negate, .negate hw⟩
  | link _ ho _ ihl ihr =>
    obtain ⟨l, hl, hwl⟩ := ihl
    obtain ⟨r, hr, hwr⟩ := ihr
    obtain ⟨k, hk, hb⟩ := exists_link ho
    exact ⟨_, hl.link hr hb, .link hk hwl hwr⟩

/-- Clauses that are linked by "and" and "or" are spelled if the single ones are. -/
theorem isSpelled_linkAll {level : Level} {first : Clause} {others : List (String × Clause)} (hf : first.IsSpelled level)
    (ho : ∀ p ∈ others, (p.1 = Lexicon.usual .and ∨ p.1 = Lexicon.usual .or) ∧ p.2.IsSpelled level) :
    (linkAll first others).IsSpelled level := by
  induction others generalizing first with
  | nil => exact hf
  | cons p others ih =>
    obtain ⟨hp, hn⟩ := ho p (by simp)
    exact .link hf hp (ih hn fun q hq => ho q (List.mem_cons_of_mem p hq))

end Clause

/-- Parentheses do not change what is given. -/
theorem gives_parenthesized {α : Type} {lex : Lexicon} {p : Reader α} {φ : α → Prop} (h : p.Gives φ) :
    (parenthesized lex p).Gives φ :=
  gives_skip fun _ => gives_bind h fun _ ha => gives_skip fun _ => gives_pure ha

/-- The braces around parameters do not change what is given. -/
theorem gives_parameters {α : Type} {lex : Lexicon} {p : Reader α} {φ : α → Prop} (h : p.Gives φ) :
    (parameters lex p).Gives φ :=
  gives_skip fun _ => gives_bind h fun _ ha => gives_skip fun _ => gives_pure ha

/-- Linked clauses are spelled if the tight ones are. -/
theorem Clause.gives_linked {level : Level} {tight : Reader Clause} (h : tight.Gives (IsSpelled level)) :
    (linkedReader .standard tight).Gives (IsSpelled level) := by
  have hl : (linker .standard).Gives fun s => s = Lexicon.usual .and ∨ s = Lexicon.usual .or :=
    gives_orElse ((gives_caselessKeyword true _).mono fun _ h => .inl h) ((gives_caselessKeyword true _).mono fun _ h => .inr h)
  have hp : (do let op ← linker .standard; let next ← tight; pure (op, next) : Reader (String × Clause)).Gives
      fun p => (p.1 = Lexicon.usual .and ∨ p.1 = Lexicon.usual .or) ∧ p.2.IsSpelled level :=
    gives_bind hl fun op ho => gives_bind h fun next hn => gives_pure ⟨ho, hn⟩
  exact gives_bind h fun first hf => gives_bind (gives_many hp) fun others ho => gives_pure (isSpelled_linkAll hf ho)

/-- A comparison that was read is spelled. -/
theorem Clause.gives_comparison (level : Level) : (comparison .standard).Gives (IsSpelled level) :=
  gives_bind gives_operand fun _ hl => gives_bind (gives_oneOf _) fun _ ho => gives_bind gives_operand fun _ hr =>
    gives_pure (.compare hl ho hr)

/-- A test for a value that was read is spelled, where the level has such tests. -/
theorem Clause.gives_definedTest {level : Level} (hl : level.includes .extended = true) :
    (definedTest .standard).Gives (IsSpelled level) := by
  refine gives_bind (gives_caselessKeyword true _) fun op ho => gives_skip fun _ => gives_bind gives_operand fun o h =>
    gives_skip fun _ => gives_pure ?_
  subst ho
  exact .defined hl h

/-- A clause that was read has the operators of the level. -/
theorem Clause.gives_spelled (level : Level) : (reader level .standard).Gives (IsSpelled level) := by
  refine gives_linked (gives_recursive fun tight ht => gives_orElse ?_ (gives_orElse ?_ (gives_parenthesized (gives_linked ht))))
  · refine gives_bind (gives_caselessKeyword true _) fun op ho => gives_bind ht fun body hb => gives_pure ?_
    subst ho
    exact .negate hb
  · unfold simple
    split
    · rename_i hl
      exact gives_orElse (gives_comparison level) (gives_definedTest hl)
    · exact gives_comparison level

/-- A condition that was read is written. -/
theorem Clause.gives_reader (level : Level) : (reader level .standard).Gives IsWritten :=
  (gives_spelled level).mono fun _ h => h.isWritten

end Surface

/-! ## Terms -/

/-- The join's condition, if it has one, is as texts write it. -/
def Join.IsWritten : Join → Prop
  | cross | natural => True
  | conditional _ condition => condition.IsWritten

/-- The new names are names. -/
def Surface.Renaming.IsWritten (target : Renaming) : Prop :=
  (∀ n, target.name? = some n → isName n = true) ∧ ∀ n ∈ target.names, isName n = true

/-- A term as texts write it. -/
inductive Term.IsWritten : Term → Prop where
  | relation {name : String} (h : isName name = true) : IsWritten (.relation name)
  | select {condition : Condition} {operand : Term} (hc : condition.IsWritten) (h : IsWritten operand) :
      IsWritten (.select condition operand)
  | project {references : List String} {operand : Term} (hr : references ≠ []) (h : IsWritten operand) :
      IsWritten (.project references operand)
  | rename {target : Renaming} {operand : Term} (ht : target.IsWritten) (h : IsWritten operand) :
      IsWritten (.rename target operand)
  | join {op : Join} {left right : Term} (ho : op.IsWritten) (hl : IsWritten left) (hr : IsWritten right) :
      IsWritten (.join op left right)
  | combine {op : SetOperator} {left right : Term} (hl : IsWritten left) (hr : IsWritten right) :
      IsWritten (.combine op left right)

namespace Surface

/-- The operator makes a term as texts write it of such a term. -/
def UnaryOp.IsWritten (op : UnaryOp) : Prop := ∃ f, op.Denotes f ∧ ∀ t : Term, t.IsWritten → (f t).IsWritten

/-- The operator makes a term as texts write it of two such terms. -/
def BinaryOp.IsWritten (level : Level) (op : BinaryOp) : Prop :=
  ∃ f, op.Denotes level f ∧ ∀ t u : Term, t.IsWritten → u.IsWritten → (f t u).IsWritten

/-- The expression stands for a term as texts write it. -/
def Expression.IsWritten (level : Level) (e : Expression) : Prop := ∃ t : Term, e.Denotes level t ∧ t.IsWritten

/-- A list of names that was read has one or more, all of them names. -/
theorem gives_names : (listed .standard name).Gives fun ns => ns ≠ [] ∧ ∀ n ∈ ns, isName n = true := gives_separated gives_name

/-- The attribute names of a renaming are one or more names. -/
theorem gives_attributeNames : (UnaryOp.attributeNames .standard).Gives fun ns => ns ≠ [] ∧ ∀ n ∈ ns, isName n = true :=
  gives_parenthesized gives_names

/-- The target of a renaming or an assignment is written. -/
theorem gives_target : (UnaryOp.targetReader .standard).Gives Renaming.IsWritten := by
  refine gives_longest (gives_bind gives_name fun n hn => gives_pure ⟨?_, nofun⟩)
    (gives_bind (gives_opt gives_name) fun o ho => gives_bind gives_attributeNames fun ns hns => ?_)
  · intro m hm
    cases hm
    exact hn
  · cases o with
    | none => exact gives_pure ⟨nofun, hns.2⟩
    | some n =>
      refine gives_pure ⟨?_, hns.2⟩
      intro m hm
      cases hm
      exact ho n rfl

/-- An operator with parameters comes with its usual spelling and with what the parameters give. -/
theorem gives_parametrized {α : Type} {s : Symbol} {p : Reader α} {φ : α → Prop} (h : p.Gives φ) :
    (UnaryOp.parametrized .standard s p).Gives fun r => r.1 = Lexicon.usual s ∧ φ r.2 :=
  gives_bind (gives_caselessKeyword false _) fun _ ho => gives_bind (gives_parameters h) fun _ ha => gives_pure ⟨ho, ha⟩

/-- An operator with one operand that was read is written. -/
theorem gives_unaryOp (level : Level) : (UnaryOp.reader level .standard).Gives UnaryOp.IsWritten := by
  refine gives_firstOf fun p hp => ?_
  simp only [List.mem_cons, List.not_mem_nil, or_false] at hp
  rcases hp with rfl | rfl | rfl
  · refine gives_bind (gives_parametrized (gives_separated (gives_reference.mono fun _ h => h.1))) fun r hr => ?_
    obtain ⟨op, references⟩ := r
    obtain ⟨rfl, hne, -⟩ := hr
    exact gives_pure ⟨_, .project references, fun t ht => .project hne ht⟩
  · refine gives_bind (gives_parametrized (Clause.gives_reader level)) fun r hr => ?_
    obtain ⟨op, clause⟩ := r
    obtain ⟨rfl, c, hd, hw⟩ := hr
    exact gives_pure ⟨_, .select hd, fun t ht => .select hw ht⟩
  · refine gives_bind (gives_parametrized gives_target) fun r hr => ?_
    obtain ⟨op, target⟩ := r
    obtain ⟨rfl, hw⟩ := hr
    exact gives_pure ⟨_, .rename target, fun t ht => .rename hw ht⟩

/-- An operator without a condition is written if its usual spelling denotes it. -/
theorem gives_plain (level : Level) {s : Symbol} {f : Term → Term → Term}
    (hd : BinaryOp.Denotes level (.plain (Lexicon.usual s)) f)
    (hf : ∀ t u : Term, t.IsWritten → u.IsWritten → (f t u).IsWritten) :
    (BinaryOp.plainReader .standard s).Gives (BinaryOp.IsWritten level) := by
  refine gives_bind (gives_caselessKeyword true _) fun op ho => gives_pure ?_
  subst ho
  exact ⟨f, hd, hf⟩

/-- A join with a condition is written if its condition is. -/
theorem BinaryOp.isWritten_conditioned {level : Level} (hl : level.includes .extended = true) {s : Symbol}
    {kind : ConditionalJoin} (hs : (s, kind) ∈ Build.conditionalJoins) {clause : Clause} (h : clause.IsWritten) :
    (BinaryOp.conditioned (Lexicon.usual s) clause).IsWritten level := by
  obtain ⟨c, hd, hw⟩ := h
  exact ⟨_, .conditioned hl hs hd, fun t u ht hu => .join hw ht hu⟩

/-- A join with a condition that was read is written, at the levels that have such joins. -/
theorem gives_conditioned {level : Level} (hl : level.includes .extended = true) {s : Symbol} {kind : ConditionalJoin}
    (hs : (s, kind) ∈ Build.conditionalJoins) :
    (BinaryOp.conditionedReader level .standard s).Gives (BinaryOp.IsWritten level) := by
  refine gives_bind (gives_parametrized (Clause.gives_reader level)) fun r hr => ?_
  obtain ⟨op, clause⟩ := r
  obtain ⟨rfl, hc⟩ := hr
  exact gives_pure (BinaryOp.isWritten_conditioned hl hs hc)

/-- A theta join that was read is written, also where it was spelled as a plain join with a condition. -/
theorem gives_theta {level : Level} (hl : level.includes .extended = true) :
    (BinaryOp.thetaReader level .standard).Gives (BinaryOp.IsWritten level) := by
  have ht : (Symbol.thetaJoin, ConditionalJoin.theta) ∈ Build.conditionalJoins := by decide
  refine gives_longest (gives_conditioned hl ht) (gives_bind (gives_parametrized (Clause.gives_reader level)) fun r hr => ?_)
  obtain ⟨op, clause⟩ := r
  exact gives_pure (BinaryOp.isWritten_conditioned hl ht hr.2)

/-- Every join that was read is written. -/
theorem gives_join (level : Level) : (BinaryOp.joinReader level .standard).Gives (BinaryOp.IsWritten level) := by
  have hc : (BinaryOp.plainReader .standard .join).Gives (BinaryOp.IsWritten level) :=
    gives_plain level .cross fun t u ht hu => .join trivial ht hu
  unfold BinaryOp.joinReader
  split
  · rename_i hl
    have hfull : (Symbol.fullOuterJoin, ConditionalJoin.fullOuter) ∈ Build.conditionalJoins := by decide
    have hleft : (Symbol.leftOuterJoin, ConditionalJoin.leftOuter) ∈ Build.conditionalJoins := by decide
    have hright : (Symbol.rightOuterJoin, ConditionalJoin.rightOuter) ∈ Build.conditionalJoins := by decide
    refine gives_longestOf fun p hp => ?_
    simp only [List.mem_cons, List.not_mem_nil, or_false] at hp
    rcases hp with rfl | rfl | rfl | rfl | rfl | rfl
    · exact hc
    · exact gives_plain level (.natural hl) fun t u ht hu => .join trivial ht hu
    · exact gives_theta hl
    · exact gives_conditioned hl hfull
    · exact gives_conditioned hl hleft
    · exact gives_conditioned hl hright
  · exact hc

/-- Every set operator that was read is written. -/
theorem gives_union (level : Level) : (BinaryOp.unionReader .standard).Gives (BinaryOp.IsWritten level) :=
  gives_orElse (gives_plain level .union fun _ _ ht hu => .combine ht hu)
    (gives_plain level .difference fun _ _ ht hu => .combine ht hu)

/-- Links of written operators and operands denote a term when they follow a written one. -/
theorem Links.denotes_ofList {level : Level} {links : List (BinaryOp × Expression)}
    (h : ∀ l ∈ links, l.1.IsWritten level ∧ l.2.IsWritten level) {t : Term} (ht : t.IsWritten) :
    ∃ u : Term, Links.Denotes level t (Links.ofList links) u ∧ u.IsWritten := by
  induction links generalizing t with
  | nil => exact ⟨t, .nil t, ht⟩
  | cons l links ih =>
    obtain ⟨⟨f, hf, hk⟩, e, he, hw⟩ := h l (by simp)
    obtain ⟨u, hu, hwu⟩ := ih (fun m hm => h m (List.mem_cons_of_mem l hm)) (hk t e ht hw)
    exact ⟨u, .cons hf he hu, hwu⟩

/-- A chain of written operands with written operators between them is written. -/
theorem gives_chained {level : Level} {operand : Reader Expression} {op : Reader BinaryOp}
    (h : operand.Gives (Expression.IsWritten level)) (ho : op.Gives (BinaryOp.IsWritten level)) :
    (Expression.chained operand op).Gives (Expression.IsWritten level) := by
  have hl : (do let o ← op; let e ← operand; pure (o, e) : Reader (BinaryOp × Expression)).Gives
      fun l => l.1.IsWritten level ∧ l.2.IsWritten level :=
    gives_bind ho fun o hop => gives_bind h fun e he => gives_pure ⟨hop, he⟩
  refine gives_bind h fun first hf => gives_bind (gives_many hl) fun links hls => ?_
  obtain ⟨t, hd, hw⟩ := hf
  cases links with
  | nil => exact gives_pure ⟨t, hd, hw⟩
  | cons l links =>
    obtain ⟨u, hu, hwu⟩ := Links.denotes_ofList hls hw
    exact gives_pure ⟨u, .chain hd hu, hwu⟩

/-- An expression whose operands are read tightly is written if the operands are. -/
theorem gives_chainedReader {level : Level} {tight : Reader Expression} (h : tight.Gives (Expression.IsWritten level)) :
    (Expression.chainedReader level .standard tight).Gives (Expression.IsWritten level) := by
  have hj := gives_chained h (gives_join level)
  refine gives_chained ?_ (gives_union level)
  split
  · rename_i hl
    exact gives_chained hj (gives_plain level (.intersect hl) fun _ _ ht hu => .combine ht hu)
  · exact hj

/-- Every expression that is read stands for a term as texts write it. -/
theorem gives_expression (level : Level) :
    (Expression.reader level .standard).Gives (Expression.IsWritten level) := by
  refine gives_chainedReader (gives_recursive fun tight ht =>
    gives_orElse ?_ (gives_orElse ?_ (gives_parenthesized (gives_chainedReader ht))))
  · refine gives_bind (gives_unaryOp level) fun op hop => gives_bind ht fun e he => gives_pure ?_
    obtain ⟨f, hf, hk⟩ := hop
    obtain ⟨t, hd, hw⟩ := he
    exact ⟨f t, .unary hf hd, hk t hw⟩
  · exact gives_bind gives_name fun n hn => gives_pure ⟨.relation n, .relation n, .relation hn⟩

/-! ## Statements -/

/-- The side of a declaration stands for a term as texts write it. -/
inductive Side.IsWritten : Side → Term → Prop where
  | relation {name : String} (h : isName name = true) : IsWritten (.relation name) (.relation name)
  | selected {clause : Clause} {c : Condition} {name : String} (hd : clause.Denotes c) (hc : c.IsWritten)
      (h : isName name = true) : IsWritten (.selected (Lexicon.usual .select) clause name) (.select c (.relation name))

/-- What a written side of a dependency denotes is a written term. -/
theorem Side.IsWritten.term {s : Side} {t : Term} (h : s.IsWritten t) : t.IsWritten := by
  cases h with
  | relation h => exact .relation h
  | selected _ hc h => exact .select hc (.relation h)

/-- A declaration as texts write it. -/
def Declaration.IsWritten : Declaration → Prop
  | key op attributes name =>
    op = Lexicon.usual .primaryKey ∧ (∀ n ∈ attributes, isName n = true) ∧ isName name = true
  | between op _ _ side => (op = Lexicon.usual .multivalued ∨ op = Lexicon.usual .functional) ∧ ∃ t, side.IsWritten t
  | inclusion op _ _ left right =>
    (op = Lexicon.usual .inclusionEquivalence ∨ op = Lexicon.usual .inclusionSubsumption)
      ∧ (∃ t, left.IsWritten t) ∧ ∃ t, right.IsWritten t

/-- A statement as texts write it. -/
def Statement.IsWritten (level : Level) : Statement → Prop
  | assign name attributes op value =>
    isName name = true ∧ (∀ ns, attributes = some ns → ∀ n ∈ ns, isName n = true) ∧ op = Lexicon.usual .assign
      ∧ value.IsWritten level
  | query e => e.IsWritten level
  | declare d => d.IsWritten

/-- The symbol of a dependency comes out as it is usually spelled. -/
theorem gives_literalReader (s : Symbol) : (literalReader .standard s).Gives fun op => op = Lexicon.usual s :=
  gives_symbol _

/-- A side of a dependency that was read denotes a term. -/
theorem gives_side (level : Level) : (Side.reader level .standard).Gives fun s => ∃ t, s.IsWritten t := by
  refine gives_orElse ?_ (gives_bind gives_name fun n hn => gives_pure ⟨_, .relation hn⟩)
  refine gives_bind (gives_literalReader .select) fun op ho => gives_bind (gives_parameters (Clause.gives_reader level))
    fun clause hc => gives_bind gives_name fun n hn => gives_pure ?_
  subst ho
  obtain ⟨c, hd, hw⟩ := hc
  exact ⟨_, .selected hd hw hn⟩

/-- A dependency between two attributes that was read is written. -/
theorem gives_between (level : Level) {s : Symbol} (hs : s = .multivalued ∨ s = .functional) :
    (Declaration.betweenReader level .standard s).Gives Declaration.IsWritten := by
  have hp : (pairReader level .standard).Gives fun r => ∃ t, r.2.2.IsWritten t :=
    gives_skip fun _ => gives_bind (gives_side level) fun _ h => gives_pure h
  refine gives_bind (gives_literalReader s) fun op ho => gives_bind hp fun _ h => gives_pure ⟨?_, h⟩
  subst ho
  rcases hs with rfl | rfl
  · exact .inl rfl
  · exact .inr rfl

/-- An inclusion that was read is written. -/
theorem gives_inclusion (level : Level) {s : Symbol} (hs : s = .inclusionEquivalence ∨ s = .inclusionSubsumption) :
    (Declaration.inclusionReader level .standard s).Gives Declaration.IsWritten := by
  have hsides : (do let l ← Side.reader level .standard; markReader .standard .delimiter; let r ← Side.reader level .standard
                    pure (l, r) : Reader (Side × Side)).Gives fun p => (∃ t, p.1.IsWritten t) ∧ ∃ t, p.2.IsWritten t :=
    gives_bind (gives_side level) fun l hl => gives_skip fun _ => gives_bind (gives_side level) fun r hr => gives_pure ⟨hl, hr⟩
  have hp : (inclusionReader level .standard).Gives fun r => (∃ t, r.2.2.1.IsWritten t) ∧ ∃ t, r.2.2.2.IsWritten t :=
    gives_skip fun _ => gives_bind (gives_parenthesized hsides) fun _ h => gives_pure h
  refine gives_bind (gives_literalReader s) fun op ho => gives_bind hp fun _ h => gives_pure ⟨?_, h⟩
  subst ho
  rcases hs with rfl | rfl
  · exact .inl rfl
  · exact .inr rfl

/-- Every dependency that was read is written. -/
theorem gives_declaration (level : Level) : (Declaration.reader level .standard).Gives Declaration.IsWritten := by
  refine gives_firstOf fun p hp => ?_
  simp only [List.mem_cons, List.not_mem_nil, or_false] at hp
  rcases hp with rfl | rfl | rfl | rfl | rfl
  · exact gives_bind (gives_literalReader .primaryKey) fun op ho => gives_bind (gives_parameters gives_names)
      fun ns hns => gives_bind gives_name fun n hn => gives_pure ⟨ho, hns.2, hn⟩
  · exact gives_between level (.inl rfl)
  · exact gives_between level (.inr rfl)
  · exact gives_inclusion level (.inl rfl)
  · exact gives_inclusion level (.inr rfl)

/-- Every statement that is read is as texts write it. -/
theorem gives_statement (level : Level) : (Statement.reader level .standard).Gives (Statement.IsWritten level) := by
  have ha : (Statement.algebraReader level .standard).Gives (Statement.IsWritten level) := by
    refine gives_bind (gives_longest ?_ (gives_bind (gives_expression level) fun e he => gives_pure he)) fun s hs =>
      gives_skip fun _ => gives_pure hs
    exact gives_bind gives_name fun n hn => gives_bind (gives_opt gives_attributeNames) fun ns hns =>
      gives_bind (gives_keyword _) fun op ho => gives_bind (gives_expression level) fun e he =>
        gives_pure ⟨hn, fun m hm => (hns m hm).2, ho, he⟩
  unfold Statement.reader
  split
  · exact gives_orElse (gives_bind (gives_bind (gives_declaration level) fun d hd => gives_pure hd) fun s hs =>
      gives_skip fun _ => gives_pure hs) ha
  · exact ha

/-- What holds of every statement that is read holds of the statements of a text. -/
theorem of_parse {level : Level} {P : Statement → Prop} (hP : (Statement.reader level .standard).Gives P) {text : String}
    {ss : List Statement} (h : parse level .standard text = .ok ss) : ∀ s ∈ ss, P s := by
  have hg : (statements level .standard).Gives fun ss => ∀ s ∈ ss, P s := by
    refine gives_bind hP fun s hs => gives_bind (gives_many hP) fun ss hss => gives_pure ?_
    intro t ht
    rcases List.mem_cons.mp ht with rfl | ht
    · exact hs
    · exact hss t ht
  unfold parse readRule at h
  split at h
  · cases h
  · split at h
    · rename_i a ha
      cases h
      obtain ⟨⟨b, c⟩, hb, rfl⟩ := Option.map_eq_some_iff.mp ha
      exact gives_bind hg (fun a h => gives_skip fun _ => gives_pure h) _ _ _ hb
    · cases h

/-- The statements of a text are as texts write them. -/
theorem isWritten_of_parse {level : Level} {text : String} {ss : List Statement}
    (h : parse level .standard text = .ok ss) : ∀ s ∈ ss, s.IsWritten level := of_parse (gives_statement level) h

/-- The statement is no declaration. -/
def Statement.isAlgebra : Statement → Bool
  | declare _ => false
  | assign .. | query _ => true

/-- Only the dependency language has declarations. -/
theorem gives_isAlgebra {level : Level} (hl : level.includes .dependency = false) :
    (Statement.reader level .standard).Gives fun s => s.isAlgebra = true := by
  have hassign : (Statement.assignReader level .standard).Gives fun s => s.isAlgebra = true :=
    gives_skip fun _ => gives_skip fun _ => gives_skip fun _ => gives_skip fun _ => gives_pure rfl
  rw [Statement.reader, hl]
  exact gives_bind (gives_longest hassign (gives_skip fun _ => gives_pure rfl)) fun s hs => gives_skip fun _ => gives_pure hs

/-- Without the dependency level every statement of a text is one of the algebra. -/
theorem isAlgebra_of_parse {level : Level} (hl : level.includes .dependency = false) {text : String} {ss : List Statement}
    (h : parse level .standard text = .ok ss) : ∀ s ∈ ss, s.isAlgebra = true := of_parse (gives_isAlgebra hl) h

end Surface

end RelAlg
