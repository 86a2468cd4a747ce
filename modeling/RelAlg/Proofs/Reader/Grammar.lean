import RelAlg.Proofs.Reader.Alike
import RelAlg.Proofs.Reader.Follows
import RelAlg.Proofs.Reader.Operator

/-!
# The language in a frame

A `Frame` relates the places of two runs, the first in the usual spelling and the second in one that may spell the operators
otherwise, so that every token does alike on both sides. How the places are related depends on the words read so far. In
every frame each rule of the language then does alike on both sides and adds its words: one statement for each reader, put
together as the reader is. It also carries what is known of the operands of conditions. `Frame.within` is the frame at later
places, where a recursive reader may use itself. The end of a statement is no token of a frame; `Frame.statement` takes what the
two runs make of it as a hypothesis. Every `TokenFrame` is a frame of the usual spelling on both sides.
-/

namespace RelAlg

open Reader Surface

/-! ## Words that are recorded -/

namespace Reader

variable {α β : Type} {k : Nat} {U V V' : List String → Cursor → Cursor → Prop} {φ : α → β → Prop} {f : α → List String}
  {p : Reader α} {q : Reader β}

/-- From places of the first kind to places of the second the readers follow one another, and the words of what is read are
added. -/
def Records (k : Nat) (U V : List String → Cursor → Cursor → Prop) (φ : α → β → Prop) (f : α → List String) (p : Reader α)
    (q : Reader β) : Prop :=
  ∀ ws, Follows k (U ws) (fun a => V (ws ++ f a)) φ p q

namespace Records

/-- Readers that record up to places of one kind record up to places of a wider kind. -/
theorem mono (h : Records k U V φ f p q) (hV : ∀ ws c d, V ws c d → V' ws c d) : Records k U V' φ f p q :=
  fun ws => (h ws).mono fun a => hV (ws ++ f a)

/-- Readers that record do so also among the places that come after a given one. -/
theorem onward (h : Records 1 U V φ f p q) (c₀ d₀ : Cursor) :
    Records 1 (fun ws => Onward (U ws) 0 c₀ d₀) (fun ws => Onward (V ws) 1 c₀ d₀) φ f p q :=
  fun ws => (h ws).onward 0 c₀ d₀

/-- Readers that may be left out record what they read, or nothing. -/
theorem opt (h : Records k V V φ f p q) :
    Records 0 V V (Option.Rel φ) (fun o => (o.map f).getD []) p.opt q.opt := by
  intro ws
  refine (h ws).opt.mono fun o c d hc => ?_
  cases o with
  | none => simpa using hc
  | some a => exact hc

/-- Readers that are used over and over record the words of all that they read. -/
theorem many (h : Records 1 V V φ f p q) :
    Records 0 V V (List.Forall₂ φ) (·.flatMap f) (Reader.many p) (Reader.many q) := Follows.many h

end Records

end Reader

/-! ## Spellings that differ in the operators only -/

namespace Lexicon

/-- Everything but the operators of the algebra is spelled as usual. -/
def IsCommon (lex : Lexicon) : Prop := ∀ s, s ∉ operatorSymbols → lex.setting s = .text (usual s)

namespace IsCommon

variable {lex : Lexicon} (h : lex.IsCommon) {s : Symbol} (hs : s ∉ operatorSymbols)

include h

/-- A symbol that is no operator has its usual spelling. -/
theorem spelling_eq (hs : s ∉ operatorSymbols) : lex s = usual s := by
  rw [spelling, h s hs]
  rfl

/-- A mark that is no operator is read as usual. -/
theorem markReader_eq (hs : s ∉ operatorSymbols) : markReader lex s = markReader .standard s := by
  unfold markReader
  rw [h s hs]
  rfl

/-- A mark that has to touch the word before it is read as usual. -/
theorem touchingMark_eq (hs : s ∉ operatorSymbols) : touchingMark lex s = touchingMark .standard s := by
  unfold touchingMark
  rw [h s hs]
  rfl

/-- A mark that is kept is read as one that is not. -/
theorem literalReader_eq (hs : s ∉ operatorSymbols) : literalReader lex s = literalReader .standard s := by
  unfold literalReader
  rw [h.spelling_eq hs, h s hs]
  rfl

/-- No comparator is an operator, so comparators are read as usual. -/
theorem comparator_eq : Clause.comparator lex = Clause.comparator .standard := by
  have hcommon : ∀ s ∈ comparatorSymbols, s ∉ operatorSymbols := by decide
  unfold Clause.comparator
  rw [List.map_congr_left fun s hs => h.spelling_eq (hcommon s hs)]
  rfl

end IsCommon

end Lexicon

/-! ## Frames -/

/-- The marks inside a statement. -/
def innerMarks : List Symbol := [.parenLeft, .parenRight, .delimiter, .paramsStop]

/-- The symbols that are read as words by themselves. -/
def wordSymbols : List Symbol := [.not, .and, .or, .defined] ++ plainSymbols

/-- The operators that have parameters, the plain join for a theta join among them. -/
def openingSymbols : List Symbol := [.project, .select, .rename, .join] ++ conditionedSymbols

/-- The word that an operator with parameters leaves. -/
def openedAs (s : Symbol) : String := Lexicon.usual (if s = .join then .thetaJoin else s)

/-- Read the word of an operator and the mark that opens its parameters. -/
def openingReader (lex : Lexicon) (s : Symbol) : Reader String := do
  let op ← caselessKeyword false (lex s)
  touchingMark lex .paramsStart
  pure op

/-- The words spell the symbol, the first as usual and the second as the lexicon does. -/
def SpellBoth (lex : Lexicon) (s : Symbol) (a b : String) : Prop := a = Lexicon.usual s ∧ b = lex s

/-- Two runs side by side: how the places are related before the first token and behind one, by the words read so far, and what
is known of operands. -/
structure Frame (lex : Lexicon) where
  here : List String → Cursor → Cursor → Prop
  later : List String → Cursor → Cursor → Prop
  known : Operand → Prop
  common : lex.IsCommon
  here_of_later : ∀ ws c d, later ws c d → here ws c d
  ordered : Ordered later
  mark : ∀ s ∈ innerMarks, Records 1 here later Eq (fun _ => []) (markReader .standard s) (markReader .standard s)
  word : ∀ s ∈ wordSymbols, Records 1 here later (SpellBoth lex s) (fun _ => [Lexicon.usual s])
    (caselessKeyword true (Lexicon.usual s)) (caselessKeyword true (lex s))
  opening : ∀ s ∈ openingSymbols, Records 1 here later (SpellBoth lex s) (fun _ => [openedAs s]) (openingReader .standard s)
    (openingReader lex s)
  assignment : Records 1 here later Eq (fun a => [a]) (keyword (Lexicon.usual .assign)) (keyword (Lexicon.usual .assign))
  name : Records 1 here later Eq (fun a => [a]) name name
  reference : Records 1 here later Eq (fun a => [a]) reference reference
  operand : Records 1 here later (fun a b => a = b ∧ known a) (fun o => [o.text]) Operand.reader Operand.reader
  comparator : Records 1 here later Eq (fun a => [a]) (Clause.comparator .standard) (Clause.comparator .standard)

namespace Frame

variable {lex : Lexicon} (F : Frame lex) {α β : Type} {k : Nat} {φ : α → β → Prop} {f : α → List String} {level : Level}

/-- The places of a frame that are beyond two given ones. -/
def within (c₀ d₀ : Cursor) : Frame lex where
  here := fun ws => Onward (F.here ws) 0 c₀ d₀
  later := fun ws => Onward (F.later ws) 1 c₀ d₀
  known := F.known
  common := F.common
  here_of_later := fun ws c d h => ⟨F.here_of_later ws c d h.1, h.2.1.mono (Nat.zero_le 1), h.2.2.mono (Nat.zero_le 1)⟩
  ordered := fun ws ws' c d c' d' h h' => F.ordered ws ws' c d c' d' h.1 h'.1
  mark := fun s hs => (F.mark s hs).onward c₀ d₀
  word := fun s hs => (F.word s hs).onward c₀ d₀
  opening := fun s hs => (F.opening s hs).onward c₀ d₀
  assignment := F.assignment.onward c₀ d₀
  name := F.name.onward c₀ d₀
  reference := F.reference.onward c₀ d₀
  operand := F.operand.onward c₀ d₀
  comparator := F.comparator.onward c₀ d₀

/-- The same frame, where more is known of the operands that are read. -/
def telling {χ : Operand → Prop} (h : ∀ ws c d o c', F.here ws c d → Operand.reader c = some (o, c') → χ o) : Frame lex where
  here := F.here
  later := F.later
  known := χ
  common := F.common
  here_of_later := F.here_of_later
  ordered := F.ordered
  mark := F.mark
  word := F.word
  opening := F.opening
  assignment := F.assignment
  name := F.name
  reference := F.reference
  operand := fun ws => ((F.operand ws).telling (h ws)).giving fun _ _ ha => ⟨ha.1.1, ha.2⟩
  comparator := F.comparator

variable {F}

/-- What is followed from every place is followed behind a token. -/
theorem next {V : List String → Cursor → Cursor → Prop} {p : Reader α} {q : Reader β} (h : Records k F.here V φ f p q) :
    Records k F.later V φ f p q :=
  fun ws => (h ws).from_less (F.here_of_later ws)

/-- What is given without reading leaves the places as they are, with its words already among those read. -/
theorem give {a : α} {b : β} {ws us : List String} (h : φ a b) (hw : us = ws ++ f a) :
    Follows 0 (F.later us) (fun a => F.later (ws ++ f a)) φ (pure a) (pure b) := by
  subst hw
  exact .pure h fun _ _ hc => hc

/-- Places behind a token are in the same order on both sides, whatever was read. -/
theorem ordered_words (ws : List String) (f : α → List String) : Ordered fun a => F.later (ws ++ f a) :=
  fun _ _ c d c' d' h h' => F.ordered _ _ c d c' d' h h'

/-- A recursive reader records if its step does, wherever the reader it is given records at the later places. -/
theorem recursive {step : Reader α → Reader α} {step' : Reader β → Reader β}
    (hs : ∀ c₀ d₀ r r', Records 0 (F.within c₀ d₀).later (F.within c₀ d₀).later φ f r r' →
      Records 1 (F.within c₀ d₀).here (F.within c₀ d₀).later φ f (step r) (step' r')) :
    Records 1 F.here F.later φ f (Reader.recursive step) (Reader.recursive step') :=
  Follows.recursive F.here_of_later hs

/-! ## Marks of the second spelling -/

/-- The marks inside a statement are no operators. -/
theorem innerMarks_common : ∀ s ∈ innerMarks, s ∉ operatorSymbols := by decide

/-- A mark inside a statement is read alike on both sides and leaves no word. -/
theorem marked {s : Symbol} (hs : s ∈ innerMarks) :
    Records 1 F.here F.later Eq (fun _ => []) (markReader .standard s) (markReader lex s) := by
  rw [F.common.markReader_eq (innerMarks_common s hs)]
  exact F.mark s hs

/-- A mark that is kept is read alike on both sides, and is not among the words. -/
theorem literal {s : Symbol} (hs : s ∈ innerMarks) :
    Records 1 F.here F.later Eq (fun _ => []) (literalReader .standard s) (literalReader lex s) := by
  rw [F.common.literalReader_eq (innerMarks_common s hs)]
  exact fun ws => (F.mark s hs ws).bind fun _ _ _ => give rfl (by simp)

/-! ## What is put around other rules -/

/-- What stands between parentheses is read alike on both sides if it is so without them. -/
theorem parenthesized {p : Reader α} {q : Reader β} (h : Records k F.later F.later φ f p q) :
    Records 1 F.here F.later φ f (parenthesized .standard p) (parenthesized lex q) :=
  fun ws => (marked (by decide) ws).bind fun _ _ _ => (h _).bind fun _ _ ha =>
    (next (marked (by decide)) _).bind fun _ _ _ => give ha (by simp)

/-- An operator with parameters is read as its word with the opening mark, the parameters and the closing mark. -/
theorem parametrized_eq (lex : Lexicon) (s : Symbol) (p : Reader α) :
    UnaryOp.parametrized lex s p =
      (do let op ← openingReader lex s; let a ← p; markReader lex .paramsStop; pure (op, a)) := by
  funext c
  simp only [UnaryOp.parametrized, Surface.parameters, openingReader, bind_apply]
  cases caselessKeyword false (lex s) c with
  | none => rfl
  | some r =>
    dsimp only
    cases touchingMark lex .paramsStart r.2 with
    | none => rfl
    | some r' =>
      dsimp only [pure_apply]
      cases p r'.2 with
      | none => rfl
      | some r'' => dsimp only; cases markReader lex .paramsStop r''.2 <;> rfl

/-- An operator with its parameters. -/
theorem parametrized {s : Symbol} {p : Reader α} {q : Reader β} (hs : s ∈ openingSymbols)
    (h : Records k F.later F.later φ f p q) :
    Records 1 F.here F.later (fun r r' => SpellBoth lex s r.1 r'.1 ∧ φ r.2 r'.2) (fun r => openedAs s :: f r.2)
      (UnaryOp.parametrized .standard s p) (UnaryOp.parametrized lex s q) := by
  rw [parametrized_eq, parametrized_eq]
  exact fun ws => (F.opening s hs ws).bind fun _ _ ho => (h _).bind fun _ _ ha =>
    (next (marked (by decide)) _).bind fun _ _ _ => give ⟨ho, ha⟩ (by simp)

/-- A list with delimiters records its members. -/
theorem listed {p : Reader String} (h : Records 1 F.here F.later Eq (fun a => [a]) p p) :
    Records 1 F.here F.later Eq id (listed .standard p) (listed lex p) := by
  intro ws
  refine ((Follows.separated (χ := Eq) F.here_of_later h (fun ys => ?_) ws).giving fun as bs has => ?_).mono fun as c d hc => ?_
  · exact (next (marked (s := .delimiter) (by decide)) ys).mono fun _ c d hc => by simpa using hc
  · rwa [List.forall₂_eq_eq_eq] at has
  · simpa using hc

/-! ## Conditions -/

/-- The clauses that are read on both sides are the same, and what is known of operands holds of theirs. -/
def SameClause (F : Frame lex) (a b : Clause) : Prop := a = b ∧ a.Over F.known

/-- The words for "and" and "or" are read alike on both sides. -/
theorem linker : Records 1 F.here F.later Eq (fun a => [a]) (Clause.linker .standard) (Clause.linker lex) := by
  have hone : ∀ s, s ∈ wordSymbols → s ∉ operatorSymbols → Records 1 F.here F.later Eq (fun a => [a])
      (caselessKeyword true (Lexicon.usual s)) (caselessKeyword true (lex s)) := by
    intro s hs hn ws c d hc
    rw [F.common.spelling_eq hn]
    cases F.word s hs ws c d hc with
    | refuse hp hq =>
      rw [F.common.spelling_eq hn] at hq
      exact .refuse hp hq
    | read hp hq ha hr hcc hdd =>
      rw [F.common.spelling_eq hn] at hq
      exact .read hp hq (ha.1.trans (ha.2.trans (F.common.spelling_eq hn)).symm) (ha.1 ▸ hr) hcc hdd
  exact fun ws => (hone .and (by decide) (by decide) ws).orElse (hone .or (by decide) (by decide) ws)

/-- A comparison is read alike on both sides and records its operands and its comparator. -/
theorem comparison :
    Records 1 F.here F.later F.SameClause Clause.words (Clause.comparison .standard) (Clause.comparison lex) := by
  unfold Clause.comparison
  rw [F.common.comparator_eq]
  refine fun ws => (F.operand ws).bind fun left _ hl => (next F.comparator _).bind fun op _ ho =>
    (next F.operand _).bind fun right _ hr => give ⟨by rw [hl.1, ho, hr.1], ?_⟩ (by simp)
  intro o h
  rcases List.mem_cons.mp h with rfl | h
  · exact hl.2
  · rw [List.mem_singleton.mp h]
    exact hr.2

/-- A test for a value is read alike on both sides. -/
theorem definedTest :
    Records 1 F.here F.later F.SameClause Clause.words (Clause.definedTest .standard) (Clause.definedTest lex) := by
  refine fun ws => (F.word .defined (by decide) ws).bind fun op _ ho => (next (literal (by decide)) _).bind fun _ _ _ =>
    (next F.operand _).bind fun operand _ h => (next (literal (by decide)) _).bind fun _ _ _ => give ⟨?_, ?_⟩ ?_
  · rw [ho.1, ho.2, h.1, F.common.spelling_eq (by decide)]
  · intro o hm
    rw [List.mem_singleton.mp hm]
    exact h.2
  · simp [ho.1]

/-- A comparison or a test, whichever the level has, is read alike on both sides. -/
theorem simple :
    Records 1 F.here F.later F.SameClause Clause.words (Clause.simple level .standard) (Clause.simple level lex) := by
  unfold Clause.simple
  split
  · exact fun ws => (comparison ws).orElse (definedTest ws)
  · exact comparison

/-- Clauses with operators between them, from places behind which a clause may stand too. -/
theorem linked {U : List String → Cursor → Cursor → Prop} {r r' : Reader Clause} (hU : ∀ ws c d, F.later ws c d → U ws c d)
    (h : Records k U F.later F.SameClause Clause.words r r') :
    Records k U F.later F.SameClause Clause.words (Clause.linkedReader .standard r) (Clause.linkedReader lex r') := by
  have hmany : Records 0 F.later F.later
      (List.Forall₂ fun (n n' : String × Clause) => n = n' ∧ n.2.Over F.known)
      (·.flatMap fun n => n.1 :: n.2.words)
      (Reader.many do let op ← Clause.linker .standard; let next ← r; pure (op, next))
      (Reader.many do let op ← Clause.linker lex; let next ← r'; pure (op, next)) := by
    refine Records.many fun ws => (next linker ws).bind fun op _ ho =>
      ((h _).from_less (hU _)).bind (l := 0) fun clause _ hc => ?_
    exact give ⟨by rw [ho, hc.1], hc.2⟩ (by simp)
  refine fun ws => (h ws).bind fun first _ hf => (hmany _).bind fun others others' ho => give ⟨?_, ?_⟩ ?_
  · have heq : others = others' := by
      rw [← List.forall₂_eq_eq_eq]
      exact ho.imp fun _ _ h => h.1
    rw [hf.1, heq]
  · refine Clause.over_linkAll hf.2 fun n hn => ?_
    clear hmany
    induction ho with
    | nil => cases hn
    | cons h _ ih =>
      rcases List.mem_cons.mp hn with rfl | hn
      · exact h.2
      · exact ih hn
  · rw [Clause.words_linkAll, List.append_assoc]

/-- The step of the reader of clauses in any spelling. -/
def clauseStepOf (level : Level) (lex : Lexicon) (tight : Reader Clause) : Reader Clause :=
  (do
    let op ← Clause.negation lex
    let body ← tight
    pure (Clause.negate op body))
  <|> Clause.simple level lex <|> Surface.parenthesized lex (Clause.linkedReader lex tight)

/-- One step of the reader of clauses, with a reader that may be used behind a token. -/
theorem clauseStep {r r' : Reader Clause} (hr : Records 0 F.later F.later F.SameClause Clause.words r r') :
    Records 1 F.here F.later F.SameClause Clause.words (clauseStepOf level .standard r) (clauseStepOf level lex r') := by
  refine fun ws => .orElse ?_ (.orElse (simple ws) (parenthesized (linked (fun _ _ _ h => h) hr) ws))
  refine (F.word .not (by decide) ws).bind fun op _ ho => (hr _).bind fun body _ hb => give ⟨?_, hb.2⟩ ?_
  · rw [ho.1, ho.2, hb.1, F.common.spelling_eq (by decide)]
  · simp [ho.1]

/-- A clause that no connective divides is read alike on both sides, by recursion through negations and parentheses. -/
theorem tightClause :
    Records 1 F.here F.later F.SameClause Clause.words (Clause.tightReader level .standard) (Clause.tightReader level lex) :=
  recursive fun c₀ d₀ _ _ hr => clauseStep (F := F.within c₀ d₀) hr

/-- A clause is read alike on both sides, and what is known of operands holds of all of its operands. -/
theorem clause :
    Records 1 F.here F.later F.SameClause Clause.words (Clause.reader level .standard) (Clause.reader level lex) :=
  linked F.here_of_later tightClause

/-! ## Operators -/

/-- The operators that are read on both sides are alike, and what is known of operands holds of those in their conditions. -/
def AlikeUnary (F : Frame lex) (a b : UnaryOp) : Prop := a.Like lex b ∧ a.Over F.known

def AlikeBinary (F : Frame lex) (a b : BinaryOp) : Prop := a.Like lex b ∧ a.Over F.known

/-- The names of a renaming are read alike on both sides. -/
theorem attributeNames :
    Records 1 F.here F.later Eq id (UnaryOp.attributeNames .standard) (UnaryOp.attributeNames lex) :=
  parenthesized (next (listed F.name))

/-- The target of a renaming or an assignment is read alike on both sides. -/
theorem target : Records 1 F.here F.later Eq Renaming.words (UnaryOp.targetReader .standard) (UnaryOp.targetReader lex) := by
  refine fun ws => .longest (ordered_words ws _) ((F.name ws).bind fun _ _ hn => give (by rw [hn]) (by simp)) ?_
  refine ((F.name.mono F.here_of_later).opt ws).after fun n n' hn => (attributeNames _).bind (l := 0) fun names _ hs => ?_
  cases hn with
  | none => exact give (by rw [hs]) (by simp)
  | some hn => exact give (by rw [hn, hs]) (by simp)

/-- An operator with one operand is read alike on both sides, each in its spelling. -/
theorem unaryOp :
    Records 1 F.here F.later F.AlikeUnary UnaryOp.words (UnaryOp.reader level .standard) (UnaryOp.reader level lex) := by
  refine fun ws => .firstOf (.cons ?_ (.cons ?_ (.cons ?_ .nil)))
  · refine (parametrized (by decide) (next (listed F.reference)) ws).bind (l := 0) fun ⟨op, references⟩ ⟨op', _⟩ h => ?_
    obtain ⟨⟨rfl, rfl⟩, rfl⟩ := h
    exact give ⟨.project references, fun _ h => by cases h⟩ (by rw [UnaryOp.words_project]; rfl)
  · refine (parametrized (by decide) (next clause) ws).bind (l := 0) fun ⟨op, clause⟩ ⟨op', _⟩ h => ?_
    obtain ⟨⟨rfl, rfl⟩, rfl, hover⟩ := h
    exact give ⟨.select clause, hover⟩ (by rw [UnaryOp.words_select]; rfl)
  · refine (parametrized (by decide) (next target) ws).bind (l := 0) fun ⟨op, target⟩ ⟨op', _⟩ h => ?_
    obtain ⟨⟨rfl, rfl⟩, rfl⟩ := h
    exact give ⟨.rename target, fun _ h => by cases h⟩ (by rw [UnaryOp.words_rename]; rfl)

/-- An operator without a condition is read alike on both sides, each in its spelling. -/
theorem plain {s : Symbol} (hs : s ∈ plainSymbols) :
    Records 1 F.here F.later F.AlikeBinary BinaryOp.words (BinaryOp.plainReader .standard s) (BinaryOp.plainReader lex s) := by
  refine fun ws => (F.word s (List.mem_append_right _ hs) ws).bind (l := 0) fun op op' h => ?_
  obtain ⟨rfl, rfl⟩ := h
  exact give ⟨.plain hs, fun _ h => by cases h⟩ rfl

/-- A join with a condition is read alike on both sides, each in its spelling. -/
theorem conditioned {s : Symbol} (hs : s ∈ conditionedSymbols) :
    Records 1 F.here F.later F.AlikeBinary BinaryOp.words (BinaryOp.conditionedReader level .standard s)
      (BinaryOp.conditionedReader level lex s) := by
  refine fun ws => (parametrized (List.mem_append_right _ hs) (next clause) ws).bind (l := 0) fun ⟨op, clause⟩ ⟨op', _⟩ h => ?_
  obtain ⟨⟨rfl, rfl⟩, rfl, hover⟩ := h
  have hopened : ∀ s ∈ conditionedSymbols, openedAs s = Lexicon.usual s := by decide
  exact give ⟨.conditioned hs clause, hover⟩ (by rw [BinaryOp.words_conditioned, hopened s hs])

/-- A theta join is read alike on both sides, also where it is written as a plain join with a condition. -/
theorem theta :
    Records 1 F.here F.later F.AlikeBinary BinaryOp.words (BinaryOp.thetaReader level .standard)
      (BinaryOp.thetaReader level lex) := by
  refine fun ws => .longest (ordered_words ws _) (conditioned (by decide) ws) ?_
  refine (parametrized (s := .join) (by decide) (next clause) ws).bind (l := 0) fun ⟨_, clause⟩ ⟨_, _⟩ h => ?_
  obtain ⟨-, rfl, hover⟩ := h
  exact give ⟨.conditioned (s := .thetaJoin) (by decide) clause, hover⟩ (by rw [BinaryOp.words_conditioned]; rfl)

/-- Every join is read alike on both sides. -/
theorem join :
    Records 1 F.here F.later F.AlikeBinary BinaryOp.words (BinaryOp.joinReader level .standard)
      (BinaryOp.joinReader level lex) := by
  unfold BinaryOp.joinReader
  split
  · exact fun ws => .longestOf (ordered_words ws _) (.cons (plain (by decide) ws) (.cons (plain (by decide) ws)
      (.cons (theta ws) (.cons (conditioned (by decide) ws) (.cons (conditioned (by decide) ws)
        (.cons (conditioned (by decide) ws) .nil))))))
  · exact plain (by decide)

/-- Every set operator is read alike on both sides. -/
theorem union :
    Records 1 F.here F.later F.AlikeBinary BinaryOp.words (BinaryOp.unionReader .standard) (BinaryOp.unionReader lex) :=
  fun ws => .orElse (plain (by decide) ws) (plain (by decide) ws)

/-! ## Expressions -/

/-- The expressions that are read on both sides are alike, and what is known of operands holds of those in their conditions. -/
def AlikeExpression (F : Frame lex) (a b : Expression) : Prop := a.Like lex b ∧ a.Over F.known

/-- Operands with operators between them, from places behind which an operand may stand too. -/
theorem chained {U : List String → Cursor → Cursor → Prop} {r r' : Reader Expression} {op op' : Reader BinaryOp}
    (hU : ∀ ws c d, F.later ws c d → U ws c d) (h : Records k U F.later F.AlikeExpression Expression.words r r')
    (hop : Records 1 F.here F.later F.AlikeBinary BinaryOp.words op op') :
    Records k U F.later F.AlikeExpression Expression.words (Expression.chained r op) (Expression.chained r' op') := by
  have hmany : Records 0 F.later F.later
      (List.Forall₂ fun (l l' : BinaryOp × Expression) => F.AlikeBinary l.1 l'.1 ∧ F.AlikeExpression l.2 l'.2)
      (·.flatMap fun l => l.1.words ++ l.2.words)
      (Reader.many do let o ← op; let e ← r; pure (o, e)) (Reader.many do let o ← op'; let e ← r'; pure (o, e)) := by
    refine Records.many fun ws => (next hop ws).bind fun o _ ho => ((h _).from_less (hU _)).bind (l := 0) fun e _ he => ?_
    exact give ⟨ho, he⟩ (by simp)
  refine fun ws => (h ws).bind fun first first' hf => (hmany _).bind (l := 0) fun links links' hl => ?_
  have hover : ∀ link ∈ links, link.1.Over F.known ∧ link.2.Over F.known := by
    clear hmany
    induction hl with
    | nil => nofun
    | cons h _ ih =>
      rw [List.forall_mem_cons]
      exact ⟨⟨h.1.2, h.2.2⟩, ih⟩
  have hlike := Links.like_ofList (hl.imp fun _ _ h => ⟨h.1.1, h.2.1⟩)
  cases hl with
  | nil => exact give hf (by simp)
  | cons =>
    refine give ⟨.chain hf.1 hlike, Expression.over_chain hf.2 hover⟩ ?_
    rw [Expression.words_chain, Links.words_ofList, List.append_assoc]

/-- Chains of operands are read alike on both sides if their operands are. -/
theorem chainedReader {U : List String → Cursor → Cursor → Prop} {r r' : Reader Expression}
    (hU : ∀ ws c d, F.later ws c d → U ws c d) (h : Records k U F.later F.AlikeExpression Expression.words r r') :
    Records k U F.later F.AlikeExpression Expression.words (Expression.chainedReader level .standard r)
      (Expression.chainedReader level lex r') := by
  have hj := chained hU h (@join lex F level)
  unfold Expression.chainedReader
  split
  · exact chained hU (chained hU hj (plain (by decide))) union
  · exact chained hU hj union

/-- The step of the reader of expressions in any spelling. -/
def expressionStepOf (level : Level) (lex : Lexicon) (tight : Reader Expression) : Reader Expression :=
  (do
    let op ← UnaryOp.reader level lex
    let operand ← tight
    pure (Expression.unary op operand))
  <|> Expression.relationReader <|> Surface.parenthesized lex (Expression.chainedReader level lex tight)

/-- One step of the reader of expressions, with a reader that may be used behind a token. -/
theorem expressionStep {r r' : Reader Expression}
    (hr : Records 0 F.later F.later F.AlikeExpression Expression.words r r') :
    Records 1 F.here F.later F.AlikeExpression Expression.words (expressionStepOf level .standard r)
      (expressionStepOf level lex r') := by
  refine fun ws => .orElse ?_ (.orElse ?_ (parenthesized (chainedReader (fun _ _ _ h => h) hr) ws))
  · exact (unaryOp ws).bind fun op _ ho => (hr _).bind fun e _ he =>
      give ⟨.unary ho.1 he.1, Expression.over_unary ho.2 he.2⟩ (by simp)
  · refine (F.name ws).bind (l := 0) fun n _ hn => ?_
    cases hn
    exact give ⟨.relation n, fun _ h => by cases h⟩ rfl

/-- An expression that no operator with two operands divides is read alike on both sides. -/
theorem tightExpression :
    Records 1 F.here F.later F.AlikeExpression Expression.words (Expression.tightReader level .standard)
      (Expression.tightReader level lex) :=
  recursive fun c₀ d₀ _ _ hr => expressionStep (F := F.within c₀ d₀) hr

/-- An expression is read alike on both sides, and what is known of operands holds of all in it. -/
theorem expression :
    Records 1 F.here F.later F.AlikeExpression Expression.words (Expression.reader level .standard)
      (Expression.reader level lex) :=
  chainedReader F.here_of_later tightExpression

/-! ## Statements -/

/-- The statements that are read on both sides are alike, and what is known of operands holds of those in their conditions. -/
def AlikeStatement (F : Frame lex) (a b : Statement) : Prop := a.Like lex b ∧ a.Over F.known

/-- An assignment is read alike on both sides. -/
theorem assign :
    Records 1 F.here F.later F.AlikeStatement Statement.words (Statement.assignReader level .standard)
      (Statement.assignReader level lex) := by
  unfold Statement.assignReader
  rw [F.common.spelling_eq (s := .assign) (by decide)]
  refine fun ws => (F.name ws).bind fun n _ hn => ((next attributeNames).opt _).bind fun attributes _ ha =>
    (next F.assignment _).bind fun op _ ho => (next expression _).bind (l := 0) fun value value' hv => ?_
  cases hn
  cases ho
  cases ha with
  | none => exact give ⟨.assign n op none hv.1, hv.2⟩ (by simp)
  | some ha =>
    cases ha
    exact give ⟨.assign n op (some _) hv.1, hv.2⟩ (by simp)

/-- An expression as a statement is read alike on both sides. -/
theorem query :
    Records 1 F.here F.later F.AlikeStatement Statement.words (Statement.queryReader level .standard)
      (Statement.queryReader level lex) :=
  fun ws => (expression ws).bind fun _ _ he => give ⟨.query he.1, he.2⟩ rfl

/-- A statement does alike on both sides if its end does, and declarations do where there are any; what is behind it is related
as it is behind the end. -/
theorem statement (level : Level) {V : List String → Cursor → Cursor → Prop}
    (ht : Records 1 F.later V Eq (fun _ => []) (markReader .standard .terminator) (markReader .standard .terminator))
    (hd : level.includes .dependency = true → Records 1 F.here F.later Eq (fun d => d.phrase.flatten)
      (Declaration.reader level .standard) (Declaration.reader level lex)) :
    Records 1 F.here V F.AlikeStatement Statement.words (Statement.reader level .standard) (Statement.reader level lex) := by
  have hend : ∀ {p q : Reader Statement}, Records 1 F.here F.later F.AlikeStatement Statement.words p q →
      Records 1 F.here V F.AlikeStatement Statement.words (Statement.terminated .standard p) (Statement.terminated lex q) := by
    intro p q h ws
    unfold Statement.terminated
    rw [F.common.markReader_eq (by decide)]
    exact (h ws).bind fun _ _ hs => (ht _).bind fun _ _ _ => .pure hs fun _ _ hc => by simpa using hc
  have halgebra : Records 1 F.here V F.AlikeStatement Statement.words (Statement.algebraReader level .standard)
      (Statement.algebraReader level lex) := hend fun ws => .longest (ordered_words ws _) (assign ws) (query ws)
  unfold Statement.reader
  split
  · rename_i hl
    refine fun ws => .orElse (hend (fun us => ?_) ws) (halgebra ws)
    refine (hd hl us).bind (l := 0) fun d _ h => ?_
    cases h
    exact give ⟨.declare d, fun _ h => by cases h⟩ rfl
  · exact halgebra

/-- The statements of a text do alike on both sides if one does. -/
theorem statements {V : List String → Cursor → Cursor → Prop} (hV : ∀ ws c d, V ws c d → F.here ws c d)
    (hs : Records 1 F.here V F.AlikeStatement Statement.words (Statement.reader level .standard) (Statement.reader level lex)) :
    Records 1 F.here V (List.Forall₂ F.AlikeStatement) (·.flatMap Statement.words) (statements level .standard)
      (statements level lex) := by
  have hmany := Records.many fun ws => (hs ws).from_less (hV ws)
  exact fun ws => (hs ws).bind fun _ _ hf => (hmany _).bind fun _ _ ho => .pure (.cons hf ho) fun _ _ h => by simpa using h

/-- The statements of a text up to its end. -/
theorem whole {V W : List String → Cursor → Cursor → Prop} (hV : ∀ ws c d, V ws c d → F.here ws c d)
    (hs : Records 1 F.here V F.AlikeStatement Statement.words (Statement.reader level .standard) (Statement.reader level lex))
    (he : Records 0 V W Eq (fun _ => []) atEnd atEnd) :
    Records 1 F.here W (List.Forall₂ F.AlikeStatement) (·.flatMap Statement.words)
      (do let ss ← Surface.statements level .standard; atEnd; pure ss)
      (do let ss ← Surface.statements level lex; atEnd; pure ss) :=
  fun ws => (statements hV hs ws).bind fun _ _ ha => (he _).bind fun _ _ _ => .pure ha fun _ _ h => by simpa using h

end Frame

end RelAlg
