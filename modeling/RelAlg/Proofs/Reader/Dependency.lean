import RelAlg.Proofs.Reader.Levels

/-!
# How dependencies are written

`Dependency.Writes d text rest` says that a text starts with the dependency `d` and goes on with `rest`: an operator and its
attributes between the marks for parameters, then a relation or a selection on one, or a pair of them between parentheses.
Blanks may stand before every part, and names are in any letter case. Such a relation between a text and what is left of it is
realized by a reader (`Reader.Realizes`) if whatever is written is read, and whatever is read is written. Main statement: the
reader of declarations realizes `Dependency.Writes` (`realizes_declaration`).
-/

namespace RelAlg

open Cursor Reader Surface

/-! ## What a reader leaves -/

namespace Reader

variable {α β γ δ : Type} {p q : Reader α} {M : α → β → Prop} {R S : β → List Char → List Char → Prop}

/-- At the place the reader takes the value off the text and leaves the rest. -/
def Leaves (p : Reader α) (c : Cursor) (a : α) (rest : List Char) : Prop := ∃ c', p c = some (a, c') ∧ c'.rest = rest

/-- The reader takes off a text what the relation says is written there: what is written is read as a value that stands for it,
and a value that is read stands for something that is written. -/
structure Realizes (p : Reader α) (M : α → β → Prop) (R : β → List Char → List Char → Prop) : Prop where
  reads : ∀ {c : Cursor} {b : β} {rest : List Char}, R b c.rest rest → ∃ a, p.Leaves c a rest ∧ M a b
  finds : ∀ {c : Cursor} {a : α} {rest : List Char}, p.Leaves c a rest → ∃ b, M a b ∧ R b c.rest rest

namespace Realizes

/-- What a reader realizes may be said in another way. -/
theorem congr (h : p.Realizes M R) (hR : ∀ b text rest, R b text rest ↔ S b text rest) : p.Realizes M S where
  reads hs := h.reads ((hR _ _ _).mpr hs)
  finds hl := by
    obtain ⟨b, hM, hb⟩ := h.finds hl
    exact ⟨b, hM, (hR _ _ _).mp hb⟩

/-- A value that is given leaves the text as it is. -/
theorem pure {a : α} {b : β} (h : M a b) : (Pure.pure a : Reader α).Realizes M fun b' text rest => b' = b ∧ text = rest where
  reads := by
    rintro c _ _ ⟨rfl, rfl⟩
    exact ⟨a, ⟨c, rfl, rfl⟩, h⟩
  finds := by
    rintro c _ _ ⟨_, hc, rfl⟩
    cases hc
    exact ⟨b, h, rfl, rfl⟩

/-- What is written part by part is read part by part. -/
theorem bind {N : γ → δ → Prop} {T : β → δ → List Char → List Char → Prop} {f : α → Reader γ} (hp : p.Realizes M R)
    (hf : ∀ a b, M a b → (f a).Realizes N (T b)) :
    (p >>= f).Realizes N fun d text rest => ∃ b between, R b text between ∧ T b d between rest where
  reads := by
    rintro c d rest ⟨b, _, hR, hT⟩
    obtain ⟨a, ⟨c', hc, rfl⟩, hM⟩ := hp.reads hR
    obtain ⟨x, ⟨c'', hx, hr⟩, hN⟩ := (hf a b hM).reads hT
    exact ⟨x, ⟨c'', (bind_of_some hc).trans hx, hr⟩, hN⟩
  finds := by
    rintro c x rest ⟨c'', h, hr⟩
    obtain ⟨a, c', hc, hx⟩ := bind_eq_some h
    obtain ⟨b, hM, hR⟩ := hp.finds ⟨c', hc, rfl⟩
    obtain ⟨d, hN, hT⟩ := (hf a b hM).finds ⟨c'', hx, hr⟩
    exact ⟨d, hN, b, c'.rest, hR, hT⟩

/-- Of two ways to write something the second is read if the first reader refuses it. -/
theorem orElse (hp : p.Realizes M R) (hq : q.Realizes M S) (hx : ∀ c b rest, S b c.rest rest → p c = none) :
    (p <|> q).Realizes M fun b text rest => R b text rest ∨ S b text rest where
  reads := by
    rintro c b rest (hR | hS)
    · obtain ⟨a, ⟨c', hc, hr⟩, hM⟩ := hp.reads hR
      exact ⟨a, ⟨c', orElse_of_some hc, hr⟩, hM⟩
    · obtain ⟨a, ⟨c', hc, hr⟩, hM⟩ := hq.reads hS
      exact ⟨a, ⟨c', (orElse_of_none (hx c b rest hS)).trans hc, hr⟩, hM⟩
  finds := by
    rintro c a rest ⟨c', hc, hr⟩
    rcases orElse_eq_some hc with hc | ⟨-, hc⟩
    · obtain ⟨b, hM, hR⟩ := hp.finds ⟨c', hc, hr⟩
      exact ⟨b, hM, .inl hR⟩
    · obtain ⟨b, hM, hS⟩ := hq.finds ⟨c', hc, hr⟩
      exact ⟨b, hM, .inr hS⟩

end Realizes

end Reader

/-! ## Written parts -/

/-- Behind blanks the text starts with the word and goes on with the rest. -/
def Spaced (word text rest : List Char) : Prop := text.dropWhile isBlank = word ++ rest

/-- Behind blanks the text starts with the symbol, in exactly its usual spelling. -/
def Marked (s : Symbol) (text rest : List Char) : Prop := Spaced (Lexicon.usual s).toList text rest

/-- Behind blanks the text starts with the name, in any letter case, and goes on with what does not belong to it. -/
def Named (name : String) (text rest : List Char) : Prop :=
  ∃ word, isIdentifier (String.ofList word) = true ∧ name = lowered word ∧ Spaced word text rest ∧
    rest.head?.all (fun x => !isNameChar x) = true

/-- The text starts with the names, with a delimiter between two. -/
inductive NamedAll : List String → List Char → List Char → Prop where
  | single {name : String} {text rest : List Char} (h : Named name text rest) : NamedAll [name] text rest
  | cons {name : String} {names : List String} {text between next rest : List Char} (h : Named name text between)
      (hd : Marked .delimiter between next) (hs : NamedAll names next rest) : NamedAll (name :: names) text rest

/-- The text starts with the marks for parameters and what stands between them; the first mark is right there. -/
def Braced (R : List Char → List Char → Prop) (text rest : List Char) : Prop :=
  ∃ inner last, text = (Lexicon.usual .paramsStart).toList ++ inner ∧ R inner last ∧ Marked .paramsStop last rest

/-- The text starts with what is read as the condition. -/
def Condition.Reads (c : Condition) (text rest : List Char) : Prop :=
  ∃ clause, (Clause.reader .extended .standard).Leaves (Cursor.start text) clause rest ∧ clause.Denotes c

/-- A relation that a dependency speaks of, with a selection on it or without. -/
structure Subject where
  condition : Option Condition
  relation : String

/-- The term of the relation, or of the selection on it. -/
def Subject.term (s : Subject) : Term :=
  match s.condition with
  | none => .relation s.relation
  | some c => .select c (.relation s.relation)

/-- A dependency as it is meant: a key of a relation, a dependency between two attributes, or an inclusion. -/
inductive Dependency where
  | key (attributes : List String) (relation : String)
  | pair (kind : PairDependency) (left right : String) (subject : Subject)
  | inclusion (kind : Inclusion) (left right : String) (first second : Subject)

/-- The symbol of a dependency between two attributes. -/
def PairDependency.symbol : PairDependency → Symbol
  | multivalued => .multivalued
  | functional => .functional

/-- The symbol of an inclusion. -/
def Inclusion.symbol : Inclusion → Symbol
  | equivalence => .inclusionEquivalence
  | subsumption => .inclusionSubsumption

/-- The symbol tells which dependency between two attributes it is. -/
theorem PairDependency.symbol_injective : Function.Injective symbol := by
  intro k l h
  cases k <;> cases l <;> cases h <;> rfl

/-- The symbol tells which inclusion it is. -/
theorem Inclusion.symbol_injective : Function.Injective symbol := by
  intro k l h
  cases k <;> cases l <;> cases h <;> rfl

/-- The text starts with the name of the relation, or with a selection and that name. -/
inductive Subject.Writes : Subject → List Char → List Char → Prop where
  | relation {name : String} {text rest : List Char} (hn : Named name text rest) : Writes ⟨none, name⟩ text rest
  | selected {c : Condition} {name : String} {text params next rest : List Char} (ho : Marked .select text params)
      (hc : Braced c.Reads params next) (hn : Named name next rest) : Writes ⟨some c, name⟩ text rest

/-- The text starts with the dependency. -/
inductive Dependency.Writes : Dependency → List Char → List Char → Prop where
  | key {attributes : List String} {relation : String} {text params next rest : List Char}
      (ho : Marked .primaryKey text params) (ha : Braced (NamedAll attributes) params next) (hn : Named relation next rest) :
      Writes (.key attributes relation) text rest
  | pair {kind : PairDependency} {left right : String} {subject : Subject} {text params next rest : List Char}
      (ho : Marked kind.symbol text params) (ha : Braced (NamedAll [left, right]) params next)
      (hs : subject.Writes next rest) : Writes (.pair kind left right subject) text rest
  | inclusion {kind : Inclusion} {left right : String} {first second : Subject}
      {text params opening inner between next closing rest : List Char} (ho : Marked kind.symbol text params)
      (ha : Braced (NamedAll [left, right]) params opening) (hl : Marked .parenLeft opening inner)
      (hf : first.Writes inner between) (hd : Marked .delimiter between next) (hs : second.Writes next closing)
      (hr : Marked .parenRight closing rest) : Writes (.inclusion kind left right first second) text rest

/-! ## Marks and names -/

/-- A mark is written at a place just if it is ahead there. -/
theorem marked_iff {s : Symbol} {c : Cursor} {rest : List Char} :
    Marked s c.rest rest ↔ c.ahead = (Lexicon.usual s).toList ++ rest := by
  rw [ahead_eq_dropWhile]
  rfl

/-- A mark is read just where it is written. -/
theorem realizes_mark (s : Symbol) : (markReader .standard s).Realizes Eq fun _ => Marked s where
  reads := by
    intro c u rest h
    rw [marked_iff] at h
    refine ⟨u, ⟨(c.skipWhile isBlank).advance (Lexicon.usual s).length, ?_, ?_⟩, rfl⟩
    · rw [markReader_apply, h, if_pos (by simp)]
    · rw [rest_advance, show (c.skipWhile isBlank).rest = c.ahead from rfl, h, ← String.length_toList, List.drop_left]
  finds := by
    rintro c u _ ⟨c', h, rfl⟩
    exact ⟨u, rfl, marked_iff.mpr (ahead_of_mark h)⟩

/-- The symbol of a dependency is read just where it is written, and comes out as it is usually spelled. -/
theorem realizes_literal (s : Symbol) :
    (literalReader .standard s).Realizes (fun op (_ : Unit) => op = Lexicon.usual s) fun _ => Marked s := by
  have hpure : (pure (Lexicon.usual s) : Reader String).Realizes (fun op (_ : Unit) => op = Lexicon.usual s) _ :=
    .pure (b := ()) rfl
  refine ((realizes_mark s).bind fun _ _ _ => hpure).congr fun _ text rest => ?_
  constructor
  · rintro ⟨-, _, h, -, rfl⟩
    exact h
  · exact fun h => ⟨(), rest, h, rfl, rfl⟩

/-- A symbol is not read where its first character is not ahead. -/
theorem literalReader_eq_none {s : Symbol} {y : Char} {c : Cursor} (hs : (Lexicon.usual s).toList.head? = some y)
    (hc : c.ahead.head? ≠ some y) : literalReader .standard s c = none :=
  bind_of_none (markReader_eq_none hs hc)

/-- A name is read just where one is written, in any letter case. -/
theorem realizes_name : name.Realizes (fun n m => n = m ∧ isName n = true) Named where
  reads := by
    rintro c _ rest ⟨word, hw, rfl, h, hr⟩
    rw [Spaced, ← ahead_eq_dropWhile] at h
    have hn : name c = some (lowered word, (c.skipWhile isBlank).advance word.length) := bareName_of_rest h hw hr
    refine ⟨_, ⟨_, hn, ?_⟩, rfl, gives_name _ _ _ hn⟩
    rw [rest_advance, show (c.skipWhile isBlank).rest = c.ahead from rfl, h, List.drop_left]
  finds := by
    rintro c n _ ⟨c', h, rfl⟩
    obtain ⟨word, hw, hc, hn, -, hr⟩ := exists_of_name h
    rw [ahead_eq_dropWhile] at hc
    exact ⟨n, ⟨rfl, gives_name _ _ _ h⟩, word, hw, hn, hc, hr⟩

/-! ## Parameters -/

theorem touchingMark_apply (c : Cursor) :
    touchingMark .standard .paramsStart c =
      if (Lexicon.usual .paramsStart).toList.isPrefixOf c.rest then some ((), c.advance 2) else none := rfl

/-- What stands between the marks for parameters is read behind a brace and in front of one. -/
theorem realizes_parameters {α β : Type} {p : Reader α} {M : α → β → Prop} {R : β → List Char → List Char → Prop}
    (hr : ∀ {c b last rest}, c.before = some '\x7b' → R b c.rest last → Marked .paramsStop last rest →
      ∃ a, p.Leaves c a last ∧ M a b)
    (hf : ∀ {c a last}, c.before = some '\x7b' → p.Leaves c a last → ∃ b, M a b ∧ R b c.rest last) :
    (parameters .standard p).Realizes M fun b => Braced (R b) where
  reads := by
    rintro c b rest ⟨inner, last, hc, hR, hm⟩
    have hopen : touchingMark .standard .paramsStart c = some ((), c.advance 2) := by
      rw [touchingMark_apply, hc, if_pos (by simp)]
    have hrest : (c.advance 2).rest = inner := by
      rw [rest_advance, hc]
      rfl
    have hbefore : (c.advance 2).before = some '\x7b' := before_of_spans hc (.inl rfl)
    rw [← hrest] at hR
    obtain ⟨a, ⟨d, hd, rfl⟩, hM⟩ := hr hbefore hR hm
    obtain ⟨_, ⟨e, he, hrest⟩, _⟩ := (realizes_mark .paramsStop).reads (b := ()) hm
    exact ⟨a, ⟨e, (bind_of_some hopen).trans ((bind_of_some hd).trans (bind_of_some he)), hrest⟩, hM⟩
  finds := by
    rintro c a _ ⟨e, h, rfl⟩
    obtain ⟨u, d, hopen, h⟩ := bind_eq_some h
    obtain ⟨a', d', hd, h⟩ := bind_eq_some h
    obtain ⟨v, e', he, h⟩ := bind_eq_some h
    cases h
    have hc := rest_of_touchingMark hopen
    have hbefore : d.before = some '\x7b' := by
      rw [touchingMark_apply] at hopen
      split at hopen
      · cases hopen
        exact before_of_spans hc (.inl rfl)
      · cases hopen
    obtain ⟨b, hM, hR⟩ := hf hbefore ⟨d', hd, rfl⟩
    obtain ⟨-, -, hm⟩ := (realizes_mark .paramsStop).finds ⟨e, he, rfl⟩
    exact ⟨b, hM, d.rest, d'.rest, hc, hR, hm⟩

/-- What can be read anywhere can be read between the marks for parameters. -/
theorem Reader.Realizes.parameters {α β : Type} {p : Reader α} {M : α → β → Prop} {R : β → List Char → List Char → Prop}
    (h : p.Realizes M R) : (parameters .standard p).Realizes M fun b => Braced (R b) :=
  realizes_parameters (fun _ hR _ => h.reads hR) fun _ hl => h.finds hl

/-- Two names are written with a delimiter between them. -/
theorem namedAll_pair_iff {left right : String} {text rest : List Char} : NamedAll [left, right] text rest ↔
    ∃ between next, Named left text between ∧ Marked .delimiter between next ∧ Named right next rest := by
  constructor
  · intro h
    cases h with
    | cons h hd hs =>
      cases hs with
      | single hs => exact ⟨_, _, h, hd, hs⟩
      | cons _ _ hs => cases hs
  · rintro ⟨between, next, h, hd, hs⟩
    exact .cons h hd (.single hs)

/-- Two attributes between braces are read just where they are written. -/
theorem realizes_attributePair :
    (attributePair .standard).Realizes Eq fun pair => Braced (NamedAll [pair.1, pair.2]) := by
  refine Realizes.parameters (Realizes.congr (realizes_name.bind fun left l hl => (realizes_mark .delimiter).bind fun _ _ _ =>
    realizes_name.bind fun right r hr => .pure (b := (l, r)) (by rw [hl.1, hr.1])) fun pair text rest => ?_)
  rw [namedAll_pair_iff]
  constructor
  · rintro ⟨l, between, hl, -, next, hd, r, _, hr, rfl, rfl⟩
    exact ⟨between, next, hl, hd, hr⟩
  · rintro ⟨between, next, hl, hd, hr⟩
    exact ⟨pair.1, between, hl, (), next, hd, pair.2, rest, hr, rfl, rfl⟩

/-- A delimiter and the name behind it. -/
def nextName : Reader String := do
  markReader .standard .delimiter
  name

/-- A delimiter and a name take at least one character. -/
theorem advances_nextName : Advances nextName :=
  Follows.advances (φ := Eq) (Q := fun _ _ _ => True) <| (Frame.same.mark .delimiter (by decide) []).bind fun _ _ _ =>
    (Frame.next Frame.same.name []).mono fun _ _ _ _ => trivial

/-- Names with delimiters between them are read as a name and then others. -/
theorem NamedAll.runs {names : List String} {text last : List Char} (h : NamedAll names text last) {c : Cursor}
    (hc : c.rest = text) : ∃ first others d e, names = first :: others ∧ name c = some (first, d) ∧
      Runs nextName d others e ∧ e.rest = last ∧ ∀ n ∈ names, isName n = true := by
  induction h generalizing c with
  | single h =>
    subst hc
    obtain ⟨n, ⟨d, hd, hr⟩, rfl, hn⟩ := realizes_name.reads h
    exact ⟨n, [], d, d, rfl, hd, .nil d, hr, by simpa using hn⟩
  | cons h hm _ ih =>
    subst hc
    obtain ⟨n, ⟨d, hd, rfl⟩, rfl, hn⟩ := realizes_name.reads h
    obtain ⟨_, ⟨d', hd', hr⟩, _⟩ := (realizes_mark .delimiter).reads (b := ()) hm
    obtain ⟨first, others, d'', e, rfl, hf, hs, hr, hns⟩ := ih hr
    have hnext : nextName d = some (first, d'') := (bind_of_some hd').trans hf
    exact ⟨n, first :: others, d, e, rfl, hd, .cons hnext (advances_nextName _ _ _ hnext).2 hs, hr, by simpa [hn] using hns⟩

/-- A name and then others that were read are names with delimiters between them. -/
theorem namedAll_of_runs {n : String} {ns : List String} {c d e : Cursor} (h : name c = some (n, d))
    (hs : Runs nextName d ns e) : NamedAll (n :: ns) c.rest e.rest ∧ ∀ m ∈ n :: ns, isName m = true := by
  induction hs generalizing c n with
  | nil d =>
    obtain ⟨_, ⟨rfl, hn⟩, h⟩ := realizes_name.finds ⟨d, h, rfl⟩
    exact ⟨.single h, by simpa using hn⟩
  | @cons m ms d d' e hm _ _ ih =>
    obtain ⟨_, ⟨rfl, hn⟩, h⟩ := realizes_name.finds ⟨d, h, rfl⟩
    obtain ⟨_, between, hd, hm⟩ := bind_eq_some hm
    obtain ⟨-, -, hd⟩ := (realizes_mark .delimiter).finds ⟨between, hd, rfl⟩
    obtain ⟨hs, hns⟩ := ih hm
    exact ⟨.cons h hd hs, List.forall_mem_cons.mpr ⟨hn, hns⟩⟩

/-- Names between braces are read just where they are written. -/
theorem realizes_names : (parameters .standard (listed .standard name)).Realizes
    (fun ns ms => ns = ms ∧ ∀ n ∈ ns, isName n = true) fun names => Braced (NamedAll names) := by
  refine realizes_parameters ?_ ?_
  · intro c names last rest _ h hm
    obtain ⟨first, others, d, e, rfl, hf, hs, rfl, hns⟩ := h.runs rfl
    -- no delimiter is in front of the brace, so no further name is read
    have hstop : nextName e = none := by
      refine bind_of_none (markReader_eq_none (y := ',') rfl ?_)
      rw [marked_iff.mp hm]
      exact fun he => absurd (Option.some.inj he) (by decide)
    exact ⟨_, ⟨e, (bind_of_some hf).trans (bind_of_some (many_of_runs hs hstop)), rfl⟩, rfl, hns⟩
  · rintro c names _ _ ⟨e, h, rfl⟩
    obtain ⟨first, d, hf, h⟩ := bind_eq_some h
    obtain ⟨others, e', ho, h⟩ := bind_eq_some h
    cases h
    obtain ⟨h, hns⟩ := namedAll_of_runs hf (runs_of_many advances_nextName ho)
    exact ⟨_, ⟨rfl, hns⟩, h⟩

/-! ## Conditions -/

/-- A reader that does the same wherever the text is the same leaves the same rest. -/
theorem leaves_iff_of_abreast {α : Type} {p : Reader α} {k : Nat} {a : α} {rest : List Char} {c d : Cursor}
    {U : Cursor → Cursor → Prop} (hp : Follows 1 (TokenFrame.ofMatching Matching.same k).here (fun _ => U) Eq p p)
    (hU : ∀ c d, U c d → c.rest = d.rest) (h : Abreast (fun r r' => r = r' ∧ True) k c d) :
    p.Leaves c a rest ↔ p.Leaves d a rest := by
  unfold Leaves
  cases hp c d ((TokenFrame.ofMatching Matching.same k).here_of_later c d h) with
  | refuse hc hd => simp [hc, hd]
  | read hc hd ha hr _ _ =>
    subst ha
    rw [hc, hd]
    simp [hU _ _ hr]

/-- A keyword may stand behind a brace as at the start of a text. -/
theorem sameEdge_brace : SameEdge (some '\x7b') none := ⟨fun joined => by cases joined <;> rfl, rfl⟩

/-- A place at which a keyword may stand is abreast with the start of what is left of the text. -/
theorem abreast_start {c : Cursor} (h : SameEdge c.before none) :
    Abreast (fun r r' => r = r' ∧ True) c.offset c (Cursor.start c.rest) :=
  ⟨⟨rfl, trivial⟩, (Nat.zero_add _).symm, h⟩

/-- A condition between braces is read just where a text starts with what is read as one. -/
theorem realizes_condition : (parameters .standard (Clause.reader .dependency .standard)).Realizes
    (fun clause c => clause.Denotes c ∧ c.IsWritten) fun c => Braced c.Reads := by
  have hlevel : Clause.reader .dependency .standard = Clause.reader .extended .standard := Clause.reader_congr rfl
  rw [hlevel]
  have hsame : ∀ {c : Cursor} {clause : Clause} {last : List Char}, c.before = some '\x7b' →
      ((Clause.reader .extended .standard).Leaves c clause last ↔
        (Clause.reader .extended .standard).Leaves (Cursor.start c.rest) clause last) := by
    intro c clause last hb
    exact leaves_iff_of_abreast TokenFrame.condition (fun _ _ h => h.text.1) (abreast_start (hb ▸ sameEdge_brace))
  refine realizes_parameters ?_ ?_
  · rintro c condition last rest hb ⟨clause, hl, hd⟩ -
    obtain ⟨e, he, rfl⟩ := (hsame hb).mpr hl
    obtain ⟨condition', hd', hw⟩ := Clause.gives_reader .extended _ _ _ he
    cases hd.symm.trans hd'
    exact ⟨clause, ⟨e, he, rfl⟩, hd, hw⟩
  · rintro c clause last hb ⟨e, he, rfl⟩
    obtain ⟨condition, hd, hw⟩ := Clause.gives_reader .extended _ _ _ he
    exact ⟨condition, ⟨hd, hw⟩, clause, (hsame hb).mp ⟨e, he, rfl⟩, hd⟩

/-- A layout is passed up to a mark behind it. -/
theorem exists_passes_before {ws : List Lexeme} {text : List Char} (h : Laid ws text) {x : Char} (hx : isMark x = true)
    {rest : List Char} {c : Cursor} (hc : c.rest = text ++ x :: rest) (hb : parted c.before c.rest = true) :
    ∃ c' gap, Passes ws c c' ∧ c'.rest = gap ++ x :: rest ∧ gap.all isBlank = true := by
  induction h generalizing c with
  | nil hg => exact ⟨c, _, .nil c, hc, hg⟩
  | @cons gap text w ws hg hp _ ih =>
    have hp' : parted w.chars.getLast? (text ++ x :: rest) = true := by
      cases text with
      | nil => simp [parted, isBreak, hx]
      | cons y text => exact hp
    obtain ⟨d, hd, hr, hbefore⟩ := exists_past (show c.rest = gap ++ w.chars ++ (text ++ x :: rest) by simp [hc]) hg hb hp'
    obtain ⟨c', gap', hs, he, hblank⟩ := ih hr (by rw [hr, hbefore]; exact hp')
    exact ⟨c', gap', .cons hd hs, he, hblank⟩

/-- Every layout of a condition is read as it between the marks for parameters. -/
theorem Condition.Writes.braced {c : Condition} {ws : List Lexeme} {text : List Char} (h : c.Writes 1 ws) (hl : Laid ws text)
    (rest : List Char) : Braced c.Reads ((Lexicon.usual .paramsStart).toList ++ (text ++ '\x7d' :: rest)) rest := by
  obtain ⟨d, gap, hp, hd, hg⟩ := exists_passes_before hl (x := '\x7d') rfl (c := Cursor.start (text ++ '\x7d' :: rest)) rfl rfl
  have hm : Marked .paramsStop d.rest rest := by
    rw [Marked, Spaced, hd]
    exact dropWhile_append_of_head (List.all_eq_true.mp hg) rfl
  have hahead : d.ahead.head?.all isMark = true := by
    rw [marked_iff.mp hm]
    rfl
  have htests : c.hasTest = true → Level.includes .extended .extended = true := fun _ => rfl
  obtain ⟨clause, he, hdenotes⟩ := (Clause.readTo_of_writes h htests (.refl _ _) hp).linkedReader hahead
  exact ⟨_, d.rest, rfl, ⟨clause, ⟨d, he, rfl⟩, hdenotes⟩, hm⟩

/-! ## Relations and selections on them -/

/-- A side of a dependency is read just where a subject is written. -/
theorem realizes_side :
    (Side.reader .dependency .standard).Realizes (fun side subject => side.IsWritten subject.term) Subject.Writes := by
  have hselected := (realizes_literal .select).bind fun op _ ho => realizes_condition.bind fun clause c hc =>
    realizes_name.bind fun n m hn => Realizes.pure (M := fun (side : Side) (subject : Subject) => side.IsWritten subject.term)
      (a := .selected op clause n) (b := ⟨some c, m⟩) (by rw [ho, ← hn.1]; exact .selected hc.1 hc.2 hn.2)
  have hplain := realizes_name.bind fun n m hn =>
    Realizes.pure (M := fun (side : Side) (subject : Subject) => side.IsWritten subject.term)
      (a := .relation n) (b := ⟨none, m⟩) (by rw [← hn.1]; exact .relation hn.2)
  refine (hselected.orElse hplain ?_).congr fun subject text rest => ?_
  · -- a name starts with a letter, and a selection does not
    rintro c _ rest ⟨m, _, ⟨word, hw, -, hs, -⟩, -⟩
    obtain ⟨x, xs, rfl, hx, -⟩ := exists_cons_of_isIdentifier hw
    refine bind_of_none (literalReader_eq_none (y := '\\') rfl ?_)
    rw [ahead_eq_dropWhile, hs]
    intro he
    cases he
    cases hx
  · constructor
    · rintro (⟨-, params, ho, c, next, hc, m, _, hn, rfl, rfl⟩ | ⟨m, _, hn, rfl, rfl⟩)
      · exact .selected ho hc hn
      · exact .relation hn
    · intro h
      cases h with
      | relation hn => exact .inr ⟨_, rest, hn, rfl, rfl⟩
      | selected ho hc hn => exact .inl ⟨(), _, ho, _, _, hc, _, rest, hn, rfl, rfl⟩

/-! ## Declarations -/

/-- The symbol of a dependency. -/
def Dependency.symbol : Dependency → Symbol
  | key .. => .primaryKey
  | pair kind .. => kind.symbol
  | inclusion kind .. => kind.symbol

/-- The declaration stands for the dependency. -/
inductive Surface.Declaration.States : Declaration → Dependency → Prop where
  | key {attributes : List String} {relation : String} (ha : ∀ n ∈ attributes, isName n = true)
      (hn : isName relation = true) :
      States (.key (Lexicon.usual .primaryKey) attributes relation) (.key attributes relation)
  | pair (kind : PairDependency) (left right : String) {side : Side} {subject : Subject} (h : side.IsWritten subject.term) :
      States (.between (Lexicon.usual kind.symbol) left right side) (.pair kind left right subject)
  | inclusion (kind : Inclusion) (left right : String) {l r : Side} {first second : Subject} (hl : l.IsWritten first.term)
      (hr : r.IsWritten second.term) :
      States (.inclusion (Lexicon.usual kind.symbol) left right l r) (.inclusion kind left right first second)

/-- The text starts with the dependency, which has one of the symbols. -/
def WritesAmong (symbols : List Symbol) (d : Dependency) (text rest : List Char) : Prop :=
  d.symbol ∈ symbols ∧ d.Writes text rest

/-- A key is read just where one is written. -/
theorem realizes_key : (Declaration.keyReader .standard).Realizes Declaration.States (WritesAmong [.primaryKey]) := by
  refine ((realizes_literal .primaryKey).bind fun op _ ho => realizes_names.bind fun ns ms hm => realizes_name.bind fun n m hn =>
    .pure (b := Dependency.key ms m) (by rw [ho, ← hm.1, ← hn.1]; exact .key hm.2 hn.2)).congr fun d text rest => ?_
  constructor
  · rintro ⟨-, params, ho, ms, next, ha, m, _, hn, rfl, rfl⟩
    exact ⟨List.mem_singleton_self _, .key ho ha hn⟩
  · rintro ⟨hs, h⟩
    cases h with
    | key ho ha hn => exact ⟨(), _, ho, _, _, ha, _, rest, hn, rfl, rfl⟩
    | @pair kind => cases kind <;> cases List.mem_singleton.mp hs
    | @inclusion kind => cases kind <;> cases List.mem_singleton.mp hs

/-- The attributes and the side of a dependency stand for its attributes and its subject. -/
def SameSide (x : String × String × Side) (y : String × String × Subject) : Prop :=
  x.1 = y.1 ∧ x.2.1 = y.2.1 ∧ x.2.2.IsWritten y.2.2.term

/-- The attributes and the side of a dependency are read just where they are written. -/
theorem realizes_pair : (pairReader .dependency .standard).Realizes SameSide fun y text rest =>
    ∃ next, Braced (NamedAll [y.1, y.2.1]) text next ∧ y.2.2.Writes next rest := by
  refine (realizes_attributePair.bind fun p q hp => realizes_side.bind fun side subject hs =>
    .pure (b := (q.1, q.2, subject)) ⟨by rw [hp], by rw [hp], hs⟩).congr fun y text rest => ?_
  constructor
  · rintro ⟨q, next, ha, subject, _, hs, rfl, rfl⟩
    exact ⟨next, ha, hs⟩
  · rintro ⟨next, ha, hs⟩
    exact ⟨(y.1, y.2.1), next, ha, y.2.2, rest, hs, rfl, rfl⟩

/-- A dependency between two attributes is read just where one of its kind is written. -/
theorem realizes_between (kind : PairDependency) :
    (Declaration.betweenReader .dependency .standard kind.symbol).Realizes Declaration.States (WritesAmong [kind.symbol]) := by
  refine ((realizes_literal kind.symbol).bind fun op _ ho => realizes_pair.bind fun x y h =>
    .pure (b := Dependency.pair kind y.1 y.2.1 y.2.2) (by rw [ho, h.1, h.2.1]; exact .pair kind _ _ h.2.2)).congr
      fun d text rest => ?_
  constructor
  · rintro ⟨-, params, ho, y, _, ⟨next, ha, hs⟩, rfl, rfl⟩
    exact ⟨List.mem_singleton_self _, .pair ho ha hs⟩
  · rintro ⟨hm, h⟩
    cases h with
    | key => cases kind <;> cases List.mem_singleton.mp hm
    | @pair kind' left right subject _ params next _ ho ha hs =>
      obtain rfl := PairDependency.symbol_injective (List.mem_singleton.mp hm)
      exact ⟨(), params, ho, (left, right, subject), rest, ⟨next, ha, hs⟩, rfl, rfl⟩
    | @inclusion kind' => cases kind <;> cases kind' <;> cases List.mem_singleton.mp hm

/-- What can be read anywhere can be read between parentheses. -/
theorem Reader.Realizes.parenthesized {α β : Type} {p : Reader α} {M : α → β → Prop} {R : β → List Char → List Char → Prop}
    (h : p.Realizes M R) : (parenthesized .standard p).Realizes M fun b text rest =>
      ∃ inner closing, Marked .parenLeft text inner ∧ R b inner closing ∧ Marked .parenRight closing rest := by
  refine ((realizes_mark .parenLeft).bind fun _ _ _ => h.bind fun a b hM => (realizes_mark .parenRight).bind fun _ _ _ =>
    .pure hM).congr fun b text rest => ?_
  constructor
  · rintro ⟨-, inner, hl, _, closing, hR, -, _, hr, rfl, rfl⟩
    exact ⟨inner, closing, hl, hR, hr⟩
  · rintro ⟨inner, closing, hl, hR, hr⟩
    exact ⟨(), inner, hl, b, closing, hR, (), rest, hr, rfl, rfl⟩

/-- The attributes and the sides of an inclusion stand for its attributes and its subjects. -/
def SameSides (x : String × String × Side × Side) (y : String × String × Subject × Subject) : Prop :=
  x.1 = y.1 ∧ x.2.1 = y.2.1 ∧ x.2.2.1.IsWritten y.2.2.1.term ∧ x.2.2.2.IsWritten y.2.2.2.term

/-- The attributes and the sides of an inclusion are read just where they are written. -/
theorem realizes_sides : (Surface.inclusionReader .dependency .standard).Realizes SameSides fun y text rest =>
    ∃ opening inner between next closing, Braced (NamedAll [y.1, y.2.1]) text opening ∧ Marked .parenLeft opening inner ∧
      y.2.2.1.Writes inner between ∧ Marked .delimiter between next ∧ y.2.2.2.Writes next closing ∧
      Marked .parenRight closing rest := by
  have hboth := realizes_side.bind fun l first hl => (realizes_mark .delimiter).bind fun _ _ _ =>
    realizes_side.bind fun r second hr => Realizes.pure (M := fun (x : Side × Side) (y : Subject × Subject) =>
      x.1.IsWritten y.1.term ∧ x.2.IsWritten y.2.term) (a := (l, r)) (b := (first, second)) ⟨hl, hr⟩
  refine (realizes_attributePair.bind fun p q hp => hboth.parenthesized.bind fun x y h =>
    .pure (b := (q.1, q.2, y.1, y.2)) ⟨by rw [hp], by rw [hp], h⟩).congr fun y text rest => ?_
  constructor
  · rintro ⟨q, opening, ha, _, _, ⟨inner, closing, hl, ⟨first, between, hf, -, next, hd, second, _, hs, rfl, rfl⟩, hr⟩, rfl, rfl⟩
    exact ⟨opening, inner, between, next, _, ha, hl, hf, hd, hs, hr⟩
  · rintro ⟨opening, inner, between, next, closing, ha, hl, hf, hd, hs, hr⟩
    exact ⟨(y.1, y.2.1), opening, ha, y.2.2, rest, ⟨inner, closing, hl, ⟨y.2.2.1, between, hf, (), next, hd, y.2.2.2, closing, hs,
      rfl, rfl⟩, hr⟩, rfl, rfl⟩

/-- An inclusion is read just where one of its kind is written. -/
theorem realizes_inclusion (kind : Inclusion) :
    (Declaration.inclusionReader .dependency .standard kind.symbol).Realizes Declaration.States
      (WritesAmong [kind.symbol]) := by
  refine ((realizes_literal kind.symbol).bind fun op _ ho => realizes_sides.bind fun x y h =>
    .pure (b := Dependency.inclusion kind y.1 y.2.1 y.2.2.1 y.2.2.2)
      (by rw [ho, h.1, h.2.1]; exact .inclusion kind _ _ h.2.2.1 h.2.2.2)).congr fun d text rest => ?_
  constructor
  · rintro ⟨-, params, ho, y, _, ⟨opening, inner, between, next, closing, ha, hl, hf, hd, hs, hr⟩, rfl, rfl⟩
    exact ⟨List.mem_singleton_self _, .inclusion ho ha hl hf hd hs hr⟩
  · rintro ⟨hm, h⟩
    cases h with
    | key => cases kind <;> cases List.mem_singleton.mp hm
    | @pair kind' => cases kind <;> cases kind' <;> cases List.mem_singleton.mp hm
    | @inclusion kind' left right first second _ params opening inner between next closing _ ho ha hl hf hd hs hr =>
      obtain rfl := Inclusion.symbol_injective (List.mem_singleton.mp hm)
      exact ⟨(), params, ho, (left, right, first, second), rest,
        ⟨opening, inner, between, next, closing, ha, hl, hf, hd, hs, hr⟩, rfl, rfl⟩

/-- Every dependency has one of the dependency symbols. -/
theorem Dependency.symbol_mem (d : Dependency) : d.symbol ∈ Symbol.dependencies := by
  cases d with
  | key => exact List.mem_cons_self
  | pair kind => cases kind <;> simp [symbol, PairDependency.symbol, Symbol.dependencies]
  | inclusion kind => cases kind <;> simp [symbol, Inclusion.symbol, Symbol.dependencies]

/-- A dependency starts with its symbol. -/
theorem Dependency.Writes.marked {d : Dependency} {text rest : List Char} (h : d.Writes text rest) :
    ∃ params, Marked d.symbol text params := by
  cases h with
  | key ho | pair ho | inclusion ho => exact ⟨_, ho⟩

/-- No symbol of a dependency is read where a dependency with another one is written. -/
theorem Dependency.Writes.refused {d : Dependency} {c : Cursor} {rest : List Char} (h : d.Writes c.rest rest) {s : Symbol}
    (hs : s ∈ Symbol.dependencies) (hne : d.symbol ≠ s) : literalReader .standard s c = none := by
  have hapart : ∀ s ∈ Symbol.dependencies, ∀ t ∈ Symbol.dependencies, (Lexicon.usual s).toList <+: (Lexicon.usual t).toList →
      s = t := by decide
  obtain ⟨params, hm⟩ := h.marked
  cases hr : literalReader .standard s c with
  | none => rfl
  | some r =>
    -- of two symbols that a text starts with one would start with the other
    obtain ⟨_, _, hm'⟩ := (realizes_literal s).finds ⟨r.2, hr, rfl⟩
    rw [marked_iff] at hm hm'
    have hp : (Lexicon.usual s).toList <+: c.ahead := ⟨_, hm'.symm⟩
    have hq : (Lexicon.usual d.symbol).toList <+: c.ahead := ⟨_, hm.symm⟩
    rcases List.prefix_or_prefix_of_prefix hp hq with h | h
    · exact absurd (hapart _ hs _ d.symbol_mem h).symm hne
    · exact absurd (hapart _ d.symbol_mem _ hs h) hne

/-- One more kind of dependency is read in front of others. -/
theorem realizes_further {s : Symbol} {symbols : List Symbol} {f : String → Reader Declaration} {q : Reader Declaration}
    (hs : s ∈ Symbol.dependencies) (hn : s ∉ symbols)
    (hp : (literalReader .standard s >>= f).Realizes Declaration.States (WritesAmong [s]))
    (hq : q.Realizes Declaration.States (WritesAmong symbols)) :
    (literalReader .standard s >>= f <|> q).Realizes Declaration.States (WritesAmong (s :: symbols)) := by
  refine (hp.orElse hq ?_).congr fun d text rest => ?_
  · rintro c d rest ⟨hm, h⟩
    exact bind_of_none (h.refused hs fun he => hn (he ▸ hm))
  · rw [WritesAmong, WritesAmong, WritesAmong, List.mem_singleton, List.mem_cons, or_and_right]

/-- Nothing is read where no symbol is allowed. -/
theorem realizes_nothing : (failure : Reader Declaration).Realizes Declaration.States (WritesAmong []) where
  reads h := absurd h.1 List.not_mem_nil
  finds h := by
    obtain ⟨_, h, -⟩ := h
    cases h

/-- What is written as a dependency is read as a declaration that stands for it, and nothing else is. -/
theorem realizes_declaration :
    (Declaration.reader .dependency .standard).Realizes Declaration.States Dependency.Writes := by
  have h := realizes_further (by decide) (by decide) realizes_key <|
    realizes_further (by decide) (by decide) (realizes_between .multivalued) <|
    realizes_further (by decide) (by decide) (realizes_between .functional) <|
    realizes_further (by decide) (by decide) (realizes_inclusion .equivalence) <|
    realizes_further (by decide) (by decide) (realizes_inclusion .subsumption) realizes_nothing
  exact h.congr fun d text rest => ⟨And.right, fun hd => ⟨d.symbol_mem, hd⟩⟩

end RelAlg
