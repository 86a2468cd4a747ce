import RelAlg.Proofs.Drawing.Chunks
import RelAlg.Proofs.Program

/-!
# Dependencies of texts without quotes

In a text without quotes a dependency has names, and its conditions compare words (`Dependency.IsWorded`): what stands behind
any part of the text has no quotes either, so every part can be looked at by itself. The label of such a dependency is clear
(`Dependency.isClear`), and with it every node of the text (`isClear_of_text`).
-/

namespace RelAlg

open Cursor Reader Surface Build

/-- The relation has a name, and the condition of the selection on it compares words. -/
def Subject.IsWorded (s : Subject) : Prop :=
  isName s.relation = true ∧ ∀ c, s.condition = some c → ∀ o ∈ c.operands, isWord o = true

/-- The dependency has names, and its conditions compare words. -/
def Dependency.IsWorded : Dependency → Prop
  | key attributes relation => (∀ n ∈ attributes, isName n = true) ∧ isName relation = true
  | pair _ left right subject => (isName left = true ∧ isName right = true) ∧ subject.IsWorded
  | inclusion _ left right first second => (isName left = true ∧ isName right = true) ∧ first.IsWorded ∧ second.IsWorded

/-! ## Parts of a text -/

section

variable {text rest : List Char} {n : String} {ns : List String} {s : Symbol}

/-- Behind a word of a text without quotes there are none. -/
theorem Spaced.unquoted {word : List Char} (h : Spaced word text rest) (ht : IsUnquoted text) : IsUnquoted rest := by
  intro c hc
  have hmem : c ∈ text.dropWhile isBlank := h ▸ List.mem_append_right word hc
  exact ht c ((List.dropWhile_sublist _).subset hmem)

/-- Behind a mark of a text without quotes there are none. -/
theorem Marked.unquoted (h : Marked s text rest) (ht : IsUnquoted text) : IsUnquoted rest := Spaced.unquoted h ht

/-- Behind a name of a text without quotes there are none. -/
theorem Named.unquoted (h : Named n text rest) (ht : IsUnquoted text) : IsUnquoted rest := by
  obtain ⟨word, -, -, hs, -⟩ := h
  exact hs.unquoted ht

/-- What is written as a name is one. -/
theorem Named.isName (h : Named n text rest) : isName n = true := by
  obtain ⟨n, -, rfl, hn⟩ := realizes_name.reads (c := Cursor.start text) h
  exact hn

/-- Behind names of a text without quotes there are none. -/
theorem NamedAll.unquoted (h : NamedAll ns text rest) (ht : IsUnquoted text) : IsUnquoted rest := by
  induction h with
  | single h => exact h.unquoted ht
  | cons h hd _ ih => exact ih (hd.unquoted (h.unquoted ht))

/-- What is written as names are names. -/
theorem NamedAll.isName (h : NamedAll ns text rest) : ∀ m ∈ ns, isName m = true := by
  obtain ⟨_, _, _, _, -, -, -, -, hn⟩ := h.runs (c := Cursor.start text) rfl
  exact hn

/-- What is known of the text between the marks for parameters, and that it has no quotes behind it. -/
theorem Braced.unquoted {R : List Char → List Char → Prop} {P : Prop} (h : Braced R text rest) (ht : IsUnquoted text)
    (hR : ∀ inner last, R inner last → IsUnquoted inner → P ∧ IsUnquoted last) : P ∧ IsUnquoted rest := by
  obtain ⟨inner, last, rfl, hi, hm⟩ := h
  obtain ⟨hp, hl⟩ := hR inner last hi fun c hc => ht c (List.mem_append_right _ hc)
  exact ⟨hp, hm.unquoted hl⟩

/-- Names between braces are names, and there are no quotes behind them if there were none before. -/
theorem Braced.isName (h : Braced (NamedAll ns) text rest) (ht : IsUnquoted text) :
    (∀ m ∈ ns, isName m = true) ∧ IsUnquoted rest :=
  h.unquoted ht fun _ _ hn hi => ⟨hn.isName, hn.unquoted hi⟩

end

/-- A condition that is read off a text without quotes compares words, and the text behind it has no quotes either. -/
theorem Condition.Reads.unquoted {c : Condition} {text rest : List Char} (h : c.Reads text rest) (ht : IsUnquoted text) :
    (∀ o ∈ c.operands, isWord o = true) ∧ IsUnquoted rest := by
  obtain ⟨clause, ⟨e, he, rfl⟩, hd⟩ := h
  let F := TokenFrame.ofMatching Matching.unquoted 0
  let G := F.usual.telling (χ := fun o => isWord o.text = true) fun ws c d o c' hcd hr => isWord_of_reader hcd.text.2 hr
  have hclause : Records 1 G.here G.later G.SameClause Clause.words (Clause.reader .extended .standard)
      (Clause.reader .extended .standard) := G.clause
  cases hclause [] (Cursor.start text) (Cursor.start text) (F.here_of_later _ _ ⟨⟨rfl, ht⟩, rfl, .refl _⟩) with
  | refuse hn _ =>
    rw [he] at hn
    cases hn
  | read hr _ halike hrest _ _ =>
    rw [he] at hr
    cases hr
    refine ⟨fun o ho => ?_, hrest.text.2⟩
    rw [hd.operands_eq] at ho
    obtain ⟨p, hp, rfl⟩ := List.mem_map.mp ho
    exact halike.2 p hp

/-! ## Items -/

/-- A subject in a text without quotes has words only, and there are no quotes behind it. -/
theorem Subject.Writes.unquoted {s : Subject} {text rest : List Char} (h : s.Writes text rest) (ht : IsUnquoted text) :
    s.IsWorded ∧ IsUnquoted rest := by
  cases h with
  | relation hn => exact ⟨⟨hn.isName, fun _ hc => by cases hc⟩, hn.unquoted ht⟩
  | selected ho hc hn =>
    obtain ⟨hwords, hnext⟩ := hc.unquoted (ho.unquoted ht) fun _ _ hr hi => hr.unquoted hi
    refine ⟨⟨hn.isName, ?_⟩, hn.unquoted hnext⟩
    rintro _ ⟨⟩
    exact hwords

/-- A dependency in a text without quotes has words only, and there are no quotes behind it. -/
theorem Dependency.Writes.unquoted {d : Dependency} {text rest : List Char} (h : d.Writes text rest) (ht : IsUnquoted text) :
    d.IsWorded ∧ IsUnquoted rest := by
  cases h with
  | key ho ha hn =>
    obtain ⟨hnames, hnext⟩ := ha.isName (ho.unquoted ht)
    exact ⟨⟨hnames, hn.isName⟩, hn.unquoted hnext⟩
  | pair ho ha hs =>
    obtain ⟨hnames, hnext⟩ := ha.isName (ho.unquoted ht)
    obtain ⟨hsubject, hrest⟩ := hs.unquoted hnext
    exact ⟨⟨by simpa using hnames, hsubject⟩, hrest⟩
  | inclusion ho ha hl hf hd hs hr =>
    obtain ⟨hnames, hnext⟩ := ha.isName (ho.unquoted ht)
    obtain ⟨hfirst, hbetween⟩ := hf.unquoted (hl.unquoted hnext)
    obtain ⟨hsecond, hclosing⟩ := hs.unquoted (hd.unquoted hbetween)
    exact ⟨⟨by simpa using hnames, hfirst, hsecond⟩, hr.unquoted hclosing⟩

/-- The dependencies among items that are written without quotes are worded. -/
theorem Item.WritesAll.isWorded {items : List Item} {text : List Char} (h : WritesAll items text) (ht : IsUnquoted text) :
    ∀ d, .dependency d ∈ items → d.IsWorded := by
  induction h with
  | nil => exact fun d hd => absurd hd List.not_mem_nil
  | cons h _ ih =>
    cases h with
    | dependency hd he =>
      obtain ⟨hworded, hnext⟩ := hd.unquoted ht
      intro d hmem
      rcases List.mem_cons.mp hmem with hmem | hmem
      · cases hmem
        exact hworded
      · exact ih (he.unquoted hnext) d hmem
    | algebra hs =>
      obtain ⟨c', hs, rfl⟩ := hs
      obtain ⟨-, hrest⟩ := over_isWord_of_statement ht hs
      intro d hmem
      rcases List.mem_cons.mp hmem with hmem | hmem
      · cases hmem
      · exact ih hrest d hmem

/-! ## Labels -/

/-- What is drawn of the relation of a dependency, or of the selection on it, can stand in a label. -/
theorem Subject.isLabel_sideChunks {s : Subject} (hw : s.IsWorded) {schema : Schema} {n : Node} (h : s.node schema = .ok n) :
    ∀ k ∈ n.sideChunks, k.isLabel = true := by
  have hname : (Chunk.plain (n.name.getD "None")).isLabel = true := by
    rw [s.name_of_node h]
    exact Chunk.isLabel_plain (isWord_of_isName hw.1)
  obtain ⟨base, hb, h⟩ := exists_ok_of_bind h
  obtain ⟨_ | c, relation⟩ := s
  · obtain ⟨names, -, hb⟩ := exists_ok_of_bind hb
    cases hb
    cases h
    exact List.forall_mem_singleton.mpr hname
  · obtain ⟨attributes, -, h⟩ := exists_ok_of_bind h
    obtain ⟨_, -, h⟩ := exists_ok_of_bind h
    cases h
    have hc : ∀ k ∈ Chunk.withIndex "\\sigma" c.chunks, k.isLabel = true :=
      Chunk.isLabel_withIndex (by decide) (Condition.isLabel_chunks (hw.2 c rfl))
    simp only [Node.sideChunks, List.forall_mem_append, List.forall_mem_cons]
    exact ⟨hc, by decide, hname, by decide, List.forall_mem_nil _⟩

theorem pairChunks_words (left right : String) (mark : Option Nat) (label : Chunk → Chunk → List Chunk) :
    Node.pairChunks ⟨Phrase.words [left, right], mark⟩ label = label (.plain left) (.plain right) := rfl

/-- The label of a dependency with names, whose conditions compare words, is clear. -/
theorem Dependency.isClear {d : Dependency} (hw : d.IsWorded) {schema : Schema} {mark : Nat} {n : Node}
    (h : d.node schema mark = .ok n) : n.IsClear := by
  have hplain : ∀ {name}, isName name = true → (Chunk.plain name).isLabel = true :=
    fun hn => Chunk.isLabel_plain (isWord_of_isName hn)
  cases d with
  | key attributes relation =>
    cases h
    refine .node ?_ (List.forall_mem_nil _)
    simp only [Node.captionChunks, List.forall_mem_append, List.forall_mem_cons]
    refine ⟨⟨by decide, hplain hw.2, by decide, ?_⟩, by decide, List.forall_mem_nil _⟩
    have hitems : (Listing.mk (Phrase.words attributes) (some mark)).items.filterMap Phrase.text? = attributes :=
      Node.filterMap_text?_of_mapM (mapM_text?_words attributes)
    rw [hitems]
    exact Chunk.isLabel_ofNames hw.1
  | pair kind left right subject =>
    obtain ⟨⟨hl, hr⟩, hs⟩ := hw
    obtain ⟨child, hchild, h⟩ := exists_ok_of_bind h
    cases h
    have hside := Subject.isLabel_sideChunks hs hchild
    refine .node ?_ (List.forall_mem_nil _)
    simp only [Node.captionChunks, pairChunks_words, List.forall_mem_append, List.forall_mem_cons]
    exact ⟨hside, by decide, hplain hl, by cases kind <;> decide, hplain hr, List.forall_mem_nil _⟩
  | inclusion kind left right first second =>
    obtain ⟨⟨hl, hr⟩, hf, hs⟩ := hw
    obtain ⟨m, hm, h⟩ := exists_ok_of_bind h
    obtain ⟨k, hk, h⟩ := exists_ok_of_bind h
    cases h
    have hleft := Subject.isLabel_sideChunks hf hm
    have hright := Subject.isLabel_sideChunks hs hk
    refine .node ?_ (List.forall_mem_nil _)
    simp only [Node.captionChunks, pairChunks_words, List.forall_mem_append, List.forall_mem_cons]
    exact ⟨⟨⟨hleft, by decide, hplain hl, by cases kind <;> decide, List.forall_mem_nil _⟩, hright⟩, by decide, hplain hr,
      by decide, List.forall_mem_nil _⟩

/-! ## Texts -/

/-- The nodes of worded dependencies among the items are clear. -/
theorem Item.Makes.isClear {schema : Schema} {mark : Nat} {items : List Item} {ns : List Node} (h : Makes schema mark items ns)
    (hw : ∀ d, .dependency d ∈ items → d.IsWorded) : ∀ n ∈ ns, n.isDeclaration = true → n.IsClear := by
  induction h with
  | nil => exact List.forall_mem_nil _
  | dependency h _ ih =>
    have hrest := ih fun d hd => hw d (List.mem_cons_of_mem _ hd)
    exact List.forall_mem_cons.mpr ⟨fun _ => Dependency.isClear (hw _ List.mem_cons_self) h, hrest⟩
  | algebra _ h _ ih =>
    have hrest := ih fun d hd => hw d (List.mem_cons_of_mem _ hd)
    refine List.forall_mem_cons.mpr ⟨fun hd => ?_, hrest⟩
    rw [h] at hd
    cases hd

/-- Every statement of a text without quotes is clear, whether it is one of the algebra or a dependency. -/
theorem isClear_of_text {level : Level} {definition : List (String × List String)}
    (hd : ∀ e ∈ definition, ∀ n ∈ e.2, isIdentifier n = true) {text : String} (ht : IsUnquoted text.toList) {ns : List Node}
    (h : forest level .standard (.ofDefinition definition) text = .ok ns) : ∀ n ∈ ns, n.IsClear := by
  have hdeclared : ∀ n ∈ ns, n.isDeclaration = true → n.IsClear := by
    obtain ⟨ss, w, hp, hn⟩ := nodes_of_forest h
    cases hl : level.includes .dependency with
    | false =>
      intro n hmem hdecl
      obtain ⟨s, hs, _, _, hw, ho⟩ := (inTurn_of_parse hp hn).exists_statement n hmem
      rw [(mark_of_statement hw ho).2, isAlgebra_of_parse hl hp s hs] at hdecl
      cases hdecl
    | true =>
      have hlevel : level = .dependency := by
        cases level with
        | dependency => rfl
        | _ => cases hl
      subst hlevel
      obtain ⟨items, hprogram, hmeans⟩ := exists_program_of_parse hp
      have hmakes := makes_of_means hmeans (Schema.isSmall_ofDefinition definition) hn
      exact hmakes.isClear (hprogram.2.isWorded (ht.expandTabs 0))
  intro n hmem
  cases hdecl : n.isDeclaration with
  | false => exact isClear_of_forest hd ht h n hmem hdecl
  | true => exact hdeclared n hmem hdecl

end RelAlg
