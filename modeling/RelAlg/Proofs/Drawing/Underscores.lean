import RelAlg.Proofs.Drawing.Dependencies
import RelAlg.Proofs.Drawing.Trees

/-!
# Underscores of drawings

An underscore in a drawing belongs to one chunk of its text (`exists_at`), and what stands around it tells which kind of chunk
this is: in the name of a relation there is a backslash in front of it, behind the symbol of an operator there is a brace behind
it, and in all other names and operands there is neither (`underscores_of_drawings`). So a name is escaped only where it is the
name of a relation in a tree. Names of attributes, operands of conditions and all names in a dependency are not.
-/

namespace RelAlg

namespace Chunk

variable {ks : List Chunk} {k : Chunk} {before after left right : List Char} {name symbol text : String}

/-- The chunk is one of a row of chunks, and has an underscore with these characters of the row before and after it. -/
def At (ks : List Chunk) (k : Chunk) (before after : List Char) : Prop :=
  ∃ ls rs left right, ks = ls ++ k :: rs ∧ k.chars = left ++ '_' :: right ∧ before = charsAll ls ++ left ∧
    after = right ++ charsAll rs

/-- A chunk at which there is an underscore is one of the row and has one. -/
theorem At.mem (h : At ks k before after) : k ∈ ks ∧ '_' ∈ k.chars := by
  obtain ⟨ls, rs, left, right, rfl, hk, -⟩ := h
  rw [hk]
  exact ⟨List.mem_append_right ls List.mem_cons_self, List.mem_append_right left List.mem_cons_self⟩

/-- Every underscore belongs to a chunk. -/
theorem exists_at (h : charsAll ks = before ++ '_' :: after) : ∃ k, At ks k before after := by
  induction ks generalizing before with
  | nil => exact absurd h.symm (List.append_ne_nil_of_right_ne_nil before (List.cons_ne_nil _ _))
  | cons k ks ih =>
    have hlater : ∀ rest, before = k.chars ++ rest → charsAll ks = rest ++ '_' :: after → ∃ l, At (k :: ks) l before after := by
      rintro rest rfl hr
      obtain ⟨l, ls, rs, left, right, rfl, hl, rfl, rfl⟩ := ih hr
      exact ⟨l, k :: ls, rs, left, right, rfl, hl, by simp, rfl⟩
    rw [charsAll_cons, List.append_eq_append_iff] at h
    rcases h with ⟨rest, hb, hr⟩ | ⟨rest, hk, hr⟩
    · exact hlater rest hb hr
    · cases rest with
      | nil => exact hlater [] (by simpa using hk.symm) hr.symm
      | cons c right =>
        obtain ⟨rfl, rfl⟩ := List.cons.inj hr
        exact ⟨k, [], ks, before, right, rfl, hk, rfl, rfl⟩

/-! ## Escaped names -/

/-- In front of an underscore of an escaped name there is a backslash. -/
theorem getLast?_of_escaped {cs : List Char}
    (h : (cs.flatMap fun c => if c = '_' then ['\\', '_'] else [c]) = left ++ '_' :: right) : left.getLast? = some '\\' := by
  suffices ∃ init, left = init ++ ['\\'] by
    obtain ⟨init, rfl⟩ := this
    exact List.getLast?_concat
  induction cs generalizing left with
  | nil => exact absurd h.symm (List.append_ne_nil_of_right_ne_nil left (List.cons_ne_nil _ _))
  | cons c cs ih =>
    rw [List.flatMap_cons] at h
    by_cases hc : c = '_'
    · -- the first underscore is the one that was just escaped; all others are further on
      rw [if_pos hc] at h
      rcases left with _ | ⟨a, _ | ⟨b, left⟩⟩
      · exact absurd (List.cons.inj h).1 (by decide)
      · obtain ⟨rfl, -⟩ := List.cons.inj h
        exact ⟨[], rfl⟩
      · obtain ⟨init, rfl⟩ := ih (List.cons.inj (List.cons.inj h).2).2
        exact ⟨a :: b :: init, rfl⟩
    · rw [if_neg hc] at h
      cases left with
      | nil => exact absurd (List.cons.inj h).1 hc
      | cons a left =>
        obtain ⟨init, rfl⟩ := ih (List.cons.inj h).2
        exact ⟨a :: init, rfl⟩

/-- An escaped name ends as the name does. -/
theorem getLast?_escapedName (name : String) : (escapedName (some name)).toList.getLast? = name.toList.getLast? := by
  rw [escapedName, String.toList_ofList, Option.getD_some]
  rcases List.eq_nil_or_concat' name.toList with hn | ⟨init, c, hn⟩
  · rw [hn]
    rfl
  · rw [hn, List.flatMap_append, List.flatMap_singleton, List.getLast?_append, List.getLast?_concat]
    split <;> simp_all

/-! ## Edges -/

/-- No sound chunk starts with an opening brace. -/
theorem head?_chars (h : k.isSound = true) : k.chars.head? ≠ some '\x7b' := by
  cases k with
  | fixed text =>
    simp only [isSound, Bool.and_eq_true, decide_eq_true_eq] at h
    exact h.1.2
  | index symbol =>
    have hall : ∀ s ∈ indexSymbols, (index s).chars.head? ≠ some '\x7b' := by decide
    exact hall symbol (List.contains_iff_mem.mp h)
  | relation name => exact fun hh => not_mem_escapedName h (by decide) (by decide) (List.mem_of_head? hh)
  | plain name => exact fun hh => not_mem_of_isWord h (by decide) (List.mem_of_head? hh)

/-- No sound chunk ends with a backslash. -/
theorem getLast?_chars (h : k.isSound = true) : k.chars.getLast? ≠ some '\\' := by
  cases k with
  | fixed text =>
    simp only [isSound, Bool.and_eq_true, decide_eq_true_eq] at h
    exact h.2
  | index symbol => simp [chars]
  | relation name =>
    rw [chars, getLast?_escapedName]
    exact fun hl => not_mem_of_isWord h (by decide) (List.mem_of_getLast? hl)
  | plain name => exact fun hl => not_mem_of_isWord h (by decide) (List.mem_of_getLast? hl)

theorem or_ne_some {a b : Option Char} {c : Char} (ha : a ≠ some c) (hb : b ≠ some c) : a.or b ≠ some c := by
  cases a with
  | none => exact hb
  | some x => exact ha

/-- Sound chunks do not begin with a brace. -/
theorem head?_append_charsAll (hs : ∀ k ∈ ks, k.isSound = true) (h : right.head? ≠ some '\x7b') :
    (right ++ charsAll ks).head? ≠ some '\x7b' := by
  induction ks generalizing right with
  | nil => rwa [charsAll_nil, List.append_nil]
  | cons k ks ih =>
    rw [List.forall_mem_cons] at hs
    rw [charsAll_cons, ← List.append_assoc]
    refine ih hs.2 ?_
    rw [List.head?_append]
    exact or_ne_some h (head?_chars hs.1)

/-- Sound chunks do not end with a backslash. -/
theorem getLast?_charsAll_append (hs : ∀ k ∈ ks, k.isSound = true) (h : left.getLast? ≠ some '\\') :
    (charsAll ks ++ left).getLast? ≠ some '\\' := by
  rw [List.getLast?_append]
  refine or_ne_some h ?_
  induction ks with
  | nil => simp
  | cons k ks ih =>
    rw [List.forall_mem_cons] at hs
    rw [charsAll_cons, List.getLast?_append]
    exact or_ne_some (ih hs.2) (getLast?_chars hs.1)

/-! ## Surroundings of an underscore -/

section

variable (hs : ∀ k ∈ ks, k.isSound = true)
include hs

/-- What belongs to the form of a drawing has no underscore. -/
theorem At.not_fixed : ¬ At ks (fixed text) before after := by
  intro h
  have hsound := hs _ h.mem.1
  simp only [isSound, Bool.and_eq_true, List.all_eq_true, decide_eq_true_eq] at hsound
  exact hsound.1.1 '_' h.mem.2 rfl

/-- In the name of a relation an underscore has a backslash before it, and no brace behind it. -/
theorem At.of_relation (h : At ks (relation name) before after) :
    before.getLast? = some '\\' ∧ after.head? ≠ some '\x7b' := by
  have hw : isWord name = true := hs _ h.mem.1
  obtain ⟨ls, rs, left, right, rfl, hk, rfl, rfl⟩ := h
  rw [List.forall_mem_append, List.forall_mem_cons] at hs
  constructor
  · rw [chars, escapedName, String.toList_ofList] at hk
    rw [List.getLast?_append, getLast?_of_escaped hk, Option.some_or]
  · refine head?_append_charsAll hs.2.2 fun hh => ?_
    have hmem : '\x7b' ∈ (relation name).chars := hk ▸ by simp [List.mem_of_head? hh]
    exact not_mem_escapedName hw (by decide) (by decide) hmem

/-- Behind the symbol of an operator an underscore has the symbol before it and a brace behind it. -/
theorem At.of_index (h : At ks (index symbol) before after) : symbol ∈ indexSymbols ∧ symbol.toList <:+ before ∧
    after.head? = some '\x7b' := by
  have hi : symbol ∈ indexSymbols := List.contains_iff_mem.mp (hs _ h.mem.1)
  have hall : ∀ s ∈ indexSymbols, '_' ∉ s.toList := by decide
  obtain ⟨ls, rs, left, right, rfl, hk, rfl, rfl⟩ := h
  -- the symbol has no underscore, so this is the one behind it
  obtain ⟨rfl, -, rfl⟩ := (List.append_cons_inj_of_notMem (hall symbol hi) (by decide)).mp hk
  exact ⟨hi, List.suffix_append _ _, rfl⟩

/-- In all other names an underscore has neither a backslash before it nor a brace behind it. -/
theorem At.of_plain (h : At ks (plain name) before after) :
    before.getLast? ≠ some '\\' ∧ after.head? ≠ some '\x7b' := by
  have hw : isWord name = true := hs _ h.mem.1
  obtain ⟨ls, rs, left, right, rfl, hk, rfl, rfl⟩ := h
  have hmem : ∀ c, isWordChar c = false → c ∉ left ++ '_' :: right := fun c hc => hk ▸ not_mem_of_isWord hw hc
  rw [List.forall_mem_append, List.forall_mem_cons] at hs
  constructor
  · refine getLast?_charsAll_append hs.1 fun hl => hmem '\\' (by decide) ?_
    exact List.mem_append_left _ (List.mem_of_getLast? hl)
  · refine head?_append_charsAll hs.2.2 fun hh => hmem '\x7b' (by decide) ?_
    exact List.mem_append_right _ (List.mem_cons_of_mem _ (List.mem_of_head? hh))

end

/-- The underscore with these characters of the chunks before and after it is of one of three kinds, which its surroundings tell
apart. -/
inductive Underscore (ks : List Chunk) (before after : List Char) : Prop where
  /-- It belongs to the name of a relation in the tree, and a backslash is in front of it. -/
  | escaped (name : String) (h : At ks (relation name) before after) (hb : before.getLast? = some '\\')
      (ha : after.head? ≠ some '\x7b')
  /-- It stands between the symbol of an operator and a brace. -/
  | opening (symbol : String) (h : At ks (index symbol) before after) (hi : symbol ∈ indexSymbols)
      (hb : symbol.toList <:+ before) (ha : after.head? = some '\x7b')
  /-- It belongs to the name of an attribute, an operand of a condition or a name in a dependency, with neither a backslash in
  front of it nor a brace behind it. -/
  | bare (name : String) (h : At ks (plain name) before after) (hb : before.getLast? ≠ some '\\')
      (ha : after.head? ≠ some '\x7b')

/-- Every underscore of sound chunks is of one of the three kinds. -/
theorem underscore_of_charsAll {ks : List Chunk} (hs : ∀ k ∈ ks, k.isSound = true) {before after : List Char}
    (h : charsAll ks = before ++ '_' :: after) : Underscore ks before after := by
  obtain ⟨k, hk⟩ := exists_at h
  cases k with
  | fixed text => exact absurd hk (At.not_fixed hs)
  | index symbol =>
    obtain ⟨hi, hb, ha⟩ := At.of_index hs hk
    exact .opening symbol hk hi hb ha
  | relation name =>
    obtain ⟨hb, ha⟩ := At.of_relation hs hk
    exact .escaped name hk hb ha
  | plain name =>
    obtain ⟨hb, ha⟩ := At.of_plain hs hk
    exact .bare name hk hb ha

end Chunk

open Chunk

/-- An underscore of the text has no backslash in front of it and no brace behind it. -/
def HasBareUnderscore (text : List Char) : Prop :=
  ∃ before after, text = before ++ '_' :: after ∧ before.getLast? ≠ some '\\' ∧ after.head? ≠ some '\x7b'

/-- Sound chunks have a bare underscore just if one of them is a name or an operand with an underscore that stands as it is. -/
theorem hasBareUnderscore_iff {ks : List Chunk} (hs : ∀ k ∈ ks, k.isSound = true) :
    HasBareUnderscore (charsAll ks) ↔ ∃ name, .plain name ∈ ks ∧ '_' ∈ name.toList := by
  constructor
  · rintro ⟨before, after, h, hb, ha⟩
    cases underscore_of_charsAll hs h with
    | escaped name _ he _ => exact absurd he hb
    | opening symbol _ _ _ ho => exact absurd ho ha
    | bare name hk _ _ => exact ⟨name, hk.mem⟩
  · rintro ⟨name, hk, hm⟩
    obtain ⟨ls, rs, rfl⟩ := List.append_of_mem hk
    obtain ⟨left, right, hn⟩ := List.append_of_mem hm
    have hat : At (ls ++ .plain name :: rs) (.plain name) (charsAll ls ++ left) (right ++ charsAll rs) :=
      ⟨ls, rs, left, right, rfl, hn, rfl, rfl⟩
    exact ⟨_, _, by simp [chars, hn], At.of_plain hs hat⟩

/-- The chunks of the text that is drawn for a node. -/
def Node.textChunks (n : Node) : List Chunk := .fixed "\\Tree" :: n.chunks

/-- The chunks of a node print the text that is drawn for it. -/
theorem Node.charsAll_textChunks {n : Node} {d : Drawing} (h : n.drawing = .ok d) : charsAll n.textChunks = d.text.toList := by
  rw [textChunks, charsAll_cons, charsAll_chunks h, Drawing.text, String.toList_append]
  rfl

/-- All chunks of the text for a clear node are sound. -/
theorem Node.IsClear.isSound_textChunks {n : Node} (h : n.IsClear) : ∀ k ∈ n.textChunks, k.isSound = true :=
  List.forall_mem_cons.mpr ⟨by decide, h.isSound⟩

/-- Every text without quotes that is drawn at any level, over a schema of identifiers, is drawn statement by statement, and every
underscore in a drawing is of one of three kinds: escaped in the name of a relation in the tree, between the symbol of an operator
and a brace, or bare in the name of an attribute, in an operand of a condition or in a name of a dependency. So there is a bare
underscore just if one of these names and operands has an underscore. -/
theorem underscores_of_drawings (level : Level) (definition : List (String × List String))
    (hd : ∀ e ∈ definition, ∀ n ∈ e.2, isIdentifier n = true) (text : String) (ht : IsUnquoted text.toList) (texts : List String)
    (h : Dialect.drawings ⟨level, .standard⟩ (.ofDefinition definition) text = .ok texts) :
    ∃ ns, Dialect.forest ⟨level, .standard⟩ (.ofDefinition definition) text = .ok ns ∧
      List.Forall₂ (fun n t => t.toList = charsAll n.textChunks ∧
        (∀ before after, t.toList = before ++ '_' :: after → Underscore n.textChunks before after) ∧
        (HasBareUnderscore t.toList ↔ ∃ name, .plain name ∈ n.textChunks ∧ '_' ∈ name.toList)) ns texts := by
  obtain ⟨ns, hf, h⟩ := exists_ok_of_bind h
  refine ⟨ns, hf, Node.forall₂_of_mem (Node.forall₂_of_drawingTexts h) ?_⟩
  rintro n hn t ⟨d, hdrawn, rfl⟩
  have hs := (isClear_of_text hd ht hf n hn).isSound_textChunks
  rw [← Node.charsAll_textChunks hdrawn]
  exact ⟨rfl, fun before after => underscore_of_charsAll hs, hasBareUnderscore_iff hs⟩

/-- An assignment and a dependency, with underscores in all names. -/
def underscoredText : String :=
  "q_t := \\project_\x7ba_b\x7d (\\select_\x7ba_b = c_d\x7d r_s);\nfd_\x7ba_b, c_d\x7d \\select_\x7bc_d = 1\x7d r_s;"

/-- How they are drawn: only the names of relations in the tree are escaped. -/
def underscoredDrawings : List String :=
  ["\\Tree[.$q\\_t(a_b)$ [.$\\pi_\x7ba_b\x7d$ [.$\\sigma_\x7b(a_b \\eq c_d)\x7d$ [.$r\\_s$ ] ] ] ]",
    "\\Tree[.$\\sigma_\x7b(c_d \\eq 1)\x7d (r_s) : a_b \\rightarrow c_d$ ]"]

theorem underscores_of_underscoredText : ∃ ns,
    (∀ e ∈ [("r_s", ["a_b", "c_d"])], ∀ n ∈ e.2, isIdentifier n = true) ∧ IsUnquoted underscoredText.toList ∧
    Dialect.drawings ⟨.dependency, .standard⟩ (.ofDefinition [("r_s", ["a_b", "c_d"])]) underscoredText
      = .ok underscoredDrawings ∧
    Dialect.forest ⟨.dependency, .standard⟩ (.ofDefinition [("r_s", ["a_b", "c_d"])]) underscoredText = .ok ns ∧
    List.Forall₂ (fun n t => t.toList = charsAll n.textChunks ∧
      (∀ before after, t.toList = before ++ '_' :: after → Underscore n.textChunks before after) ∧
      (HasBareUnderscore t.toList ↔ ∃ name, .plain name ∈ n.textChunks ∧ '_' ∈ name.toList)) ns underscoredDrawings := by
  have hd : ∀ e ∈ [("r_s", ["a_b", "c_d"])], ∀ n ∈ e.2, isIdentifier n = true := by decide +kernel
  have hu : IsUnquoted underscoredText.toList := isUnquoted_of_all (by decide +kernel)
  obtain ⟨texts, h, ht⟩ := exists_ok_of_any (p := fun texts => decide (texts = underscoredDrawings))
    (x := Dialect.drawings ⟨.dependency, .standard⟩ (.ofDefinition [("r_s", ["a_b", "c_d"])]) underscoredText) (by decide +kernel)
  obtain rfl := of_decide_eq_true ht
  obtain ⟨ns, hf, hshown⟩ :=
    underscores_of_drawings .dependency [("r_s", ["a_b", "c_d"])] hd underscoredText hu underscoredDrawings h
  exact ⟨ns, hd, hu, h, hf, hshown⟩

/-- The underscore of the name of an attribute is drawn as it is. -/
theorem bare_underscore_drawn :
    (Dialect.drawings ⟨.extended, .standard⟩ (.ofDefinition [("r", ["a_b"])]) "\\project_\x7ba_b\x7d r;").toOption
      = some ["\\Tree[.$\\pi_\x7ba_b\x7d$ [.$r$ ] ]"] ∧
    HasBareUnderscore "\\Tree[.$\\pi_\x7ba_b\x7d$ [.$r$ ] ]".toList := by
  refine ⟨by decide +kernel, "\\Tree[.$\\pi_\x7ba".toList, "b\x7d$ [.$r$ ] ]".toList, ?_⟩
  decide +kernel

end RelAlg
