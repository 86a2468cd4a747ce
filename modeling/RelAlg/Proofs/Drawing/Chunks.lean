import RelAlg.Proofs.Compared
import RelAlg.Proofs.Drawing.Brackets
import RelAlg.Proofs.Schema
import RelAlg.Proofs.Sql.ConditionText

/-!
# Where the text of a drawing comes from

The text of a drawing is put together from chunks (`Node.chunks`): what the form of a label has, the names of relations, whose
underscores are escaped, and all other names and operands, which stand as they are. The caption of a node is the text of its
chunks (`charsAll_captionChunks`), and so is the drawing of a whole tree (`charsAll_chunks`). In the trees of a text without
quotes all names and operands are words, so their characters cannot be taken for those of the form (`Node.IsClear`).
-/

namespace RelAlg

/-! ## Chunks -/

/-- A part of the text of a drawing. -/
inductive Chunk where
  /-- A text that belongs to the form of a label or of the tree. -/
  | fixed (text : String)
  /-- The symbol of an operator, and what opens the index that it has. -/
  | index (symbol : String)
  /-- The name of a relation in a tree. -/
  | relation (name : String)
  /-- The name of an attribute, an operand of a condition, or any name in a dependency. -/
  | plain (name : String)
  deriving DecidableEq, Repr

namespace Chunk

/-- The characters of a chunk. -/
def chars : Chunk → List Char
  | fixed text => text.toList
  | index symbol => symbol.toList ++ ['_', '\x7b']
  | relation name => (escapedName (some name)).toList
  | plain name => name.toList

/-- The characters of chunks, one after the other. -/
def charsAll (ks : List Chunk) : List Char := ks.flatMap chars

@[simp] theorem charsAll_nil : charsAll [] = [] := rfl

@[simp] theorem charsAll_cons (k : Chunk) (ks : List Chunk) : charsAll (k :: ks) = k.chars ++ charsAll ks := rfl

@[simp] theorem charsAll_append (ks ls : List Chunk) : charsAll (ks ++ ls) = charsAll ks ++ charsAll ls := List.flatMap_append

/-- The name of a relation, if there is one. -/
def ofName (name : Option String) : List Chunk := (name.map relation).toList

/-- Names with commas and thin spaces between them. -/
def ofNames : List String → List Chunk
  | [] => []
  | [n] => [plain n]
  | n :: m :: ns => plain n :: fixed ",\\," :: ofNames (m :: ns)

/-- Chunks behind a symbol, as its index. -/
def withIndex (symbol : String) (inner : List Chunk) : List Chunk := index symbol :: inner ++ [fixed "\x7d"]

/-- The chunks of a label and of children, as the node of a tree. -/
def framed (label : List Chunk) (children : List (List Chunk)) : List Chunk :=
  fixed "[.$" :: label ++ fixed "$ " :: children.flatMap (· ++ [fixed " "]) ++ [fixed "]"]

/-- The chunks of a relation name print it with its underscores escaped. -/
theorem charsAll_ofName (name : Option String) : charsAll (ofName name) = (escapedName name).toList := by
  cases name with
  | none => rfl
  | some n => exact List.append_nil _

/-- The chunks of attribute names print them as they stand, with commas and thin spaces. -/
theorem charsAll_ofNames (names : List String) : charsAll (ofNames names) = (attributesLabel names).toList := by
  unfold attributesLabel
  induction names with
  | nil => rfl
  | cons n names ih =>
    cases names with
    | nil => simp [ofNames, chars]
    | cons m names => simp [ofNames, chars, String.intercalate_cons_cons, ih]

/-- Chunks behind a symbol print as its index. -/
theorem charsAll_withIndex (symbol : String) (inner : List Chunk) {text : String} (h : charsAll inner = text.toList) :
    charsAll (withIndex symbol inner) = (indexed symbol text).toList := by
  simp [withIndex, chars, h, indexed, braced]

end Chunk

open Chunk

/-! ## Captions -/

/-- The chunks of a condition. -/
def Condition.chunks : Condition → List Chunk
  | operand text => [.plain text]
  | unary .defined child => .fixed (Connective.defined.latex ++ "(") :: child.chunks ++ [.fixed ")"]
  | unary op child => .fixed (op.latex ++ " ") :: child.chunks
  | binary op left right => .fixed "(" :: left.chunks ++ .fixed (" " ++ op.latex ++ " ") :: right.chunks ++ [.fixed ")"]

/-- The chunks of a condition print it. -/
theorem Condition.charsAll_chunks (c : Condition) : charsAll c.chunks = c.latex.toList := by
  induction c with
  | operand text => simp [chunks, latex, chars]
  | unary op child ih => cases op <;> simp [chunks, latex, chars, ih]
  | binary op left right ihl ihr => simp [chunks, latex, chars, ihl, ihr]

/-- The chunks of the name of a head and of its attributes. -/
def Head.chunks (h : Head) : List Chunk :=
  ofName h.name ++ if h.attributes.isEmpty then [] else .fixed "(" :: ofNames h.attributes.names ++ [.fixed ")"]

/-- The chunks of a head print the name and the attributes. -/
theorem Head.charsAll_chunks (h : Head) : charsAll h.chunks = h.signature.toList := by
  unfold chunks signature
  split <;> simp [charsAll_ofName, charsAll_ofNames, chars]

namespace Node

/-- The chunks of how a dependency writes a relation. -/
def sideChunks (n : Node) : List Chunk :=
  let name := Chunk.plain (n.name.getD "None")
  match n with
  | select _ condition _ => withIndex "\\sigma" condition.chunks ++ [.fixed " (", name, .fixed ")"]
  | _ => [name]

/-- The chunks of two attributes that a dependency is drawn between, in the form of its label. -/
def pairChunks (attributes : Listing) (label : Chunk → Chunk → List Chunk) : List Chunk :=
  match attributes.items with
  | [a, b] => label (.plain a.text) (.plain b.text)
  | _ => []

/-- The chunks of the caption of a node. -/
def captionChunks : Node → List Chunk
  | relation h => ofName h.name
  | select _ condition _ => withIndex "\\sigma" condition.chunks
  | project h _ => withIndex "\\pi" (ofNames h.attributes.names)
  | rename h _ => withIndex "\\rho" h.chunks
  | assign h _ => h.chunks
  | join _ (.conditional kind condition) _ _ => withIndex kind.latex condition.chunks
  | join _ op _ _ => [.fixed op.latex]
  | setOperation _ op _ _ => [.fixed op.latex]
  | primaryKey table attributes =>
    .fixed ("\\text" ++ braced "PK" ++ "(") :: .plain table.phrase.text :: .fixed ") \\eq \x7b" ::
      ofNames (attributes.items.filterMap Phrase.text?) ++ [.fixed "\x7d"]
  | pair kind _ attributes child => pairChunks attributes fun a b =>
    child.sideChunks ++ [.fixed " : ", a, .fixed (" " ++ kind.latex ++ " "), b]
  | inclusion kind _ attributes left right => pairChunks attributes fun a b =>
    left.sideChunks ++ [.fixed "[", a, .fixed ("] " ++ kind.latex ++ " ")] ++ right.sideChunks ++ [.fixed "[", b, .fixed "]"]
  | bare b => ofName b.name

/-- The chunks of a side of a dependency print its label. -/
theorem charsAll_sideChunks (n : Node) : charsAll n.sideChunks = n.sideLabel.toList := by
  unfold sideChunks sideLabel selectionLabel
  cases n with
  | select h c child => simp [charsAll_withIndex "\\sigma" c.chunks c.charsAll_chunks, chars]
  | _ => simp [chars]

/-- Phrases that are all words are the words among them. -/
theorem filterMap_text?_of_mapM {ps : List Phrase} {names : List String} (h : ps.mapM Phrase.text? = some names) :
    ps.filterMap Phrase.text? = names := by
  induction ps generalizing names with
  | nil =>
    cases h
    rfl
  | cons p ps ih =>
    rw [List.mapM_cons] at h
    obtain ⟨n, hn, h⟩ := Option.bind_eq_some_iff.mp h
    obtain ⟨ns, hs, h⟩ := Option.bind_eq_some_iff.mp h
    cases h
    rw [List.filterMap_cons_some hn, ih hs]

/-- A listing that is a pair has two members, and their texts are the pair. -/
theorem items_of_pair {l : Listing} {a b : String} (h : l.pair = .ok (a, b)) :
    ∃ p q, l.items = [p, q] ∧ p.text = a ∧ q.text = b := by
  unfold Listing.pair at h
  split at h
  · rename_i p q hl
    cases h
    exact ⟨p, q, hl, rfl, rfl⟩
  · cases h

/-- The caption of a node is the text of its chunks. -/
theorem charsAll_captionChunks {n : Node} {label : String} (h : n.caption = .ok label) :
    charsAll n.captionChunks = label.toList := by
  cases n with
  | relation head =>
    cases h
    exact charsAll_ofName head.name
  | select head c child =>
    cases h
    exact charsAll_withIndex _ _ c.charsAll_chunks
  | project head child =>
    cases h
    exact charsAll_withIndex _ _ (charsAll_ofNames _)
  | rename head child =>
    cases h
    exact charsAll_withIndex _ _ head.charsAll_chunks
  | assign head child =>
    cases h
    exact head.charsAll_chunks
  | join head op left right =>
    cases h
    cases op with
    | conditional kind c => exact charsAll_withIndex _ _ c.charsAll_chunks
    | cross | natural => exact List.append_nil _
  | setOperation head op left right =>
    cases h
    exact List.append_nil _
  | primaryKey table attributes =>
    simp only [caption, keyLabel] at h
    split at h
    · rename_i names hn
      cases h
      simp [captionChunks, chars, charsAll_ofNames, filterMap_text?_of_mapM hn, braced]
    · cases h
  | pair kind table attributes child =>
    obtain ⟨⟨a, b⟩, hp, h⟩ := exists_ok_of_bind h
    obtain ⟨p, q, hl, rfl, rfl⟩ := items_of_pair hp
    cases h
    simp [captionChunks, pairChunks, hl, chars, charsAll_sideChunks]
  | inclusion kind tables attributes left right =>
    obtain ⟨⟨a, b⟩, hp, h⟩ := exists_ok_of_bind h
    obtain ⟨p, q, hl, rfl, rfl⟩ := items_of_pair hp
    cases h
    simp [captionChunks, pairChunks, hl, chars, charsAll_sideChunks]
  | bare b =>
    simp only [caption, Bare.caption] at h
    split at h <;> cases h
    exact charsAll_ofName b.name

/-! ## Trees -/

/-- The nodes that are drawn under a node. A relation has none, and a dependency is drawn as a whole. -/
def branches : Node → List Node
  | select _ _ child | project _ child | rename _ child | assign _ child => [child]
  | join _ _ left right | setOperation _ _ left right => [left, right]
  | relation _ | primaryKey .. | pair .. | inclusion .. | bare _ => []

/-- What passes from the branches of a node to the node holds of every node. -/
theorem induction_branches {motive : Node → Prop} (node : ∀ n, (∀ m ∈ n.branches, motive m) → motive n) (n : Node) :
    motive n := by
  induction n with
  | relation | primaryKey | pair | inclusion | bare => exact node _ fun _ hm => absurd hm List.not_mem_nil
  | select _ _ _ ih | project _ _ ih | rename _ _ ih | assign _ _ ih => exact node _ (List.forall_mem_singleton.mpr ih)
  | join _ _ _ _ ihl ihr | setOperation _ _ _ _ ihl ihr =>
    exact node _ (List.forall_mem_cons.mpr ⟨ihl, List.forall_mem_singleton.mpr ihr⟩)

/-- The chunks of the drawing of a node. -/
def chunks : Node → List Chunk
  | select h c child => framed (select h c child).captionChunks [child.chunks]
  | project h child => framed (project h child).captionChunks [child.chunks]
  | rename h child => framed (rename h child).captionChunks [child.chunks]
  | assign h child => framed (assign h child).captionChunks [child.chunks]
  | join h op left right => framed (join h op left right).captionChunks [left.chunks, right.chunks]
  | setOperation h op left right => framed (setOperation h op left right).captionChunks [left.chunks, right.chunks]
  | n => framed n.captionChunks []

/-- The chunks of a tree are its caption and the chunks of its branches, in the frame of a node. -/
theorem chunks_eq (n : Node) : n.chunks = framed n.captionChunks (n.branches.map chunks) := by
  cases n <;> rfl

/-- A drawing is a caption over the drawings of its branches. -/
theorem exists_of_drawing {n : Node} {d : Drawing} (h : n.drawing = .ok d) :
    ∃ label children, n.caption = .ok label ∧ List.Forall₂ (fun m e => m.drawing = .ok e) n.branches children ∧
      d = .node label children := by
  cases n with
  | relation | primaryKey | pair | inclusion | bare =>
    obtain ⟨label, hl, h⟩ := exists_ok_of_bind h
    cases h
    exact ⟨label, [], hl, .nil, rfl⟩
  | select | project | rename | assign =>
    obtain ⟨label, hl, h⟩ := exists_ok_of_bind h
    obtain ⟨e, he, h⟩ := exists_ok_of_bind h
    cases h
    exact ⟨label, [e], hl, .cons he .nil, rfl⟩
  | join | setOperation =>
    obtain ⟨label, hl, h⟩ := exists_ok_of_bind h
    obtain ⟨e, he, h⟩ := exists_ok_of_bind h
    obtain ⟨f, hf, h⟩ := exists_ok_of_bind h
    cases h
    exact ⟨label, [e, f], hl, .cons he (.cons hf .nil), rfl⟩

/-- Related lists are related by all that follows for their members. -/
theorem forall₂_of_mem {α β : Type} {R S : α → β → Prop} {as : List α} {bs : List β} (h : List.Forall₂ R as bs)
    (hs : ∀ a ∈ as, ∀ b, R a b → S a b) : List.Forall₂ S as bs :=
  List.forall₂_iff_zip.mpr ⟨h.length_eq, fun {a b} hz => hs a (List.of_mem_zip hz).1 b (List.forall₂_zip h hz)⟩

/-- Branches whose chunks print their drawings print them together. -/
theorem charsAll_branches {ns : List Node} {ds : List Drawing}
    (h : List.Forall₂ (fun n d => charsAll n.chunks = d.brackets.toList) ns ds) :
    charsAll (ns.flatMap fun n => n.chunks ++ [.fixed " "]) = (Drawing.bracketsAll ds).toList := by
  induction h with
  | nil => rfl
  | cons h _ ih => simp [Drawing.bracketsAll, h, ih, chars]

/-- The drawing of a node is the text of its chunks. -/
theorem charsAll_chunks {n : Node} {d : Drawing} (h : n.drawing = .ok d) : charsAll n.chunks = d.brackets.toList := by
  induction n using induction_branches generalizing d with
  | node n ih =>
    obtain ⟨label, children, hl, hs, rfl⟩ := exists_of_drawing h
    have hbranches := charsAll_branches (forall₂_of_mem hs fun m hm e he => ih m hm he)
    rw [chunks_eq, framed, List.flatMap_map]
    simp [Drawing.brackets, chars, charsAll_captionChunks hl, hbranches]

end Node

/-! ## Clear chunks -/

/-- The symbols that have an index. -/
def indexSymbols : List String :=
  ["\\sigma", "\\pi", "\\rho"] ++ [ConditionalJoin.theta, .fullOuter, .leftOuter, .rightOuter].map ConditionalJoin.latex

/-- A character that may not stand in words stands in no word. -/
theorem not_mem_of_isWord {name : String} (h : isWord name = true) {x : Char} (hx : isWordChar x = false) :
    x ∉ name.toList := fun hm => Bool.false_ne_true (hx.symm.trans (isWordChar_of_isWord h x hm))

/-- To escape the underscores of a name adds backslashes only. -/
theorem mem_escapedName {name : String} {x : Char} (h : x ∈ (escapedName (some name)).toList) : x = '\\' ∨ x ∈ name.toList := by
  rw [escapedName, String.toList_ofList, List.mem_flatMap] at h
  obtain ⟨c, hc, hx⟩ := h
  split at hx
  · rename_i he
    subst he
    rcases List.mem_pair.mp hx with rfl | rfl
    · exact .inl rfl
    · exact .inr hc
  · exact .inr (List.mem_singleton.mp hx ▸ hc)

/-- Escaping brings only backslashes into a word. -/
theorem not_mem_escapedName {name : String} (h : isWord name = true) {x : Char} (hx : isWordChar x = false) (hb : x ≠ '\\') :
    x ∉ (escapedName (some name)).toList := by
  intro hm
  rcases mem_escapedName hm with he | hm
  · exact hb he
  · exact not_mem_of_isWord h hx hm

namespace Chunk

/-- The chunk can be told from its surroundings: a text of the form has no underscore, does not begin with a brace and does not
end with a backslash, a symbol is one that has an index, and a name or an operand is a word. -/
def isSound : Chunk → Bool
  | fixed text => text.toList.all (· ≠ '_') && text.toList.head? ≠ some '\x7b' && text.toList.getLast? ≠ some '\\'
  | index symbol => indexSymbols.contains symbol
  | relation name | plain name => isWord name

/-- The chunk can stand in a label. -/
def isLabel (k : Chunk) : Bool := k.isSound && k.chars.all (· ≠ '$')

/-- A chunk that may stand in a label is sound. -/
theorem isSound_of_isLabel {k : Chunk} (h : k.isLabel = true) : k.isSound = true := (Bool.and_eq_true_iff.mp h).1

/-- No chunk of a label has the mark that ends it. -/
theorem not_mem_of_isLabel {k : Chunk} (h : k.isLabel = true) : '$' ∉ k.chars := fun hm =>
  absurd (List.all_eq_true.mp (Bool.and_eq_true_iff.mp h).2 '$' hm) (by decide)

/-- A sound chunk without the mark that ends a label may stand in one. -/
theorem isLabel_of_not_mem {k : Chunk} (hs : k.isSound = true) (h : '$' ∉ k.chars) : k.isLabel = true := by
  rw [isLabel, Bool.and_eq_true, List.all_eq_true]
  exact ⟨hs, fun c hc => decide_eq_true fun e => h (e ▸ hc)⟩

/-- A word may stand in a label. -/
theorem isLabel_plain {name : String} (h : isWord name = true) : (plain name).isLabel = true :=
  isLabel_of_not_mem h (not_mem_of_isWord h (by decide))

/-- The name of a relation may stand in a label if it is a word. -/
theorem isLabel_relation {name : String} (h : isWord name = true) : (relation name).isLabel = true :=
  isLabel_of_not_mem h (not_mem_escapedName h (by decide) (by decide))

/-- The symbol of an operator may stand in a label. -/
theorem isLabel_index {symbol : String} (h : symbol ∈ indexSymbols) : (index symbol).isLabel = true := by
  have hall : ∀ s ∈ indexSymbols, (index s).isLabel = true := by decide
  exact hall symbol h

/-- The chunks of a name that texts write may stand in a label. -/
theorem isLabel_ofName {name : Option String} (h : ∀ n, name = some n → isName n = true) :
    ∀ k ∈ ofName name, k.isLabel = true := by
  intro k hk
  obtain ⟨n, hn, rfl⟩ := Option.map_eq_some_iff.mp (Option.mem_toList.mp hk)
  exact isLabel_relation (isWord_of_isName (h n hn))

/-- The chunks of names that texts write may stand in a label. -/
theorem isLabel_ofNames {names : List String} (h : ∀ n ∈ names, isName n = true) :
    ∀ k ∈ ofNames names, k.isLabel = true := by
  induction names with
  | nil => exact List.forall_mem_nil _
  | cons n names ih =>
    rw [List.forall_mem_cons] at h
    have hn := isLabel_plain (isWord_of_isName h.1)
    cases names with
    | nil => exact List.forall_mem_singleton.mpr hn
    | cons m names =>
      exact List.forall_mem_cons.mpr ⟨hn, List.forall_mem_cons.mpr ⟨by decide, ih h.2⟩⟩

/-- An index may stand in a label if what is in it may. -/
theorem isLabel_withIndex {symbol : String} (hs : symbol ∈ indexSymbols) {inner : List Chunk}
    (h : ∀ k ∈ inner, k.isLabel = true) : ∀ k ∈ withIndex symbol inner, k.isLabel = true := by
  rw [withIndex, List.forall_mem_append, List.forall_mem_cons, List.forall_mem_singleton]
  exact ⟨⟨isLabel_index hs, h⟩, by decide⟩

end Chunk

/-- A condition may stand in a label if its operands are words. -/
theorem Condition.isLabel_chunks {c : Condition} (h : ∀ s ∈ c.operands, isWord s = true) :
    ∀ k ∈ c.chunks, k.isLabel = true := by
  induction c with
  | operand text => exact List.forall_mem_singleton.mpr (isLabel_plain (h text List.mem_cons_self))
  | unary op child ih =>
    have hchild := ih h
    cases op with
    | defined =>
      simp only [chunks, List.forall_mem_cons, List.forall_mem_append]
      exact ⟨⟨by decide, hchild⟩, by decide⟩
    | _ => exact List.forall_mem_cons.mpr ⟨by decide, hchild⟩
  | binary op left right ihl ihr =>
    rw [operands, List.forall_mem_append] at h
    simp only [chunks, List.forall_mem_cons, List.forall_mem_append]
    exact ⟨⟨⟨by decide, ihl h.1⟩, by cases op <;> decide, ihr h.2⟩, by decide⟩

theorem isName_names {l : AttributeList} (h : ∀ a ∈ l, isName a.name = true) : ∀ n ∈ l.names, isName n = true := by
  intro n hm
  obtain ⟨a, hmem, rfl⟩ := List.mem_map.mp hm
  exact h a hmem

/-- A name and attributes that texts write may stand in a label. -/
theorem Head.isLabel_chunks {h : Head} (hn : ∀ n, h.name = some n → isName n = true)
    (ha : ∀ a ∈ h.attributes, isName a.name = true) : ∀ k ∈ h.chunks, k.isLabel = true := by
  rw [chunks, List.forall_mem_append]
  refine ⟨isLabel_ofName hn, ?_⟩
  split
  · exact List.forall_mem_nil _
  · rw [List.forall_mem_append, List.forall_mem_cons, List.forall_mem_singleton]
    exact ⟨⟨by decide, isLabel_ofNames (isName_names ha)⟩, by decide⟩

/-- The captions of the node and of all nodes that are drawn under it have chunks that can stand in a label. -/
inductive Node.IsClear : Node → Prop where
  | node {n : Node} (hc : ∀ k ∈ n.captionChunks, k.isLabel = true) (hs : ∀ m ∈ n.branches, m.IsClear) : IsClear n

namespace Node

variable {schema : Schema} {n : Node}

/-- All chunks of a clear tree are sound. -/
theorem IsClear.isSound (h : n.IsClear) : ∀ k ∈ n.chunks, k.isSound = true := by
  induction h with
  | @node n hc _ ih =>
    have hbranches : ∀ k ∈ (n.branches.map chunks).flatMap (· ++ [.fixed " "]), k.isSound = true := by
      intro k hk
      obtain ⟨ks, hks, hk⟩ := List.mem_flatMap.mp hk
      obtain ⟨m, hm, rfl⟩ := List.mem_map.mp hks
      rcases List.mem_append.mp hk with hk | hk
      · exact ih m hm k hk
      · rw [List.mem_singleton.mp hk]
        decide
    simp only [chunks_eq n, framed, List.forall_mem_cons, List.forall_mem_append]
    exact ⟨⟨⟨by decide, fun k hk => isSound_of_isLabel (hc k hk)⟩, by decide, hbranches⟩, by decide⟩

/-- What holds of the labels of each drawing holds of the labels of all. -/
theorem forall_mem_labels {P : String → Prop} {ns : List Node} {ds : List Drawing}
    (h : List.Forall₂ (fun _ d => ∀ l ∈ Drawing.labels [d], P l) ns ds) : ∀ l ∈ Drawing.labels ds, P l := by
  induction h with
  | nil =>
    rw [Drawing.labels]
    exact List.forall_mem_nil _
  | @cons n d ns ds hd _ ih =>
    rw [Drawing.labels_cons, List.forall_mem_append]
    exact ⟨hd, ih⟩

/-- No label of a clear node has a dollar sign in it. -/
theorem IsClear.not_mem_label (h : n.IsClear) {d : Drawing} (hd : n.drawing = .ok d) :
    ∀ l ∈ Drawing.labels [d], '$' ∉ l.toList := by
  induction h generalizing d with
  | @node n hc _ ih =>
    obtain ⟨label, children, hl, hs, rfl⟩ := exists_of_drawing hd
    rw [Drawing.labels, Drawing.labels, List.append_nil, List.forall_mem_cons]
    refine ⟨?_, forall_mem_labels (forall₂_of_mem hs fun m hm e he => ih m hm he)⟩
    rw [← charsAll_captionChunks hl]
    intro hm
    obtain ⟨k, hk, hm⟩ := List.mem_flatMap.mp hm
    exact not_mem_of_isLabel (hc k hk) hm

/-- A node of the algebra whose conditions compare words is clear, over a schema of names. -/
theorem Made.isClear (h : n.Made schema) (hs : schema.Names (isName · = true)) (hc : ∀ s ∈ n.compared, isWord s = true) :
    n.IsClear := by
  induction h with
  | @relation name names serial hn hg =>
    exact .node (isLabel_ofName fun m hm => by cases hm; exact hn) (List.forall_mem_nil _)
  | @select child c serial h hw hv ih =>
    rw [compared, List.forall_mem_append] at hc
    exact .node (isLabel_withIndex (by decide) (Condition.isLabel_chunks hc.1)) (List.forall_mem_singleton.mpr (ih hc.2))
  | @project child references kept serial h hr hk ih =>
    have hnames := isName_names (fun a ha => h.forall_name (fun _ => id) hs a (AttributeList.mem_of_trim hk a ha))
    exact .node (isLabel_withIndex (by decide) (isLabel_ofNames hnames)) (List.forall_mem_singleton.mpr (ih hc))
  | @rename child target renamed serial h ht hf hr ih =>
    have hm : (Node.rename (Head.make (target.name?.or child.name) renamed serial) child).Made schema := .rename h ht hf hr
    have hlabel := Head.isLabel_chunks hm.isName_name (hm.forall_name (fun _ => id) hs)
    exact .node (isLabel_withIndex (by decide) hlabel) (List.forall_mem_singleton.mpr (ih hc))
  | @join op left right attributes serial hl hr ho hn ha ihl ihr =>
    rw [compared, List.forall_mem_append, List.forall_mem_append] at hc
    refine .node ?_ (List.forall_mem_cons.mpr ⟨ihl hc.1, List.forall_mem_singleton.mpr (ihr hc.2.2)⟩)
    rcases op with _ | _ | ⟨kind, c⟩
    · exact List.forall_mem_singleton.mpr (by decide)
    · exact List.forall_mem_singleton.mpr (by decide)
    · exact isLabel_withIndex (by cases kind <;> decide) (Condition.isLabel_chunks hc.2.1)
  | @setOperation op left right serial hl hr hn ihl ihr =>
    rw [compared, List.forall_mem_append] at hc
    refine .node ?_ (List.forall_mem_cons.mpr ⟨ihl hc.1, List.forall_mem_singleton.mpr (ihr hc.2)⟩)
    exact List.forall_mem_singleton.mpr (by cases op <;> decide)

end Node

/-! ## Texts -/

/-- A statement of the algebra that compares words is clear, over a schema of names. -/
theorem Stated.isClear {schema extended : Schema} {n : Node} (h : Stated schema n extended) (hd : n.isDeclaration = false)
    (hs : schema.Names (isName · = true)) (hc : ∀ s ∈ n.compared, isWord s = true) : n.IsClear := by
  cases h with
  | query h => exact h.isClear hs hc
  | @assign child name names attributes serial _ h hn hnames hr ha =>
    have hattributes := AttributeList.forall_name_of_rename (fun _ => id) (h.forall_name (fun _ => id) hs) hnames hr
    have hlabel : ∀ k ∈ (Head.make (some name) attributes serial).chunks, k.isLabel = true :=
      Head.isLabel_chunks (fun m hm => by cases hm; exact hn) hattributes
    exact .node hlabel (List.forall_mem_singleton.mpr (h.isClear hs hc))
  | declare h =>
    rw [h.declares] at hd
    cases hd

/-- The nodes of the algebra in a chain are clear if all names are names that texts write and all operands are words. -/
theorem Chain.isClear {schema : Schema} {ns : List Node} (h : Chain schema ns) (hs : schema.Names (isName · = true))
    (hc : ∀ n ∈ ns, ∀ s ∈ n.compared, isWord s = true) : ∀ n ∈ ns, n.isDeclaration = false → n.IsClear := by
  induction h with
  | nil => exact List.forall_mem_nil _
  | cons h _ ih =>
    rw [List.forall_mem_cons] at hc ⊢
    have hlower : ∀ n, isName n = true → isName (Text.lower n) = true := fun n hn => (Text.lower_of_isName hn).symm ▸ hn
    exact ⟨fun hd => h.isClear hd hs hc.1, ih (h.names (fun _ => id) hlower hs) hc.2⟩

/-- The statements of the algebra of a text without quotes are clear. -/
theorem isClear_of_forest {level : Level} {definition : List (String × List String)}
    (hd : ∀ e ∈ definition, ∀ n ∈ e.2, isIdentifier n = true) {text : String} (ht : IsUnquoted text.toList) {ns : List Node}
    (h : Build.forest level .standard (.ofDefinition definition) text = .ok ns) :
    ∀ n ∈ ns, n.isDeclaration = false → n.IsClear :=
  (Build.chain_of_forest h).isClear (Schema.names_ofDefinition fun e he n hn => Text.isName_lower (hd e he n hn))
    (isWord_of_forest ht h)

end RelAlg
