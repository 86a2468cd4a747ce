import RelAlg.Proofs.Lower

/-!
# Schemas after calls

A schema answers calls: whether it has a relation, which attributes a relation has, and whether one can be added. What it knows
after any history of calls is what the latest entry says that was stored under a name, all in small letters (`lookup_after`).
Names are stored in small letters but looked up as they are given, so a name with a capital letter is never found, and a
relation that is added under such a name takes the place of the one that is there in small letters (`answers_of_history`).
-/

namespace RelAlg

namespace Schema

/-- A call on a schema. -/
inductive Call where
  | contains (name : String)
  | get (name : String)
  | add (name : String) (attributes : List String)
  deriving DecidableEq, Repr

/-- The schema after a call. A call that fails leaves it as it was. -/
def step (schema : Schema) : Call → Schema
  | .contains _ | .get _ => schema
  | .add name attributes => (schema.add name attributes).toOption.getD schema

/-- The schema after calls. -/
def run (schema : Schema) (calls : List Call) : Schema := calls.foldl step schema

/-- The schema of a definition after calls. -/
abbrev after (definition : List (String × List String)) (calls : List Call) : Schema := (ofDefinition definition).run calls

/-- The entry that a call stores, with the letters as they were given. -/
def entry? (schema : Schema) : Call → Option (String × List String)
  | .contains _ | .get _ => none
  | .add name attributes => if schema.contains name then none else some (name, attributes)

/-- The entries that calls store, the earliest first. -/
def stored (schema : Schema) : List Call → List (String × List String)
  | [] => []
  | call :: calls => (schema.entry? call).toList ++ stored (schema.step call) calls

/-- A definition with one entry for a name: the latest, at the place of the first. -/
def distinct (definition : List (String × List String)) : List (String × List String) :=
  definition.foldl (fun entries e => upsert e.1 e.2 entries) []

/-- All that was stored when a schema of a definition has answered calls, the earliest first. -/
def history (definition : List (String × List String)) (calls : List Call) : List (String × List String) :=
  distinct definition ++ stored (ofDefinition definition) calls

/-- What the latest entry lists that has the name in small letters. -/
def latest (entries : List (String × List String)) (name : String) : Option (List String) :=
  (entries.reverse.find? fun e => Text.lower e.1 = name).map fun e => e.2.map Text.lower

/-! ## Entries -/

theorem latest_append_singleton (entries : List (String × List String)) (e : String × List String) (name : String) :
    latest (entries ++ [e]) name = if Text.lower e.1 = name then some (e.2.map Text.lower) else latest entries name := by
  unfold latest
  rw [List.reverse_append, List.reverse_singleton, List.singleton_append, List.find?_cons]
  by_cases h : Text.lower e.1 = name <;> simp [h]

/-- A name has a latest entry if it is the small form of a name that was stored. -/
theorem isSome_latest_iff {entries : List (String × List String)} {name : String} :
    (latest entries name).isSome = true ↔ ∃ e ∈ entries, Text.lower e.1 = name := by
  simp [latest, List.find?_isSome]

theorem lower_of_latest {entries : List (String × List String)} {name : String} (h : (latest entries name).isSome = true) :
    Text.lower name = name := by
  obtain ⟨e, -, rfl⟩ := isSome_latest_iff.mp h
  exact Text.lower_lower e.1

/-- Storing entries one after the other leaves the latest of each name. -/
theorem lookup_foldl_upsert (entries : List (String × List String)) (name : String) :
    (entries.foldl (fun schema e => upsert (Text.lower e.1) (e.2.map Text.lower) schema) []).lookup name
      = latest entries name := by
  -- from the end: the last entry is the latest of its name
  induction entries using List.reverseRecOn with
  | nil => rfl
  | append_singleton entries e ih =>
    rw [List.foldl_append, List.foldl_cons, List.foldl_nil, lookup_upsert, ih, latest_append_singleton]
    simp only [eq_comm]

/-- A definition has the names that it lists. -/
theorem exists_mem_distinct_iff (definition : List (String × List String)) (P : String → Prop) :
    (∃ e ∈ distinct definition, P e.1) ↔ ∃ e ∈ definition, P e.1 := by
  have hkeys : ∀ k, ((distinct definition).lookup k).isSome = true ↔ ∃ e ∈ definition, e.1 = k := by
    intro k
    unfold distinct
    induction definition using List.reverseRecOn with
    | nil => simp
    | append_singleton entries e ih =>
      rw [List.foldl_append, List.foldl_cons, List.foldl_nil, lookup_upsert]
      by_cases h : k = e.1 <;> simp [h, ih, eq_comm]
  constructor
  · rintro ⟨e, he, hp⟩
    rcases mem_foldl_upsert he with he | ⟨f, hf, rfl⟩
    · cases he
    · exact ⟨f, hf, hp⟩
  · rintro ⟨e, he, hp⟩
    obtain ⟨names, hn⟩ := Option.isSome_iff_exists.mp ((hkeys e.1).mpr ⟨e, he, rfl⟩)
    exact ⟨_, mem_of_lookup hn, hp⟩

/-! ## Calls -/

variable {schema : Schema} {name : String} {attributes : List String}

theorem add_of_contains (h : schema.contains name = true) : schema.add name attributes = .error (.relationExists name) := by
  rw [add, store, if_pos h]

theorem add_of_not_contains (h : schema.contains name = false) :
    schema.add name attributes = .ok (upsert (Text.lower name) (attributes.map Text.lower) schema) := by
  rw [add, store, if_neg (by simp [h])]

/-- A call stores its entry in small letters, if it stores one, and changes nothing else. -/
theorem lookup_step (schema : Schema) (call : Call) (k : String) :
    (schema.step call).lookup k
      = match schema.entry? call with
        | some e => if k = Text.lower e.1 then some (e.2.map Text.lower) else schema.lookup k
        | none => schema.lookup k := by
  cases call with
  | contains name => rfl
  | get name => rfl
  | add name attributes =>
    cases hc : schema.contains name with
    | true => simp [step, entry?, add_of_contains hc, hc, Except.toOption]
    | false => simp [step, entry?, add_of_not_contains hc, hc, Except.toOption, lookup_upsert]

/-- A schema that knows the latest of some entries knows after calls the latest of these and of what the calls stored. -/
theorem lookup_run_of_latest {entries : List (String × List String)} (calls : List Call)
    (h : ∀ k, schema.lookup k = latest entries k) (k : String) :
    (schema.run calls).lookup k = latest (entries ++ stored schema calls) k := by
  induction calls generalizing schema entries with
  | nil => simpa [run, stored] using h k
  | cons call calls ih =>
    have hstep : ∀ k, (schema.step call).lookup k = latest (entries ++ (schema.entry? call).toList) k := by
      intro k
      rw [lookup_step]
      cases schema.entry? call with
      | none => simpa using h k
      | some e =>
        rw [Option.toList_some, latest_append_singleton, ← h k]
        simp only [eq_comm]
    rw [stored, ← List.append_assoc]
    exact ih hstep

/-- After any history of calls the schema knows the latest entry of every name. -/
theorem lookup_after (definition : List (String × List String)) (calls : List Call) (k : String) :
    (after definition calls).lookup k = latest (history definition calls) k :=
  lookup_run_of_latest calls (fun k => lookup_foldl_upsert (distinct definition) k) k

/-- What the schema finds is in small letters, and was defined or added in some letter case. -/
theorem contains_after_iff (definition : List (String × List String)) (calls : List Call) (name : String) :
    (after definition calls).contains name = true ↔ Text.lower name = name ∧
      ((∃ e ∈ definition, Text.lower e.1 = Text.lower name) ∨
        ∃ e ∈ stored (ofDefinition definition) calls, Text.lower e.1 = Text.lower name) := by
  have hstored : (latest (history definition calls) name).isSome = true ↔
      (∃ e ∈ definition, Text.lower e.1 = name) ∨ ∃ e ∈ stored (ofDefinition definition) calls, Text.lower e.1 = name := by
    rw [isSome_latest_iff, history, ← exists_mem_distinct_iff definition fun n => Text.lower n = name]
    simp only [List.mem_append, or_and_right, exists_or]
  rw [contains, lookup_after]
  constructor
  · intro h
    rw [lower_of_latest h]
    exact ⟨rfl, hstored.mp h⟩
  · rintro ⟨hl, h⟩
    rw [hl] at h
    exact hstored.mpr h

/-- After any history of calls, for every name in whatever letters: a relation is found just if the name is in small letters
and was defined or added in some letter case. Its attributes are those of the latest entry of the name, in small letters; one
without attributes counts as missing. Adding a relation fails, and changes nothing, just if the name is found as it is given.
Otherwise the attributes are stored in small letters under the small form of the name, whether there was an entry for it or
not, and what is known of every other name stays. -/
theorem answers_of_history (definition : List (String × List String)) (calls : List Call) (name : String)
    (attributes : List String) :
    ((after definition calls).contains name = true ↔ Text.lower name = name ∧
      ((∃ e ∈ definition, Text.lower e.1 = Text.lower name) ∨
        ∃ e ∈ stored (ofDefinition definition) calls, Text.lower e.1 = Text.lower name)) ∧
    (after definition calls).get name = (match latest (history definition calls) name with
      | none | some [] => .error (.noRelation name)
      | some names => .ok names) ∧
    ((after definition calls).contains name = true →
      (after definition calls).add name attributes = .error (.relationExists name) ∧
      after definition (calls ++ [.add name attributes]) = after definition calls) ∧
    ((after definition calls).contains name = false → ∃ extended,
      (after definition calls).add name attributes = .ok extended ∧
      after definition (calls ++ [.add name attributes]) = extended ∧
      ∀ k, extended.lookup k
        = if k = Text.lower name then some (attributes.map Text.lower) else (after definition calls).lookup k) := by
  have hstep : after definition (calls ++ [.add name attributes]) = (after definition calls).step (.add name attributes) := by
    rw [after, run, List.foldl_append]
    rfl
  refine ⟨contains_after_iff definition calls name, ?_, fun h => ?_, fun h => ?_⟩
  · have hlookup := lookup_after definition calls name
    unfold get
    generalize (after definition calls).lookup name = found at hlookup ⊢
    subst hlookup
    rcases latest (history definition calls) name with _ | _ | _ <;> rfl
  · rw [hstep, step, add_of_contains h]
    exact ⟨rfl, rfl⟩
  · rw [hstep, step, add_of_not_contains h]
    exact ⟨_, rfl, rfl, fun k => lookup_upsert _ _ _ k⟩

/-- A relation that was defined in small letters is not found under a name with a capital letter, and one that is added under
that name takes its place. -/
theorem capital_name_replaces :
    Text.lower "Alpha" = "alpha" ∧ (after [("alpha", ["a1"])] []).contains "alpha" = true ∧
      (after [("alpha", ["a1"])] []).contains "Alpha" = false ∧
      ((after [("alpha", ["a1"])] []).get "Alpha").toOption = none ∧
      ((after [("alpha", ["a1"])] []).add "Alpha" ["b"]).toOption = some [("alpha", ["b"])] ∧
      after [("alpha", ["a1"])] [.add "Alpha" ["b"]] = [("alpha", ["b"])] := by
  decide +kernel

end Schema

end RelAlg
