/-!
# Tab stops

Every tab is replaced by blanks up to the next stop. Stops are eight columns apart, and a line feed or a carriage return
starts the count again.
-/

namespace RelAlg.Text

/-- The distance between two tab stops. -/
def tabWidth : Nat := 8

/-- Replace the tabs of a text that starts at the given column. -/
def expandTabsFrom (column : Nat) : List Char → List Char
  | [] => []
  | c :: cs =>
    if c = '\t' then
      let blanks := tabWidth - column % tabWidth
      List.replicate blanks ' ' ++ expandTabsFrom (column + blanks) cs
    else if c = '\n' ∨ c = '\r' then c :: expandTabsFrom 0 cs
    else c :: expandTabsFrom (column + 1) cs

/-- Replace the tabs of a text. -/
def expandTabs (cs : List Char) : List Char := expandTabsFrom 0 cs

/-- A text without tabs is left as it is. -/
theorem expandTabsFrom_of_not_mem (column : Nat) (cs : List Char) (h : '\t' ∉ cs) :
    expandTabsFrom column cs = cs := by
  induction cs generalizing column with
  | nil => rfl
  | cons c cs ih =>
    have hc : c ≠ '\t' := fun e => h (e ▸ List.mem_cons_self)
    have hcs : '\t' ∉ cs := fun e => h (List.mem_cons_of_mem c e)
    by_cases hn : c = '\n' ∨ c = '\r' <;> simp [expandTabsFrom, hc, hn, ih _ hcs]

end RelAlg.Text
