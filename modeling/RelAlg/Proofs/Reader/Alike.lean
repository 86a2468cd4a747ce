import Mathlib
import RelAlg.Surface.Statement

/-!
# Written syntax side by side

What is said of written expressions and statements by what they hold: their operands (`Over`), their words from left to right
(`words`), and whether they are the same up to the spelling of the operators, the second as a lexicon spells them (`Like`). In
the usual spelling what is alike is equal (`Statement.Like.eq`).
-/

namespace RelAlg

open Surface

/-! ## Operands -/

namespace Surface.Clause

/-- The operands of a clause from left to right. -/
def operands : Clause → List Operand
  | compare left _ right => [left, right]
  | defined _ operand => [operand]
  | negate _ body => body.operands
  | link left _ right => left.operands ++ right.operands

/-- Every operand of the clause satisfies the predicate. -/
def Over (ψ : Operand → Prop) (clause : Clause) : Prop := ∀ o ∈ clause.operands, ψ o

/-- What holds of the operands of linked clauses holds of those of the whole. -/
theorem over_linkAll {ψ : Operand → Prop} {first : Clause} {others : List (String × Clause)} (hf : first.Over ψ)
    (ho : ∀ next ∈ others, next.2.Over ψ) : (linkAll first others).Over ψ := by
  induction others generalizing first with
  | nil => exact hf
  | cons next others ih =>
    intro o h
    rcases List.mem_append.mp h with h | h
    · exact hf o h
    · exact ih (ho next List.mem_cons_self) (fun n hn => ho n (List.mem_cons_of_mem next hn)) o h

end Surface.Clause

namespace Surface

/-- The operands in the condition of an operator. -/
def UnaryOp.operands : UnaryOp → List Operand
  | select _ clause => clause.operands
  | project .. | rename .. => []

def BinaryOp.operands : BinaryOp → List Operand
  | plain _ => []
  | conditioned _ clause => clause.operands

mutual

/-- The operands in the conditions of an expression from left to right. -/
def Expression.operands : Expression → List Operand
  | .relation _ => []
  | .unary op e => op.operands ++ e.operands
  | .chain first links => first.operands ++ links.operands

def Links.operands : Links → List Operand
  | .nil => []
  | .cons op e rest => op.operands ++ (e.operands ++ rest.operands)

end

/-- The operands in the conditions of what a statement asks for; a declaration asks for nothing. -/
def Statement.operands : Statement → List Operand
  | assign _ _ _ value => value.operands
  | query e => e.operands
  | declare _ => []

def UnaryOp.Over (ψ : Operand → Prop) (op : UnaryOp) : Prop := ∀ o ∈ op.operands, ψ o

def BinaryOp.Over (ψ : Operand → Prop) (op : BinaryOp) : Prop := ∀ o ∈ op.operands, ψ o

/-- Every operand in the conditions of the expression satisfies the predicate. -/
def Expression.Over (ψ : Operand → Prop) (e : Expression) : Prop := ∀ o ∈ e.operands, ψ o

def Statement.Over (ψ : Operand → Prop) (s : Statement) : Prop := ∀ o ∈ s.operands, ψ o

/-- What holds of the operands in an operator and in its operand holds of those in both together. -/
theorem Expression.over_unary {ψ : Operand → Prop} {op : UnaryOp} {e : Expression} (ho : op.Over ψ) (he : e.Over ψ) :
    (unary op e).Over ψ := by
  intro o h
  rw [operands, List.mem_append] at h
  exact h.elim (ho o) (he o)

/-- What holds of the operands in all links holds of those in the chain. -/
theorem Expression.over_chain {ψ : Operand → Prop} {first : Expression} {links : List (BinaryOp × Expression)}
    (hf : first.Over ψ) (hl : ∀ link ∈ links, link.1.Over ψ ∧ link.2.Over ψ) : (chain first (Links.ofList links)).Over ψ := by
  have hlinks : ∀ o ∈ (Links.ofList links).operands, ψ o := by
    induction links with
    | nil => intro o h; cases h
    | cons link links ih =>
      intro o h
      rw [Links.ofList, Links.operands, List.mem_append, List.mem_append] at h
      obtain ⟨hop, he⟩ := hl link List.mem_cons_self
      exact h.elim (hop o) fun h => h.elim (he o) (ih (fun l hm => hl l (List.mem_cons_of_mem link hm)) o)
  intro o h
  rw [operands, List.mem_append] at h
  exact h.elim (hf o) (hlinks o)

end Surface

/-! ## Words -/

namespace Surface

open Nested

attribute [local simp] flatten flattenAll

/-- The words of a clause from left to right. -/
def Clause.words (clause : Clause) : List String := clause.phrase.flatten

def Renaming.words (target : Renaming) : List String := target.phrase.flatten

def UnaryOp.words (op : UnaryOp) : List String := flattenAll op.phrases

def BinaryOp.words (op : BinaryOp) : List String := flattenAll op.phrases

/-- The words of an expression from left to right. -/
def Expression.words (e : Expression) : List String := e.phrase.flatten

def Links.words (links : Links) : List String := flattenAll links.phrases

/-- The words of a statement from left to right. -/
def Statement.words (s : Statement) : List String := s.phrase.flatten

/-- The words of a list of words are the words. -/
@[simp] theorem flatten_words (texts : List String) : (Phrase.words texts).flatten = texts := by
  induction texts with
  | nil => rfl
  | cons s texts ih => exact congrArg (s :: ·) ih

/-- A comparison has its two operands with the comparator between them. -/
@[simp] theorem Clause.words_compare (left right : Operand) (op : String) :
    (compare left op right).words = [left.text, op, right.text] := rfl

/-- A test for a value has its word and its operand. -/
@[simp] theorem Clause.words_defined (op : String) (operand : Operand) : (defined op operand).words = [op, operand.text] := rfl

/-- A negation has its word first. -/
@[simp] theorem Clause.words_negate (op : String) (body : Clause) : (negate op body).words = op :: body.words := by
  simp [words, phrase]

/-- A connective stands between the words of its two sides. -/
@[simp] theorem Clause.words_link (left right : Clause) (op : String) :
    (link left op right).words = left.words ++ op :: right.words := by
  simp [words, phrase]

/-- Linked clauses have their words in order, each with its connective before it. -/
theorem Clause.words_linkAll (first : Clause) (others : List (String × Clause)) :
    (linkAll first others).words = first.words ++ others.flatMap fun next => next.1 :: next.2.words := by
  induction others generalizing first with
  | nil => simp [linkAll]
  | cons next others ih => simp [linkAll, ih]

@[simp] theorem Renaming.words_relation (name : String) : (relation name).words = [name] := rfl

/-- New attribute names are all the words there are. -/
@[simp] theorem Renaming.words_attributes (names : List String) : (attributes names).words = names := by
  simp [words, phrase]

/-- A relation name stands before the new attribute names. -/
@[simp] theorem Renaming.words_both (name : String) (names : List String) : (both name names).words = name :: names := by
  simp [words, phrase]

/-- A projection has its word first and then its references. -/
@[simp] theorem UnaryOp.words_project (op : String) (references : List String) :
    (project op references).words = op :: references := by
  simp [words, phrases]

/-- A selection has its word first and then those of its condition. -/
@[simp] theorem UnaryOp.words_select (op : String) (clause : Clause) : (select op clause).words = op :: clause.words := by
  simp [words, Clause.words, phrases]

/-- A renaming has its word first and then those of its target. -/
@[simp] theorem UnaryOp.words_rename (op : String) (target : Renaming) : (rename op target).words = op :: target.words := by
  simp [words, Renaming.words, phrases]

@[simp] theorem BinaryOp.words_plain (op : String) : (plain op).words = [op] := rfl

/-- A join with a condition has its word first and then those of the condition. -/
@[simp] theorem BinaryOp.words_conditioned (op : String) (clause : Clause) :
    (conditioned op clause).words = op :: clause.words := by
  simp [words, Clause.words, phrases]

@[simp] theorem Expression.words_relation (name : String) : (relation name).words = [name] := rfl

/-- An operator with one operand stands before it. -/
@[simp] theorem Expression.words_unary (op : UnaryOp) (e : Expression) : (unary op e).words = op.words ++ e.words := by
  simp [words, UnaryOp.words, phrase]

/-- A chain has the words of its first operand and then those of its links. -/
@[simp] theorem Expression.words_chain (first : Expression) (links : Links) :
    (chain first links).words = first.words ++ links.words := by
  simp [words, Links.words, phrase]

/-- Links have the words of each operator and of the operand behind it. -/
theorem Links.words_ofList (links : List (BinaryOp × Expression)) :
    (ofList links).words = links.flatMap fun link => link.1.words ++ link.2.words := by
  induction links with
  | nil => rfl
  | cons link links ih =>
    have hone : (cons link.1 link.2 (ofList links)).words = link.1.words ++ link.2.words ++ (ofList links).words := by
      simp [words, BinaryOp.words, Expression.words, phrases]
    rw [ofList, hone, ih, List.flatMap_cons]

/-- An assignment has its target, its symbol and its value in this order. -/
@[simp] theorem Statement.words_assign (name op : String) (attributes : Option (List String)) (value : Expression) :
    (assign name attributes op value).words = name :: (attributes.getD [] ++ op :: value.words) := by
  cases attributes <;> simp [words, Expression.words, phrase]

@[simp] theorem Statement.words_query (e : Expression) : (query e).words = e.words := rfl

end Surface

/-! ## Spelled otherwise -/

namespace Surface

variable {lex : Lexicon}

/-- The operators with two operands that have no condition. -/
def plainSymbols : List Symbol := [.join, .naturalJoin, .intersect, .union, .difference]

/-- The operators with two operands that have a condition. -/
def conditionedSymbols : List Symbol := [.thetaJoin, .fullOuterJoin, .leftOuterJoin, .rightOuterJoin]

/-- The operators are the same, the first in the usual spelling and the second as the lexicon spells it. -/
inductive UnaryOp.Like (lex : Lexicon) : UnaryOp → UnaryOp → Prop where
  | project (references : List String) :
      Like lex (.project (Lexicon.usual .project) references) (.project (lex .project) references)
  | select (clause : Clause) : Like lex (.select (Lexicon.usual .select) clause) (.select (lex .select) clause)
  | rename (target : Renaming) : Like lex (.rename (Lexicon.usual .rename) target) (.rename (lex .rename) target)

inductive BinaryOp.Like (lex : Lexicon) : BinaryOp → BinaryOp → Prop where
  | plain {s : Symbol} (hs : s ∈ plainSymbols) : Like lex (.plain (Lexicon.usual s)) (.plain (lex s))
  | conditioned {s : Symbol} (hs : s ∈ conditionedSymbols) (clause : Clause) :
      Like lex (.conditioned (Lexicon.usual s) clause) (.conditioned (lex s) clause)

mutual

/-- The expressions are the same up to the spelling of the operators. -/
inductive Expression.Like (lex : Lexicon) : Expression → Expression → Prop where
  | relation (name : String) : Expression.Like lex (.relation name) (.relation name)
  | unary {op op' : UnaryOp} {e e' : Expression} (ho : op.Like lex op') (he : Expression.Like lex e e') :
      Expression.Like lex (.unary op e) (.unary op' e')
  | chain {first first' : Expression} {links links' : Links} (hf : Expression.Like lex first first')
      (hl : Links.Like lex links links') : Expression.Like lex (.chain first links) (.chain first' links')

inductive Links.Like (lex : Lexicon) : Links → Links → Prop where
  | nil : Links.Like lex .nil .nil
  | cons {op op' : BinaryOp} {e e' : Expression} {rest rest' : Links} (ho : op.Like lex op') (he : Expression.Like lex e e')
      (hr : Links.Like lex rest rest') : Links.Like lex (.cons op e rest) (.cons op' e' rest')

end

/-- The statements are the same up to the spelling of the operators. -/
inductive Statement.Like (lex : Lexicon) : Statement → Statement → Prop where
  | assign (name op : String) (attributes : Option (List String)) {value value' : Expression} (h : value.Like lex value') :
      Like lex (.assign name attributes op value) (.assign name attributes op value')
  | query {e e' : Expression} (h : e.Like lex e') : Like lex (.query e) (.query e')
  | declare (declaration : Declaration) : Like lex (.declare declaration) (.declare declaration)

/-- Links are alike if they are link by link. -/
theorem Links.like_ofList {links links' : List (BinaryOp × Expression)}
    (h : List.Forall₂ (fun l l' => l.1.Like lex l'.1 ∧ l.2.Like lex l'.2) links links') :
    (ofList links).Like lex (ofList links') := by
  induction h with
  | nil => exact .nil
  | cons h _ ih => exact .cons h.1 h.2 ih

/-- In the usual spelling operators with one operand that are alike are equal. -/
theorem UnaryOp.Like.eq {op op' : UnaryOp} (h : op.Like .standard op') : op = op' := by
  cases h <;> rfl

/-- In the usual spelling operators with two operands that are alike are equal. -/
theorem BinaryOp.Like.eq {op op' : BinaryOp} (h : op.Like .standard op') : op = op' := by
  cases h <;> rfl

mutual

/-- In the usual spelling expressions that are alike are equal. -/
theorem Expression.Like.eq {e e' : Expression} : e.Like .standard e' → e = e'
  | .relation _ => rfl
  | .unary ho he => by rw [ho.eq, he.eq]
  | .chain hf hl => by rw [hf.eq, hl.eq]

/-- In the usual spelling links that are alike are equal. -/
theorem Links.Like.eq {links links' : Links} : links.Like .standard links' → links = links'
  | .nil => rfl
  | .cons ho he hr => by rw [ho.eq, he.eq, hr.eq]

end

/-- In the usual spelling statements that are alike are equal. -/
theorem Statement.Like.eq {s s' : Statement} (h : s.Like .standard s') : s = s' := by
  cases h with
  | assign name op attributes h => rw [h.eq]
  | query h => rw [h.eq]
  | declare => rfl

end Surface

end RelAlg
