import Mathlib.Data.List.Forall2
import PegTree.Grammar.LeftRecursion

/-!
# What the analysis sees

The analysis of a grammar looks at two things only: whether a body is nullable, given the rules that are,
and which calls are leading in it.  So grammars with rules that are the same in this, in the same order,
have the same table of nullable rules (`Grammar.SeenAlike.nullableTable_eq`), and the same cycle is found
in both (`Grammar.SeenAlike.firstCycle?_eq`).
-/

namespace PegTree

/-- At one place two lists in a relation have related entries, or none of them has an entry. -/
theorem entries_of_forall₂ {α β : Type} {R : α → β → Prop} {as : List α} {bs : List β}
    (h : List.Forall₂ R as bs) (i : Nat) :
    (as[i]? = none ∧ bs[i]? = none) ∨ ∃ a b, as[i]? = some a ∧ bs[i]? = some b ∧ R a b := by
  induction h generalizing i with
  | nil => exact .inl ⟨rfl, rfl⟩
  | @cons a b as bs hfirst _ ih =>
    cases i with
    | zero => exact .inr ⟨a, b, rfl, rfl, hfirst⟩
    | succ i => exact ih i

/-- Expressions that the analysis of a grammar cannot tell apart. -/
structure Expr.SeenAlike (e e' : Expr) : Prop where
  nullable : ∀ known, e'.nullable known = e.nullable known
  leadingCalls : ∀ known, e'.leadingCalls known = e.leadingCalls known

/-- Grammars that their analysis cannot tell apart. -/
def Grammar.SeenAlike (g g' : Grammar) : Prop :=
  List.Forall₂ (fun r r' => r.body.SeenAlike r'.body) g.rules g'.rules

namespace Grammar.SeenAlike

variable {g g' : Grammar}

theorem size_eq (h : g.SeenAlike g') : g'.size = g.size :=
  (List.Forall₂.length_eq h).symm

theorem noteNullable_eq (h : g.SeenAlike g') : g'.noteNullable = g.noteNullable := by
  funext table id
  rw [noteNullable, noteNullable]
  rcases entries_of_forall₂ h id with ⟨hr, hr'⟩ | ⟨r, r', hr, hr', hsame⟩
  · rw [hr, hr']
  · simp only [hr, hr', hsame.nullable]

theorem sweepNullable_eq (h : g.SeenAlike g') : g'.sweepNullable = g.sweepNullable := by
  funext table
  rw [sweepNullable, sweepNullable, h.noteNullable_eq, h.size_eq]

theorem nullableFrom_eq (h : g.SeenAlike g') (table : NullableTable) :
    g'.nullableFrom table = g.nullableFrom table := by
  fun_induction nullableFrom g table with
  | case1 table next hnext =>
    rw [nullableFrom, h.sweepNullable_eq]
    exact if_pos hnext
  | case2 table next hnext ih =>
    rw [nullableFrom, h.sweepNullable_eq]
    exact (if_neg hnext).trans ih

/-- The same rules may match nothing. -/
theorem nullableTable_eq (h : g.SeenAlike g') : g'.nullableTable = g.nullableTable := by
  have hstart : g'.rules.map (fun _ => false) = g.rules.map fun _ => false := by
    rw [List.map_const', List.map_const', List.Forall₂.length_eq h]
  rw [nullableTable, nullableTable, hstart, h.nullableFrom_eq]

theorem leadingCalls_eq (h : g.SeenAlike g') (table : NullableTable) :
    g'.leadingCalls table = g.leadingCalls table := by
  funext id
  rw [leadingCalls, leadingCalls]
  rcases entries_of_forall₂ h id with ⟨hr, hr'⟩ | ⟨r, r', hr, hr', hsame⟩
  · rw [hr, hr']
  · simp only [hr, hr', Option.map_some, hsame.leadingCalls]

/-- The same cycle is found. -/
theorem firstCycle?_eq (h : g.SeenAlike g') : g'.firstCycle? = g.firstCycle? := by
  rw [firstCycle?, firstCycle?, h.nullableTable_eq, h.leadingCalls_eq, h.size_eq]

end Grammar.SeenAlike

end PegTree
