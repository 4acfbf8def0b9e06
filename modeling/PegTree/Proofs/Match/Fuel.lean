import PegTree.Proofs.Match.Locality

/-!
# More calls to spend

A run that does not reach the limit on nested rules gives the same with any higher limit.  The limit is
only ever looked at where a rule is called, so runs with different limits differ only where the one with
the lower limit overflows (`Grammar.outcome_kept`).
-/

namespace PegTree

/-- Another outcome is the same unless this one is an overflow. -/
def Outcome.KeptBy (o o' : Outcome) : Prop :=
  o.Safe → o' = o

/-- Nothing moves, and anything may come of a second run where the first one overflows. -/
def Transfer.spared : Transfer :=
  .still (fun _ _ => True) fun _ _ _ _ _ => trivial

theorem Transfer.spared_turns_iff {o o' : Outcome} : spared.Turns o o' ↔ o.KeptBy o' := by
  cases o with
  | overflow v => simp [spared, Outcome.KeptBy, Outcome.not_safe_overflow]
  | failed log => simp [spared, Outcome.KeptBy, Outcome.safe_failed]
  | matched stop ts log => simp [spared, Outcome.KeptBy, Outcome.safe_matched]

namespace Grammar

/-- A call that does not overflow gives the same with more calls left. -/
theorem outcome_kept (g : Grammar) {left left' : Nat} (h : left ≤ left') (mode : Mode)
    (id : RuleId) (c : Cursor) : (g.outcome left mode id c).KeptBy (g.outcome left' mode id c) := by
  obtain ⟨more, rfl⟩ := Nat.exists_eq_add_of_le h
  exact Transfer.spared_turns_iff.mp
    (outcome_turns (t := .spared) g.renumberedBy_id more (fun _ _ _ => trivial) left mode id c)

end Grammar

end PegTree
