import PegTree.Proofs.Match.Simulation

/-!
# Laws of outcomes

Going on behind a match and trying something else after a failure are associative, and a match of
nothing and a failure without a miss are their units.  What was captured and missed before a run may be
put in front of it at any time.
-/

namespace PegTree

namespace Outcome

theorem after_after (o : Outcome) (ts us : List Tree) (log more : List Miss) :
    (o.after us more).after ts log = o.after (ts ++ us) (log ++ more) := by
  cases o <;> simp [after]

/-! ## Going on -/

theorem andThen_stay (o : Outcome) : o.andThen .stay = o := by
  cases o <;> simp [andThen, stay, after]

theorem stay_andThen (c : Cursor) (next : Cursor → Outcome) : (stay c).andThen next = next c :=
  after_nil

theorem andThen_after (o : Outcome) (next : Cursor → Outcome) (ts : List Tree) (log : List Miss) :
    (o.after ts log).andThen next = (o.andThen next).after ts log := by
  cases o with
  | overflow o | failed more => rfl
  | matched stop us more => exact (after_after (next stop) ts us log more).symm

theorem andThen_assoc (o : Outcome) (next last : Cursor → Outcome) :
    (o.andThen next).andThen last = o.andThen fun c => (next c).andThen last := by
  cases o with
  | overflow o | failed log => rfl
  | matched stop ts log => exact andThen_after (next stop) last ts log

/-! ## Trying something else -/

theorem orElse_failed_nil (o : Outcome) : o.orElse (.failed []) = o := by
  cases o <;> simp [orElse, after]

theorem orElse_after (o other : Outcome) (log : List Miss) :
    (o.after [] log).orElse other = (o.orElse other).after [] log := by
  cases o with
  | overflow o | matched stop ts missed => rfl
  | failed missed => exact (after_after other [] [] log missed).symm

theorem orElse_assoc (o other third : Outcome) :
    (o.orElse other).orElse third = o.orElse (other.orElse third) := by
  cases o with
  | overflow o | matched stop ts log => rfl
  | failed log => exact orElse_after other third log

end Outcome

end PegTree
