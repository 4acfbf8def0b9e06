/-!
# Computations that may fail

When a computation that may fail gives a value, so did each of its steps.  What becomes of the value does
not depend on the fault that there is otherwise.
-/

namespace PegTree

variable {ε α β : Type}

theorem map_eq_ok_iff {f : α → β} {x : Except ε α} {b : β} :
    f <$> x = .ok b ↔ ∃ a, x = .ok a ∧ f a = b := by
  cases x <;> simp [Functor.map, Except.map]

theorem bind_eq_ok_iff {x : Except ε α} {f : α → Except ε β} {b : β} :
    x >>= f = .ok b ↔ ∃ a, x = .ok a ∧ f a = .ok b := by
  cases x <;> simp [bind, Except.bind]

theorem bind_eq_error_iff {x : Except ε α} {f : α → Except ε β} {e : ε} :
    x >>= f = .error e ↔ x = .error e ∨ ∃ a, x = .ok a ∧ f a = .error e := by
  cases x <;> simp [bind, Except.bind]

theorem toOption_map (f : α → β) (x : Except ε α) :
    (f <$> x).toOption = x.toOption.map f := by
  cases x <;> rfl

theorem toOption_bind (x : Except ε α) (f : α → Except ε β) :
    (x >>= f).toOption = x.toOption.bind fun a => (f a).toOption := by
  cases x <;> rfl

theorem toOption_eq_some_iff {x : Except ε α} {a : α} : x.toOption = some a ↔ x = .ok a := by
  cases x <;> simp [Except.toOption]

theorem ne_error_of_isOk {x : Except ε α} (h : x.isOk = true) (e : ε) : x ≠ .error e := by
  rintro rfl
  cases h

/-! ## Faults -/

/-- The fault for which there is no value. -/
def fault? : Except ε α → Option ε
  | .ok _ => none
  | .error e => some e

theorem fault?_eq_some_iff {x : Except ε α} {e : ε} : fault? x = some e ↔ x = .error e := by
  cases x <;> simp [fault?]

theorem fault?_eq_none_iff {x : Except ε α} : fault? x = none ↔ ∃ a, x = .ok a := by
  cases x <;> simp [fault?]

@[simp]
theorem fault?_map (f : α → β) (x : Except ε α) : fault? (f <$> x) = fault? x := by
  cases x <;> rfl

/-- Of two computations that do not need each other's value the first fault counts. -/
theorem fault?_both {γ : Type} (x : Except ε α) (y : Except ε β) (f : α → β → γ) :
    fault? (x >>= fun a => y >>= fun b => .ok (f a b)) = (fault? x).or (fault? y) := by
  cases x <;> cases y <;> rfl

end PegTree
