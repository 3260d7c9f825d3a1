import Mathlib.Tactic.Common

/-!
# Computations that may fail

A chain of `Except` computations succeeds if every link does: `bind_eq_ok` takes such a
chain apart from the front.
-/

namespace Except

universe u

variable {ε : Type*} {α β : Type u}

/-- A sequence succeeds exactly when both of its parts do. -/
theorem bind_eq_ok {x : Except ε α} {f : α → Except ε β} {b : β} :
    x >>= f = .ok b ↔ ∃ a, x = .ok a ∧ f a = .ok b := by
  cases x with
  | error e => simp [bind, Except.bind]
  | ok a => simp [bind, Except.bind]

theorem toOption_eq_some {x : Except ε α} {a : α} : x.toOption = some a ↔ x = .ok a := by
  cases x <;> simp [Except.toOption]

end Except
