import Mathlib.Algebra.Order.BigOperators.Group.List
import Mathlib.Algebra.Order.Group.Abs

/-!
# Sums that must stay in range

A checked addition fails where the exact sum has a magnitude above a bound; where it returns, it
returns the exact sum. A list is summed from the left, so every partial sum has to be in range.
For summands that are not negative the last one is the largest: the sum of the list fails exactly
if the exact sum exceeds the bound (`sumFrom?_eq`).
-/

namespace CheckedSum

variable {α : Type*} [AddCommGroup α] [LinearOrder α]

/-- `a + b`, which fails above the bound. -/
def add? (bound a b : α) : Option α := if |a + b| ≤ bound then some (a + b) else none

/-- The sum of a list from the left, on top of `a`. -/
def sumFrom? (bound a : α) : List α → Option α
  | [] => some a
  | x :: xs => (add? bound a x).bind fun s => sumFrom? bound s xs

def sum? (bound : α) (xs : List α) : Option α := sumFrom? bound 0 xs

variable {bound a b s : α} {xs : List α}

theorem add?_eq_some_iff : add? bound a b = some s ↔ |a + b| ≤ bound ∧ a + b = s := by
  unfold add?
  split_ifs with h
  · simp [h]
  · simp [h]

/-- A checked sum that returns has added exactly. -/
theorem sumFrom?_exact (h : sumFrom? bound a xs = some s) : a + xs.sum = s := by
  induction xs generalizing a with
  | nil =>
    cases h
    simp
  | cons x xs ih =>
    obtain ⟨s', hfirst, hrest⟩ := Option.bind_eq_some_iff.mp h
    obtain ⟨_, rfl⟩ := add?_eq_some_iff.mp hfirst
    rw [List.sum_cons, ← add_assoc]
    exact ih hrest

/-- A sum that returns is the exact one. -/
theorem sum?_exact (h : sum? bound xs = some s) : xs.sum = s := by
  have hexact := sumFrom?_exact h
  rwa [zero_add] at hexact

variable [IsOrderedAddMonoid α]

theorem add?_eq (ha : 0 ≤ a) (hb : 0 ≤ b) :
    add? bound a b = if a + b ≤ bound then some (a + b) else none := by
  unfold add?
  rw [abs_of_nonneg (add_nonneg ha hb)]

/-- Of a sum without negative summands only the result matters. -/
theorem sumFrom?_eq (ha : 0 ≤ a) (hle : a ≤ bound) (hxs : ∀ x ∈ xs, 0 ≤ x) :
    sumFrom? bound a xs = if a + xs.sum ≤ bound then some (a + xs.sum) else none := by
  induction xs generalizing a with
  | nil => simp [sumFrom?, hle]
  | cons x xs ih =>
    have hx : 0 ≤ x := hxs x List.mem_cons_self
    have hrest : ∀ y ∈ xs, 0 ≤ y := fun y hy => hxs y (List.mem_cons_of_mem x hy)
    rw [sumFrom?, add?_eq ha hx, List.sum_cons, ← add_assoc]
    by_cases hfirst : a + x ≤ bound
    · rw [if_pos hfirst, Option.bind_some]
      exact ih (add_nonneg ha hx) hfirst hrest
    · -- the partial sum is out of range, so the whole one is
      have hall : ¬a + x + xs.sum ≤ bound := fun h =>
        hfirst ((le_add_of_nonneg_right (List.sum_nonneg hrest)).trans h)
      rw [if_neg hfirst, if_neg hall, Option.bind_none]

/-- For values that are not negative only the total counts: no partial sum exceeds it. -/
theorem sum?_eq (hbound : 0 ≤ bound) (hxs : ∀ x ∈ xs, 0 ≤ x) :
    sum? bound xs = if xs.sum ≤ bound then some xs.sum else none := by
  have heq := sumFrom?_eq (le_refl 0) hbound hxs
  rwa [zero_add] at heq

end CheckedSum
