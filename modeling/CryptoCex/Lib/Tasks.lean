import Mathlib.Data.List.Count
import Mathlib.Data.List.Perm.Basic

/-!
# Numbered tasks

Tasks that take turns are kept in a list, each under its position. A step of one of them puts
its new state in its place (`List.set`) and leaves the others as they are.

* `forall_set`: what holds of every task still does, if it does of the one that moved.
* `map_set`: what a step leaves alone of its task.
* `countP_set`, `flatMap_set`: how a count of tasks changes, and what they hold together.
-/

namespace Tasks

variable {α : Type*} {tasks : List α} {i : ℕ} {a b : α}

/-- What holds of every task, and of a new state of one of them, holds of all after its step. -/
theorem forall_set {P : α → Prop} (h : ∀ c ∈ tasks, P c) (hb : P b) :
    ∀ c ∈ tasks.set i b, P c := by
  intro c hc
  rcases List.mem_or_eq_of_mem_set hc with hold | rfl
  · exact h c hold
  · exact hb

/-- What a step leaves alone stays in its place. -/
theorem map_set {β : Type*} {g : α → β} (h : tasks[i]? = some a) (heq : g b = g a) :
    (tasks.set i b).map g = tasks.map g := by
  have hget : (tasks.map g)[i]? = some (g b) := by
    rw [List.getElem?_map, h, heq]
    rfl
  rcases List.getElem?_eq_some_iff.mp hget with ⟨hlt, hval⟩
  rw [List.map_set, ← hval, List.set_getElem_self]

/-- The task leaves the count of its old state and enters that of the new one. -/
theorem countP_set (h : tasks[i]? = some a) (p : α → Bool) :
    (tasks.set i b).countP p + (if p a then 1 else 0) =
      tasks.countP p + (if p b then 1 else 0) := by
  rcases List.getElem?_eq_some_iff.mp h with ⟨hlt, rfl⟩
  have hone : (if p tasks[i] then 1 else 0) ≤ tasks.countP p := by
    split_ifs with hp
    · exact List.countP_pos_iff.mpr ⟨_, List.getElem_mem hlt, hp⟩
    · exact Nat.zero_le _
  rw [List.countP_set hlt]
  omega

/-- What the tasks hold together changes by what the task held. -/
theorem flatMap_set {β : Type*} (h : tasks[i]? = some a) (g : α → List β) :
    (g a ++ (tasks.set i b).flatMap g).Perm (g b ++ tasks.flatMap g) := by
  induction tasks generalizing i with
  | nil => cases h
  | cons c tasks ih =>
    cases i with
    | zero =>
      cases h
      simp only [List.set_cons_zero, List.flatMap_cons]
      exact List.perm_append_comm_assoc _ _ _
    | succ i =>
      simp only [List.set_cons_succ, List.flatMap_cons]
      have hrest := (ih h).append_left (g c)
      have hbefore := List.perm_append_comm_assoc (g a) (g c) ((tasks.set i b).flatMap g)
      have hafter := List.perm_append_comm_assoc (g c) (g b) (tasks.flatMap g)
      exact hbefore.trans (hrest.trans hafter)

end Tasks
