import Mathlib.Data.List.Induction
import Mathlib.Tactic.Common

/-!
# Runs of a machine

A machine is a step function on states: `step s a` is the state after action `a`, or
`none` where the action is not enabled. A run is a list of actions that are enabled one
after the other.

* `run_append`, `run_concat`: a run can be cut anywhere.
* `run_invariant`: what every step keeps holds at the end of a run; the steps may be known to
  meet a condition (`Along`), so that an invariant can depend on what the run avoids.
* `Along.imp`: what follows from the condition where the invariant holds, holds of every step.
* `Along.and_mem`: the condition may speak of the list of actions, too.
* `along_of_checkAlong`, `along_of_check`: on a concrete run such a condition can be tested.
* `run_induction`: the same for invariants that speak of the actions taken so far.
-/

namespace Machine

variable {σ α : Type*} {step : σ → α → Option σ} {s t : σ}

/-- Takes the actions one after the other. -/
def run (step : σ → α → Option σ) (s : σ) : List α → Option σ
  | [] => some s
  | a :: as => (step s a).bind fun t => run step t as

/-- A run is one part of it after the other. -/
theorem run_append (step : σ → α → Option σ) (s : σ) (as bs : List α) :
    run step s (as ++ bs) = (run step s as).bind fun t => run step t bs := by
  induction as generalizing s with
  | nil => rfl
  | cons a as ih =>
    simp only [List.cons_append, run]
    cases step s a with
    | none => rfl
    | some t => exact ih t

/-- The last step of a run. -/
theorem run_concat {as : List α} {a : α} (h : run step s (as ++ [a]) = some t) :
    ∃ mid, run step s as = some mid ∧ step mid a = some t := by
  rw [run_append] at h
  rcases Option.bind_eq_some_iff.mp h with ⟨mid, hmid, hlast⟩
  rcases Option.bind_eq_some_iff.mp hlast with ⟨t', hstep, hnil⟩
  cases hnil
  exact ⟨mid, hmid, hstep⟩

/-- Every step of the run meets a condition on its action and the state it is taken in. -/
def Along (step : σ → α → Option σ) (Ok : σ → α → Prop) (s : σ) : List α → Prop
  | [] => True
  | a :: as => Ok s a ∧ ∀ t, step s a = some t → Along step Ok t as

/-- What holds along a run holds of the step taken after any part of it. -/
theorem Along.at {Ok : σ → α → Prop} {as bs : List α} {a : α}
    (h : Along step Ok s (as ++ a :: bs)) (hrun : run step s as = some t) : Ok t a := by
  induction as generalizing s with
  | nil =>
    cases hrun
    exact h.1
  | cons b as ih =>
    rcases Option.bind_eq_some_iff.mp hrun with ⟨mid, hmid, hrest⟩
    exact ih (h.2 mid hmid) hrest

/-- The invariant rule. -/
theorem run_invariant (Inv : σ → Prop) (Ok : σ → α → Prop)
    (hstep : ∀ t a t', Inv t → Ok t a → step t a = some t' → Inv t')
    (h0 : Inv s) {as : List α} (hok : Along step Ok s as)
    (hrun : run step s as = some t) : Inv t := by
  induction as generalizing s with
  | nil =>
    cases hrun
    exact h0
  | cons a as ih =>
    rcases Option.bind_eq_some_iff.mp hrun with ⟨mid, hmid, hrest⟩
    exact ih (hstep s a mid h0 hok.1 hmid) (hok.2 mid hmid) hrest

/-- Steps that meet a condition meet what follows from it where an invariant holds. -/
theorem Along.imp {Ok Ok' : σ → α → Prop} (Inv : σ → Prop)
    (hstep : ∀ t a t', Inv t → Ok t a → step t a = some t' → Inv t')
    (himp : ∀ t a, Inv t → Ok t a → Ok' t a) (h0 : Inv s) {as : List α}
    (h : Along step Ok s as) : Along step Ok' s as := by
  induction as generalizing s with
  | nil => trivial
  | cons a as ih =>
    exact ⟨himp s a h0 h.1, fun t ht => ih (hstep s a t h0 h.1 ht) (h.2 t ht)⟩

/-- What holds of every action of the list can be added to the condition. -/
theorem Along.and_mem {Ok : σ → α → Prop} {P : α → Prop} {as : List α} (h : Along step Ok s as)
    (hP : ∀ a ∈ as, P a) : Along step (fun t a => Ok t a ∧ P a) s as := by
  induction as generalizing s with
  | nil => trivial
  | cons a as ih =>
    refine ⟨⟨h.1, hP a List.mem_cons_self⟩, ?_⟩
    intro t ht
    exact ih (h.2 t ht) fun b hb => hP b (List.mem_cons_of_mem a hb)

/-- A test of every step of the run. -/
def checkAlong (step : σ → α → Option σ) (check : σ → α → Bool) (s : σ) : List α → Bool
  | [] => true
  | a :: as =>
    check s a &&
      match step s a with
      | some t => checkAlong step check t as
      | none => true

/-- A test shows that the steps meet a condition, if it does so where an invariant holds
that the tested steps keep. -/
theorem along_of_checkAlong {check : σ → α → Bool} {Ok : σ → α → Prop} (Inv : σ → Prop)
    (hcheck : ∀ t a, Inv t → check t a = true → Ok t a ∧ ∀ t', step t a = some t' → Inv t')
    (h0 : Inv s) {as : List α} (h : checkAlong step check s as = true) :
    Along step Ok s as := by
  induction as generalizing s with
  | nil => trivial
  | cons a as ih =>
    rcases Bool.and_eq_true_iff.mp h with ⟨hhead, hrest⟩
    rcases hcheck s a h0 hhead with ⟨hok, hkeep⟩
    refine ⟨hok, ?_⟩
    intro t hstep
    rw [hstep] at hrest
    exact ih (hkeep t hstep) hrest

/-- The same where the test shows the condition in every state. -/
theorem along_of_check {check : σ → α → Bool} {Ok : σ → α → Prop}
    (hcheck : ∀ t a, check t a = true → Ok t a) {as : List α}
    (h : checkAlong step check s as = true) : Along step Ok s as :=
  along_of_checkAlong (fun _ => True) (fun t a _ htest => ⟨hcheck t a htest, fun _ _ => trivial⟩)
    trivial h

/-- The induction rule for runs: `Ok` is what is known of a step that follows `past` in
the state it leads to. -/
theorem run_induction (Inv : List α → σ → Prop) (Ok : List α → σ → α → Prop)
    (hstep : ∀ past t a t', run step s past = some t → Inv past t → Ok past t a →
      step t a = some t' → Inv (past ++ [a]) t')
    (h0 : Inv [] s) {as : List α}
    (hok : ∀ l a l' mid, as = l ++ a :: l' → run step s l = some mid → Ok l mid a)
    (hrun : run step s as = some t) : Inv as t := by
  induction as using List.reverseRecOn generalizing t with
  | nil =>
    cases hrun
    exact h0
  | append_singleton as a ih =>
    rcases run_concat hrun with ⟨mid, hmid, hlast⟩
    refine hstep as mid a t hmid (ih ?_ hmid) (hok as a [] mid rfl hmid) hlast
    intro l b l' mid' hsplit hl
    exact hok l b (l' ++ [a]) mid' (by rw [hsplit, List.append_assoc, List.cons_append]) hl

end Machine
