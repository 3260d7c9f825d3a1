import Mathlib.Data.List.Induction
import Mathlib.Tactic.Common

/-!
# Sliding-window admission

A limiter counts, when something arrives, what it let in less than a window ago, and lets the
arrival in when that is less than its limit. It counts under a key that may depend on the time,
and then sees only what it let in under the same key.

* `countKey_admitted_le`: under one key a window never holds more than the limit.
* `count_admitted_stretch`: with the number of the stretch of time as key, each stretch lets in
  its first arrivals.
* `stretch_iff`: so a window across the end of a stretch can hold up to twice the limit, and
  this says for which arrivals no window holds more than the limit.
-/

namespace SlidingWindow

variable {K : Type*} [DecidableEq K] {limit window : ℕ} {key : ℕ → K} {arrivals : List ℕ}

/-- How many of the times lie in `[a, b)`. -/
def count (a b : ℕ) (times : List ℕ) : ℕ := times.countP fun t => a ≤ t ∧ t < b

/-- How many of the times count at `now`: those under its key and less than a window old. -/
def recent (window : ℕ) (key : ℕ → K) (now : ℕ) (times : List ℕ) : ℕ :=
  times.countP fun t => key t = key now ∧ now < t + window

/-- One arrival. -/
def takeArrival (limit window : ℕ) (key : ℕ → K) (taken : List ℕ) (now : ℕ) : List ℕ :=
  if recent window key now taken < limit then taken ++ [now] else taken

/-- The arrivals let in, in order. -/
def admitted (limit window : ℕ) (key : ℕ → K) (arrivals : List ℕ) : List ℕ :=
  arrivals.foldl (takeArrival limit window key) []

/-- An arrival is judged by the arrivals admitted before it. -/
theorem admitted_concat (now : ℕ) :
    admitted limit window key (arrivals ++ [now]) =
      takeArrival limit window key (admitted limit window key arrivals) now := by
  simp [admitted]

theorem mem_takeArrival {taken : List ℕ} {now t : ℕ}
    (h : t ∈ takeArrival limit window key taken now) :
    t ∈ taken ∨ t = now := by
  unfold takeArrival at h
  split_ifs at h
  · simpa using h
  · exact Or.inl h

/-- Only arrivals are admitted. -/
theorem mem_of_mem_admitted {t : ℕ} (h : t ∈ admitted limit window key arrivals) :
    t ∈ arrivals := by
  induction arrivals using List.reverseRecOn with
  | nil => exact h
  | append_singleton arrivals now ih =>
    rw [admitted_concat] at h
    rcases mem_takeArrival h with h | rfl
    · exact List.mem_append_left _ (ih h)
    · exact List.mem_append_right _ (List.mem_singleton_self _)

/-- Only which times share a key matters. -/
theorem admitted_congr_key {K' : Type*} [DecidableEq K'] {key' : ℕ → K'}
    (h : ∀ s t, key s = key t ↔ key' s = key' t) :
    admitted limit window key arrivals = admitted limit window key' arrivals := by
  have hrule : takeArrival limit window key = takeArrival limit window key' := by
    funext taken now
    have hrecent : recent window key now taken = recent window key' now taken :=
      List.countP_congr fun t _ => by simp only [h]
    simp only [takeArrival, hrecent]
  rw [admitted, admitted, hrule]

/-! ## Counting -/

section Count

variable {a b c now : ℕ} {times : List ℕ}

theorem count_concat : count a b (times ++ [now]) =
    count a b times + if a ≤ now ∧ now < b then 1 else 0 := by
  simp [count, List.countP_append, List.countP_singleton]

/-- A span of time is counted in two parts. -/
theorem count_split (hab : a ≤ b) (hbc : b ≤ c) :
    count a c times = count a b times + count b c times := by
  induction times with
  | nil => rfl
  | cons t times ih =>
    simp only [count, List.countP_cons] at ih ⊢
    rw [ih]
    -- each time is on one side of the cut
    rcases Nat.lt_or_ge t b with hlt | hge
    · have hleft : (a ≤ t ∧ t < c) ↔ (a ≤ t ∧ t < b) := by omega
      have hright : ¬(b ≤ t ∧ t < c) := by omega
      simp only [hleft, hright]
      simp
      omega
    · have hleft : ¬(a ≤ t ∧ t < b) := by omega
      have hright : (a ≤ t ∧ t < c) ↔ (b ≤ t ∧ t < c) := by omega
      simp only [hleft, hright]
      simp
      omega

end Count

/-! ## One key -/

/-- Under one key no window holds more than the limit. -/
theorem countKey_admitted_le (hsorted : arrivals.Pairwise (· ≤ ·)) (k : K) (a : ℕ) :
    (admitted limit window key arrivals).countP
      (fun t => key t = k ∧ a ≤ t ∧ t < a + window) ≤ limit := by
  induction arrivals using List.reverseRecOn with
  | nil => simp [admitted]
  | append_singleton arrivals now ih =>
    rw [List.pairwise_append] at hsorted
    have hold := ih hsorted.1
    rw [admitted_concat, takeArrival]
    split_ifs with hroom
    · rw [List.countP_append, List.countP_singleton]
      by_cases hin : key now = k ∧ a ≤ now ∧ now < a + window
      · -- what the window held before is recent when the last arrival comes
        have hrecent : (admitted limit window key arrivals).countP
            (fun t => key t = k ∧ a ≤ t ∧ t < a + window) ≤
              recent window key now (admitted limit window key arrivals) := by
          refine List.countP_mono_left fun t ht hwin => ?_
          have hle : t ≤ now :=
            hsorted.2.2 t (mem_of_mem_admitted ht) now (List.mem_singleton_self _)
          simp only [decide_eq_true_eq] at hwin ⊢
          exact ⟨hwin.1.trans hin.1.symm, by omega⟩
        simp only [hin, and_self, decide_true, if_true]
        omega
      · simp only [hin, decide_false, Bool.false_eq_true, if_false]
        omega
    · exact hold

/-- With one key for all times. -/
theorem count_admitted_le (hsorted : arrivals.Pairwise (· ≤ ·)) (hkey : ∀ s t, key s = key t)
    (a : ℕ) : count a (a + window) (admitted limit window key arrivals) ≤ limit := by
  have hall : count a (a + window) (admitted limit window key arrivals) =
      (admitted limit window key arrivals).countP
        fun t => key t = key 0 ∧ a ≤ t ∧ t < a + window :=
    List.countP_congr fun t _ => by simp [hkey t 0]
  rw [hall]
  exact countKey_admitted_le hsorted (key 0) a

/-! ## A key for each stretch of time -/

section Stretch

/-- The stretch a time lies in begins here. -/
def stretch (window now : ℕ) : ℕ := now / window * window

theorem stretch_le (window now : ℕ) : stretch window now ≤ now := Nat.div_mul_le_self now window

/-- A time is in its stretch. -/
theorem lt_stretch_add (hw : 0 < window) (now : ℕ) : now < stretch window now + window :=
  Nat.lt_div_mul_add hw

/-- A time lies in the stretch that begins at `b * window` if and only if its number is `b`. -/
theorem div_eq_iff (hw : 0 < window) {b t : ℕ} :
    t / window = b ↔ b * window ≤ t ∧ t < b * window + window := by
  rw [Nat.div_eq_iff hw]
  constructor
  · intro h
    omega
  · intro h
    omega

/-- Until its end each stretch has let in its first arrivals, up to the limit. -/
theorem count_admitted_stretch (hw : 0 < window) (hsorted : arrivals.Pairwise (· ≤ ·)) {b y : ℕ}
    (hy : y ≤ b * window + window) :
    count (b * window) y (admitted limit window (· / window) arrivals) =
      min limit (count (b * window) y arrivals) := by
  induction arrivals using List.reverseRecOn generalizing y with
  | nil => simp [admitted, count]
  | append_singleton arrivals now ih =>
    rw [List.pairwise_append] at hsorted
    have hle : ∀ t ∈ arrivals, t ≤ now :=
      fun t ht => hsorted.2.2 t ht now (List.mem_singleton_self _)
    have hold := ih hsorted.1 hy
    rw [admitted_concat, count_concat]
    by_cases hin : b * window ≤ now ∧ now < y
    · -- the arrival is in the stretch, and so is everything that counts when it comes
      have hnow : now / window = b := (div_eq_iff hw).mpr ⟨hin.1, by omega⟩
      have hrecent : recent window (· / window) now (admitted limit window (· / window) arrivals) =
          count (b * window) y (admitted limit window (· / window) arrivals) := by
        refine List.countP_congr fun t ht => ?_
        have htle := hle t (mem_of_mem_admitted ht)
        simp only [decide_eq_true_eq, hnow, div_eq_iff hw]
        omega
      rw [takeArrival, hrecent]
      simp only [hin, and_self, if_true]
      split_ifs with hroom
      · rw [count_concat]
        simp only [hin, and_self, if_true]
        omega
      · omega
    · have hsame : count (b * window) y (takeArrival limit window (· / window)
          (admitted limit window (· / window) arrivals) now) =
            count (b * window) y (admitted limit window (· / window) arrivals) := by
        unfold takeArrival
        split_ifs
        · rw [count_concat]
          simp [hin]
        · rfl
      simp only [hin, if_false]
      omega

/-- What a window holds: what its stretch lets in less what it let in before the window, and
what the next stretch lets in before the window ends. -/
theorem count_admitted_window (hw : 0 < window) (hsorted : arrivals.Pairwise (· ≤ ·)) (a : ℕ) :
    count a (a + window) (admitted limit window (· / window) arrivals) =
      min limit (count (stretch window a) (stretch window a + window) arrivals) -
          min limit (count (stretch window a) a arrivals) +
        min limit (count (stretch window a + window) (a + window) arrivals) := by
  have hle := stretch_le window a
  have hlt := lt_stretch_add hw a
  have hnext : stretch window a + window = (a / window + 1) * window := by
    rw [stretch, Nat.succ_mul]
  set taken := admitted limit window (· / window) arrivals
  have hwhole : count (stretch window a) (stretch window a + window) taken =
      min limit (count (stretch window a) (stretch window a + window) arrivals) :=
    count_admitted_stretch hw hsorted (Nat.le_refl _)
  have hbefore : count (stretch window a) a taken =
      min limit (count (stretch window a) a arrivals) :=
    count_admitted_stretch hw hsorted (Nat.le_of_lt hlt)
  have hafter : count (stretch window a + window) (a + window) taken =
      min limit (count (stretch window a + window) (a + window) arrivals) := by
    rw [hnext]
    refine count_admitted_stretch hw hsorted ?_
    rw [← hnext]
    omega
  -- the window is cut where the next stretch begins, and its stretch where the window does
  have hsplit : count a (a + window) taken =
      count a (stretch window a + window) taken +
        count (stretch window a + window) (a + window) taken :=
    count_split (by omega) (by omega)
  have hcut : count (stretch window a) (stretch window a + window) taken =
      count (stretch window a) a taken + count a (stretch window a + window) taken :=
    count_split hle (by omega)
  omega

/-- The arrivals are such that what a stretch lets in from any time on and what the next one
lets in within a window of that time are together at most the limit. -/
def Spread (limit window : ℕ) (arrivals : List ℕ) : Prop :=
  ∀ a, min limit (count (stretch window a) (stretch window a + window) arrivals) -
        min limit (count (stretch window a) a arrivals) +
      min limit (count (stretch window a + window) (a + window) arrivals) ≤ limit

/-- No window holds more than the limit if and only if the arrivals are spread. -/
theorem stretch_iff (hw : 0 < window) (hsorted : arrivals.Pairwise (· ≤ ·)) :
    (∀ a, count a (a + window) (admitted limit window (· / window) arrivals) ≤ limit) ↔
      Spread limit window arrivals := by
  refine forall_congr' fun a => ?_
  rw [count_admitted_window hw hsorted]

end Stretch

end SlidingWindow
