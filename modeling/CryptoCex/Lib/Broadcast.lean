import Mathlib.Data.List.Basic
import Mathlib.Tactic.Common

/-!
# A bounded broadcast channel

Every value sent to the channel goes to every receiver, in the order of sending. The
channel keeps the last `capacity` values: a receiver that falls further behind loses the
values that were overwritten, is told how many they were, and goes on with the oldest one
that is left.

The channel is the list of all values sent to it. A receiver holds its position in that
list, starting at the end when it subscribes, so it sees nothing of what was sent before.

* `InStep.recv`, `InStep.send`: what a receiver got is part of what was sent, in order.
* `recv_inOrder`: a receiver that does not lag misses nothing.
-/

namespace Broadcast

/-- One receiver, with the values it took out so far and the number of those it missed. -/
structure Receiver (α : Type*) where
  /-- Position of the next value. -/
  next : ℕ
  received : List α
  skipped : ℕ

namespace Receiver

variable {α : Type*} {sent : List α} {r r' : Receiver α} {capacity : ℕ}

/-- A new receiver stands behind everything sent so far. -/
def subscribe (sent : List α) : Receiver α := ⟨sent.length, [], 0⟩

/-- The next value is no longer in the channel. -/
def Lags (capacity : ℕ) (sent : List α) (r : Receiver α) : Prop :=
  r.next + capacity < sent.length

instance : Decidable (Lags capacity sent r) := inferInstanceAs (Decidable (_ < _))

/-- Takes the next value, or catches up when it is lost. There is none to take at the end. -/
def recv (capacity : ℕ) (sent : List α) (r : Receiver α) : Option (Receiver α) :=
  if Lags capacity sent r then
    some { r with
      next := sent.length - capacity
      skipped := r.skipped + (sent.length - capacity - r.next) }
  else
    match sent[r.next]? with
    | some a => some { r with next := r.next + 1, received := r.received ++ [a] }
    | none => none

/-- The receiver stands inside the channel and holds only what it has passed there. -/
structure InStep (sent : List α) (r : Receiver α) : Prop where
  next_le : r.next ≤ sent.length
  sublist : r.received.Sublist (sent.take r.next)

/-- A new receiver is in step: it has read nothing and is owed nothing yet. -/
theorem InStep.subscribe (sent : List α) : InStep sent (subscribe sent) :=
  ⟨Nat.le_refl _, List.nil_sublist _⟩

/-- Sending keeps every receiver in step; what is sent only adds to what it is owed. -/
theorem InStep.send (h : InStep sent r) (new : List α) : InStep (sent ++ new) r := by
  refine ⟨?_, ?_⟩
  · rw [List.length_append]
    exact Nat.le_add_right_of_le h.next_le
  · rw [List.take_append_of_le_length h.next_le]
    exact h.sublist

/-- The two ways to receive. -/
theorem recv_cases (h : recv capacity sent r = some r') :
    (Lags capacity sent r ∧ r'.next = sent.length - capacity ∧ r'.received = r.received ∧
      r.skipped < r'.skipped) ∨
    ∃ a, ¬ Lags capacity sent r ∧ sent[r.next]? = some a ∧
      r' = { r with next := r.next + 1, received := r.received ++ [a] } := by
  unfold recv at h
  split at h
  · next hlag =>
    cases h
    refine .inl ⟨hlag, rfl, rfl, ?_⟩
    have hbehind : r.next + capacity < sent.length := hlag
    show r.skipped < r.skipped + (sent.length - capacity - r.next)
    omega
  · next hlag =>
    split at h
    · next a hget =>
      cases h
      exact .inr ⟨a, hlag, hget, rfl⟩
    · cases h

/-- Receiving keeps it in step, whether a value is read or a gap is reported. -/
theorem InStep.recv (h : InStep sent r) (hrecv : recv capacity sent r = some r') :
    InStep sent r' := by
  rcases recv_cases hrecv with ⟨hlag, hnext, hreceived, _⟩ | ⟨a, _, hget, rfl⟩
  · have hbehind : r.next + capacity < sent.length := hlag
    refine ⟨by omega, ?_⟩
    rw [hreceived]
    exact h.sublist.trans (List.take_sublist_take_left (by omega))
  · rcases List.getElem?_eq_some_iff.mp hget with ⟨hlt, hval⟩
    refine ⟨hlt, ?_⟩
    show (r.received ++ [a]).Sublist (sent.take (r.next + 1))
    rw [List.take_succ_eq_append_getElem hlt, hval]
    exact h.sublist.append_right [a]

/-- Without lag, what was received and what is still to come stay together the same. -/
theorem recv_inOrder (hlag : ¬ Lags capacity sent r) (hrecv : recv capacity sent r = some r') :
    r'.received ++ sent.drop r'.next = r.received ++ sent.drop r.next := by
  rcases recv_cases hrecv with ⟨hlags, _⟩ | ⟨a, _, hget, rfl⟩
  · exact absurd hlags hlag
  · rcases List.getElem?_eq_some_iff.mp hget with ⟨hlt, hval⟩
    rw [List.drop_eq_getElem_cons hlt, hval]
    simp only [List.append_assoc, List.singleton_append]

end Receiver

end Broadcast
