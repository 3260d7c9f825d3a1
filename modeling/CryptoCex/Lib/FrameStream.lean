import Mathlib.Data.List.Infix
import Mathlib.Tactic.Common

/-!
# Streams of frames

A reader takes one value from the beginning of a stream, finds the stream at its end, or fails.
`readAll` calls it again and again. A value's frame is a piece of the stream from which the
reader gets the value whatever follows, and nothing but an error as long as the piece is not
complete (`Frame`).

The values of a stream of frames are read back, and a stream that was cut gives the values
whose frames are complete, and an error unless the cut is between two frames (`readAll_cut`).
-/

namespace FrameStream

/-- Reads from the beginning of a stream and leaves the rest of it. A value takes at least one
element. -/
structure Reader (α β ε : Type*) where
  read : List β → Except ε (Option α) × List β
  advances : ∀ {stream a rest}, read stream = (.ok (some a), rest) → rest.length < stream.length

namespace Reader

variable {α β ε : Type*} (r : Reader α β ε)

/-- Reads until the end of the stream or an error. -/
def readAll (stream : List β) : List α × Except ε Unit :=
  match _h : r.read stream with
  | (.error e, _) => ([], .error e)
  | (.ok none, _) => ([], .ok ())
  | (.ok (some a), rest) => (a :: (readAll rest).1, (readAll rest).2)
termination_by stream.length
decreasing_by all_goals exact r.advances _h

/-- The frame of a value. -/
structure Frame (a : α) (frame : List β) : Prop where
  whole : ∀ tail, r.read (frame ++ tail) = (.ok (some a), tail)
  torn : ∀ cut, cut <+: frame → cut ≠ [] → cut ≠ frame → ∃ e rest, r.read cut = (.error e, rest)

variable {r} {a : α} {stream rest cut : List β} {as : List α} {frames : List (List β)} {e : ε}

/-- A value that is read is the first of all that are read. -/
theorem readAll_value (h : r.read stream = (.ok (some a), rest)) :
    r.readAll stream = (a :: (r.readAll rest).1, (r.readAll rest).2) := by
  rw [readAll]
  split
  · next heq => simp [h] at heq
  · next heq => simp [h] at heq
  · next heq =>
    rw [h] at heq
    cases heq
    rfl

/-- A clean end of the stream ends the reading. -/
theorem readAll_end (h : r.read stream = (.ok none, rest)) : r.readAll stream = ([], .ok ()) := by
  rw [readAll]
  split
  · next heq => simp [h] at heq
  · rfl
  · next heq => simp [h] at heq

/-- An error ends the reading and is reported. -/
theorem readAll_error (h : r.read stream = (.error e, rest)) :
    r.readAll stream = ([], .error e) := by
  rw [readAll]
  split
  · next heq =>
    rw [h] at heq
    cases heq
    rfl
  · next heq => simp [h] at heq
  · next heq => simp [h] at heq

/-- A stream that ends within a frame. -/
theorem readAll_torn (hend : r.read [] = (.ok none, rest)) {frame : List β}
    (hframe : r.Frame a frame) (hcut : cut <+: frame) (hne : cut ≠ frame) :
    (r.readAll cut).1 = [] ∧ ((r.readAll cut).2 = .ok () ↔ cut = []) := by
  by_cases hnil : cut = []
  · rw [hnil, readAll_end hend]
    simp
  · rcases hframe.torn cut hcut hnil hne with ⟨e, _, herror⟩
    rw [readAll_error herror]
    simp [hnil]

/-- What is read from a stream of frames that was cut: the values of the first `k` frames, which
are the complete ones. -/
theorem readAll_cut (hend : r.read [] = (.ok none, rest))
    (hframes : List.Forall₂ r.Frame as frames) (hcut : cut <+: frames.flatten) :
    ∃ k ≤ as.length, (frames.take k).flatten <+: cut ∧
      (k < as.length → ¬ (frames.take (k + 1)).flatten <+: cut) ∧
      (r.readAll cut).1 = as.take k ∧
      ((r.readAll cut).2 = .ok () ↔ cut = (frames.take k).flatten) := by
  induction hframes generalizing cut with
  | nil =>
    have hnil : cut = [] := List.prefix_nil.mp hcut
    subst hnil
    refine ⟨0, le_refl _, List.nil_prefix, ?_, ?_, ?_⟩
    · intro hlt
      exact absurd hlt (Nat.lt_irrefl 0)
    · rw [readAll_end hend, List.take_nil]
    · simp [readAll_end hend]
  | @cons a frame as frames hframe hframes ih =>
    rw [List.flatten_cons] at hcut
    by_cases hlen : frame.length ≤ cut.length
    · -- the first frame is complete
      have hwhole : frame <+: cut :=
        List.prefix_of_prefix_length_le (List.prefix_append _ _) hcut hlen
      rcases hwhole with ⟨cut, rfl⟩
      rcases ih ((List.prefix_append_right_inj _).mp hcut) with ⟨k, hk, hin, hmax, hvalues, hlast⟩
      have hread := readAll_value (hframe.whole cut)
      refine ⟨k + 1, Nat.succ_le_succ hk, ?_, ?_, ?_, ?_⟩
      · exact (List.prefix_append_right_inj _).mpr hin
      · intro hlt hnext
        exact hmax (Nat.lt_of_succ_lt_succ hlt) ((List.prefix_append_right_inj _).mp hnext)
      · rw [hread, List.take_succ_cons]
        exact congrArg (a :: ·) hvalues
      · rw [hread, List.take_succ_cons, List.flatten_cons, List.append_cancel_left_eq]
        exact hlast
    · have htorn : cut <+: frame := by
        refine List.prefix_of_prefix_length_le hcut (List.prefix_append _ _) ?_
        exact Nat.le_of_not_le hlen
      have hne : cut ≠ frame := by
        rintro rfl
        exact hlen (le_refl _)
      rcases readAll_torn hend hframe htorn hne with ⟨hvalues, hlast⟩
      refine ⟨0, Nat.zero_le _, List.nil_prefix, ?_, hvalues, hlast⟩
      intro _ hnext
      rw [List.take_succ_cons, List.take_zero, List.flatten_cons, List.flatten_nil,
        List.append_nil] at hnext
      exact hlen hnext.length_le

/-- The values of a stream of frames are read back. -/
theorem readAll_frames (hend : r.read [] = (.ok none, rest))
    (hframes : List.Forall₂ r.Frame as frames) : r.readAll frames.flatten = (as, .ok ()) := by
  induction hframes with
  | nil => exact readAll_end hend
  | @cons a frame as frames hframe _ ih =>
    rw [List.flatten_cons, readAll_value (hframe.whole _), ih]

end Reader

end FrameStream
