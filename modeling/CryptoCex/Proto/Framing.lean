import CryptoCex.Lib.Frames
import CryptoCex.Lib.FrameStream
import Mathlib.Data.List.Forall2
import Mathlib.Tactic.NormNum

/-!
# The frames of the engine's connections

An embedding of `framing.rs`: a frame is the length of a JSON text in four bytes, the highest
first, and the text. The reader takes the first byte of the length on its own, so that a stream
that ends between two frames is not an error.

The writer and the reader have one limit for the length, and what the writer accepts is read
back (`frame_codec`). The JSON texts are a parameter.
-/

namespace CryptoCex.Proto

open Frames (Endian)
open FrameStream

/-- Maximum accepted frame payload size in bytes. -/
def maxFrameBytes : ℕ := 1024 * 1024

inductive FrameError where
  /-- Frame length exceeds the maximum. -/
  | frameTooLarge (length max : ℕ)
  | io
  | json
deriving DecidableEq, Repr

/-- What `serde_json` does with the values of a type. -/
structure Json (α : Type*) where
  toVec : α → Option (List UInt8)
  fromSlice : List UInt8 → Option α

/-- The next bytes of a stream, if it has so many. -/
def readExact (count : ℕ) (stream : List UInt8) : Option (List UInt8 × List UInt8) :=
  if stream.length < count then none else some (stream.take count, stream.drop count)

section Codec

variable {α : Type*} (json : Json α)

/-- Reads one frame; `none` when the stream ends before a new frame starts. -/
def readJsonFrame (stream : List UInt8) : Except FrameError (Option α) × List UInt8 :=
  match readExact 1 stream with
  | none => (.ok none, [])
  | some (first, stream) =>
    match readExact 3 stream with
    | none => (.error .io, [])
    | some (others, stream) =>
      let len := Endian.get .big (first ++ others)
      if len > maxFrameBytes then (.error (.frameTooLarge len maxFrameBytes), stream)
      else
        match readExact len stream with
        | none => (.error .io, [])
        | some (payload, stream) =>
          match json.fromSlice payload with
          | none => (.error .json, stream)
          | some frame => (.ok (some frame), stream)

/-- The bytes written for one frame. -/
def writeJsonFrame (frame : α) : Except FrameError (List UInt8) :=
  match json.toVec frame with
  | none => .error .json
  | some payload =>
    if payload.length > maxFrameBytes then
      .error (.frameTooLarge payload.length maxFrameBytes)
    else if payload.length < 2 ^ 32 then .ok (Endian.put .big payload.length ++ payload)
    else .error (.frameTooLarge payload.length maxFrameBytes)

end Codec

variable {α : Type*} {json : Json α}

/-! ## The reader -/

/-- Reading gives that many bytes from the front. -/
theorem readExact_eq_some {count : ℕ} {stream bytes rest : List UInt8}
    (h : readExact count stream = some (bytes, rest)) :
    bytes.length = count ∧ stream = bytes ++ rest := by
  unfold readExact at h
  split_ifs at h with hlen
  cases h
  rw [List.length_take, List.take_append_drop]
  exact ⟨by omega, rfl⟩

/-- Bytes that are there are read, whatever follows. -/
theorem readExact_append {bytes : List UInt8} {count : ℕ} (h : bytes.length = count)
    (tail : List UInt8) : readExact count (bytes ++ tail) = some (bytes, tail) := by
  subst h
  rw [readExact, if_neg (by rw [List.length_append]; omega), List.take_left, List.drop_left]

/-- A stream that is too short is not read. -/
theorem readExact_short {count : ℕ} {stream : List UInt8} (h : stream.length < count) :
    readExact count stream = none :=
  if_pos h

/-- A frame takes the four bytes of its length. -/
theorem readJsonFrame_advances {stream rest : List UInt8} {frame : α}
    (h : readJsonFrame json stream = (.ok (some frame), rest)) : rest.length < stream.length := by
  unfold readJsonFrame at h
  -- the length is read byte by byte, then the payload
  cases hfirst : readExact 1 stream with
  | none => simp [hfirst] at h
  | some r₁ =>
    cases hothers : readExact 3 r₁.2 with
    | none => simp [hfirst, hothers] at h
    | some r₂ =>
      cases hpayload : readExact (Endian.get .big (r₁.1 ++ r₂.1)) r₂.2 with
      | none =>
        simp only [hfirst, hothers, hpayload] at h
        split_ifs at h
        all_goals cases h
      | some r₃ =>
        cases hjson : json.fromSlice r₃.1 with
        | none =>
          simp only [hfirst, hothers, hpayload, hjson] at h
          split_ifs at h
          all_goals cases h
        | some value =>
          simp only [hfirst, hothers, hpayload, hjson] at h
          split_ifs at h
          · cases h
          · have hrest : r₃.2 = rest := congrArg Prod.snd h
            have h₁ := readExact_eq_some hfirst
            have h₂ := readExact_eq_some hothers
            have h₃ := readExact_eq_some hpayload
            rw [h₁.2, h₂.2, h₃.2, hrest]
            simp only [List.length_append, h₁.1]
            omega

def jsonReader (json : Json α) : Reader α UInt8 FrameError where
  read := readJsonFrame json
  advances := readJsonFrame_advances

theorem read_jsonReader (stream : List UInt8) :
    (jsonReader json).read stream = readJsonFrame json stream :=
  rfl

/-! ## What was written -/

/-- The frame of a value that the writer accepts. -/
theorem writeJsonFrame_eq_ok {value : α} {frame : List UInt8}
    (h : writeJsonFrame json value = .ok frame) : ∃ payload, json.toVec value = some payload ∧
      payload.length ≤ maxFrameBytes ∧ frame = Endian.put .big payload.length ++ payload := by
  unfold writeJsonFrame at h
  cases hjson : json.toVec value with
  | none => simp [hjson] at h
  | some payload =>
    simp only [hjson] at h
    split_ifs at h with hlarge hshort
    cases h
    exact ⟨payload, rfl, not_lt.mp hlarge, rfl⟩

/-- A length as it is put in front of a text: the reader takes its first byte and then the
others. -/
theorem put_big_eq (length : ℕ) :
    ∃ first others, Endian.put .big length = first :: others ∧ others.length = 3 := by
  have hlen := Endian.length_put .big length
  cases hput : Endian.put .big length with
  | nil => simp [hput] at hlen
  | cons first others =>
    rw [hput, List.length_cons] at hlen
    exact ⟨first, others, rfl, by omega⟩

theorem lt_of_le_maxFrameBytes {length : ℕ} (h : length ≤ maxFrameBytes) : length < 2 ^ 32 :=
  lt_of_le_of_lt h (by norm_num [maxFrameBytes])

/-- What the reader does behind a length that the writer has put. -/
theorem readJsonFrame_put {length : ℕ} (hlength : length ≤ maxFrameBytes) (tail : List UInt8) :
    readJsonFrame json (Endian.put .big length ++ tail) =
      match readExact length tail with
      | none => (.error .io, [])
      | some (payload, stream) =>
        match json.fromSlice payload with
        | none => (.error .json, stream)
        | some frame => (.ok (some frame), stream) := by
  rcases put_big_eq length with ⟨first, others, hput, hlen⟩
  have hfirst : readExact 1 (first :: (others ++ tail)) = some ([first], others ++ tail) := rfl
  have hget : Endian.get .big ([first] ++ others) = length := by
    rw [List.singleton_append, ← hput]
    exact Endian.get_put .big (lt_of_le_maxFrameBytes hlength)
  rw [hput, List.cons_append]
  simp only [readJsonFrame, hfirst, readExact_append hlen, hget, if_neg (not_lt.mpr hlength)]

/-- A stream that ends within a length. -/
theorem readJsonFrame_short {stream : List UInt8} (hne : stream ≠ []) (hshort : stream.length < 4) :
    readJsonFrame json stream = (.error .io, []) := by
  cases stream with
  | nil => exact absurd rfl hne
  | cons first others =>
    have hfirst : readExact 1 (first :: others) = some ([first], others) := rfl
    have hothers : readExact 3 others = none :=
      readExact_short (Nat.lt_of_succ_lt_succ hshort)
    simp only [readJsonFrame, hfirst, hothers]

/-- A stream that ends within a text. -/
theorem readJsonFrame_put_short {payload cut : List UInt8}
    (hlength : payload.length ≤ maxFrameBytes)
    (hcut : cut <+: payload) (hne : cut ≠ payload) :
    readJsonFrame json (Endian.put .big payload.length ++ cut) = (.error .io, []) := by
  have hshort : cut.length < payload.length := by
    refine lt_of_le_of_ne hcut.length_le ?_
    intro heq
    exact hne (hcut.eq_of_length heq)
  rw [readJsonFrame_put hlength, readExact_short hshort]

/-- What the writer accepts is a frame for the reader. -/
theorem frame_of_written {value : α} {frame : List UInt8}
    (hjson : ∀ payload, json.toVec value = some payload → json.fromSlice payload = some value)
    (h : writeJsonFrame json value = .ok frame) : (jsonReader json).Frame value frame := by
  rcases writeJsonFrame_eq_ok h with ⟨payload, hvec, hlength, rfl⟩
  have hput := Endian.length_put .big payload.length
  constructor
  · intro tail
    rw [read_jsonReader, List.append_assoc, readJsonFrame_put hlength, readExact_append rfl]
    simp only [hjson payload hvec]
  · intro cut hcut hnil hne
    refine ⟨.io, [], ?_⟩
    rw [read_jsonReader]
    by_cases hshort : cut.length < 4
    · exact readJsonFrame_short hnil hshort
    · -- the length is complete
      have hin : Endian.put .big payload.length <+: cut :=
        List.prefix_of_prefix_length_le (List.prefix_append _ _) hcut (by omega)
      rcases hin with ⟨cut, rfl⟩
      refine readJsonFrame_put_short hlength ((List.prefix_append_right_inj _).mp hcut) ?_
      rintro rfl
      exact hne rfl

/-! ## The codec -/

/-- The reader finds the end of the stream only where no frame starts. -/
theorem read_nil : (jsonReader json).read [] = (.ok none, []) :=
  rfl

/-- A frame that was written is not too long for the reader. -/
theorem readJsonFrame_written {value : α} {frame : List UInt8}
    (h : writeJsonFrame json value = .ok frame) (tail : List UInt8) (length max : ℕ) :
    (readJsonFrame json (frame ++ tail)).1 ≠ .error (.frameTooLarge length max) := by
  rcases writeJsonFrame_eq_ok h with ⟨payload, _, hlength, rfl⟩
  rw [List.append_assoc, readJsonFrame_put hlength, readExact_append rfl]
  cases hjson : json.fromSlice payload with
  | none => simp [hjson]
  | some value => simp [hjson]

/-- Values whose frames were written are read back in their order, and then the end of the
stream. From a stream that was cut the reader gets the values of the `k` frames that are complete,
then the end of the stream if the cut is between two frames and an error if it is not. A frame
that was written is never too long for the reader. -/
theorem frame_codec (json : Json α) (values : List α) (frames : List (List UInt8))
    (hjson : ∀ value payload, json.toVec value = some payload →
      json.fromSlice payload = some value)
    (hwrite : List.Forall₂ (fun value frame => writeJsonFrame json value = .ok frame)
      values frames) :
    (jsonReader json).readAll frames.flatten = (values, .ok ()) ∧
    (∀ cut, cut <+: frames.flatten → ∃ k ≤ values.length,
      (frames.take k).flatten <+: cut ∧
      (k < values.length → ¬ (frames.take (k + 1)).flatten <+: cut) ∧
      ((jsonReader json).readAll cut).1 = values.take k ∧
      (((jsonReader json).readAll cut).2 = .ok () ↔ cut = (frames.take k).flatten)) ∧
    (∀ value frame, writeJsonFrame json value = .ok frame → ∀ tail length max,
      (readJsonFrame json (frame ++ tail)).1 ≠ .error (.frameTooLarge length max)) := by
  have hframes : List.Forall₂ (jsonReader json).Frame values frames := by
    refine List.Forall₂.imp ?_ hwrite
    intro value frame hvalue
    exact frame_of_written (hjson value) hvalue
  refine ⟨Reader.readAll_frames read_nil hframes, ?_, ?_⟩
  · intro cut hcut
    exact Reader.readAll_cut read_nil hframes hcut
  · intro value frame hvalue
    exact readJsonFrame_written hvalue

/-- The texts `true` and `false`. -/
def boolJson : Json Bool where
  toVec value := some (if value then [116, 114, 117, 101] else [102, 97, 108, 115, 101])
  fromSlice text :=
    if text = [116, 114, 117, 101] then some true
    else if text = [102, 97, 108, 115, 101] then some false
    else none

/-- Two frames, whole and cut within the second length. -/
theorem frame_codec_bool :
    (jsonReader boolJson).readAll [0, 0, 0, 4, 116, 114, 117, 101, 0, 0, 0, 5, 102, 97, 108, 115,
      101] = ([true, false], .ok ()) ∧
    ∃ k ≤ 2, ((jsonReader boolJson).readAll [0, 0, 0, 4, 116, 114, 117, 101, 0, 0]).1 =
      [true, false].take k := by
  have hjson : ∀ value payload, boolJson.toVec value = some payload →
      boolJson.fromSlice payload = some value := by
    intro value payload h
    cases value
    all_goals
      cases h
      rfl
  have hwrite : List.Forall₂ (fun value frame => writeJsonFrame boolJson value = .ok frame)
      [true, false] [[0, 0, 0, 4, 116, 114, 117, 101], [0, 0, 0, 5, 102, 97, 108, 115, 101]] := by
    refine .cons ?_ (.cons ?_ .nil)
    · decide +kernel
    · decide +kernel
  rcases frame_codec boolJson _ _ hjson hwrite with ⟨hall, hcut, _⟩
  refine ⟨hall, ?_⟩
  rcases hcut [0, 0, 0, 4, 116, 114, 117, 101, 0, 0] (by decide) with ⟨k, hk, _, _, hread, _⟩
  exact ⟨k, hk, hread⟩

end CryptoCex.Proto
