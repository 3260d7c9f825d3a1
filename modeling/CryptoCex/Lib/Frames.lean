import Mathlib.Algebra.Group.Nat.Defs
import Mathlib.Data.List.Basic
import Mathlib.Tactic.Common

/-!
# Files of framed records

A log file is a sequence of frames: the length of a record's encoding in four bytes,
then the encoding. A reader stops at the end of the file or at a frame it cannot read,
and in the latter case the file is cut after the last frame that was read.

The reader takes fewer than four bytes for the end of the file, whether there are none
or a length was begun. Bytes of such a begun length stay in the file and displace all
frames that are written after them.
-/

namespace Frames

/-- How records are turned into bytes and back. -/
structure Codec (α : Type*) where
  encode : α → List UInt8
  decode : List UInt8 → Option α

/-- The order of the bytes of a length. -/
inductive Endian where
  | little
  | big
deriving DecidableEq, Repr

/-- The number with these digits to the base 256, the lowest first. -/
def digitsValue : List UInt8 → ℕ
  | [] => 0
  | d :: ds => d.toNat + 256 * digitsValue ds

/-- The lowest digits of a number to the base 256. -/
def digits : ℕ → ℕ → List UInt8
  | 0, _ => []
  | count + 1, n => .ofNat n :: digits count (n / 256)

namespace Endian

/-- A length in four bytes. -/
def put : Endian → ℕ → List UInt8
  | little, n => digits 4 n
  | big, n => (digits 4 n).reverse

/-- The length in the given bytes. -/
def get : Endian → List UInt8 → ℕ
  | little, bytes => digitsValue bytes
  | big, bytes => digitsValue bytes.reverse

end Endian

variable {α : Type*}

/-- A record that fits in a frame and is read back as it was written. -/
structure Codec.Fits (c : Codec α) (a : α) : Prop where
  roundTrip : c.decode (c.encode a) = some a
  short : (c.encode a).length < 2 ^ 32

/-- The bytes of a record. -/
def frame (e : Endian) (c : Codec α) (a : α) : List UInt8 :=
  e.put (c.encode a).length ++ c.encode a

/-- The bytes of records. -/
def frames (e : Endian) (c : Codec α) (as : List α) : List UInt8 := as.flatMap (frame e c)

/-- What a reader finds at its position. -/
inductive Read (α : Type*) where
  /-- A record, and the number of its bytes. -/
  | record (a : α) (size : ℕ)
  /-- The end of the file, or fewer bytes than a length has. -/
  | eof
  /-- A frame that is cut short or cannot be decoded. -/
  | corrupt

/-- Reads the frame at the beginning of the bytes. -/
def readOne (e : Endian) (c : Codec α) (bytes : List UInt8) : Read α :=
  if bytes.length < 4 then .eof
  else
    let length := e.get (bytes.take 4)
    let rest := bytes.drop 4
    if rest.length < length then .corrupt
    else
      match c.decode (rest.take length) with
      | none => .corrupt
      | some a => .record a (4 + length)

/-- The records from the reader's position on, and where to cut the file if a frame
cannot be read. Every record takes bytes, so `fuel` need not be more than their
number. -/
def scan (e : Endian) (c : Codec α) : ℕ → List UInt8 → ℕ → List α × Option ℕ
  | 0, _, _ => ([], none)
  | fuel + 1, bytes, lastGoodPos =>
    match readOne e c bytes with
    | .eof => ([], none)
    | .corrupt => ([], some lastGoodPos)
    | .record a size =>
      let (as, cut) := scan e c fuel (bytes.drop size) (lastGoodPos + size)
      (a :: as, cut)

/-- The records of a file, and the file as the reader leaves it. -/
def replay (e : Endian) (c : Codec α) (file : List UInt8) : List α × List UInt8 :=
  match scan e c file.length file 0 with
  | (as, none) => (as, file)
  | (as, some lastGoodPos) => (as, file.take lastGoodPos)

/-! ## Lengths -/

@[simp] theorem length_digits (count n : ℕ) : (digits count n).length = count := by
  induction count generalizing n with
  | zero => rfl
  | succ count ih => rw [digits, List.length_cons, ih]

/-- Four digits hold every length below `2 ^ 32`. -/
theorem digitsValue_digits {n : ℕ} (h : n < 2 ^ 32) : digitsValue (digits 4 n) = n := by
  simp only [digits, digitsValue, UInt8.toNat_ofNat']
  omega

theorem digitsValue_append (ds ds' : List UInt8) :
    digitsValue (ds ++ ds') = digitsValue ds + 256 ^ ds.length * digitsValue ds' := by
  induction ds with
  | nil => simp [digitsValue]
  | cons d ds ih =>
    simp only [List.cons_append, digitsValue, ih, List.length_cons, Nat.pow_succ]
    grind

@[simp] theorem Endian.length_put (e : Endian) (n : ℕ) : (e.put n).length = 4 := by
  cases e <;> simp [put]

/-- A length is read back in the byte order it was written in. -/
theorem Endian.get_put (e : Endian) {n : ℕ} (h : n < 2 ^ 32) : e.get (e.put n) = n := by
  cases e with
  | little => exact digitsValue_digits h
  | big =>
    simp only [put, get, List.reverse_reverse]
    exact digitsValue_digits h

/-! ## Reading frames -/

variable {e : Endian} {c : Codec α} {a : α} {as : List α} {tail : List UInt8}

theorem length_frame (e : Endian) (c : Codec α) (a : α) :
    (frame e c a).length = 4 + (c.encode a).length := by
  simp [frame]

@[simp] theorem frames_nil : frames e c [] = [] := rfl

@[simp] theorem frames_cons : frames e c (a :: as) = frame e c a ++ frames e c as := rfl

theorem frames_append (as as' : List α) :
    frames e c (as ++ as') = frames e c as ++ frames e c as' :=
  List.flatMap_append

/-- A frame is read back, whatever follows it. -/
theorem readOne_frame (h : c.Fits a) (tail : List UInt8) :
    readOne e c (frame e c a ++ tail) = .record a (frame e c a).length := by
  have hlong : ¬ (frame e c a ++ tail).length < 4 := by
    rw [List.length_append, length_frame]
    omega
  have htake : (frame e c a ++ tail).take 4 = e.put (c.encode a).length := by
    rw [frame, List.append_assoc, List.take_left' (Endian.length_put ..)]
  have hdrop : (frame e c a ++ tail).drop 4 = c.encode a ++ tail := by
    rw [frame, List.append_assoc, List.drop_left' (Endian.length_put ..)]
  have hwhole : ¬ (c.encode a ++ tail).length < (c.encode a).length := by
    rw [List.length_append]
    omega
  unfold readOne
  simp only [if_neg hlong, htake, hdrop, e.get_put h.short, if_neg hwhole, List.take_left,
    h.roundTrip, length_frame]

/-- Frames are read back, and the reader goes on behind them. -/
theorem scan_frames (h : ∀ a ∈ as, c.Fits a) {fuel : ℕ}
    (hfuel : (frames e c as ++ tail).length ≤ fuel) (pos : ℕ) :
    ∃ fuel', tail.length ≤ fuel' ∧
      scan e c fuel (frames e c as ++ tail) pos =
        (as ++ (scan e c fuel' tail (pos + (frames e c as).length)).1,
          (scan e c fuel' tail (pos + (frames e c as).length)).2) := by
  induction as generalizing fuel pos with
  | nil => exact ⟨fuel, hfuel, rfl⟩
  | cons a as ih =>
    have hsize := length_frame e c a
    rw [frames_cons, List.append_assoc, List.length_append] at hfuel
    obtain ⟨fuel, rfl⟩ : ∃ n, fuel = n + 1 := ⟨fuel - 1, by omega⟩
    have hrest : (frames e c as ++ tail).length ≤ fuel := by omega
    rcases ih (fun a ha => h a (List.mem_cons_of_mem _ ha)) hrest
      (pos + (frame e c a).length) with ⟨fuel', hfuel', hscan⟩
    refine ⟨fuel', hfuel', ?_⟩
    rw [frames_cons, List.append_assoc, scan, readOne_frame (h a List.mem_cons_self)]
    dsimp only
    rw [List.drop_left, hscan, List.length_append, Nat.add_assoc]
    rfl

/-- A tail of fewer than four bytes is taken for the end of the file and stays. -/
theorem replay_frames_short (h : ∀ a ∈ as, c.Fits a) (htail : tail.length < 4) :
    replay e c (frames e c as ++ tail) = (as, frames e c as ++ tail) := by
  rcases scan_frames h (Nat.le_refl (frames e c as ++ tail).length) 0 with ⟨fuel, _, hscan⟩
  have hend : ∀ pos, scan e c fuel tail pos = ([], none) := by
    intro pos
    cases fuel with
    | zero => rfl
    | succ fuel => simp only [scan, readOne, if_pos htail]
  unfold replay
  rw [hscan, hend]
  simp only [List.append_nil]

/-- A tail that cannot be read is cut off. -/
theorem replay_frames_corrupt (h : ∀ a ∈ as, c.Fits a) (htail : readOne e c tail = .corrupt) :
    replay e c (frames e c as ++ tail) = (as, frames e c as) := by
  rcases scan_frames h (Nat.le_refl (frames e c as ++ tail).length) 0 with ⟨fuel, hfuel, hscan⟩
  have hlong : ¬ tail.length < 4 := by
    intro hshort
    simp [readOne, hshort] at htail
  have hend : ∀ pos, scan e c fuel tail pos = ([], some pos) := by
    intro pos
    cases fuel with
    | zero => omega
    | succ fuel => simp only [scan, htail]
  unfold replay
  rw [hscan, hend]
  simp only [List.append_nil, Nat.zero_add, List.take_left]

/-- Whole frames are read back one by one, to the last byte. -/
theorem replay_frames (h : ∀ a ∈ as, c.Fits a) :
    replay e c (frames e c as) = (as, frames e c as) := by
  have hnil : replay e c (frames e c as ++ []) = _ := replay_frames_short h (by decide)
  rwa [List.append_nil] at hnil

/-! ## Torn frames -/

/-- A frame that is cut short behind its length is corrupt. -/
theorem readOne_torn (h : c.Fits a) {torn : List UInt8} (htorn : torn <+: frame e c a)
    (hproper : torn.length < (frame e c a).length) (hlong : 4 ≤ torn.length) :
    readOne e c torn = .corrupt := by
  rcases htorn with ⟨missing, hframe⟩
  have hsize := length_frame e c a
  have htake : torn.take 4 = e.put (c.encode a).length := by
    have hput : (torn ++ missing).take 4 = e.put (c.encode a).length := by
      rw [hframe, frame, List.take_left' (Endian.length_put ..)]
    rwa [List.take_append_of_le_length hlong] at hput
  have hshort : (torn.drop 4).length < (c.encode a).length := by
    rw [List.length_drop]
    omega
  simp only [readOne, if_neg (Nat.not_lt.mpr hlong), htake, e.get_put h.short, if_pos hshort]

/-- A frame written behind a begun length is corrupt, if its length has one digit and
the lowest digit comes first. -/
theorem readOne_little_displaced {torn : List UInt8} (hbegun : torn ≠ []) (hlen : torn.length < 4)
    (hpos : 1 ≤ (c.encode a).length) (hshort : (c.encode a).length < 256) :
    readOne .little c (torn ++ frame .little c a) = .corrupt := by
  have hsize := length_frame .little c a
  have htorn : 0 < torn.length := List.length_pos_iff.mpr hbegun
  -- the length is read from the begun one and the first digits of the one behind it
  have htake : (torn ++ frame .little c a).take 4 =
      torn ++ (digits 4 (c.encode a).length).take (4 - torn.length) := by
    rw [List.take_append, List.take_of_length_le (by omega), frame, Endian.put,
      List.take_append_of_le_length (by rw [length_digits]; omega)]
  have hfirst : ∃ ds, (digits 4 (c.encode a).length).take (4 - torn.length) =
      UInt8.ofNat (c.encode a).length :: ds := by
    obtain ⟨k, hk⟩ : ∃ k, 4 - torn.length = k + 1 := ⟨3 - torn.length, by omega⟩
    rw [hk]
    exact ⟨_, rfl⟩
  rcases hfirst with ⟨ds, hds⟩
  have hdigit : (UInt8.ofNat (c.encode a).length).toNat = (c.encode a).length := by
    rw [UInt8.toNat_ofNat']
    exact Nat.mod_eq_of_lt hshort
  have hvalue : 256 * (c.encode a).length ≤
      Endian.get .little ((torn ++ frame .little c a).take 4) := by
    rw [htake, hds]
    simp only [Endian.get, digitsValue_append, digitsValue, hdigit]
    have hpow : 256 ^ 1 ≤ 256 ^ torn.length := Nat.pow_le_pow_right (by decide) htorn
    calc 256 * (c.encode a).length
        ≤ 256 ^ torn.length * (c.encode a).length := Nat.mul_le_mul_right _ hpow
      _ ≤ 256 ^ torn.length * ((c.encode a).length + 256 * digitsValue ds) :=
          Nat.mul_le_mul_left _ (Nat.le_add_right _ _)
      _ ≤ _ := Nat.le_add_left _ _
  have hrest : ((torn ++ frame .little c a).drop 4).length =
      torn.length + (c.encode a).length := by
    rw [List.length_drop, List.length_append, hsize]
    omega
  have hlong : ¬ (torn ++ frame .little c a).length < 4 := by
    rw [List.length_append, hsize]
    omega
  simp only [readOne, if_neg hlong, hrest]
  rw [if_pos (by omega)]

/-- A frame written behind a begun length is corrupt, if its length has one digit and
the lowest digit comes last: the length that is read is zero or a multiple of 256. -/
theorem readOne_big_displaced {torn : List UInt8} (hbegun : torn ≠ []) (hlen : torn.length < 4)
    (hempty : c.decode [] = none) (hshort : (c.encode a).length < 253) :
    readOne .big c (torn ++ frame .big c a) = .corrupt := by
  have hsize := length_frame .big c a
  have htorn : 0 < torn.length := List.length_pos_iff.mpr hbegun
  have hdigits : (digits 4 (c.encode a).length).reverse =
      [0, 0, 0, UInt8.ofNat (c.encode a).length] := by
    have hhigh : (c.encode a).length / 256 = 0 := by omega
    simp only [digits, hhigh]
    rfl
  -- the length is read from the torn bytes and the zeros that begin the next length
  have htake : (torn ++ frame .big c a).take 4 =
      torn ++ List.replicate (4 - torn.length) 0 := by
    have hzeros : [0, 0, 0, UInt8.ofNat (c.encode a).length].take (4 - torn.length) =
        List.replicate (4 - torn.length) 0 := by
      have hcases : torn.length = 1 ∨ torn.length = 2 ∨ torn.length = 3 := by omega
      rcases hcases with h | h | h <;> rw [h] <;> rfl
    rw [List.take_append, List.take_of_length_le (by omega), frame, Endian.put,
      List.take_append_of_le_length (by rw [List.length_reverse, length_digits]; omega),
      hdigits, hzeros]
  have hzero : ∀ k, digitsValue (List.replicate k 0) = 0 := by
    intro k
    induction k with
    | zero => rfl
    | succ k ih =>
      rw [List.replicate_succ, digitsValue, ih]
      rfl
  have hvalue : Endian.get .big ((torn ++ frame .big c a).take 4) =
      256 ^ (4 - torn.length) * digitsValue torn.reverse := by
    rw [htake]
    simp only [Endian.get, List.reverse_append, List.reverse_replicate, digitsValue_append,
      hzero, List.length_replicate, Nat.zero_add]
  have hrest : ((torn ++ frame .big c a).drop 4).length =
      torn.length + (c.encode a).length := by
    rw [List.length_drop, List.length_append, hsize]
    omega
  -- so it is far more than the bytes that follow, unless the torn bytes are zeros too
  have hlong : ¬ (torn ++ frame .big c a).length < 4 := by
    rw [List.length_append, hsize]
    omega
  simp only [readOne, if_neg hlong, hrest, hvalue]
  by_cases htornZero : digitsValue torn.reverse = 0
  · rw [htornZero, Nat.mul_zero, if_neg (Nat.not_lt_zero _), List.take_zero, hempty]
  · have hpow : 256 ^ 1 ≤ 256 ^ (4 - torn.length) := Nat.pow_le_pow_right (by decide) (by omega)
    have hmul : 256 ^ 1 * 1 ≤ 256 ^ (4 - torn.length) * digitsValue torn.reverse :=
      Nat.mul_le_mul hpow (Nat.pos_of_ne_zero htornZero)
    rw [if_pos (by omega)]

end Frames
