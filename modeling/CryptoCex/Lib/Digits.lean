import Mathlib.Data.List.DropRight
import Mathlib.Data.List.Lex
import Mathlib.Data.Nat.Digits.Defs
import Mathlib.Order.Fin.Basic

/-!
# Numerals

A numeral is a list of digits, the highest one first. Numerals of one length are in the order of
their numbers as lists (`value_lt_iff`), and without zeros in front the longer one is greater
(`value_lt_of_length`). So numbers can be compared by their numerals.

* `value_dropWhile`: zeros in front can be left out.
* `value_padEnd`: zeros at the end multiply the number.
-/

namespace Digits

variable {b : ℕ} {l r : List (Fin b)}

/-- The number of a numeral in base `b`. -/
def value (l : List (Fin b)) : ℕ := Nat.ofDigits b (l.map Fin.val).reverse

@[simp] theorem value_nil : value ([] : List (Fin b)) = 0 := rfl

theorem value_append (l r : List (Fin b)) : value (l ++ r) = value l * b ^ r.length + value r := by
  unfold value
  rw [List.map_append, List.reverse_append, Nat.ofDigits_append, List.length_reverse,
    List.length_map, Nat.mul_comm, Nat.add_comm]

theorem value_cons (d : Fin b) (l : List (Fin b)) :
    value (d :: l) = d * b ^ l.length + value l := by
  have hone : value [d] = d := Nat.ofDigits_singleton
  rw [← List.singleton_append, value_append, hone]

/-- A list of digits is below the power of the base for its length. -/
theorem value_lt (l : List (Fin b)) : value l < b ^ l.length := by
  induction l with
  | nil => exact Nat.one_pos
  | cons d l ih =>
    rw [value_cons, List.length_cons]
    calc d * b ^ l.length + value l < d * b ^ l.length + b ^ l.length := Nat.add_lt_add_left ih _
      _ = (d + 1) * b ^ l.length := (Nat.succ_mul _ _).symm
      _ ≤ b * b ^ l.length := Nat.mul_le_mul_right _ d.isLt
      _ = b ^ (l.length + 1) := (Nat.pow_succ').symm

/-- A higher digit in front decides. -/
theorem value_cons_lt {d e : Fin b} (hlen : l.length = r.length) (h : d < e) :
    value (d :: l) < value (e :: r) := by
  rw [value_cons, value_cons, hlen]
  have hlow := value_lt l
  rw [hlen] at hlow
  calc d * b ^ r.length + value l < d * b ^ r.length + b ^ r.length := Nat.add_lt_add_left hlow _
    _ = (d + 1) * b ^ r.length := (Nat.succ_mul _ _).symm
    _ ≤ e * b ^ r.length := Nat.mul_le_mul_right _ h
    _ ≤ e * b ^ r.length + value r := Nat.le_add_right _ _

/-- Numerals of one length are in the order of their numbers. -/
theorem value_lt_iff (hlen : l.length = r.length) : value l < value r ↔ l < r := by
  induction l generalizing r with
  | nil =>
    rw [List.eq_nil_of_length_eq_zero hlen.symm]
    simp
  | cons d l ih =>
    cases r with
    | nil => cases hlen
    | cons e r =>
      have hlen' : l.length = r.length := Nat.succ.inj hlen
      rw [List.cons_lt_cons_iff]
      -- the first digit decides, or the rest does
      rcases lt_trichotomy d e with hlt | rfl | hgt
      · exact iff_of_true (value_cons_lt hlen' hlt) (.inl hlt)
      · rw [value_cons, value_cons, hlen', Nat.add_lt_add_iff_left, ih hlen']
        simp
      · refine iff_of_false (Nat.not_lt.mpr (value_cons_lt hlen'.symm hgt).le) ?_
        rintro (hlt | ⟨rfl, _⟩)
        · exact absurd hlt (lt_asymm hgt)
        · exact absurd hgt (lt_irrefl _)

section Zero

variable [NeZero b]

theorem value_replicate_zero (n : ℕ) : value (List.replicate n (0 : Fin b)) = 0 := by
  induction n with
  | zero => rfl
  | succ n ih => rw [List.replicate_succ, value_cons, ih, Fin.val_zero, Nat.zero_mul]

/-- Leading zeros count nothing. -/
theorem value_dropWhile (l : List (Fin b)) : value (l.dropWhile (· = 0)) = value l := by
  induction l with
  | nil => rfl
  | cons d l ih =>
    by_cases h : d = 0
    · rw [List.dropWhile_cons, if_pos (decide_eq_true h), ih, h, value_cons, Fin.val_zero,
        Nat.zero_mul, Nat.zero_add]
    · rw [List.dropWhile_cons, if_neg (by simpa using h)]

/-- Without zeros in front the longer numeral is greater. -/
theorem value_lt_of_length (hlen : l.length < r.length) (hhead : ∀ d ∈ r.head?, d ≠ 0) :
    value l < value r := by
  cases r with
  | nil => cases hlen
  | cons d r =>
    have hpos : 0 < (d : ℕ) := Nat.pos_of_ne_zero (Fin.val_ne_zero_iff.mpr (hhead d rfl))
    have hb : 0 < b := Nat.pos_of_ne_zero (NeZero.ne b)
    calc value l < b ^ l.length := value_lt l
      _ ≤ b ^ r.length := Nat.pow_le_pow_right hb (Nat.le_of_lt_succ hlen)
      _ ≤ d * b ^ r.length := Nat.le_mul_of_pos_left _ hpos
      _ ≤ value (d :: r) := by
        rw [value_cons]
        exact Nat.le_add_right _ _

/-- Zeros at the end, up to a length. -/
def padEnd (n : ℕ) (l : List (Fin b)) : List (Fin b) := l ++ List.replicate (n - l.length) 0

theorem length_padEnd {n : ℕ} (h : l.length ≤ n) : (padEnd n l).length = n := by
  unfold padEnd
  rw [List.length_append, List.length_replicate]
  omega

/-- Padding on the right multiplies. -/
theorem value_padEnd (n : ℕ) (l : List (Fin b)) :
    value (padEnd n l) = value l * b ^ (n - l.length) := by
  unfold padEnd
  rw [value_append, value_replicate_zero, List.length_replicate, Nat.add_zero]

/-- Zeros at the end do not count when they are padded anyway. -/
theorem padEnd_rdropWhile {n : ℕ} (h : l.length ≤ n) :
    padEnd n (l.rdropWhile (· = 0)) = padEnd n l := by
  induction l using List.reverseRecOn with
  | nil => rfl
  | append_singleton l d ih =>
    rw [List.length_append, List.length_singleton] at h
    by_cases hd : d = 0
    · rw [List.rdropWhile_concat, if_pos (decide_eq_true hd), ih (by omega), hd]
      unfold padEnd
      rw [List.append_assoc, List.length_append, List.length_singleton, List.singleton_append,
        ← List.replicate_succ]
      congr 2
      omega
    · rw [List.rdropWhile_concat, if_neg (by simpa using hd)]

end Zero

/-! ## The text of a number -/

theorem repr_inj {m n : ℕ} : m.repr = n.repr ↔ m = n := by
  constructor
  · intro h
    rw [← Nat.ofDigitChars_ten_toDigits (n := m), ← Nat.ofDigitChars_ten_toDigits (n := n),
      ← Nat.toList_repr, ← Nat.toList_repr, h]
  · exact congrArg Nat.repr

theorem isDigit_of_mem_repr {n : ℕ} {c : Char} (h : c ∈ n.repr.toList) : c.isDigit := by
  rw [Nat.toList_repr] at h
  exact Nat.isDigit_of_mem_toDigits (by decide) (by decide) h

/-- A number is written with digits and a sign. -/
theorem isDigit_of_mem_toString {n : ℤ} {c : Char} (h : c ∈ (toString n).toList) :
    c.isDigit ∨ c = '-' := by
  rw [Int.toString_eq_repr, Int.repr_eq_if] at h
  split_ifs at h
  · exact Or.inl (isDigit_of_mem_repr h)
  · rw [String.toList_append, List.mem_append] at h
    rcases h with h | h
    · exact Or.inr (by simpa using h)
    · exact Or.inl (isDigit_of_mem_repr h)

theorem toString_inj {m n : ℤ} : toString m = toString n ↔ m = n := by
  refine ⟨fun h => ?_, congrArg toString⟩
  -- a sign is not a digit
  have hsign : ∀ k l : ℕ, k.repr ≠ "-" ++ l.repr := by
    intro k l heq
    have hmem : '-' ∈ k.repr.toList := by simp [heq]
    exact absurd (isDigit_of_mem_repr hmem) (by decide)
  rw [Int.toString_eq_repr, Int.toString_eq_repr, Int.repr_eq_if, Int.repr_eq_if] at h
  split_ifs at h with hm hn hn
  · have hnat := repr_inj.mp h
    omega
  · exact absurd h (hsign _ _)
  · exact absurd h.symm (hsign _ _)
  · have hnat := repr_inj.mp ((String.append_right_inj _).mp h)
    omega

/-- The number of a text of decimal digits. -/
def readNat (digits : List Char) : Option ℕ :=
  if digits ≠ [] ∧ digits.all Char.isDigit then some (Nat.ofDigitChars 10 digits 0) else none

/-- Whether a text begins with a minus sign, and what follows the sign. -/
def readSign : List Char → Bool × List Char
  | '-' :: digits => (true, digits)
  | '+' :: digits => (false, digits)
  | digits => (false, digits)

/-- A number of 64 bits with an optional sign. -/
def readInt64 (s : String) : Option ℤ :=
  let (negative, digits) := readSign s.toList
  (readNat digits).bind fun n =>
    if negative then if n ≤ 2 ^ 63 then some (-(n : ℤ)) else none
    else if n < 2 ^ 63 then some n else none

/-- Reading a number's text gives the number back. -/
theorem readNat_repr (n : ℕ) : readNat n.repr.toList = some n := by
  have hdigits : n.repr.toList.all Char.isDigit = true :=
    List.all_eq_true.mpr fun c hc => isDigit_of_mem_repr hc
  have hne : n.repr.toList ≠ [] := by simp
  rw [readNat, if_pos ⟨hne, hdigits⟩, Nat.toList_repr, Nat.ofDigitChars_ten_toDigits]

/-- The text of a natural number has no sign. -/
theorem readSign_repr (n : ℕ) : readSign n.repr.toList = (false, n.repr.toList) := by
  have hdigits : ∀ c ∈ n.repr.toList, c.isDigit := fun c hc => isDigit_of_mem_repr hc
  revert hdigits
  generalize n.repr.toList = l
  intro hdigits
  unfold readSign
  split
  · exact absurd (hdigits '-' List.mem_cons_self) (by decide)
  · exact absurd (hdigits '+' List.mem_cons_self) (by decide)
  · rfl

/-- A number is read back from its text. -/
theorem readInt64_toString {n : ℤ} (hlow : -2 ^ 63 ≤ n) (hhigh : n < 2 ^ 63) :
    readInt64 (toString n) = some n := by
  rw [Int.toString_eq_repr, Int.repr_eq_if]
  split_ifs with hsign
  · have hfits : n.toNat < 2 ^ 63 := by omega
    simp only [readInt64, readSign_repr, readNat_repr, Option.bind_some, Bool.false_eq_true,
      if_false, if_pos hfits]
    congr 1
    omega
  · have hread : readSign ("-" ++ (-n).toNat.repr).toList = (true, (-n).toNat.repr.toList) := by
      simp [readSign]
    have hfits : (-n).toNat ≤ 2 ^ 63 := by omega
    simp only [readInt64, hread, readNat_repr, Option.bind_some, if_true, if_pos hfits]
    congr 1
    omega

end Digits
