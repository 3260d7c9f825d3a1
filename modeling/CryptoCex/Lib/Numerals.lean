import CryptoCex.Lib.Digits

/-!
# Numerals as texts

The texts that programs read and write for numbers, one character for each decimal digit.

* `text_lt_iff`: texts of one length are in the order of their numerals.
* `readNat_text`: the number of a numeral is read from its text.
* `padded_eq`: the text of a number with at least some width.
* `record_inj`, `record_lt_iff`: texts of several numbers, and of numbers of fixed width.
-/

namespace Digits

variable {l r : List (Fin 10)}

def digitChar (d : Fin 10) : Char := Nat.digitChar d

theorem isDigit_digitChar (d : Fin 10) : (digitChar d).isDigit = true := by
  revert d
  decide

/-- Characters of digits are ordered as the digits are. -/
theorem digitChar_lt_iff {d e : Fin 10} : digitChar d < digitChar e ↔ d < e := by
  revert d e
  decide

theorem digitChar_injective : Function.Injective digitChar := by
  intro d e
  revert d e
  decide

theorem digitChar_eq_zero {d : Fin 10} : digitChar d = '0' ↔ d = 0 := by
  revert d
  decide

/-- Every digit character is the character of a digit. -/
theorem exists_digitChar {c : Char} (h : c.isDigit = true) : ∃ d, digitChar d = c := by
  have hlow : 48 ≤ c.toNat := by
    simp only [Char.isDigit, Bool.and_eq_true, decide_eq_true_eq] at h
    exact h.1
  have hhigh : c.toNat ≤ 57 := by
    simp only [Char.isDigit, Bool.and_eq_true, decide_eq_true_eq] at h
    exact h.2
  refine ⟨⟨c.toNat - 48, by omega⟩, ?_⟩
  apply Char.toNat_inj.mp
  rw [digitChar, Nat.toNat_digitChar_of_lt_ten (by simp; omega)]
  simp
  omega

/-- A numeral as it is written. -/
def text (l : List (Fin 10)) : List Char := l.map digitChar

@[simp] theorem text_nil : text [] = [] := rfl

@[simp] theorem text_cons (d : Fin 10) (l : List (Fin 10)) :
    text (d :: l) = digitChar d :: text l := rfl

@[simp] theorem length_text (l : List (Fin 10)) : (text l).length = l.length := List.length_map _

theorem text_append (l r : List (Fin 10)) : text (l ++ r) = text l ++ text r := List.map_append

theorem text_replicate_zero (n : ℕ) : text (List.replicate n 0) = List.replicate n '0' :=
  List.map_replicate

theorem text_eq_nil : text l = [] ↔ l = [] := List.map_eq_nil_iff

/-- A list of digits is known from its text. -/
theorem text_inj : text l = text r ↔ l = r := (List.map_injective_iff.mpr digitChar_injective).eq_iff

theorem isDigit_of_mem_text {c : Char} (h : c ∈ text l) : c.isDigit = true := by
  obtain ⟨d, _, rfl⟩ := List.mem_map.mp h
  exact isDigit_digitChar d

/-- Every text of digits is that of a numeral. -/
theorem exists_text {cs : List Char} (h : ∀ c ∈ cs, c.isDigit = true) : ∃ l, cs = text l := by
  induction cs with
  | nil => exact ⟨[], rfl⟩
  | cons c cs ih =>
    obtain ⟨d, rfl⟩ := exists_digitChar (h c List.mem_cons_self)
    obtain ⟨l, rfl⟩ := ih fun c' hc' => h c' (List.mem_cons_of_mem _ hc')
    exact ⟨d :: l, rfl⟩

/-- Texts are in the order of their numerals. -/
theorem text_lt_iff : text l < text r ↔ l < r := by
  induction l generalizing r with
  | nil =>
    cases r with
    | nil => simp
    | cons e r => simp
  | cons d l ih =>
    cases r with
    | nil => simp
    | cons e r =>
      rw [text_cons, text_cons, List.cons_lt_cons_iff, List.cons_lt_cons_iff, digitChar_lt_iff, ih,
        digitChar_injective.eq_iff]

theorem text_dropWhile (l : List (Fin 10)) :
    (text l).dropWhile (· = '0') = text (l.dropWhile (· = 0)) := by
  have hzero : (fun c : Char => decide (c = '0')) ∘ digitChar = fun d => decide (d = 0) := by
    funext d
    exact decide_eq_decide.mpr digitChar_eq_zero
  rw [text, List.dropWhile_map, hzero]
  rfl

theorem text_rdropWhile (l : List (Fin 10)) :
    (text l).rdropWhile (· = '0') = text (l.rdropWhile (· = 0)) := by
  unfold List.rdropWhile
  have hreverse : (text l).reverse = text l.reverse := List.map_reverse.symm
  rw [hreverse, text_dropWhile]
  exact List.map_reverse.symm

theorem text_padEnd (n : ℕ) (l : List (Fin 10)) :
    text l ++ List.replicate (n - (text l).length) '0' = text (padEnd n l) := by
  rw [padEnd, text_append, text_replicate_zero, length_text]

/-! ## Reading -/

theorem ofDigitChars_text (l : List (Fin 10)) (n : ℕ) :
    Nat.ofDigitChars 10 (text l) n = n * 10 ^ l.length + value l := by
  induction l generalizing n with
  | nil => simp
  | cons d l ih =>
    rw [text_cons, digitChar, Nat.ofDigitChars_cons_digitChar_of_lt_ten d.isLt, ih, value_cons,
      List.length_cons, Nat.pow_succ]
    ring

/-- Reading the text of digits gives their value. -/
theorem readNat_text (h : l ≠ []) : readNat (text l) = some (value l) := by
  have hdigits : (text l).all Char.isDigit = true :=
    List.all_eq_true.mpr fun c hc => isDigit_of_mem_text hc
  rw [readNat, if_pos ⟨mt text_eq_nil.mp h, hdigits⟩, ofDigitChars_text, Nat.zero_mul, Nat.zero_add]

/-! ## Writing -/

/-- A number with at least `width` digits: zeros in front where it needs fewer. -/
def padded (width n : ℕ) : List Char :=
  List.replicate (width - n.repr.length) '0' ++ n.repr.toList

/-- The digits of a number, without zeros in front. -/
theorem repr_eq (n : ℕ) : ∃ l, n.repr.toList = text l ∧ value l = n ∧
    (1 < l.length → ∀ d ∈ l.head?, d ≠ 0) := by
  obtain ⟨l, hl⟩ := exists_text fun c hc => isDigit_of_mem_repr (n := n) hc
  have hne : l ≠ [] := by
    rintro rfl
    simp at hl
  have hvalue : value l = n := by
    have hread := readNat_repr n
    rw [hl, readNat_text hne] at hread
    exact Option.some.inj hread
  refine ⟨l, hl, hvalue, ?_⟩
  intro hlong d hd hzero
  -- a number that begins with zero has fewer digits
  obtain ⟨tail, rfl⟩ : ∃ tail, l = d :: tail := by
    cases l with
    | nil => cases hd
    | cons e tail =>
      cases hd
      exact ⟨tail, rfl⟩
  have hlength : n.repr.length = tail.length + 1 := by
    rw [← String.length_toList, hl, length_text, List.length_cons]
  have hsmall : n < 10 ^ tail.length := by
    rw [← hvalue, value_cons, hzero, Fin.val_zero, Nat.zero_mul, Nat.zero_add]
    exact value_lt tail
  have hpos : 0 < tail.length := by
    rw [List.length_cons] at hlong
    omega
  have hshort := (Nat.length_repr_le_iff hpos).mpr hsmall
  omega

/-- The padded text has the number's digits, and a zero in front only to reach the width. -/
theorem padded_eq (width n : ℕ) : ∃ l, padded width n = text l ∧ value l = n ∧
    l.length = max width n.repr.length ∧ (max width 1 < l.length → ∀ d ∈ l.head?, d ≠ 0) := by
  obtain ⟨l, hl, hvalue, hhead⟩ := repr_eq n
  have hlength : n.repr.length = l.length := by
    rw [← String.length_toList, hl, length_text]
  refine ⟨List.replicate (width - l.length) 0 ++ l, ?_, ?_, ?_, ?_⟩
  · rw [padded, hl, text_append, text_replicate_zero, hlength]
  · rw [value_append, value_replicate_zero, Nat.zero_mul, Nat.zero_add, hvalue]
  · rw [List.length_append, List.length_replicate, hlength]
    omega
  · intro hlong
    rw [List.length_append, List.length_replicate] at hlong
    have hnone : width - l.length = 0 := by omega
    rw [hnone, List.replicate_zero, List.nil_append]
    exact hhead (by omega)

/-- Padding does not make two numbers alike. -/
theorem padded_inj {width m n : ℕ} : padded width m = padded width n ↔ m = n := by
  constructor
  · intro h
    obtain ⟨l, hl, hm, _⟩ := padded_eq width m
    obtain ⟨r, hr, hn, _⟩ := padded_eq width n
    rw [hl, hr, text_inj] at h
    rw [← hm, h, hn]
  · exact congrArg _

/-- A number that fits is padded to the width exactly. -/
theorem length_padded {width n : ℕ} (hw : 0 < width) (h : n < 10 ^ width) :
    (padded width n).length = width := by
  obtain ⟨l, hl, _, hlength, _⟩ := padded_eq width n
  have hshort := (Nat.length_repr_le_iff hw).mpr h
  rw [hl, length_text, hlength]
  exact max_eq_left hshort

theorem isDigit_of_mem_padded {width n : ℕ} {c : Char} (h : c ∈ padded width n) :
    c.isDigit = true := by
  obtain ⟨l, hl, _⟩ := padded_eq width n
  rw [hl] at h
  exact isDigit_of_mem_text h

/-- Numbers that fit the width are in the order of their texts. -/
theorem padded_lt_iff {width m n : ℕ} (hw : 0 < width) (hm : m < 10 ^ width)
    (hn : n < 10 ^ width) : padded width m < padded width n ↔ m < n := by
  obtain ⟨l, hl, hvalue, _⟩ := padded_eq width m
  obtain ⟨r, hr, hvalue', _⟩ := padded_eq width n
  have hlength : l.length = r.length := by
    rw [← length_text l, ← hl, length_padded hw hm, ← length_text r, ← hr, length_padded hw hn]
  rw [hl, hr, text_lt_iff, ← value_lt_iff hlength, hvalue, hvalue']

/-! ## Texts of several parts -/

section Parts

variable {α : Type*}

/-- What stands before the first separator, and what stands behind it. -/
theorem append_separator_inj {sep : α} {l l' r r' : List α} (hl : sep ∉ l) (hl' : sep ∉ l')
    (h : l ++ sep :: r = l' ++ sep :: r') : l = l' ∧ r = r' := by
  induction l generalizing l' with
  | nil =>
    cases l' with
    | nil => exact ⟨rfl, (List.cons.inj h).2⟩
    | cons c l' => exact absurd (List.mem_cons.mpr (Or.inl (List.cons.inj h).1)) hl'
  | cons c l ih =>
    cases l' with
    | nil => exact absurd (List.mem_cons.mpr (Or.inl (List.cons.inj h).1.symm)) hl
    | cons c' l' =>
      rcases List.cons.inj h with ⟨rfl, hrest⟩
      rcases ih (fun hmem => hl (List.mem_cons_of_mem _ hmem))
        (fun hmem => hl' (List.mem_cons_of_mem _ hmem)) hrest with ⟨rfl, rfl⟩
      exact ⟨rfl, rfl⟩

/-- Texts whose first parts have one length are compared by these first. -/
theorem append_lt_append_iff [LT α] {l l' r r' : List α} (h : l.length = l'.length) :
    l ++ r < l' ++ r' ↔ l < l' ∨ l = l' ∧ r < r' := by
  induction l generalizing l' with
  | nil =>
    rw [List.eq_nil_of_length_eq_zero h.symm]
    simp
  | cons c l ih =>
    cases l' with
    | nil => cases h
    | cons c' l' =>
      rw [List.cons_append, List.cons_append, List.cons_lt_cons_iff, List.cons_lt_cons_iff,
        ih (Nat.succ.inj h), List.cons.injEq]
      tauto

end Parts

/-- Numbers one after the other, each with a width and with a character behind it. -/
def record : List (ℕ × Char) → List ℕ → List Char
  | field :: layout, n :: values => padded field.1 n ++ field.2 :: record layout values
  | _, _ => []

/-- A record of numbers is known from its text, as no separator is a digit. -/
theorem record_inj {layout : List (ℕ × Char)} {values values' : List ℕ}
    (hsep : ∀ field ∈ layout, field.2.isDigit = false) (hvalues : values.length = layout.length)
    (hvalues' : values'.length = layout.length) :
    record layout values = record layout values' ↔ values = values' := by
  constructor
  · intro h
    induction layout generalizing values values' with
    | nil => rw [List.eq_nil_of_length_eq_zero hvalues, List.eq_nil_of_length_eq_zero hvalues']
    | cons field layout ih =>
      obtain ⟨n, values, rfl⟩ := List.exists_cons_of_length_eq_add_one hvalues
      obtain ⟨n', values', rfl⟩ := List.exists_cons_of_length_eq_add_one hvalues'
      -- no number holds the character behind it, so the first field is found again
      have hnot : ∀ m, field.2 ∉ padded field.1 m := by
        intro m hmem
        have hdigit := isDigit_of_mem_padded hmem
        rw [hsep field List.mem_cons_self] at hdigit
        cases hdigit
      obtain ⟨hn, hrest⟩ := append_separator_inj (hnot n) (hnot n') h
      rw [padded_inj.mp hn, ih (fun f hf => hsep f (List.mem_cons_of_mem _ hf))
        (Nat.succ.inj hvalues) (Nat.succ.inj hvalues') hrest]
  · exact congrArg _

/-- The numbers fit in their widths. -/
def Fits (layout : List (ℕ × Char)) (values : List ℕ) : Prop :=
  List.Forall₂ (fun field n => 0 < field.1 ∧ n < 10 ^ field.1) layout values

/-- Records of fixed widths are in the order of their numbers. -/
theorem record_lt_iff {layout : List (ℕ × Char)} {values values' : List ℕ}
    (hfits : Fits layout values) (hfits' : Fits layout values') :
    record layout values < record layout values' ↔ values < values' := by
  induction hfits generalizing values' with
  | nil =>
    cases hfits'
    simp [record]
  | @cons field n layout values hn _ ih =>
    cases hfits' with
    | @cons _ n' _ values' hn' hrest =>
      have hlength : (padded field.1 n).length = (padded field.1 n').length := by
        rw [length_padded hn.1 hn.2, length_padded hn'.1 hn'.2]
      rw [record, record, append_lt_append_iff hlength, List.cons_lt_cons_iff, List.cons_lt_cons_iff,
        padded_lt_iff hn.1 hn.2 hn'.2, padded_inj, ih hrest]
      simp

end Digits
