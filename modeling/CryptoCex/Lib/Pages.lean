import Mathlib.Data.List.Sort
import Mathlib.Order.Basic
import Mathlib.Order.Defs.LinearOrder
import Mathlib.Tactic.Common

/-!
# Pages behind a coarse cursor

A list is read page by page, in falling order of a key. The cursor of the next page is not the
key of the last element but its unit, a coarser value, and the next page begins with the elements
of a smaller unit. Elements of one order may come in any order, anew for every page.

* `Paged.falls`: what is read falls.
* `Paged.length_le`: only so many pages can be read.
* `Paged.perm_iff`: everything is read, and once, if and only if no page ends inside a unit
  (`Uncut`).
-/

namespace Pages

variable {α K U : Type*}

/-- Of a falling list of units none stands on both sides of the end of a page. -/
def Uncut (L : ℕ) (units : List U) : Prop :=
  ∀ k, 0 < k → ∀ u v, units[k * L - 1]? = some u → units[k * L]? = some v → u ≠ v

/-- The first page ends between two units, and so do the pages after it. -/
theorem uncut_iff {L : ℕ} (hL : 0 < L) (units : List U) :
    Uncut L units ↔
      (∀ u v, units[L - 1]? = some u → units[L]? = some v → u ≠ v) ∧ Uncut L (units.drop L) := by
  constructor
  · intro h
    constructor
    · intro u v hu hv
      refine h 1 (by omega) u v ?_ ?_
      · rwa [Nat.one_mul]
      · rwa [Nat.one_mul]
    · intro k hk u v hu hv
      rw [List.getElem?_drop] at hu hv
      have hpos : 0 < k * L := Nat.mul_pos hk hL
      refine h (k + 1) (by omega) u v ?_ ?_
      · rw [Nat.succ_mul, ← hu]
        congr 1
        omega
      · rw [Nat.succ_mul, ← hv]
        congr 1
        omega
  -- the end of the first page is `k = 1`; any later one is shifted by `L` behind it
  · rintro ⟨hfirst, hrest⟩ k hk u v hu hv
    rcases Nat.lt_or_ge 1 k with hlater | hone
    · obtain ⟨j, rfl⟩ : ∃ j, k = j + 1 := ⟨k - 1, by omega⟩
      have hpos : 0 < j * L := Nat.mul_pos (by omega) hL
      rw [Nat.succ_mul] at hu hv
      refine hrest j (by omega) u v ?_ ?_
      · rw [List.getElem?_drop, ← hu]
        congr 1
        omega
      · rw [List.getElem?_drop, ← hv]
        congr 1
        omega
    · obtain rfl : k = 1 := by omega
      rw [Nat.one_mul] at hu hv
      exact hfirst u v hu hv

section

variable [LinearOrder K] [LinearOrder U] (key : α → K) (unit : α → U) (L : ℕ)

/-- The list can be read as these pages: each holds the first `L` of what is left, in falling
order, and an empty one is the last. -/
inductive Paged : List α → List (List α) → Prop
  | done : Paged [] []
  | page (left sorted : List α) (last : α) (pages : List (List α)) (hperm : sorted.Perm left)
      (hsorted : sorted.Pairwise fun a b => key b ≤ key a)
      (hlast : (sorted.take L).getLast? = some last)
      (h : Paged (left.filter fun a => unit a < unit last) pages) :
      Paged left (sorted.take L :: pages)

/-- The units of a list, falling. -/
def units (l : List α) : List U := (l.map unit).insertionSort (· ≥ ·)

end

section

variable [LinearOrder K] [LinearOrder U] {key : α → K} {unit : α → U} {L : ℕ}
  {left sorted : List α} {last : α}

/-- The units of the sorted rows are those of the rows, sorted. -/
theorem units_eq (hmono : ∀ a b, key a ≤ key b → unit a ≤ unit b) (hperm : sorted.Perm left)
    (hsorted : sorted.Pairwise fun a b => key b ≤ key a) :
    units unit left = sorted.map unit := by
  have hunits : (sorted.map unit).Pairwise (· ≥ ·) :=
    List.pairwise_map.mpr (hsorted.imp fun {a b} hab => hmono b a hab)
  refine List.Perm.eq_of_pairwise (fun u v _ _ huv hvu => le_antisymm hvu huv)
    (List.pairwise_insertionSort _ _) hunits ?_
  exact (List.perm_insertionSort _ _).trans (hperm.map unit).symm

/-- The last element of a page has the smallest key. -/
theorem key_last_le (hsorted : sorted.Pairwise fun a b => key b ≤ key a)
    (hlast : (sorted.take L).getLast? = some last) {a : α} (ha : a ∈ sorted.take L) :
    key last ≤ key a := by
  rcases List.getLast?_eq_some_iff.mp hlast with ⟨init, htake⟩
  have hpage : (sorted.take L).Pairwise fun a b => key b ≤ key a :=
    hsorted.sublist (List.take_sublist L sorted)
  rw [htake] at ha hpage
  rcases List.mem_append.mp ha with ha | ha
  · exact (List.pairwise_append.mp hpage).2.2 a ha last (List.mem_singleton_self last)
  · rw [List.mem_singleton.mp ha]

/-- What the next page can read stands behind the page. -/
theorem rest_perm (hmono : ∀ a b, key a ≤ key b → unit a ≤ unit b) (hperm : sorted.Perm left)
    (hsorted : sorted.Pairwise fun a b => key b ≤ key a)
    (hlast : (sorted.take L).getLast? = some last) :
    (left.filter fun a => unit a < unit last).Perm
      ((sorted.drop L).filter fun a => unit a < unit last) := by
  -- on the page itself no unit is smaller than that of its last element
  have hpage : (sorted.take L).filter (fun a => unit a < unit last) = [] := by
    rw [List.filter_eq_nil_iff]
    intro a ha
    have hle := hmono last a (key_last_le hsorted hlast ha)
    simpa using hle
  have hsplit : sorted.filter (fun a => unit a < unit last) =
      (sorted.drop L).filter fun a => unit a < unit last := by
    conv_lhs => rw [← List.take_append_drop L sorted]
    rw [List.filter_append, hpage, List.nil_append]
  rw [← hsplit]
  exact (hperm.filter _).symm

/-- Nothing behind the page is lost if and only if it ends between two units. -/
theorem rest_lt_iff (hmono : ∀ a b, key a ≤ key b → unit a ≤ unit b)
    (hsorted : sorted.Pairwise fun a b => key b ≤ key a)
    (hlast : (sorted.take L).getLast? = some last) :
    (∀ a ∈ sorted.drop L, unit a < unit last) ↔
      ∀ u v, (sorted.map unit)[L - 1]? = some u → (sorted.map unit)[L]? = some v → u ≠ v := by
  have hmem : last ∈ sorted.take L := List.mem_of_getLast? hlast
  rw [List.getLast?_take] at hlast
  split_ifs at hlast with hL
  simp only [List.getElem?_map, Option.map_eq_some_iff]
  rw [← List.take_append_drop L sorted, List.pairwise_append] at hsorted
  cases hdrop : sorted.drop L with
  | nil =>
    have hshort : sorted.length ≤ L := List.drop_eq_nil_iff.mp hdrop
    have hnone : sorted[L]? = none := List.getElem?_eq_none hshort
    simp [hnone]
  | cons b rest =>
    rw [hdrop] at hsorted
    have hb : sorted[L]? = some b := by
      have hhead : (sorted.drop L)[0]? = sorted[L + 0]? := List.getElem?_drop
      rw [hdrop] at hhead
      simpa using hhead.symm
    have hlast' : sorted[L - 1]? = some last := by
      have hlong : L < sorted.length := (List.getElem?_eq_some_iff.mp hb).1
      rw [List.getElem?_eq_getElem (by omega), Option.some_or] at hlast
      rwa [List.getElem?_eq_getElem (by omega)]
    have hfirst : unit b ≤ unit last :=
      hmono b last (hsorted.2.2 last hmem b List.mem_cons_self)
    rw [hb, hlast']
    constructor
    · rintro h u v ⟨_, ⟨⟩, rfl⟩ ⟨_, ⟨⟩, rfl⟩
      exact (h b List.mem_cons_self).ne'
    · -- the first element behind the page bounds the others
      intro h a ha
      have hne : unit last ≠ unit b := h _ _ ⟨last, rfl, rfl⟩ ⟨b, rfl, rfl⟩
      have hle : unit a ≤ unit b := by
        rcases List.mem_cons.mp ha with rfl | ha
        · exact le_rfl
        · exact hmono a b ((List.pairwise_cons.mp hsorted.2.1).1 a ha)
      exact hle.trans_lt (lt_of_le_of_ne hfirst hne.symm)

namespace Paged

variable {pages : List (List α)}

/-- What is on a page was left to be shown. -/
theorem mem (h : Paged key unit L left pages) {a : α} (ha : a ∈ pages.flatten) : a ∈ left := by
  induction h with
  | done => exact ha
  | page left sorted last pages hperm _ _ _ ih =>
    rw [List.flatten_cons, List.mem_append] at ha
    rcases ha with ha | ha
    · exact hperm.mem_iff.mp (List.mem_of_mem_take ha)
    · exact List.mem_of_mem_filter (ih ha)

/-- What is read falls. -/
theorem falls (hmono : ∀ a b, key a ≤ key b → unit a ≤ unit b)
    (h : Paged key unit L left pages) : pages.flatten.Pairwise fun a b => key b ≤ key a := by
  induction h with
  | done => exact .nil
  | page left sorted last pages hperm hsorted hlast hrest ih =>
    rw [List.flatten_cons, List.pairwise_append]
    refine ⟨hsorted.sublist (List.take_sublist L sorted), ih, ?_⟩
    intro a ha b hb
    have hlt : unit b < unit last := by simpa using (List.mem_filter.mp (hrest.mem hb)).2
    have hkey : key b < key last := lt_of_not_ge fun hle => absurd (hmono _ _ hle) hlt.not_ge
    exact hkey.le.trans (key_last_le hsorted hlast ha)

/-- Everything is read, and once, if and only if no page ends inside a unit. -/
theorem perm_iff (hL : 0 < L) (hmono : ∀ a b, key a ≤ key b → unit a ≤ unit b)
    (h : Paged key unit L left pages) :
    pages.flatten.Perm left ↔ Uncut L (units unit left) := by
  induction h with
  | done => simp [Uncut, units]
  | page left sorted last pages hperm hsorted hlast hrest ih =>
    rw [units_eq hmono hperm hsorted, uncut_iff hL, ← rest_lt_iff hmono hsorted hlast]
    -- the page is read, so the later pages must hold exactly what stands behind it
    have hsplit : (sorted.take L :: pages).flatten.Perm left ↔
        pages.flatten.Perm (sorted.drop L) := by
      have hcut : (sorted.take L ++ pages.flatten).Perm (sorted.take L ++ sorted.drop L) ↔
          pages.flatten.Perm (sorted.drop L) := List.perm_append_left_iff _
      rw [List.take_append_drop] at hcut
      rw [List.flatten_cons, ← hperm.congr_right, hcut]
    -- where nothing is lost the pages that follow are those of what stands behind the page
    have hbehind : (∀ a ∈ sorted.drop L, unit a < unit last) →
        (sorted.drop L).Perm (left.filter fun a => unit a < unit last) := by
      intro hlt
      have hall : (sorted.drop L).filter (fun a => unit a < unit last) = sorted.drop L :=
        List.filter_eq_self.mpr fun a ha => decide_eq_true (hlt a ha)
      have hrest' := rest_perm hmono hperm hsorted hlast
      rw [hall] at hrest'
      exact hrest'.symm
    have hunits : (∀ a ∈ sorted.drop L, unit a < unit last) →
        units unit (left.filter fun a => unit a < unit last) = (sorted.map unit).drop L := by
      intro hlt
      rw [units_eq hmono (hbehind hlt) (hsorted.sublist (List.drop_sublist L sorted)),
        List.map_drop]
    rw [hsplit]
    constructor
    · intro hpages
      have hlt : ∀ a ∈ sorted.drop L, unit a < unit last := by
        intro a ha
        have hmem := hrest.mem (hpages.mem_iff.mpr ha)
        simpa using (List.mem_filter.mp hmem).2
      refine ⟨hlt, ?_⟩
      rw [← hunits hlt]
      exact ih.mp (hpages.trans (hbehind hlt))
    · rintro ⟨hlt, huncut⟩
      rw [← hunits hlt] at huncut
      exact (ih.mpr huncut).trans (hbehind hlt).symm

/-- What has not been read gets less with every page. -/
theorem length_rest_lt (hperm : sorted.Perm left)
    (hlast : (sorted.take L).getLast? = some last) :
    (left.filter fun a => unit a < unit last).length < left.length := by
  refine List.length_filter_lt_length_iff_exists.mpr ⟨last, ?_, by simp⟩
  exact hperm.mem_iff.mp (List.mem_of_mem_take (List.mem_of_getLast? hlast))

end Paged

end

end Pages
