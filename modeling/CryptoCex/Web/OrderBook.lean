import CryptoCex.Core.Types
import CryptoCex.Lib.InsertionMap
import CryptoCex.Web.DecimalText
import Mathlib.Data.List.Sort

/-!
# The book of the web client

`order-book-model.ts` keeps the levels of a book by the text of their price, starts from a
snapshot and merges the diffs into it: a level of a diff replaces the one with the same text, and
a level of quantity zero removes it. Levels that a diff does not name stay.
-/

namespace CryptoCex.Web

open CryptoCex.Core (Decimal)
open InsertionMap (Keyed)

/-- `PriceLevelTuple` -/
abbrev PriceLevelTuple := DecimalText × DecimalText

/-- A snapshot or a diff as it is received. -/
structure OrderBookMessage where
  seq : ℕ
  bids : List PriceLevelTuple
  asks : List PriceLevelTuple
deriving DecidableEq

/-- A row of the book, less its running total. -/
structure BookSideRow where
  price : DecimalText
  quantity : DecimalText
deriving DecidableEq

structure OrderBookState where
  seq : ℕ
  bids : List BookSideRow
  asks : List BookSideRow
deriving DecidableEq

inductive BookSide where
  | bids
  | asks
deriving DecidableEq, Repr

/-- The comparison of `sortLevels` finds the left one not to come later. -/
def InOrder (side : BookSide) (left right : PriceLevelTuple) : Prop :=
  match side with
  | .bids => DecimalText.compareDecimalStrings right.1 left.1 ≤ 0
  | .asks => DecimalText.compareDecimalStrings left.1 right.1 ≤ 0

instance (side : BookSide) : DecidableRel (InOrder side) := fun _ _ =>
  match side with
  | .bids => inferInstanceAs (Decidable (_ ≤ _))
  | .asks => inferInstanceAs (Decidable (_ ≤ _))

/-- A stable sort. -/
def sortLevels (levels : List PriceLevelTuple) (side : BookSide) : List PriceLevelTuple :=
  levels.insertionSort (InOrder side)

def levelsToRows (levels : List PriceLevelTuple) : List BookSideRow :=
  levels.map fun level => ⟨level.1, level.2⟩

/-- The loop of `applySideDelta`. -/
def applyChanges (byPrice : List (DecimalText × DecimalText)) (changes : List PriceLevelTuple) :
    List (DecimalText × DecimalText) :=
  changes.foldl (fun byPrice change =>
    if change.2.isZeroDecimal then InsertionMap.delete byPrice change.1
    else InsertionMap.set byPrice change.1 change.2) byPrice

def applySideDelta (rows : List BookSideRow) (changes : List PriceLevelTuple) (side : BookSide) :
    List PriceLevelTuple :=
  let byPrice := InsertionMap.ofEntries (rows.map fun row => (row.price, row.quantity))
  sortLevels (applyChanges byPrice changes) side

def snapshotToState (snapshot : OrderBookMessage) : OrderBookState where
  seq := snapshot.seq
  bids := levelsToRows (sortLevels snapshot.bids .bids)
  asks := levelsToRows (sortLevels snapshot.asks .asks)

def mergeBookDelta (state : OrderBookState) (delta : OrderBookMessage) : OrderBookState :=
  if delta.seq ≤ state.seq then state
  else {
    seq := delta.seq
    bids := levelsToRows (applySideDelta state.bids delta.bids .bids)
    asks := levelsToRows (applySideDelta state.asks delta.asks .asks) }

/-! ## Numbers -/

namespace BookSide

/-- The price on the left is better. -/
def Better (side : BookSide) (left right : Decimal) : Prop :=
  match side with
  | .bids => right < left
  | .asks => left < right

theorem Better.ne {side : BookSide} {left right : Decimal} (h : side.Better left right) :
    left ≠ right := by
  cases side with
  | bids => exact (ne_of_lt h).symm
  | asks => exact ne_of_lt h

end BookSide

/-- Price and quantity as numbers. -/
def numbers (level : PriceLevelTuple) : Decimal × Decimal := (level.1.units, level.2.units)

variable {side : BookSide} {levels changes last : List PriceLevelTuple} {rows : List BookSideRow}

/-- Two levels are in order unless the second is the better one. -/
theorem inOrder_iff {left right : PriceLevelTuple} :
    InOrder side left right ↔ ¬ side.Better (numbers right).1 (numbers left).1 := by
  cases side with
  | bids =>
    show DecimalText.compareDecimalStrings right.1 left.1 ≤ 0 ↔
      ¬ (left.1.units : ℤ) < right.1.units
    rw [DecimalText.compare_le_zero, not_lt, Int.ofNat_le]
  | asks =>
    show DecimalText.compareDecimalStrings left.1 right.1 ≤ 0 ↔
      ¬ (right.1.units : ℤ) < left.1.units
    rw [DecimalText.compare_le_zero, not_lt, Int.ofNat_le]

instance (side : BookSide) : Std.Total (InOrder side) where
  total := by
    intro left right
    rw [inOrder_iff, inOrder_iff]
    cases side with
    | bids => exact (le_total _ _).imp not_lt.mpr not_lt.mpr
    | asks => exact (le_total _ _).imp not_lt.mpr not_lt.mpr

instance (side : BookSide) : IsTrans PriceLevelTuple (InOrder side) where
  trans := by
    intro a b c hab hbc
    rw [inOrder_iff] at hab hbc ⊢
    cases side with
    | bids => exact not_lt.mpr ((not_lt.mp hbc).trans (not_lt.mp hab))
    | asks => exact not_lt.mpr ((not_lt.mp hab).trans (not_lt.mp hbc))

/-! ## One side -/

/-- The levels of rows. -/
def levelsOf (rows : List BookSideRow) : List PriceLevelTuple :=
  rows.map fun row => (row.price, row.quantity)

theorem levelsOf_levelsToRows (levels : List PriceLevelTuple) :
    levelsOf (levelsToRows levels) = levels := by
  unfold levelsOf levelsToRows
  rw [List.map_map]
  exact List.map_id levels

/-- The levels of a snapshot or a diff: the best first, no price twice, and something to trade at
each. -/
structure Proper (side : BookSide) (levels : List PriceLevelTuple) : Prop where
  sorted : levels.Pairwise fun left right => side.Better (numbers left).1 (numbers right).1
  positive : ∀ level ∈ levels, level.2.isZeroDecimal = false

/-- No two levels have the same price. -/
theorem Proper.price_injective (h : Proper side levels) {a b : PriceLevelTuple} (ha : a ∈ levels)
    (hb : b ∈ levels) (heq : (numbers a).1 = (numbers b).1) : a = b := by
  have hnodup : (levels.map fun level => (numbers level).1).Nodup :=
    List.pairwise_map.mpr (h.sorted.imp BookSide.Better.ne)
  exact List.inj_on_of_nodup_map hnodup ha hb heq

/-- So the texts of the prices are keys. -/
theorem Proper.keyed (h : Proper side levels) : Keyed levels := by
  refine List.pairwise_map.mpr (h.sorted.imp ?_)
  intro a b hbetter heq
  refine hbetter.ne ?_
  unfold numbers
  rw [heq]

/-- The changes, and what they do not name. -/
theorem mem_applyChanges (byPrice : List PriceLevelTuple) (hkeyed : Keyed changes)
    (hpositive : ∀ change ∈ changes, change.2.isZeroDecimal = false) (level : PriceLevelTuple) :
    level ∈ applyChanges byPrice changes ↔
      level ∈ changes ∨ level.1 ∉ changes.map Prod.fst ∧ level ∈ byPrice := by
  induction changes generalizing byPrice with
  | nil => simp [applyChanges]
  | cons change changes ih =>
    have hnew := List.nodup_cons.mp hkeyed
    unfold applyChanges at ih ⊢
    rw [List.foldl_cons, if_neg (by simp [hpositive change List.mem_cons_self]),
      ih _ hnew.2 fun c hc => hpositive c (List.mem_cons_of_mem _ hc), InsertionMap.mem_set,
      List.mem_cons, List.map_cons, List.mem_cons]
    have hfirst : level = change → level.1 ∉ changes.map Prod.fst := by
      rintro rfl
      exact hnew.1
    have hkey : level = change → level.1 = change.1 := congrArg Prod.fst
    tauto

/-- Changes keep the prices distinct. -/
theorem keyed_applyChanges {byPrice : List PriceLevelTuple} (h : Keyed byPrice)
    (changes : List PriceLevelTuple) : Keyed (applyChanges byPrice changes) := by
  induction changes generalizing byPrice with
  | nil => exact h
  | cons change changes ih =>
    unfold applyChanges at ih ⊢
    rw [List.foldl_cons]
    split_ifs
    · exact ih h.delete
    · exact ih h.set

/-- The rows after some diffs: no price text twice, and sorted. They have the price texts that
have been shown, and the last diff at least. -/
structure Tracks (side : BookSide) (shown : List DecimalText) (last : List PriceLevelTuple)
    (rows : List BookSideRow) : Prop where
  keyed : Keyed (levelsOf rows)
  prices : ∀ p, p ∈ (levelsOf rows).map Prod.fst ↔ p ∈ shown
  holds : ∀ level ∈ last, level ∈ levelsOf rows
  sorted : (levelsOf rows).Pairwise (InOrder side)

/-- Sorting the rows keeps them on track. -/
theorem tracks_sort {shown : List DecimalText} (hkeyed : Keyed levels)
    (hprices : ∀ p, p ∈ levels.map Prod.fst ↔ p ∈ shown) (hholds : ∀ level ∈ last, level ∈ levels) :
    Tracks side shown last (levelsToRows (sortLevels levels side)) := by
  have hperm : (sortLevels levels side).Perm levels := List.perm_insertionSort _ _
  constructor <;> rw [levelsOf_levelsToRows]
  · exact (hperm.map _).nodup_iff.mpr hkeyed
  · intro p
    rw [(hperm.map Prod.fst).mem_iff]
    exact hprices p
  · intro level hlevel
    exact hperm.mem_iff.mpr (hholds level hlevel)
  · exact List.pairwise_insertionSort _ _

theorem tracks_snapshot (h : Proper side levels) :
    Tracks side (levels.map Prod.fst) levels (levelsToRows (sortLevels levels side)) :=
  tracks_sort h.keyed (fun _ => Iff.rfl) fun _ hlevel => hlevel

/-- A diff replaces what it names, and the other levels stay. -/
theorem Tracks.apply {shown : List DecimalText} (h : Tracks side shown last rows)
    (hchanges : Proper side changes) :
    Tracks side (shown ++ changes.map Prod.fst) changes
      (levelsToRows (applySideDelta rows changes side)) := by
  have hmap : InsertionMap.ofEntries (rows.map fun row => (row.price, row.quantity)) =
      levelsOf rows := InsertionMap.ofEntries_eq h.keyed
  have hmem := mem_applyChanges (levelsOf rows) hchanges.keyed hchanges.positive
  unfold applySideDelta
  rw [hmap]
  refine tracks_sort (keyed_applyChanges h.keyed changes) ?_ ?_
  · -- the prices shown are the old ones and those of the changes
    intro p
    rw [List.mem_append, ← h.prices p]
    constructor
    · intro hp
      rcases List.mem_map.mp hp with ⟨level, hlevel, rfl⟩
      rcases (hmem level).mp hlevel with hchange | ⟨_, hold⟩
      · exact .inr (List.mem_map_of_mem hchange)
      · exact .inl (List.mem_map_of_mem hold)
    · intro hp
      by_cases hchange : p ∈ changes.map Prod.fst
      · rcases List.mem_map.mp hchange with ⟨level, hlevel, rfl⟩
        exact List.mem_map_of_mem ((hmem level).mpr (.inl hlevel))
      · rcases List.mem_map.mp (hp.resolve_right hchange) with ⟨level, hlevel, rfl⟩
        exact List.mem_map_of_mem ((hmem level).mpr (.inr ⟨hchange, hlevel⟩))
  · intro level hlevel
    exact (hmem level).mpr (.inl hlevel)

/-- The rows are the levels of the last diff exactly if it names every price text ever shown. -/
theorem Tracks.numbers_eq_iff {shown : List DecimalText} (h : Tracks side shown last rows)
    (hlast : Proper side last) :
    (levelsOf rows).map numbers = last.map numbers ↔ ∀ p ∈ shown, p ∈ last.map Prod.fst := by
  constructor
  · intro heq p hp
    have hlen : (levelsOf rows).length = last.length := by
      simpa using congrArg List.length heq
    have hperm : last.Perm (levelsOf rows) :=
      (List.subperm_of_subset hlast.keyed.nodup h.holds).perm_of_length_le hlen.le
    rw [(hperm.map Prod.fst).mem_iff]
    exact (h.prices p).mpr hp
  · intro hall
    have hperm : (levelsOf rows).Perm last := by
      refine (List.perm_ext_iff_of_nodup h.keyed.nodup hlast.keyed.nodup).mpr ?_
      intro level
      refine ⟨?_, h.holds level⟩
      intro hlevel
      have hshown := (h.prices level.1).mp (List.mem_map_of_mem hlevel)
      rcases List.mem_map.mp (hall level.1 hshown) with ⟨level', hlevel', hprice⟩
      have hsame : level' = level := by
        refine Prod.ext hprice (h.keyed.eq_of_mem (k := level'.1) (h.holds level' hlevel') ?_)
        rw [hprice]
        exact hlevel
      rw [← hsame]
      exact hlevel'
    -- both are sorted, and no price comes twice
    have hsorted : last.Pairwise (InOrder side) := by
      refine hlast.sorted.imp ?_
      intro a b hbetter
      rw [inOrder_iff]
      cases side with
      | bids => exact not_lt.mpr (le_of_lt hbetter)
      | asks => exact not_lt.mpr (le_of_lt hbetter)
    refine congrArg _ (hperm.eq_of_pairwise ?_ h.sorted hsorted)
    intro a b ha hb hab hba
    refine hlast.price_injective (hperm.mem_iff.mp ha) hb ?_
    rw [inOrder_iff] at hab hba
    cases side with
    | bids => exact le_antisymm (not_lt.mp hba) (not_lt.mp hab)
    | asks => exact le_antisymm (not_lt.mp hab) (not_lt.mp hba)

end CryptoCex.Web
