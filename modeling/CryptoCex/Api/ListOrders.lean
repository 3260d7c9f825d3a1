import CryptoCex.Core.Types
import CryptoCex.Lib.Digits
import CryptoCex.Lib.Loop
import CryptoCex.Lib.Pages
import Mathlib.Data.String.Basic

/-!
# Reading one's orders page by page

`list_orders` returns the newest orders and, as the cursor of the next page, the time of the last
of them in whole seconds; the next page begins with the orders before that second. So whatever
else is of the second in which a page ends is not read on any page: `fetchAll_complete_iff` says
when a client that follows the cursors has read all orders.
-/

namespace CryptoCex.Api.ListOrders

open CryptoCex.Core (Uuid)

/-! ## Times -/

/-- A point in time, in microseconds since the epoch, of a year of four digits. -/
structure OffsetDateTime where
  micros : ℤ
  lower : -377705116800 * 1000000 ≤ micros
  upper : micros < 253402300800 * 1000000
deriving DecidableEq

namespace OffsetDateTime

/-- Whole seconds since the epoch. -/
def unixTimestamp (t : OffsetDateTime) : ℤ := t.micros / 1000000

def fromUnixTimestamp (ts : ℤ) : Option OffsetDateTime :=
  if h : -377705116800 ≤ ts ∧ ts ≤ 253402300799 then
    some ⟨ts * 1000000, by omega, by omega⟩
  else none

end OffsetDateTime

/-! ## The query -/

/-- A row of `orders`, joined with its market. -/
structure OrderRow where
  id : Uuid
  userId : Uuid
  symbol : String
  status : String
  createdAt : OffsetDateTime
deriving DecidableEq

/-- The order the database gives the rows that match: that of the times falling, and any among
equal times. -/
def SortsByCreatedAt (sort : List OrderRow → List OrderRow) : Prop :=
  ∀ rows, (sort rows).Perm rows ∧
    (sort rows).Pairwise fun a b => b.createdAt.micros ≤ a.createdAt.micros

/-- The orders that match the filters. -/
def matching (orders : List OrderRow) (userId : Uuid) (statusFilter marketFilter : Option String) :
    List OrderRow :=
  orders.filter fun o => o.userId = userId ∧ (∀ status ∈ statusFilter, o.status = status) ∧
    (∀ market ∈ marketFilter, o.symbol = market)

def list (sort : List OrderRow → List OrderRow) (orders : List OrderRow) (userId : Uuid)
    (statusFilter marketFilter : Option String) (cursor : Option OffsetDateTime) (limit : ℤ) :
    List OrderRow :=
  (sort ((matching orders userId statusFilter marketFilter).filter fun o =>
    ∀ before ∈ cursor, o.createdAt.micros < before.micros)).take limit.toNat

/-! ## The handler -/

structure ListOrdersQuery where
  status : Option String
  market : Option String
  cursor : Option String
  limit : ℤ := 50

/-- The time a cursor names; a text that is no cursor counts as none. -/
def cursorTime (cursor : Option String) : Option OffsetDateTime :=
  (cursor.bind Digits.readInt64).bind OffsetDateTime.fromUnixTimestamp

/-- `limit.clamp(1, 200)` -/
def pageSize (limit : ℤ) : ℤ := max 1 (min limit 200)

/-- The page and the cursor of the next one. -/
def listOrders (sort : List OrderRow → List OrderRow) (orders : List OrderRow) (caller : Uuid)
    (q : ListOrdersQuery) : List OrderRow × Option String :=
  let cursor := cursorTime q.cursor
  let limit := pageSize q.limit
  let rows := list sort orders caller q.status q.market cursor limit
  let nextCursor := rows.getLast?.map fun r => toString r.createdAt.unixTimestamp
  (rows, nextCursor)

/-! ## A client that follows the cursors -/

/-- One request. Before it the client knows how many it has made, the cursor and the pages read;
an empty page ends the reading. -/
def fetchPage (sorts : ℕ → List OrderRow → List OrderRow) (orders : List OrderRow)
    (caller : Uuid) (q : ListOrdersQuery) (state : ℕ × Option String × List (List OrderRow)) :
    Option (Loop.Turn (ℕ × Option String × List (List OrderRow)) (List (List OrderRow))) :=
  let (requests, cursor, pages) := state
  let (data, nextCursor) := listOrders (sorts requests) orders caller { q with cursor }
  if data.isEmpty then some (.done pages)
  else some (.next (requests + 1, nextCursor, pages ++ [data]))

/-- The pages read, from the first request without a cursor on. -/
def fetchAll (sorts : ℕ → List OrderRow → List OrderRow) (orders : List OrderRow)
    (caller : Uuid) (q : ListOrdersQuery) (fuel : ℕ) : Option (List (List OrderRow)) :=
  Loop.loop (fetchPage sorts orders caller q) fuel (0, none, [])

/-! ## What the pages hold -/

section

variable {sorts : ℕ → List OrderRow → List OrderRow} {orders : List OrderRow} {caller : Uuid}
  {q : ListOrdersQuery} {cursor : Option String}

/-- By what the pages are sorted, and by what they are cut. -/
def key (o : OrderRow) : ℤ := o.createdAt.micros

def second (o : OrderRow) : ℤ := o.createdAt.unixTimestamp

/-- Truncating to seconds keeps the order of the rows. -/
theorem second_mono (a b : OrderRow) (h : key a ≤ key b) : second a ≤ second b :=
  Int.ediv_le_ediv (by decide) h

/-- A cursor is read back as the second it was written for. -/
theorem cursorTime_toString (t : OffsetDateTime) :
    ∃ before, cursorTime (some (toString t.unixTimestamp)) = some before ∧
      before.micros = t.unixTimestamp * 1000000 := by
  have hlow : -377705116800 ≤ t.unixTimestamp := by
    have := t.lower
    simp only [OffsetDateTime.unixTimestamp]
    omega
  have hhigh : t.unixTimestamp ≤ 253402300799 := by
    have := t.upper
    simp only [OffsetDateTime.unixTimestamp]
    omega
  have hread : Digits.readInt64 (toString t.unixTimestamp) = some t.unixTimestamp :=
    Digits.readInt64_toString (by omega) (by omega)
  refine ⟨⟨t.unixTimestamp * 1000000, by omega, by omega⟩, ?_, rfl⟩
  simp only [cursorTime, Option.bind_some, hread, OffsetDateTime.fromUnixTimestamp,
    dif_pos (And.intro hlow hhigh)]

/-- The orders that the next page chooses from. -/
def remaining (orders : List OrderRow) (caller : Uuid) (q : ListOrdersQuery)
    (cursor : Option String) : List OrderRow :=
  (matching orders caller q.status q.market).filter fun o =>
    ∀ before ∈ cursorTime cursor, o.createdAt.micros < before.micros

theorem remaining_none :
    remaining orders caller q none = matching orders caller q.status q.market := by
  simp [remaining, cursorTime]

/-- With the cursor of a page that ends in `last` there remains what is of an earlier second. -/
theorem remaining_next {last : OrderRow} (hlast : last ∈ remaining orders caller q cursor) :
    remaining orders caller q (some (toString last.createdAt.unixTimestamp)) =
      (remaining orders caller q cursor).filter fun o => second o < second last := by
  rcases cursorTime_toString last.createdAt with ⟨before, htime, hmicros⟩
  rw [remaining, remaining, List.filter_filter]
  refine List.filter_congr fun o _ => ?_
  have hnext : o.createdAt.micros < before.micros ↔ second o < second last := by
    rw [hmicros]
    exact (Int.ediv_lt_iff_lt_mul (by decide)).symm
  have hbefore := (List.mem_filter.mp hlast).2
  simp only [decide_eq_true_eq] at hbefore
  rw [Bool.eq_iff_iff]
  simp only [htime, Option.mem_def, Option.some.injEq, forall_eq', hnext, Bool.and_eq_true,
    decide_eq_true_eq]
  refine ⟨fun hlt => ⟨hlt, fun earlier hearlier => ?_⟩, fun h => h.1⟩
  -- what is of an earlier second than the last order came before the old cursor too
  have hkey : key o < key last := lt_of_not_ge fun hle => absurd (second_mono _ _ hle) hlt.not_ge
  exact hkey.trans (hbefore earlier hearlier)

/-- A page holds the first rows after the cursor, and its cursor is the second of its last row. -/
theorem listOrders_eq (sort : List OrderRow → List OrderRow) :
    listOrders sort orders caller { q with cursor } =
      ((sort (remaining orders caller q cursor)).take (pageSize q.limit).toNat,
        (((sort (remaining orders caller q cursor)).take (pageSize q.limit).toNat).getLast?).map
          fun r => toString r.createdAt.unixTimestamp) := rfl

theorem pageSize_pos (limit : ℤ) : 0 < (pageSize limit).toNat := by
  unfold pageSize
  omega

/-- From any cursor on the client reads pages of what remains, and comes to an end. -/
theorem fetchPage_paged (hsorts : ∀ i, SortsByCreatedAt (sorts i)) (n : ℕ) (i : ℕ)
    (cursor : Option String) (pages : List (List OrderRow))
    (hn : (remaining orders caller q cursor).length < n) :
    ∃ rest, Loop.loop (fetchPage sorts orders caller q) n (i, cursor, pages) =
        some (pages ++ rest) ∧
      Pages.Paged key second (pageSize q.limit).toNat (remaining orders caller q cursor) rest := by
  induction n generalizing i cursor pages with
  | zero => omega
  | succ n ih =>
    set left := remaining orders caller q cursor with hleft
    have hsort := hsorts i left
    rcases hpage : ((sorts i left).take (pageSize q.limit).toNat).getLast? with _ | last
    · -- the page is empty, so nothing remained
      have hnil : (sorts i left).take (pageSize q.limit).toNat = [] :=
        List.getLast?_eq_none_iff.mp hpage
      have hnone : left = [] := by
        rcases List.take_eq_nil_iff.mp hnil with hzero | hempty
        · exact absurd hzero (pageSize_pos q.limit).ne'
        · rw [hempty] at hsort
          exact hsort.1.symm.eq_nil
      refine ⟨[], ?_, ?_⟩
      · rw [List.append_nil]
        refine Loop.loop_succ_done ?_
        simp only [fetchPage, listOrders_eq, ← hleft, hnil, List.isEmpty_nil, if_true]
      · rw [hnone]
        exact .done
    -- the page is not empty: each further one is read from fewer orders
    · have hlast : last ∈ left :=
        hsort.1.mem_iff.mp (List.mem_of_mem_take (List.mem_of_getLast? hpage))
      have hnext := remaining_next hlast
      have hshorter : (left.filter fun o => second o < second last).length < left.length :=
        Pages.Paged.length_rest_lt hsort.1 hpage
      rw [← hnext] at hshorter
      rcases ih (i + 1) (some (toString last.createdAt.unixTimestamp))
        (pages ++ [(sorts i left).take (pageSize q.limit).toNat])
        (by omega) with ⟨rest, hloop, hrest⟩
      refine ⟨(sorts i left).take (pageSize q.limit).toNat :: rest, ?_, ?_⟩
      · rw [List.append_assoc, List.singleton_append] at hloop
        rw [← hloop]
        refine Loop.loop_succ_next ?_
        have hsome : ((sorts i left).take (pageSize q.limit).toNat).isEmpty = false := by
          rw [List.isEmpty_eq_false_iff]
          intro hnil
          rw [hnil] at hpage
          cases hpage
        simp only [fetchPage, listOrders_eq, ← hleft, hsome, hpage, Option.map_some,
          Bool.false_eq_true, if_false]
      · rw [hnext] at hrest
        exact .page left _ last rest hsort.1 hsort.2 hpage hrest

/-- However long it goes on, a client that follows the cursors reads the same pages. -/
theorem fetchAll_unique {fuel fuel' : ℕ} {pages pages' : List (List OrderRow)}
    (h : fetchAll sorts orders caller q fuel = some pages)
    (h' : fetchAll sorts orders caller q fuel' = some pages') : pages = pages' := by
  have hmax := Loop.loop_mono (fun _ _ hbody => hbody) (le_max_left fuel fuel') h
  have hmax' := Loop.loop_mono (fun _ _ hbody => hbody) (le_max_right fuel fuel') h'
  exact Option.some.inj (hmax.symm.trans hmax')

/-- A client that follows the cursors comes to an end. -/
theorem fetchAll_paged (hsorts : ∀ i, SortsByCreatedAt (sorts i)) :
    ∃ fuel pages, fetchAll sorts orders caller q fuel = some pages ∧
      Pages.Paged key second (pageSize q.limit).toNat
        (matching orders caller q.status q.market) pages := by
  rcases fetchPage_paged hsorts _ 0 none [] (Nat.lt_succ_self _) with ⟨pages, hloop, hpaged⟩
  rw [remaining_none] at hpaged
  exact ⟨_, pages, hloop, hpaged⟩

/-- It reads every order that matches, once and newest first, if and only if no page ends inside
a second: of the seconds of these orders, newest first, no two neighbours on both sides of the end
of a page are equal. -/
theorem fetchAll_complete_iff (hsorts : ∀ i, SortsByCreatedAt (sorts i)) :
    (∃ fuel pages, fetchAll sorts orders caller q fuel = some pages ∧
        pages.flatten.Perm (matching orders caller q.status q.market) ∧
        pages.flatten.Pairwise fun a b => b.createdAt.micros ≤ a.createdAt.micros) ↔
      Pages.Uncut (pageSize q.limit).toNat
        (Pages.units second (matching orders caller q.status q.market)) := by
  rcases fetchAll_paged hsorts with ⟨fuel, pages, hfetch, hpaged⟩
  rw [← hpaged.perm_iff (pageSize_pos q.limit) second_mono]
  constructor
  · rintro ⟨fuel', pages', hfetch', hperm, _⟩
    rwa [fetchAll_unique hfetch hfetch']
  · intro hperm
    exact ⟨fuel, pages, hfetch, hperm, hpaged.falls second_mono⟩

end

/-! ### Two orders on pages of one -/

def sortByCreatedAt (rows : List OrderRow) : List OrderRow :=
  rows.insertionSort fun a b => b.createdAt.micros ≤ a.createdAt.micros

theorem sortsByCreatedAt_sortByCreatedAt : SortsByCreatedAt sortByCreatedAt := by
  intro rows
  have htotal : Std.Total fun a b : OrderRow => b.createdAt.micros ≤ a.createdAt.micros :=
    ⟨fun a b => le_total _ _⟩
  have htrans : IsTrans OrderRow fun a b => b.createdAt.micros ≤ a.createdAt.micros :=
    ⟨fun _ _ _ hab hbc => hbc.trans hab⟩
  exact ⟨List.perm_insertionSort _ _, List.pairwise_insertionSort _ _⟩

def openOrder (id : Uuid) (createdAt : OffsetDateTime) : OrderRow :=
  ⟨id, 7, "BTCUSDT", "new", createdAt⟩

/-- Seven tenths after a full second. -/
def newer : OrderRow := openOrder 1 ⟨1700000000700000, by decide, by decide⟩

/-- Two tenths after the same second. -/
def sameSecond : OrderRow := openOrder 2 ⟨1700000000200000, by decide, by decide⟩

/-- In the second before. -/
def earlier : OrderRow := openOrder 3 ⟨1699999999200000, by decide, by decide⟩

def onePerPage : ListOrdersQuery where
  status := some "new"
  market := none
  cursor := none
  limit := 1

theorem fetchAll_two_seconds :
    ∃ fuel pages,
      fetchAll (fun _ => sortByCreatedAt) [newer, earlier] 7 onePerPage fuel = some pages ∧
        pages.flatten.Perm (matching [newer, earlier] 7 (some "new") none) ∧
        pages.flatten.Pairwise fun a b => b.createdAt.micros ≤ a.createdAt.micros := by
  refine (fetchAll_complete_iff fun _ => sortsByCreatedAt_sortByCreatedAt).mpr ?_
  have hunits : Pages.units second (matching [newer, earlier] 7 onePerPage.status
      onePerPage.market) = [1700000000, 1699999999] := by
    decide +kernel
  rw [hunits]
  intro k hk u v hu hv
  have hsize : (pageSize onePerPage.limit).toNat = 1 := rfl
  rw [hsize, Nat.mul_one] at hu hv
  have hbound := (List.getElem?_eq_some_iff.mp hv).1
  obtain rfl : k = 1 := by
    simp only [List.length_cons, List.length_nil] at hbound
    omega
  cases hu
  cases hv
  decide

/-- The cursor of the first page is the second of both orders, so the other one is never read. -/
theorem same_second_skipped :
    ¬∃ fuel pages,
      fetchAll (fun _ => sortByCreatedAt) [newer, sameSecond] 7 onePerPage fuel = some pages ∧
        pages.flatten.Perm (matching [newer, sameSecond] 7 (some "new") none) ∧
        pages.flatten.Pairwise fun a b => b.createdAt.micros ≤ a.createdAt.micros := by
  rintro ⟨fuel, pages, hfetch, hperm, _⟩
  have hfirst : fetchAll (fun _ => sortByCreatedAt) [newer, sameSecond] 7 onePerPage 2 =
      some [[newer]] := by
    decide +kernel
  rw [fetchAll_unique hfetch hfirst] at hperm
  have hlength := hperm.length_eq
  revert hlength
  decide +kernel

end CryptoCex.Api.ListOrders
