import CryptoCex.Core.Runs
import CryptoCex.Lib.Frames

/-!
# Snapshots of the book

A snapshot holds the fields of a book without the index, which is built again from the two
level maps when the snapshot was loaded (`rebuildIndex`); a clone is a book without its index.
In a consistent book every resting order has its own id, so the index that is built is the one
that was left out (`Consistent.rebuildIndex_eq`), and the calls that follow do not tell the book
from the one that was saved (`snapshot_and_tail`).
-/

namespace CryptoCex.Core

open Frames (Codec)

/-- The serialised fields of a book. -/
structure SavedBook where
  bids : Levels
  asks : Levels
  stops : StopRegistry
  ocoLinks : OrdMap Uuid Uuid
deriving DecidableEq

namespace OrderBook

/-- The book as `serde` sees it: the index is skipped. -/
def saved (b : OrderBook) : SavedBook := ⟨b.bids, b.asks, b.stops, b.ocoLinks⟩

/-- A clone of the order data; the index is left empty. -/
def clone (b : OrderBook) : OrderBook := { b with orderIndex := OrdMap.empty }

/-- The index entries of one side. -/
def indexEntries (side : Side) (levels : Levels) : List (Uuid × Side × Decimal) :=
  levels.entries.flatMap fun level => level.2.map fun order => (order.id, side, level.1)

/-- Builds the index from the resting orders, bids first. -/
def rebuildIndex (b : OrderBook) : OrderBook :=
  { b with orderIndex :=
      (OrdMap.empty.insertAll (indexEntries .buy b.bids)).insertAll (indexEntries .sell b.asks) }

end OrderBook

/-- A book with the serialised fields and no index. -/
def SavedBook.restore (s : SavedBook) : OrderBook where
  bids := s.bids
  asks := s.asks
  orderIndex := OrdMap.empty
  stops := s.stops
  ocoLinks := s.ocoLinks

namespace Snapshot

-- bincode is a crate of its own.
variable (bincode : Codec (UInt64 × SavedBook))

/-- The bytes of the file of a snapshot. -/
def save (seq : UInt64) (book : OrderBook) : List UInt8 := bincode.encode (seq, book.saved)

def load (file : List UInt8) : Option (UInt64 × OrderBook) :=
  (bincode.decode file).map fun loaded => (loaded.1, loaded.2.restore)

end Snapshot

namespace OrderBook

/-- Carries out a list of calls and keeps what each of them returns. -/
def runEvents (fuel : ℕ) : OrderBook → List BookCommand →
    Option (OrderBook × List (List EngineEvent))
  | b, [] => some (b, [])
  | b, cmd :: cmds =>
    match b.exec fuel cmd with
    | none => none
    | some (b', events) =>
      (runEvents fuel b' cmds).map fun r => (r.1, events :: r.2)

variable {b b' : OrderBook} {fuel : ℕ}

theorem runEvents_append (cmds cmds' : List BookCommand) :
    b.runEvents fuel (cmds ++ cmds') =
      (b.runEvents fuel cmds).bind fun r =>
        (r.1.runEvents fuel cmds').map fun r' => (r'.1, r.2 ++ r'.2) := by
  induction cmds generalizing b with
  | nil => simp [runEvents]
  | cons cmd cmds ih =>
    simp only [List.cons_append, runEvents]
    cases b.exec fuel cmd with
    | none => rfl
    | some r =>
      simp only [ih]
      cases r.1.runEvents fuel cmds with
      | none => rfl
      | some r' =>
        simp only [Option.bind_some, Option.map_some, Option.map_map]
        rfl

/-- Keeping the events does not change the book. -/
theorem runEvents_fst (cmds : List BookCommand) :
    (b.runEvents fuel cmds).map Prod.fst = b.runCommands fuel cmds := by
  induction cmds generalizing b with
  | nil => rfl
  | cons cmd cmds ih =>
    simp only [runEvents, runCommands]
    cases b.exec fuel cmd with
    | none => rfl
    | some r =>
      simp only [Option.map_map]
      exact ih

/-- More fuel does not change the events of a run. -/
theorem runEvents_mono {fuel' : ℕ} {cmds : List BookCommand}
    {r : OrderBook × List (List EngineEvent)} (hle : fuel ≤ fuel')
    (h : b.runEvents fuel cmds = some r) : b.runEvents fuel' cmds = some r := by
  induction cmds generalizing b r with
  | nil => exact h
  | cons cmd cmds ih =>
    simp only [runEvents] at h ⊢
    cases hexec : b.exec fuel cmd with
    | none =>
      rw [hexec] at h
      cases h
    | some next =>
      rw [hexec] at h
      rw [exec_mono hle hexec]
      rcases Option.map_eq_some_iff.mp h with ⟨rest, hrest, rfl⟩
      exact Option.map_eq_some_iff.mpr ⟨rest, ih hrest, rfl⟩

/-- The invariant rule for runs that return, over the calls and the events so far. -/
theorem runEvents_invariant (Inv : List BookCommand → List EngineEvent → OrderBook → Prop)
    (Ok : List BookCommand → BookCommand → Prop)
    (hexec : ∀ past events b cmd r, Inv past events b → Ok past cmd → b.exec fuel cmd = some r →
      Inv (past ++ [cmd]) (events ++ r.2) r.1)
    (past : List BookCommand) (before : List EngineEvent) {cmds : List BookCommand}
    {b b' : OrderBook} {events : List (List EngineEvent)} (h0 : Inv past before b)
    (hok : ∀ l cmd l', cmds = l ++ cmd :: l' → Ok (past ++ l) cmd)
    (h : b.runEvents fuel cmds = some (b', events)) :
    Inv (past ++ cmds) (before ++ events.flatten) b' := by
  induction cmds generalizing past before b events with
  | nil =>
    cases h
    rw [List.append_nil, List.flatten_nil, List.append_nil]
    exact h0
  | cons cmd cmds ih =>
    rw [runEvents] at h
    cases hr : b.exec fuel cmd with
    | none =>
      rw [hr] at h
      cases h
    | some r =>
      rw [hr] at h
      rcases Option.map_eq_some_iff.mp h with ⟨rest, hrest, heq⟩
      cases heq
      have hcmd : Ok past cmd := by
        have := hok [] cmd cmds rfl
        rwa [List.append_nil] at this
      have hnext := ih (past ++ [cmd]) (before ++ r.2) (hexec past before b cmd r h0 hcmd hr) ?_
        hrest
      · rwa [List.append_assoc, List.append_assoc] at hnext
      · -- the conditions on the rest of the run
        intro l c l' hsplit
        have := hok (cmd :: l) c l' (by rw [hsplit, List.cons_append])
        rwa [List.append_assoc]

/-! ## The index -/

/-- The entries of the index are the orders of the levels. -/
theorem mem_indexEntries {side : Side} {levels : Levels} {id : Uuid} {side' : Side}
    {price : Decimal} : (id, side', price) ∈ indexEntries side levels ↔
      side' = side ∧ ∃ o ∈ levels.queueAt price, o.id = id := by
  simp only [indexEntries, List.mem_flatMap, List.mem_map, Prod.mk.injEq]
  constructor
  · rintro ⟨⟨p, q⟩, hlevel, o, ho, rfl, rfl, rfl⟩
    refine ⟨rfl, o, ?_, rfl⟩
    rw [OrdMap.queueAt, OrdMap.find?_eq_some.mpr hlevel]
    exact ho
  · rintro ⟨rfl, o, ho, rfl⟩
    cases hlevel : levels.find? price with
    | none => simp [OrdMap.queueAt, hlevel] at ho
    | some q =>
      rw [OrdMap.queueAt, hlevel] at ho
      exact ⟨(price, q), OrdMap.find?_eq_some.mp hlevel, o, ho, rfl, rfl, rfl⟩

/-- The ids of the entries are those of the orders. -/
theorem map_fst_indexEntries (side : Side) (levels : Levels) :
    (indexEntries side levels).map Prod.fst = levels.flat.map (·.id) := by
  simp only [indexEntries, OrdMap.flat, OrdMap.values, List.map_flatten, List.flatMap_def,
    List.map_map]
  congr 1
  apply List.map_congr_left
  intro level _
  exact List.map_map

/-- The index of a consistent book is a function of the two level maps. -/
theorem Consistent.rebuildIndex_eq (hb : b.Consistent) : b.rebuildIndex = b := by
  have hunique : ((b.bids.flat ++ b.asks.flat).map (·.id)).Nodup := by
    have hresting : (b.restingPool.map (·.id)).Nodup :=
      Multiset.nodup_of_le (Multiset.map_le_map (Multiset.le_add_right _ _)) hb.unique
    exact hresting
  rw [List.map_append, List.nodup_append] at hunique
  rcases hunique with ⟨hbids, hasks, hapart⟩
  have hindex : b.rebuildIndex.orderIndex = b.orderIndex := by
    apply OrdMap.ext_find?
    intro id
    ext place
    rcases place with ⟨side, price⟩
    simp only [rebuildIndex]
    rw [OrdMap.find?_insertAll (by rwa [map_fst_indexEntries]),
      OrdMap.find?_insertAll (by rwa [map_fst_indexEntries]), hb.indexed, mem_indexEntries,
      mem_indexEntries, map_fst_indexEntries, map_fst_indexEntries]
    cases side with
    | buy =>
      -- an id among the bids is not one among the asks
      have hother : (∃ o ∈ b.bids.queueAt price, o.id = id) → id ∉ b.asks.flat.map (·.id) := by
        rintro ⟨o, ho, rfl⟩ hmem
        have hmem' : o.id ∈ b.bids.flat.map (·.id) :=
          List.mem_map_of_mem (OrdMap.mem_flat.mpr ⟨price, ho⟩)
        exact hapart _ hmem' _ hmem rfl
      constructor
      · rintro (⟨hside, _⟩ | ⟨_, ⟨_, hmem⟩ | ⟨_, hnone⟩⟩)
        · cases hside
        · exact hmem
        · cases hnone
      · intro hmem
        exact .inr ⟨hother hmem, .inl ⟨rfl, hmem⟩⟩
    | sell =>
      constructor
      · rintro (⟨_, hmem⟩ | ⟨_, ⟨hside, _⟩ | ⟨_, hnone⟩⟩)
        · exact hmem
        · cases hside
        · cases hnone
      · intro hmem
        exact .inl ⟨rfl, hmem⟩
  calc b.rebuildIndex = { b with orderIndex := b.rebuildIndex.orderIndex } := rfl
    _ = b := by rw [hindex]

/-- The loaded book with its index is the saved one. -/
theorem Consistent.rebuild_restore (hb : b.Consistent) : b.saved.restore.rebuildIndex = b :=
  hb.rebuildIndex_eq

/-- A consistent book is rebuilt from its levels as it was. -/
theorem Consistent.rebuild_clone (hb : b.Consistent) : b.clone.rebuildIndex = b :=
  hb.rebuildIndex_eq

end OrderBook

/-! ## Orders that may lack a stop price -/

/-- An order with a quantity, a price where it can rest and a display quantity that is
positive. -/
structure Order.Enterable (o : Order) : Prop where
  full : o.remaining = o.quantity
  positive : 0 < o.quantity
  priced : o.orderType.canRest = true → ∃ p, o.price = some p
  display : ∀ d, o.displayQty = some d → 0 < d

theorem Order.Enterable.sized {o : Order} (h : o.Enterable) : o.Sized :=
  ⟨by rw [h.full]; exact h.positive, h.display⟩

theorem Order.Enterable.waiting {o : Order} (h : o.Enterable) : o.Waiting :=
  ⟨h.sized.positive, h.priced⟩

/-- A stop without a stop price is refused. -/
theorem OrderBook.matchOrder_unregistered {b : OrderBook} {fuel : ℕ} {o : Order}
    (hstop : o.orderType.isStop = true) (hprice : o.stopPrice = none) :
    b.matchOrder fuel o = some (b, [.cancelled o.id .adminCancel]) := by
  have hpre : b.preCheck o = none := by
    unfold preCheck
    cases htype : o.orderType <;> simp_all [OrderType.isStop]
  simp only [matchOrder, hpre, hstop, if_true, registerStopOrder, StopRegistry.insert, hprice]

theorem exec_after_waiting {fuel : ℕ} {past : List BookCommand} {b : OrderBook}
    {cmd : BookCommand} {r : OrderBook × List EngineEvent} (h : After past b)
    (hcmd : Follows Order.Waiting past cmd) (hexec : b.exec fuel cmd = some r) :
    After (past ++ [cmd]) r.1 := by
  by_cases hadm : ∀ order, cmd = .matchOrder order → order.Admissible
  · exact exec_after (fun _ h => h) h (fun order heq => ⟨hadm order heq, (hcmd order heq).2⟩) hexec
  · simp only [not_forall] at hadm
    rcases hadm with ⟨order, rfl, hnot⟩
    rcases hcmd order rfl with ⟨hwaiting, _⟩
    -- what the order lacks is its stop price
    have hstop : order.orderType.isStop = true ∧ order.stopPrice = none := by
      by_contra hand
      refine hnot ⟨hwaiting.positive, hwaiting.priced, ?_⟩
      intro hisStop
      exact Option.ne_none_iff_exists'.mp fun hnone => hand ⟨hisStop, hnone⟩
    have hbook : r.1 = b := by
      have hsame := (OrderBook.matchOrder_unregistered hstop.1 hstop.2).symm.trans hexec
      cases hsame
      rfl
    rw [hbook]
    refine ⟨h.sound, ?_⟩
    intro o ho
    rw [submittedIds, submitted_append, List.map_append]
    exact List.mem_append_left _ (h.known o ho)

/-- `b` is the book after a run of orders that have a quantity, a price where they can rest and an
id of their own. -/
structure Arises [Rounding] (cmds : List BookCommand) (b : OrderBook) : Prop where
  waiting : ∀ o ∈ submitted cmds, o.Waiting
  fresh : (submittedIds cmds).Nodup
  run : ∃ fuel, OrderBook.new.runCommands fuel cmds = some b

/-- What is known after commands is known of every book that arises. -/
theorem Arises.after {cmds : List BookCommand} {b : OrderBook} (h : Arises cmds b) :
    After cmds b := by
  obtain ⟨fuel, hrun⟩ := h.run
  have hafter := runCommands_invariant After (Follows Order.Waiting)
    (fun past b cmd r hinv hok hexec => exec_after_waiting hinv hok hexec) [] after_new
    (follows_of_nodup h.waiting h.fresh) hrun
  rwa [List.nil_append] at hafter

/-- Every run returns, and its book is sound. -/
theorem runCommands_enterable {past : List BookCommand} {b : OrderBook} (hb : After past b)
    (cmds : List BookCommand) (hall : b.All Order.Sized) (hok : ∀ l cmd l', cmds = l ++ cmd :: l' →
      Follows Order.Enterable (past ++ l) cmd) :
    ∃ n b', (∀ fuel ≥ n, b.runCommands fuel cmds = some b') ∧
      After (past ++ cmds) b' ∧ b'.All Order.Sized := by
  refine runCommands_terminates (fun past b => After past b ∧ b.All Order.Sized)
    (Follows Order.Enterable) ?_ past ⟨hb, hall⟩ hok
  rintro past b cmd ⟨hafter, hall⟩ hcmd
  rcases exec_terminates kept_sized hall
    (fun order h => (hcmd order h).1.sized) with ⟨⟨fuel, r, hr⟩, hkeep⟩
  have hwaiting : Follows Order.Waiting past cmd := fun order heq =>
    ⟨(hcmd order heq).1.waiting, (hcmd order heq).2⟩
  exact ⟨fuel, r, hr, exec_after_waiting hafter hwaiting hr, hkeep fuel r hr⟩

/-- A run that returns also returns its events. -/
theorem OrderBook.runEvents_of_runCommands {b b' : OrderBook} {cmds : List BookCommand} {n : ℕ}
    (h : ∀ fuel ≥ n, b.runCommands fuel cmds = some b') :
    ∃ events, ∀ fuel ≥ n, b.runEvents fuel cmds = some (b', events) := by
  have hn := h n (le_refl n)
  rw [← runEvents_fst] at hn
  rcases Option.map_eq_some_iff.mp hn with ⟨⟨b'', events⟩, hrun, rfl⟩
  exact ⟨events, fun fuel hfuel => runEvents_mono hfuel hrun⟩

/-! ## Saving and going on -/

/-- After a snapshot is loaded and its index is built, the calls `tail` return the same events
and lead to the same book as behind the calls `cmds` on an empty book, and so they do on a
clone. -/
def Resumes (bincode : Codec (UInt64 × SavedBook)) (seq : UInt64)
    (cmds tail : List BookCommand) : Prop :=
  ∃ n b events b' events', ∀ fuel ≥ n,
    OrderBook.new.runEvents fuel cmds = some (b, events) ∧
    OrderBook.new.runEvents fuel (cmds ++ tail) = some (b', events ++ events') ∧
    (∃ loaded, Snapshot.load bincode (Snapshot.save bincode seq b) = some (seq, loaded) ∧
      loaded.rebuildIndex.runEvents fuel tail = some (b', events')) ∧
    b.clone.rebuildIndex.runEvents fuel tail = some (b', events')

/-- A snapshot and the calls behind it are as good as all the calls. -/
theorem snapshot_and_tail (bincode : Codec (UInt64 × SavedBook)) (seq : UInt64)
    (cmds tail : List BookCommand) (hall : ∀ o ∈ submitted (cmds ++ tail), o.Enterable)
    (hfresh : (submittedIds (cmds ++ tail)).Nodup)
    (hbincode : ∀ fuel b, OrderBook.new.runCommands fuel cmds = some b →
      bincode.decode (bincode.encode (seq, b.saved)) = some (seq, b.saved)) :
    Resumes bincode seq cmds tail := by
  have hok := follows_of_nodup hall hfresh
  have hokHead : ∀ l cmd l', cmds = l ++ cmd :: l' → Follows Order.Enterable ([] ++ l) cmd := by
    intro l cmd l' hsplit
    exact hok l cmd (l' ++ tail) (by rw [hsplit, List.append_assoc, List.cons_append])
  have hokTail : ∀ l cmd l', tail = l ++ cmd :: l' →
      Follows Order.Enterable (cmds ++ l) cmd := by
    intro l cmd l' hsplit
    exact hok (cmds ++ l) cmd l' (by rw [hsplit, List.append_assoc])
  rcases runCommands_enterable after_new cmds (OrderBook.all_new _) hokHead with
    ⟨n, b, hrun, hafter, hsized⟩
  rw [List.nil_append] at hafter
  rcases runCommands_enterable hafter tail hsized hokTail with ⟨n', b', hrun', _⟩
  rcases OrderBook.runEvents_of_runCommands hrun with ⟨events, hevents⟩
  rcases OrderBook.runEvents_of_runCommands hrun' with ⟨events', hevents'⟩
  refine ⟨max n n', b, events, b', events', ?_⟩
  intro fuel hfuel
  have hhead := hevents fuel ((le_max_left _ _).trans hfuel)
  have htail := hevents' fuel ((le_max_right _ _).trans hfuel)
  -- the whole run, the loaded snapshot with the tail behind it, and the same for a clone
  refine ⟨hhead, ?_, ⟨b.saved.restore, ?_, ?_⟩, ?_⟩
  · rw [OrderBook.runEvents_append, hhead, Option.bind_some, htail]
    rfl
  · rw [Snapshot.load, Snapshot.save, hbincode n b (hrun n (le_refl n))]
    rfl
  · rw [hafter.sound.book.rebuild_restore]
    exact htail
  · rw [hafter.sound.book.rebuild_clone]
    exact htail

/-- An offer of 5 at 100. -/
def savedOffer : Order := limitOrder 1 10 .sell (100 * 10 ^ 28) (5 * 10 ^ 28)

/-- The first snapshot, of a book with one offer. -/
def offerSnapshot : UInt64 × SavedBook :=
  (1, {
    bids := OrdMap.empty
    asks := OrdMap.empty.insert (100 * 10 ^ 28) [savedOffer]
    stops := StopRegistry.new
    ocoLinks := OrdMap.empty })

/-- A text as bincode writes it. -/
def bincodeText (text : String) : List UInt8 :=
  Frames.digits 8 text.length ++ text.toList.map fun ch => .ofNat ch.toNat

/-- The bytes bincode gives for the snapshot: maps and queues begin with their lengths, ids are
sixteen bytes behind their count, and decimals are texts. -/
def offerBytes : List UInt8 :=
  let id (n : ℕ) := Frames.digits 8 16 ++ (Frames.digits 16 n).reverse
  Frames.digits 8 1 ++ Frames.digits 8 0 ++
    Frames.digits 8 1 ++ bincodeText "100" ++ Frames.digits 8 1 ++
      id 1 ++ id 10 ++ bincodeText "BTC-USD" ++ Frames.digits 4 1 ++ Frames.digits 4 0 ++
      [1] ++ bincodeText "100" ++ bincodeText "5" ++ bincodeText "5" ++ Frames.digits 4 2 ++
      [0, 0, 0] ++
    Frames.digits 8 0 ++ Frames.digits 8 0 ++ Frames.digits 8 0

def bincodeOffer : Codec (UInt64 × SavedBook) where
  encode := fun snapshot => if snapshot = offerSnapshot then offerBytes else []
  decode := fun bytes => if bytes = offerBytes then some offerSnapshot else none

/-- The order that was loaded can be cancelled. -/
theorem cancel_after_load : Resumes bincodeOffer 1 [.matchOrder savedOffer] [.cancelOrder 1] := by
  refine snapshot_and_tail _ _ _ _ ?_ (by decide) ?_
  · intro o ho
    rw [List.mem_singleton.mp ho]
    exact ⟨rfl, by decide, fun _ => ⟨_, rfl⟩, fun d hd => by cases hd⟩
  · intro fuel b hrun
    have hrest : (OrderBook.new.runCommands 3 [.matchOrder savedOffer]).map (·.saved) =
        some offerSnapshot.2 := by decide +kernel
    rcases Option.map_eq_some_iff.mp hrest with ⟨b₀, hrun₀, hsaved⟩
    have hmore := runCommands_mono (Nat.le_add_right fuel 3) hrun
    rw [runCommands_mono (Nat.le_add_left 3 fuel) hrun₀] at hmore
    rw [← Option.some.inj hmore, hsaved]
    decide +kernel

end CryptoCex.Core
