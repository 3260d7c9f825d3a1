import CryptoCex.Server.Covers
import CryptoCex.Server.Reject

/-!
# Replaying the command log

`EngineState::open` rebuilds the books by running the commands of the log again.
Replay and the live engine differ in the table of live orders alone: replay applies
the events of every match, the live engine skips those of a match that it answers
with a rejection. The difference reaches the books by a cancel. A cancel is replayed
only if the replayed table has the order, so a cancel of an order that is gone from
its book is lost, and with it the cancel of the order's OCO sibling.

`Tracks` relates the live table to the replayed one. `replayed_of_runRequests` is the
result for runs without such cancels, and `replay_misses_cancel` is a run with one.
-/

namespace CryptoCex.Server

open CryptoCex.Core CryptoCex.Core.OrderBook
open Proto (EngineOrder EngineRequest)

namespace Exchange

/-! ## Replay as steps -/

/-- The effect of one command while the log is replayed. -/
inductive ReplayStep [Rounding] (fuel : ℕ) (x : Exchange) : WalCommand → Exchange → Prop where
  | placed {order : Order} {book : OrderBook} {events : List EngineEvent}
      (hmatch : EngineState.matchInBook fuel (x.bookOf order.symbol) order = some (book, events)) :
      ReplayStep fuel x (.placeOrder order) {
        books := x.books.insert order.symbol book
        openOrders := applyOpenOrderUpdates x.openOrders (some order) events }
  | cancelled {orderId : Uuid} {entry : OpenOrder} {book : OrderBook}
      (hentry : x.openOrders.find? orderId = some entry)
      (hbook : x.books.find? entry.symbol = some book) :
      ReplayStep fuel x (.cancelOrder orderId) {
        books := x.books.insert entry.symbol (book.cancelOrder orderId).1
        openOrders := applyOpenOrderUpdates x.openOrders none (book.cancelOrder orderId).2 }
  | bookless {orderId : Uuid} {entry : OpenOrder}
      (hentry : x.openOrders.find? orderId = some entry)
      (hbook : x.books.find? entry.symbol = none) : ReplayStep fuel x (.cancelOrder orderId) x
  | unlisted {orderId : Uuid} (hentry : x.openOrders.find? orderId = none) :
      ReplayStep fuel x (.cancelOrder orderId) x

/-- The log stands for this exchange. -/
def Replayed [Rounding] (fuel : ℕ) (entries : List WalEntry) (x : Exchange) : Prop :=
  EngineState.replayBooks fuel entries OrdMap.empty OrdMap.empty = some (x.books, x.openOrders)

variable {fuel : ℕ} {x y : Exchange} {cmd : WalCommand} {entries : List WalEntry}
  {placed : List Order}

/-- A log is replayed piece by piece. -/
theorem replayBooks_append [Rounding] (entries entries' : List WalEntry)
    (books : OrdMap String OrderBook) (openOrders : OpenOrders) :
    EngineState.replayBooks fuel (entries ++ entries') books openOrders =
      (EngineState.replayBooks fuel entries books openOrders).bind fun r =>
        EngineState.replayBooks fuel entries' r.1 r.2 := by
  induction entries generalizing books openOrders with
  | nil => rfl
  | cons entry entries ih =>
    simp only [List.cons_append, EngineState.replayBooks]
    cases entry.command with
    | placeOrder order =>
      dsimp only
      cases EngineState.matchInBook fuel ((books.find? order.symbol).getD OrderBook.new) order with
      | none => rfl
      | some r => exact ih _ _
    | cancelOrder orderId => exact ih _ _

/-- Replaying one entry is one step. -/
theorem replayBooks_singleton [Rounding] (entry : WalEntry) :
    EngineState.replayBooks fuel [entry] x.books x.openOrders = some (y.books, y.openOrders) ↔
      ReplayStep fuel x entry.command y := by
  simp only [EngineState.replayBooks]
  constructor
  · intro h
    cases hcmd : entry.command with
    -- a placement is matched again, and its events are dropped
    | placeOrder order =>
      rw [hcmd] at h
      dsimp only at h
      split at h
      · cases h
      · next book events hmatch =>
        have hstep := ReplayStep.placed (x := x) hmatch
        cases y
        cases h
        exact hstep
    -- a cancel is repeated if the replayed table lists the order
    | cancelOrder orderId =>
      rw [hcmd] at h
      unfold EngineState.replayCancel at h
      cases x
      cases y
      dsimp only at h
      split at h
      · next hentry =>
        cases h
        exact .unlisted hentry
      · next entry hentry =>
        split at h
        · next hbook =>
          cases h
          exact .bookless hentry hbook
        · next book hbook =>
          cases h
          exact .cancelled hentry hbook
  · intro h
    generalize entry.command = cmd at h
    cases h with
    | @placed order book events hmatch =>
      unfold Exchange.bookOf at hmatch
      simp only [hmatch]
    | cancelled hentry hbook => simp only [EngineState.replayCancel, hentry, hbook]
    | bookless hentry hbook => simp only [EngineState.replayCancel, hentry, hbook]
    | unlisted hentry => simp only [EngineState.replayCancel, hentry]

/-- Replay reads the commands of a log, not its numbers. -/
theorem replayBooks_congr [Rounding] {entries' : List WalEntry}
    (h : entries.map (·.command) = entries'.map (·.command)) (books : OrdMap String OrderBook)
    (openOrders : OpenOrders) :
    EngineState.replayBooks fuel entries books openOrders =
      EngineState.replayBooks fuel entries' books openOrders := by
  induction entries generalizing entries' books openOrders with
  | nil =>
    rw [List.map_eq_nil_iff.mp h.symm]
  | cons entry entries ih =>
    rcases List.map_eq_cons_iff.mp h.symm with ⟨entry', tail, rfl, hhead, htail⟩
    simp only [EngineState.replayBooks, hhead]
    cases entry.command with
    | placeOrder order =>
      dsimp only
      cases EngineState.matchInBook fuel ((books.find? order.symbol).getD OrderBook.new) order with
      | none => rfl
      | some r => exact ih htail.symm _ _
    | cancelOrder orderId => exact ih htail.symm _ _

theorem Replayed.concat [Rounding] {entry : WalEntry} (h : Replayed fuel entries x)
    (hstep : ReplayStep fuel x entry.command y) : Replayed fuel (entries ++ [entry]) y := by
  rw [Replayed, replayBooks_append, show EngineState.replayBooks fuel entries _ _ = _ from h]
  exact (replayBooks_singleton entry).mpr hstep

/-- The induction rule for replays. -/
theorem Replayed.induct [Rounding] (Inv : List WalCommand → Exchange → Prop) (h0 : Inv [] empty)
    (hstep : ∀ cmds x cmd y, Inv cmds x → ReplayStep fuel x cmd y → Inv (cmds ++ [cmd]) y)
    (h : Replayed fuel entries x) : Inv (entries.map (·.command)) x := by
  induction entries using List.reverseRecOn generalizing x with
  | nil =>
    cases x
    cases h
    exact h0
  | append_singleton entries entry ih =>
    rw [Replayed, replayBooks_append] at h
    rcases Option.bind_eq_some_iff.mp h with ⟨⟨books, openOrders⟩, hfirst, hlast⟩
    have hmid : Inv (entries.map (·.command)) ⟨books, openOrders⟩ := ih hfirst
    rw [List.map_append]
    exact hstep _ _ _ _ hmid
      ((replayBooks_singleton (x := ⟨books, openOrders⟩) entry).mp hlast)

/-! ## What replay keeps -/

/-- The books of a replayed command are those of the live one. -/
theorem ReplayStep.books [Rounding] (h : ReplayStep fuel x cmd y) :
    (∃ z, Step fuel x cmd z ∧ z.books = y.books) ∨ y = x := by
  cases h with
  | @placed order book events hmatch =>
    refine Or.inl ?_
    by_cases hreject : immediatePreReject 0 order.id events = none
    · exact ⟨_, .placed 0 hmatch hreject, rfl⟩
    · exact ⟨_, .rejected 0 hmatch hreject, rfl⟩
  | cancelled hentry hbook => exact Or.inl ⟨_, .cancelled hentry hbook, rfl⟩
  | bookless => exact Or.inr rfl
  | unlisted => exact Or.inr rfl

/-- What is known of an exchange is about its books. -/
theorem Known.of_books (h : Known placed x) (hbooks : y.books = x.books) : Known placed y where
  book := by
    rw [hbooks]
    exact h.book
  origin := by
    rw [hbooks]
    exact h.origin

/-- A replayed command keeps what is known of the orders. -/
theorem ReplayStep.known (h : ReplayStep fuel x cmd y) (hknown : Known placed x)
    (hcmd : ∀ order, cmd = .placeOrder order →
      order.Admissible ∧ order.id ∉ placed.map (·.id)) :
    Known (placed ++ placedOrders [cmd]) y := by
  rcases h.books with ⟨z, hstep, hbooks⟩ | rfl
  · exact (hstep.known hknown hcmd).of_books hbooks.symm
  · exact hknown.mono (List.subset_append_left _ _)

/-- A replayed table follows every event, so it keeps covering the books. -/
theorem ReplayStep.covered (h : ReplayStep fuel x cmd y) (hknown : Known placed x)
    (hunique : (placed.map (·.id)).Nodup)
    (hcmd : ∀ order, cmd = .placeOrder order →
      order.Admissible ∧ order.id ∉ placed.map (·.id)) (hx : x.Covered) : y.Covered := by
  cases h with
  -- in its own book the table follows the match; in other books the events name no order
  | @placed order book events hmatch =>
    rcases hcmd order rfl with ⟨hadm, hfresh⟩
    have hsound := sound_linkOco (hknown.bookOf order.symbol).1 order
    have hnew := hknown.fresh_linkOco hfresh
    refine hx.insert ?_ ?_
    · refine matchOrder_covers hsound hadm hnew ?_ hmatch
      rw [pool_linkOco]
      exact hx.bookOf order.symbol
    · intro symbol' b' hne hb' o ho
      refine find?_applyOpenOrderUpdates ?_
      intro e he hmem
      have hplace := matchOrder_concerns hsound hadm hnew hmatch e he o.id hmem
      rw [ids_linkOco] at hplace
      rcases Multiset.mem_cons.mp hplace with hid | hid
      · rcases (hknown.origin symbol' b' hb' o ho).2 with ⟨w, hw, hwid, _⟩
        exact hfresh (List.mem_map.mpr ⟨w, hw, hwid.trans hid⟩)
      · exact hknown.notMem_bookOf hunique hne hb' ho hid
  | @cancelled orderId entry book hentry hbook =>
    have hb := (hknown.book _ _ hbook).book
    refine hx.insert (cancelOrder_covers hb orderId (hx _ _ hbook)) ?_
    intro symbol' b' hne hb' o ho
    refine find?_applyOpenOrderUpdates ?_
    intro e he hmem
    have hplace := cancelOrder_concerns hb orderId e he o.id hmem
    rw [← mem_bookOf_of_find? hbook] at hplace
    exact hknown.notMem_bookOf hunique hne hb' ho hplace
  | bookless => exact hx
  | unlisted => exact hx

/-- And of the table. -/
theorem ReplayStep.traced (h : ReplayStep fuel x cmd y) (hx : Traced placed x.openOrders) :
    Traced (placed ++ placedOrders [cmd]) y.openOrders := by
  have hx' := hx.mono (List.subset_append_left placed (placedOrders [cmd]))
  cases h with
  | @placed order book events hmatch =>
    refine hx'.updates ?_ events
    rintro _ ⟨⟩
    exact List.mem_append_right _ List.mem_cons_self
  | cancelled =>
    refine hx'.updates ?_ _
    rintro _ ⟨⟩
  | bookless => exact hx'
  | unlisted => exact hx'

end Exchange

/-- The orders the commands place may be given to a book, under distinct ids. -/
structure Placeable (cmds : List WalCommand) : Prop where
  unique : ((Exchange.placedOrders cmds).map (·.id)).Nodup
  admissible : ∀ o ∈ Exchange.placedOrders cmds, o.Admissible

variable {fuel : ℕ} {cmds : List WalCommand} {cmd : WalCommand} {x y : Exchange}
  {R : OpenOrders} {untold untold' : Uuid → Prop}

/-- A log that can be replayed can be replayed up to its last command. -/
theorem Placeable.init (h : Placeable (cmds ++ [cmd])) : Placeable cmds where
  unique := by
    have hunique := h.unique
    rw [Exchange.placedOrders_append, List.map_append] at hunique
    exact (List.nodup_append.mp hunique).1
  admissible := by
    intro o ho
    refine h.admissible o ?_
    rw [Exchange.placedOrders_append]
    exact List.mem_append_left _ ho

/-- The last command places a new order, if it places one. -/
theorem Placeable.last (h : Placeable (cmds ++ [cmd])) : ∀ order, cmd = .placeOrder order →
    order.Admissible ∧ order.id ∉ (Exchange.placedOrders cmds).map (·.id) := by
  rintro order rfl
  have hmem : order ∈ Exchange.placedOrders (cmds ++ [.placeOrder order]) := by
    rw [Exchange.placedOrders_append]
    exact List.mem_append_right _ List.mem_cons_self
  have hunique := h.unique
  rw [Exchange.placedOrders_append, List.map_append, List.nodup_append] at hunique
  refine ⟨h.admissible order hmem, ?_⟩
  intro hid
  exact hunique.2.2 order.id hid order.id List.mem_cons_self rfl

theorem placedOrders_concat_cancel (cmds : List WalCommand) (orderId : Uuid) :
    Exchange.placedOrders (cmds ++ [.cancelOrder orderId]) = Exchange.placedOrders cmds := by
  rw [Exchange.placedOrders_append]
  exact List.append_nil _

theorem Placeable.cancel (h : Placeable cmds) (orderId : Uuid) :
    Placeable (cmds ++ [.cancelOrder orderId]) where
  unique := by
    rw [placedOrders_concat_cancel]
    exact h.unique
  admissible := by
    rw [placedOrders_concat_cancel]
    exact h.admissible

/-- What is known of the exchange a log of these commands stands for. -/
structure Rebuilt (cmds : List WalCommand) (x : Exchange) : Prop where
  known : x.Known (Exchange.placedOrders cmds)
  covered : x.Covered
  traced : Traced (Exchange.placedOrders cmds) x.openOrders

theorem rebuilt_empty : Rebuilt [] Exchange.empty :=
  ⟨Exchange.known_empty, covered_empty, traced_empty⟩

/-- A replayed command keeps the books rebuilt. -/
theorem Rebuilt.step (h : Rebuilt cmds x) (hcmds : Placeable (cmds ++ [cmd]))
    (hstep : Exchange.ReplayStep fuel x cmd y) : Rebuilt (cmds ++ [cmd]) y where
  known := by
    rw [Exchange.placedOrders_append]
    exact hstep.known h.known hcmds.last
  covered := hstep.covered h.known hcmds.init.unique hcmds.last h.covered
  traced := by
    rw [Exchange.placedOrders_append]
    exact hstep.traced h.traced

/-- Every replay of a log of placeable orders gives an exchange whose table covers its
books. -/
theorem Exchange.Replayed.rebuilt {entries : List WalEntry} (h : Exchange.Replayed fuel entries x)
    (hcmds : Placeable (entries.map (·.command))) : Rebuilt (entries.map (·.command)) x := by
  refine h.induct (fun cmds x => Placeable cmds → Rebuilt cmds x) (fun _ => rebuilt_empty) ?_ hcmds
  intro cmds x cmd y ih hstep hcmds
  exact (ih hcmds.init).step hcmds hstep

/-! ## The live engine and its replay -/

/-- The exchange `x` of the live engine and the replay of its log, whose table is `R`:
they have the same books, and tables that agree on every order but those of which
`untold` events did not reach the live table. -/
structure Tracks (cmds : List WalCommand) (untold : Uuid → Prop) (x : Exchange)
    (R : OpenOrders) : Prop where
  replay : Rebuilt cmds ⟨x.books, R⟩
  traced : Traced (Exchange.placedOrders cmds) x.openOrders
  same : ∀ id, ¬ untold id → R.find? id = x.openOrders.find? id

theorem Tracks.known (h : Tracks cmds untold x R) : x.Known (Exchange.placedOrders cmds) :=
  h.replay.known.of_books rfl

/-- Entries of one order have one symbol. -/
theorem symbol_eq_of_traced {placed : List Order} (hunique : (placed.map (·.id)).Nodup)
    {m m' : OpenOrders} (h : Traced placed m) (h' : Traced placed m') {id : Uuid}
    {e e' : OpenOrder} (he : m.find? id = some e) (he' : m'.find? id = some e') :
    e.symbol = e'.symbol := by
  rcases h id e he with ⟨w, hw, hid, _, hsymbol⟩
  rcases h' id e' he' with ⟨w', hw', hid', _, hsymbol'⟩
  have hsame : w = w' := List.inj_on_of_nodup_map hunique hw hw' (hid.trans hid'.symm)
  rw [← hsymbol, ← hsymbol', hsame]

/-- A placed order is replayed as it was matched. -/
theorem Tracks.place {order : Order} (h : Tracks cmds untold x R)
    (hcmds : Placeable (cmds ++ [.placeOrder order]))
    (hmono : ∀ id, untold id → untold' id)
    (hskipped : ∀ book events,
      EngineState.matchInBook fuel (x.bookOf order.symbol) order = some (book, events) →
      (∃ e ∈ events, e.Kills order.id) → ∀ e ∈ events, ∀ id ∈ concerns e, untold' id)
    (hstep : Exchange.Step fuel x (.placeOrder order) y) :
    ∃ R', Exchange.ReplayStep fuel ⟨x.books, R⟩ (.placeOrder order) ⟨y.books, R'⟩ ∧
      Tracks (cmds ++ [.placeOrder order]) untold' y R' := by
  have hsub : Exchange.placedOrders cmds ⊆
      Exchange.placedOrders (cmds ++ [.placeOrder order]) := by
    rw [Exchange.placedOrders_append]
    exact List.subset_append_left _ _
  have hmem : order ∈ Exchange.placedOrders (cmds ++ [.placeOrder order]) := by
    rw [Exchange.placedOrders_append]
    exact List.mem_append_right _ List.mem_cons_self
  have htraced := h.traced.mono hsub
  cases hstep with
  | @placed requestId _ book events hmatch haccepted =>
    have hreplay : Exchange.ReplayStep fuel ⟨x.books, R⟩ (.placeOrder order) _ :=
      .placed hmatch
    refine ⟨_, hreplay, h.replay.step hcmds hreplay, ?_, ?_⟩
    · exact htraced.updates (by rintro _ ⟨⟩; exact hmem) events
    · intro id hid
      exact find?_applyOpenOrderUpdates_congr (h.same id fun hun => hid (hmono id hun)) events
  | @rejected requestId _ book events hmatch hrejected =>
    have hreplay : Exchange.ReplayStep fuel ⟨x.books, R⟩ (.placeOrder order) _ :=
      .placed hmatch
    refine ⟨_, hreplay, h.replay.step hcmds hreplay, htraced, ?_⟩
    -- the live table skips these events, and they concern untold orders only
    intro id hid
    have hquiet : ∀ e ∈ events, id ∉ concerns e := by
      intro e he hmem
      exact hid (hskipped book events hmatch (exists_kills_of_preReject hrejected) e he id hmem)
    exact (find?_applyOpenOrderUpdates hquiet).trans
      (h.same id fun hun => hid (hmono id hun))

/-- The cancel of this order is replayed as it was done: the order is live, or has no OCO
link, or the live table has missed no event of it. -/
def Repeatable (untold : Uuid → Prop) (x : Exchange) (orderId : Uuid) : Prop :=
  ∀ entry, x.openOrders.find? orderId = some entry →
    orderId ∈ (x.bookOf entry.symbol).toPool.ids ∨
      (x.bookOf entry.symbol).ocoLinks.find? orderId = none ∨ ¬ untold orderId

/-- Cancelling an order that is gone and not linked changes nothing. -/
theorem cancelOrder_of_unlinked {b : OrderBook} {id : Uuid} (hb : b.Consistent)
    (hgone : id ∉ b.toPool.ids) (hlink : b.ocoLinks.find? id = none) :
    b.cancelOrder id = (b, []) := by
  have heq : b.cancelOrder id = b.cancelOrderInternal id .adminCancel := by
    simp only [cancelOrder, hlink]
  rw [heq]
  exact ((hb.cancels id .adminCancel).events_eq.resolve_left fun h => hgone h.1).2

/-- A cancel that can be repeated keeps the replayed exchange on the track. -/
theorem Tracks.cancel {orderId : Uuid} (h : Tracks cmds untold x R) (hcmds : Placeable cmds)
    (hrep : Repeatable untold x orderId) (hstep : Exchange.Step fuel x (.cancelOrder orderId) y) :
    ∃ R', Exchange.ReplayStep fuel ⟨x.books, R⟩ (.cancelOrder orderId) ⟨y.books, R'⟩ ∧
      Tracks (cmds ++ [.cancelOrder orderId]) untold y R' := by
  have hplaced := placedOrders_concat_cancel cmds orderId
  have hcmds' := hcmds.cancel orderId
  -- the entries of the two tables name the same book
  have hsymbol : ∀ {entry entry'}, x.openOrders.find? orderId = some entry →
      R.find? orderId = some entry' → entry'.symbol = entry.symbol := by
    intro entry entry' hentry hentry'
    exact symbol_eq_of_traced hcmds.unique h.replay.traced h.traced hentry' hentry
  cases hstep with
  | @cancelled _ entry book hentry hbook =>
    have htraced : Traced (Exchange.placedOrders (cmds ++ [.cancelOrder orderId]))
        (applyOpenOrderUpdates x.openOrders none (book.cancelOrder orderId).2) := by
      rw [hplaced]
      exact h.traced.updates (by rintro _ ⟨⟩) _
    cases hlisted : R.find? orderId with
    | some entry' =>
      have hsame := hsymbol hentry hlisted
      have hreplay : Exchange.ReplayStep fuel ⟨x.books, R⟩ (.cancelOrder orderId) _ :=
        .cancelled hlisted (hsame ▸ hbook)
      rw [hsame] at hreplay
      refine ⟨_, hreplay, h.replay.step hcmds' hreplay, htraced, ?_⟩
      intro id hid
      exact find?_applyOpenOrderUpdates_congr (h.same id hid) _
    | none =>
      -- replay skips the cancel, so the order must be gone and unlinked
      have hof := mem_bookOf_of_find? hbook
      have hgone : orderId ∉ book.toPool.ids := by
        intro hmem
        rcases mem_ids_iff.mp hmem with ⟨o, ho, rfl⟩
        rcases h.replay.covered entry.symbol book hbook o ho with ⟨e, hfind, _⟩
        rw [show R.find? o.id = some e from hfind] at hlisted
        cases hlisted
      have huntold : untold orderId := by
        by_contra hnot
        rw [h.same orderId hnot, hentry] at hlisted
        cases hlisted
      have hlink : book.ocoLinks.find? orderId = none := by
        rcases hrep entry hentry with hlive | hlink | hnot
        · rw [hof] at hlive
          exact absurd hlive hgone
        · rwa [hof] at hlink
        · exact absurd huntold hnot
      have hnothing := cancelOrder_of_unlinked (h.known.book _ _ hbook).book hgone hlink
      have hbooks : x.books.insert entry.symbol (book.cancelOrder orderId).1 = x.books := by
        rw [hnothing]
        exact OrdMap.insert_of_find?_eq_some hbook
      have hreplay : Exchange.ReplayStep fuel ⟨x.books, R⟩ (.cancelOrder orderId) ⟨x.books, R⟩ :=
        .unlisted hlisted
      refine ⟨R, ?_, ?_, htraced, ?_⟩
      · dsimp only
        rw [hbooks]
        exact hreplay
      · dsimp only
        rw [hbooks]
        exact h.replay.step hcmds' hreplay
      · intro id hid
        dsimp only
        rw [hnothing]
        exact h.same id hid
  | @bookless _ entry hentry hbook =>
    have hreplay : Exchange.ReplayStep fuel ⟨x.books, R⟩ (.cancelOrder orderId) ⟨x.books, R⟩ := by
      cases hlisted : R.find? orderId with
      | some entry' =>
        have hsame := hsymbol hentry hlisted
        exact .bookless (x := ⟨x.books, R⟩) hlisted (hsame ▸ hbook)
      | none => exact .unlisted hlisted
    refine ⟨R, hreplay, h.replay.step hcmds' hreplay, ?_, h.same⟩
    rw [hplaced]
    exact h.traced

/-- After the events of a cancel the table has lost the orders they name. -/
theorem find?_applyOpenOrderUpdates_cancels {m : OpenOrders} {T : Option Order}
    {events : List EngineEvent} (hevents : ∀ e ∈ events, ∃ id reason, e = .cancelled id reason)
    {id : Uuid} {entry : OpenOrder}
    (h : (applyOpenOrderUpdates m T events).find? id = some entry) :
    m.find? id = some entry ∧ ∀ reason, .cancelled id reason ∉ events := by
  induction events generalizing m with
  | nil => exact ⟨h, fun _ => List.not_mem_nil⟩
  | cons e events ih =>
    rcases hevents e List.mem_cons_self with ⟨id', reason', rfl⟩
    have hrest := ih (m := m.erase id') (fun e he => hevents e (List.mem_cons_of_mem _ he)) h
    rw [OrdMap.find?_erase] at hrest
    split_ifs at hrest with heq
    · cases hrest.1
    · refine ⟨hrest.1, ?_⟩
      intro reason hmem
      rcases List.mem_cons.mp hmem with hhead | hmem
      · cases hhead
        exact heq rfl
      · exact hrest.2 reason hmem

theorem find?_linksWithout_none {b : OrderBook} {a id : Uuid}
    (h : b.ocoLinks.find? id = none) : (b.linksWithout a).find? id = none := by
  unfold linksWithout
  split
  · exact h
  · simp only [OrdMap.find?_erase, h]
    split_ifs <;> rfl

/-- A cancel of one order leaves the cancels of others repeatable. -/
theorem Repeatable.cancel {placed : List Order} {orderId a : Uuid}
    (h : Repeatable untold x orderId) (hknown : x.Known placed)
    (hstep : Exchange.Step fuel x (.cancelOrder a) y) : Repeatable untold y orderId := by
  cases hstep with
  | bookless => exact h
  | @cancelled _ entryA book hentryA hbook =>
    intro entry hentry
    have hspec := (hknown.book _ _ hbook).book.cancelOrder_spec a
    have hof := mem_bookOf_of_find? hbook
    rcases find?_applyOpenOrderUpdates_cancels hspec.cancels hentry with ⟨hold, huntold⟩
    rw [Exchange.bookOf_insert (x := x) rfl]
    split_ifs with hsymbol
    · rcases h entry hold with hlive | hlink | hnot
      · refine Or.inl ?_
        rw [hsymbol, hof] at hlive
        rcases mem_ids_iff.mp hlive with ⟨o, ho, rfl⟩
        -- an order the cancel reaches is named by its events
        have hscope : ¬ book.CancelScope a o.id := by
          intro hscope
          rcases (hspec.told o.id).mpr ⟨hlive, hscope⟩ with ⟨reason, hmem⟩
          exact huntold reason hmem
        exact mem_ids_iff.mpr ⟨o, (hspec.pool o).mpr ⟨ho, hscope⟩, rfl⟩
      · refine Or.inr (Or.inl ?_)
        rw [hsymbol, hof] at hlink
        rw [hspec.links]
        exact find?_linksWithout_none hlink
      · exact Or.inr (Or.inr hnot)
    · exact h entry hold

/-! ## Runs -/

/-- Every log of these commands stands for the books of `x` with the table `R`. -/
structure Follows (fuel : ℕ) (cmds : List WalCommand) (untold : Uuid → Prop) (x : Exchange)
    (R : OpenOrders) : Prop where
  replayed : ∀ entries, entries.map WalEntry.command = cmds →
    Exchange.Replayed fuel entries ⟨x.books, R⟩
  placeable : Placeable cmds
  tracks : Tracks cmds untold x R

/-- One more command that replay does as the live engine did. -/
theorem Follows.concat {R' : OpenOrders} (h : Follows fuel cmds untold x R)
    (hcmds : Placeable (cmds ++ [cmd]))
    (hstep : Exchange.ReplayStep fuel ⟨x.books, R⟩ cmd ⟨y.books, R'⟩)
    (htracks : Tracks (cmds ++ [cmd]) untold' y R') :
    Follows fuel (cmds ++ [cmd]) untold' y R' := by
  refine ⟨?_, hcmds, htracks⟩
  intro entries hentries
  rcases List.map_eq_append_iff.mp hentries with ⟨l, l', rfl, hl, hl'⟩
  rcases List.map_eq_singleton_iff.mp hl' with ⟨entry, rfl, rfl⟩
  exact (h.replayed l hl).concat hstep

/-- So do many. -/
theorem Follows.cancels {ids : List Uuid} (h : Follows fuel cmds untold x R)
    (hrep : ∀ id ∈ ids, Repeatable untold x id)
    (hsteps : Exchange.Steps fuel x (ids.map .cancelOrder) y) :
    ∃ R', Follows fuel (cmds ++ ids.map .cancelOrder) untold y R' := by
  -- the cancels done so far leave the others repeatable
  suffices hall : (∃ R', Follows fuel (cmds ++ ids.map .cancelOrder) untold y R') ∧
      ∀ id, Repeatable untold x id → Repeatable untold y id from hall.1
  generalize hcancels : ids.map WalCommand.cancelOrder = done at hsteps
  induction hsteps generalizing ids with
  | nil =>
    rw [List.append_nil]
    exact ⟨⟨R, h⟩, fun _ hid => hid⟩
  | concat _ hlast ih =>
    rcases List.map_eq_append_iff.mp hcancels with ⟨l, l', rfl, hl, hl'⟩
    rcases List.map_eq_singleton_iff.mp hl' with ⟨orderId, rfl, rfl⟩
    rcases ih (fun id hid => hrep id (List.mem_append_left _ hid)) hl with ⟨⟨R₁, h₁⟩, hkeep⟩
    have hrep₁ := hkeep orderId (hrep orderId (List.mem_append_right _ List.mem_cons_self))
    rcases h₁.tracks.cancel h₁.placeable hrep₁ hlast with ⟨R₂, hstep, htracks⟩
    refine ⟨⟨R₂, ?_⟩, ?_⟩
    · rw [← List.append_assoc]
      exact h₁.concat (h₁.placeable.cancel orderId) hstep htracks
    · intro id hid
      exact (hkeep id hid).cancel h₁.tracks.known hlast

/-- An order of a fresh id may be placed behind the commands of the log. -/
theorem Placeable.place {requestId : Uuid} {order : EngineOrder} (h : Placeable cmds)
    (hvalid : validateWireOrder requestId order = none)
    (hnew : order.id ∉ (Exchange.placedOrders cmds).map (·.id)) :
    Placeable (cmds ++ [.placeOrder (toCoreOrder order)]) where
  unique := by
    rw [Exchange.placedOrders_append, List.map_append, List.nodup_append]
    refine ⟨h.unique, List.nodup_singleton _, ?_⟩
    intro id hid id' hid' heq
    have hlast : id' = order.id := List.mem_singleton.mp hid'
    exact hnew (hlast ▸ heq ▸ hid)
  admissible := by
    intro o ho
    rw [Exchange.placedOrders_append] at ho
    rcases List.mem_append.mp ho with ho | ho
    · exact h.admissible o ho
    · rw [List.mem_singleton.mp ho]
      exact EngineState.admissible_of_valid hvalid

theorem Follows.mono (h : Follows fuel cmds untold x R) (hmono : ∀ id, untold id → untold' id) :
    Follows fuel cmds untold' x R where
  replayed := h.replayed
  placeable := h.placeable
  tracks := ⟨h.tracks.replay, h.tracks.traced,
    fun id hid => h.tracks.same id fun hun => hid (hmono id hun)⟩

namespace EngineState

variable {st st' init : EngineState}

/-- The ids of the orders that the match of a rejected request concerns. Its events do
not reach the table of live orders. -/
def untoldBy (fuel : ℕ) (st : EngineState) : EngineRequest → List Uuid
  | .place requestId order =>
    if (validateWireOrder requestId order).isNone ∧ order.symbol ∉ st.haltedSymbols ∧
        st.disk.head = true then
      match matchInBook fuel (st.bookOf order.symbol) (toCoreOrder order) with
      | none => []
      | some (_, events) =>
        if (immediatePreReject requestId order.id events).isSome then events.flatMap concerns
        else []
    else []
  | _ => []

/-- A rejected match of the run concerned this order. -/
def Untold (fuel : ℕ) (init : EngineState) (reqs : List EngineRequest) (id : Uuid) : Prop :=
  ∃ l req l' mid, reqs = l ++ req :: l' ∧ init.runRequests fuel l = some mid ∧
    id ∈ untoldBy fuel mid req

/-- Every order the run cancels is live, or has no OCO link, or was concerned by no
rejected match before. -/
def RepeatableCancels (fuel : ℕ) (init : EngineState) (reqs : List EngineRequest) : Prop :=
  ∀ l req l' mid, reqs = l ++ req :: l' → init.runRequests fuel l = some mid →
    ∀ id ∈ mid.cancelTargets req, Repeatable (Untold fuel init l) mid.exchange id

theorem Untold.mono {reqs : List EngineRequest} {id : Uuid} (h : Untold fuel init reqs id)
    (req : EngineRequest) : Untold fuel init (reqs ++ [req]) id := by
  rcases h with ⟨l, req', l', mid, rfl, hmid, hid⟩
  exact ⟨l, req', l' ++ [req], mid, by rw [List.append_assoc, List.cons_append], hmid, hid⟩

/-- The run so far is followed by replay; `before` are the ids of the log it started
with. -/
def Replays (fuel : ℕ) (init : EngineState) (before : List Uuid) (past : List EngineRequest)
    (st : EngineState) : Prop :=
  (∀ w ∈ Exchange.placedOrders st.commands, w.id ∈ before ++ placedIds past) ∧
    ∃ R, Follows fuel st.commands (Untold fuel init past) st.exchange R

/-- Every request with repeatable cancels is followed by replay. -/
theorem handleRequest_follows {req : EngineRequest} {result : Except ServerError ResponseBundle}
    (hfollows : Follows fuel st.commands untold st.exchange R)
    (hnew : ∀ requestId order, req = .place requestId order →
      order.id ∉ (Exchange.placedOrders st.commands).map (·.id))
    (hmono : ∀ id, untold id → untold' id) (huntold : ∀ id ∈ untoldBy fuel st req, untold' id)
    (hrep : ∀ id ∈ st.cancelTargets req, Repeatable untold st.exchange id)
    (h : st.handleRequest fuel req = some (result, st')) :
    ∃ R', Follows fuel st'.commands untold' st'.exchange R' := by
  cases handleRequest_effect h with
  | @place requestId order hvalid htrading hdisk hlogged hstep =>
    have hcmds := hfollows.placeable.place hvalid (hnew requestId order rfl)
    -- replay matches an order that the engine rejected afterwards, but tells nobody
    have hskipped : ∀ book events, matchInBook fuel (st.exchange.bookOf (toCoreOrder order).symbol)
        (toCoreOrder order) = some (book, events) →
        (∃ e ∈ events, e.Kills (toCoreOrder order).id) → ∀ e ∈ events, ∀ id ∈ concerns e,
          untold' id := by
      intro book events hmatch hkills e he id hid
      refine huntold id ?_
      have hmatch' : matchInBook fuel (st.bookOf order.symbol) (toCoreOrder order) =
        some (book, events) := hmatch
      have hreject : (immediatePreReject requestId order.id events).isSome := by
        rw [Option.isSome_iff_ne_none]
        intro hnone
        rcases hkills with ⟨k, hk, hkill⟩
        exact immediatePreReject_eq_none.mp hnone k hk hkill
      have hdone : (validateWireOrder requestId order).isNone ∧ order.symbol ∉ st.haltedSymbols ∧
          st.disk.head = true := ⟨by rw [hvalid]; rfl, htrading, hdisk⟩
      simp only [untoldBy, if_pos hdone, hmatch', if_pos hreject]
      exact List.mem_flatMap.mpr ⟨e, he, hid⟩
    rcases hfollows.tracks.place hcmds hmono hskipped hstep with ⟨R', hreplay, htracks⟩
    refine ⟨R', ?_⟩
    rw [hlogged]
    exact hfollows.concat hcmds hreplay htracks
  -- repeatable cancels are replayed one by one
  | cancels ids htargets hdoes =>
    rcases hfollows.cancels (fun id hid => hrep id (htargets hid)) hdoes.steps with ⟨R', hfollows'⟩
    refine ⟨R', ?_⟩
    rw [hdoes.logged]
    exact hfollows'.mono hmono

/-- The orders in the log are those it started with and those the requests placed. -/
theorem handleRequest_logged_ids [Rounding] {before : List Uuid} {past : List EngineRequest}
    {req : EngineRequest} {result : Except ServerError ResponseBundle}
    (hids : ∀ w ∈ Exchange.placedOrders st.commands, w.id ∈ before ++ placedIds past)
    (h : st.handleRequest fuel req = some (result, st')) :
    ∀ w ∈ Exchange.placedOrders st'.commands, w.id ∈ before ++ placedIds (past ++ [req]) := by
  have hgrow : before ++ placedIds past ⊆ before ++ placedIds (past ++ [req]) := by
    rw [placedIds, placedIds, placements_append, List.map_append, ← List.append_assoc]
    exact List.subset_append_left _ _
  cases handleRequest_effect h with
  | @place requestId order _ _ _ hlogged _ =>
    rw [hlogged, Exchange.placedOrders_append]
    intro w hw
    rcases List.mem_append.mp hw with hw | hw
    · exact hgrow (hids w hw)
    · rw [List.mem_singleton.mp hw, placedIds, placements_append, List.map_append]
      exact List.mem_append_right _ (List.mem_append_right _ List.mem_cons_self)
  | cancels ids _ hdoes =>
    rw [hdoes.logged, Exchange.placedOrders_append, Exchange.placedOrders_cancels,
      List.append_nil]
    exact fun w hw => hgrow (hids w hw)

/-- Every request whose cancels can be repeated keeps the log replayable to the same books. -/
theorem handleRequest_replays {before : List Uuid} {past : List EngineRequest}
    {req : EngineRequest} {result : Except ServerError ResponseBundle}
    (hinv : Replays fuel init before past st) (hpast : init.runRequests fuel past = some st)
    (hfresh : ∀ requestId order, req = .place requestId order →
      order.id ∉ before ++ placedIds past)
    (hrep : ∀ id ∈ st.cancelTargets req, Repeatable (Untold fuel init past) st.exchange id)
    (h : st.handleRequest fuel req = some (result, st')) :
    Replays fuel init before (past ++ [req]) st' := by
  rcases hinv with ⟨hids, R, hfollows⟩
  refine ⟨handleRequest_logged_ids hids h, ?_⟩
  refine handleRequest_follows hfollows ?_ (fun id hid => hid.mono req) ?_ hrep h
  · intro requestId order hreq hmem
    rcases List.mem_map.mp hmem with ⟨w, hw, hid⟩
    exact hfresh requestId order hreq (hid ▸ hids w hw)
  · intro id hid
    exact ⟨past, req, [], st, rfl, hpast, hid⟩

/-- An opened engine is the replay of its log. -/
theorem replays_open {walEntries : List WalEntry} {logged : List Proto.SequencedEngineEvent}
    {idSource : Stream' Uuid} {clock : Stream' String} {disk : Stream' Bool} {snapshotDepth : ℕ}
    (h : EngineState.open fuel walEntries logged idSource clock disk snapshotDepth = some init)
    (hlog : Placeable (walEntries.map (·.command))) :
    Replays fuel init ((Exchange.placedOrders (walEntries.map (·.command))).map (·.id)) []
      init := by
  unfold EngineState.open at h
  split at h
  · cases h
  · next books openOrders hreplay =>
    cases h
    have hreplayed : Exchange.Replayed fuel walEntries ⟨books, openOrders⟩ := hreplay
    have hrebuilt := hreplayed.rebuilt hlog
    refine ⟨?_, openOrders, ?_, hlog, hrebuilt, hrebuilt.traced, fun _ _ => rfl⟩
    · intro w hw
      exact List.mem_append_left _ (List.mem_map_of_mem hw)
    · intro entries hentries
      rw [Exchange.Replayed, Exchange.replayBooks_congr hentries]
      exact hreplay

/-- In every run with fresh order ids whose cancels are repeatable, the command log
replays to the books of the live engine. -/
theorem replayed_of_runRequests {walEntries : List WalEntry}
    {logged : List Proto.SequencedEngineEvent} {idSource : Stream' Uuid} {clock : Stream' String}
    {disk : Stream' Bool} {snapshotDepth : ℕ}
    (hopen : EngineState.open fuel walEntries logged idSource clock disk snapshotDepth =
      some init)
    (hlog : Placeable (walEntries.map (·.command))) (reqs : List EngineRequest)
    (hfresh : ((Exchange.placedOrders (walEntries.map (·.command))).map (·.id) ++
      placedIds reqs).Nodup)
    (hrep : RepeatableCancels fuel init reqs) (hrun : init.runRequests fuel reqs = some st) :
    ∃ openOrders, replayBooks fuel st.commandWal.entries OrdMap.empty OrdMap.empty =
      some (st.books, openOrders) := by
  have hrest := List.nodup_append.mp hfresh
  -- along the run the books that the log replays to follow those of the engine
  have hinv := runRequests_invariant
    (Replays fuel init ((Exchange.placedOrders (walEntries.map (·.command))).map (·.id)))
    (fun past mid req => init.runRequests fuel past = some mid ∧
      (∀ requestId order, req = .place requestId order → order.id ∉
        (Exchange.placedOrders (walEntries.map (·.command))).map (·.id) ++ placedIds past) ∧
      ∀ id ∈ mid.cancelTargets req, Repeatable (Untold fuel init past) mid.exchange id)
    (fun past mid req result mid' hinv hok h =>
      handleRequest_replays hinv hok.1 hok.2.1 hok.2.2 h)
    (replays_open hopen hlog) ?_ hrun
  · rcases hinv with ⟨_, R, hfollows⟩
    exact ⟨R, hfollows.replayed _ rfl⟩
  · -- no request of the run uses an id of the log or of the requests before it
    intro l req l' mid hsplit hmid
    refine ⟨hmid, ?_, hrep l req l' mid hsplit hmid⟩
    rintro requestId order rfl hmem
    rcases List.mem_append.mp hmem with hold | hpast
    · refine hrest.2.2 order.id hold order.id ?_ rfl
      rw [hsplit, placedIds, placements_append, List.map_append]
      exact List.mem_append_right _ List.mem_cons_self
    · exact fresh_of_nodup hrest.2.1 l _ l' hsplit requestId order rfl hpast

/-! ## A cancel that is not repeated -/

theorem repeatableCancels_nil : RepeatableCancels fuel init [] := by
  intro l req l' mid hsplit
  exact absurd hsplit.symm (by simp)

/-- One more request whose cancels are repeatable. -/
theorem RepeatableCancels.concat {reqs : List EngineRequest} {req : EngineRequest}
    (h : RepeatableCancels fuel init reqs)
    (hlast : ∀ mid, init.runRequests fuel reqs = some mid → ∀ id ∈ mid.cancelTargets req,
      Repeatable (Untold fuel init reqs) mid.exchange id) :
    RepeatableCancels fuel init (reqs ++ [req]) := by
  intro l req' l' mid hsplit hmid
  rcases List.eq_nil_or_concat l' with rfl | ⟨l'', last, rfl⟩
  · rcases List.append_inj' hsplit rfl with ⟨rfl, hreq⟩
    cases hreq
    exact hlast mid hmid
  · rw [List.concat_eq_append, ← List.cons_append, ← List.append_assoc] at hsplit
    exact h l req' l'' mid (List.append_inj' hsplit rfl).1 hmid

/-- A fill-or-kill order takes order 1 off the book and is then killed, as it meets an
order of its own user: order 1 stays in the table of live orders. -/
def staleEntry : List EngineRequest :=
  [.place 0 (wireLimit 1 10 .sell 100 5 .cancelTaker),
    .place 0 (wireLimit 2 11 .sell 101 5 .cancelTaker), .place 0 (wireFok 3 11 101 10)]

/-- A sell order of 1 that names order 1 as its OCO sibling. -/
def lateSibling : EngineOrder :=
  { wireLimit 4 12 .sell 110 1 .cancelTaker with ocoLinkedId := some 1 }

/-- Order 4 names the stale order 1. The cancel of order 1 takes order 4 off the live
book, and replay leaves it there. -/
theorem replay_misses_cancel :
    ∃ st, emptyEngine.runRequests 10 (staleEntry ++
        [.place 0 lateSibling, .cancel 0 "BTCUSDT" 1]) = some st ∧
      ∀ openOrders, replayBooks 10 st.commandWal.entries OrdMap.empty OrdMap.empty ≠
        some (st.books, openOrders) := by
  have hview : ((emptyEngine.runRequests 10 (staleEntry ++
      [.place 0 lateSibling, .cancel 0 "BTCUSDT" 1])).map fun st =>
        ((st.books.find? "BTCUSDT").map fun b => b.live.map (·.id),
          (replayBooks 10 st.commandWal.entries OrdMap.empty OrdMap.empty).map fun r =>
            (r.1.find? "BTCUSDT").map fun b => b.live.map (·.id))) =
      some (some [], some (some [4])) := by
    decide +kernel
  rcases Option.map_eq_some_iff.mp hview with ⟨st, hst, hlive⟩
  rcases Prod.mk.inj hlive with ⟨hbook, hreplay⟩
  refine ⟨st, hst, ?_⟩
  intro openOrders hsame
  rw [hsame, Option.map_some, hbook] at hreplay
  exact absurd hreplay (by decide)

/-- The run theorem on a cancel of the stale order 1 that no order names. -/
theorem replayed_after_stale_cancel :
    ∃ st openOrders, emptyEngine.runRequests 10 (staleEntry ++ [.cancel 0 "BTCUSDT" 1]) =
        some st ∧
      replayBooks 10 st.commandWal.entries OrdMap.empty OrdMap.empty =
        some (st.books, openOrders) := by
  have hrun : (emptyEngine.runRequests 10
      (staleEntry ++ [.cancel 0 "BTCUSDT" 1])).isSome := by
    decide +kernel
  rcases Option.isSome_iff_exists.mp hrun with ⟨st, hst⟩
  have hplaces : RepeatableCancels 10 emptyEngine staleEntry := by
    have hplace : ∀ {reqs : List EngineRequest} (requestId : Uuid) (order : EngineOrder),
        RepeatableCancels 10 emptyEngine reqs →
        RepeatableCancels 10 emptyEngine (reqs ++ [.place requestId order]) := by
      intro reqs requestId order h
      exact h.concat fun mid _ id hid => by cases hid
    exact hplace 0 _ (hplace 0 _ (hplace 0 _ repeatableCancels_nil))
  have hrep : RepeatableCancels 10 emptyEngine (staleEntry ++ [.cancel 0 "BTCUSDT" 1]) := by
    refine hplaces.concat ?_
    intro mid hmid id hid entry hentry
    -- the stale order has no link that the cancel could follow
    have hlinks : (emptyEngine.runRequests 10 staleEntry).map (fun mid =>
        (mid.openOrders.find? 1).map fun entry =>
          (mid.exchange.bookOf entry.symbol).ocoLinks.find? 1) = some (some none) := by
      decide +kernel
    rw [hmid, Option.map_some] at hlinks
    have hone : id = 1 := by
      simp only [cancelTargets] at hid
      split at hid
      · cases hid
      · split_ifs at hid
        · exact List.mem_singleton.mp hid
        · cases hid
    subst hone
    rw [show mid.openOrders.find? 1 = some entry from hentry, Option.map_some] at hlinks
    exact Or.inr (Or.inl (Option.some.inj (Option.some.inj hlinks)))
  rcases replayed_of_runRequests (emptyEngine_open 10) ⟨by decide, by simp [Exchange.placedOrders]⟩ _
    (by decide) hrep hst with ⟨openOrders, hreplay⟩
  exact ⟨st, openOrders, hst, hreplay⟩

end EngineState

end CryptoCex.Server
