import CryptoCex.Core.Frame
import CryptoCex.Server.State

/-!
# The exchange under the server

What a request does to the books and the table of live orders, without logs,
ports and responses. `Exchange.Step` is the effect of one logged command, and
`handleRequest_effect` says that every request, also one that fails, places one
order or cancels orders and that the command log has what it did.
-/

namespace CryptoCex.Server

open CryptoCex.Core CryptoCex.Core.OrderBook
open Proto (EngineOrder EngineRequest EngineResponse SequencedEngineEvent)

/-- The books and the table of live orders. -/
structure Exchange where
  books : OrdMap String OrderBook
  openOrders : OpenOrders

namespace Exchange

/-- The book of a symbol; a symbol without a book has an empty one. -/
def bookOf (x : Exchange) (symbol : String) : OrderBook :=
  (x.books.find? symbol).getD OrderBook.new

/-- The exchange before the first request. -/
def empty : Exchange where
  books := OrdMap.empty
  openOrders := OrdMap.empty

/-- The effect of one logged command. -/
inductive Step [Rounding] (fuel : ℕ) (x : Exchange) : WalCommand → Exchange → Prop where
  /-- An order was matched; the table follows the events. -/
  | placed (requestId : Uuid) {order : Order} {book : OrderBook} {events : List EngineEvent}
      (hmatch : EngineState.matchInBook fuel (x.bookOf order.symbol) order = some (book, events))
      (haccepted : immediatePreReject requestId order.id events = none) :
      Step fuel x (.placeOrder order) {
        books := x.books.insert order.symbol book
        openOrders := applyOpenOrderUpdates x.openOrders (some order) events }
  /-- An order was matched and then rejected; the table is left as it is. -/
  | rejected (requestId : Uuid) {order : Order} {book : OrderBook} {events : List EngineEvent}
      (hmatch : EngineState.matchInBook fuel (x.bookOf order.symbol) order = some (book, events))
      (hrejected : immediatePreReject requestId order.id events ≠ none) :
      Step fuel x (.placeOrder order) { x with books := x.books.insert order.symbol book }
  /-- An order of the table was cancelled in its book. -/
  | cancelled {orderId : Uuid} {entry : OpenOrder} {book : OrderBook}
      (hentry : x.openOrders.find? orderId = some entry)
      (hbook : x.books.find? entry.symbol = some book) :
      Step fuel x (.cancelOrder orderId) {
        books := x.books.insert entry.symbol (book.cancelOrder orderId).1
        openOrders := applyOpenOrderUpdates x.openOrders none (book.cancelOrder orderId).2 }
  /-- An order of the table has no book. -/
  | bookless {orderId : Uuid} {entry : OpenOrder}
      (hentry : x.openOrders.find? orderId = some entry)
      (hbook : x.books.find? entry.symbol = none) : Step fuel x (.cancelOrder orderId) x

/-- The effects of a list of commands. -/
inductive Steps [Rounding] (fuel : ℕ) (x : Exchange) : List WalCommand → Exchange → Prop where
  | nil : Steps fuel x [] x
  | concat {cmds : List WalCommand} {y z : Exchange} {cmd : WalCommand}
      (hsteps : Steps fuel x cmds y) (hstep : Step fuel y cmd z) : Steps fuel x (cmds ++ [cmd]) z

variable {fuel : ℕ} {x y z : Exchange} {cmd : WalCommand} {cmds : List WalCommand}

theorem Steps.single [Rounding] (h : Step fuel x cmd y) : Steps fuel x [cmd] y := .concat .nil h

/-- Commands are carried out one after the other. -/
theorem Steps.append [Rounding] {cmds' : List WalCommand} (h : Steps fuel x cmds y)
    (h' : Steps fuel y cmds' z) : Steps fuel x (cmds ++ cmds') z := by
  induction h' with
  | nil =>
    rw [List.append_nil]
    exact h
  | concat _ hstep ih =>
    rw [← List.append_assoc]
    exact .concat ih hstep

theorem bookOf_insert {symbol : String} {book : OrderBook}
    (h : y.books = x.books.insert symbol book) (symbol' : String) :
    y.bookOf symbol' = if symbol' = symbol then book else x.bookOf symbol' := by
  rw [bookOf, h, OrdMap.find?_insert]
  split_ifs
  · rfl
  · rfl

/-- A placement changes the book of its symbol by one match. -/
theorem Step.place_book [Rounding] {order : Order} (h : Step fuel x (.placeOrder order) y) :
    ∃ book events, y.books = x.books.insert order.symbol book ∧
      EngineState.matchInBook fuel (x.bookOf order.symbol) order = some (book, events) := by
  cases h with
  | placed _ hmatch => exact ⟨_, _, rfl, hmatch⟩
  | rejected _ hmatch => exact ⟨_, _, rfl, hmatch⟩

/-! ## Sound exchanges -/

/-- The orders a list of commands places. -/
def placedOrders : List WalCommand → List Order
  | [] => []
  | .placeOrder order :: cmds => order :: placedOrders cmds
  | .cancelOrder _ :: cmds => placedOrders cmds

theorem placedOrders_append (cmds cmds' : List WalCommand) :
    placedOrders (cmds ++ cmds') = placedOrders cmds ++ placedOrders cmds' := by
  induction cmds with
  | nil => rfl
  | cons cmd cmds ih => cases cmd <;> simp only [List.cons_append, placedOrders, ih]

@[simp] theorem placedOrders_cancels (ids : List Uuid) :
    placedOrders (ids.map .cancelOrder) = [] := by
  induction ids with
  | nil => rfl
  | cons id ids ih => exact ih

/-- Every book is sound and holds orders of its symbol that were placed. -/
structure Known (placed : List Order) (x : Exchange) : Prop where
  book : ∀ symbol b, x.books.find? symbol = some b → b.Sound
  origin : ∀ symbol b, x.books.find? symbol = some b → ∀ o ∈ b.pool, o.symbol = symbol ∧
    ∃ w ∈ placed, w.id = o.id ∧ w.symbol = o.symbol

theorem known_empty : Known [] empty where
  book := by simp [empty]
  origin := by simp [empty]

variable {placed : List Order}

theorem sound_new : OrderBook.new.Sound := ⟨consistent_new, by simp⟩

/-- What is known of the book of a symbol, also when it has none yet. -/
theorem Known.bookOf (h : Known placed x) (symbol : String) :
    (x.bookOf symbol).Sound ∧ ∀ o ∈ (x.bookOf symbol).pool, o.symbol = symbol ∧
      ∃ w ∈ placed, w.id = o.id ∧ w.symbol = o.symbol := by
  unfold Exchange.bookOf
  cases hbook : x.books.find? symbol with
  | none => exact ⟨sound_new, by simp⟩
  | some b => exact ⟨h.book symbol b hbook, h.origin symbol b hbook⟩

/-- What is known for some orders is known for more. -/
theorem Known.mono (h : Known placed x) {placed' : List Order} (hsub : placed ⊆ placed') :
    Known placed' x where
  book := h.book
  origin := by
    intro symbol b hbook o ho
    rcases h.origin symbol b hbook o ho with ⟨hsymbol, w, hw, hid⟩
    exact ⟨hsymbol, w, hsub hw, hid⟩

/-- Replacing the book of one symbol. -/
theorem Known.insert (h : Known placed x) {symbol : String} {b : OrderBook}
    {openOrders : OpenOrders} (hb : b.Sound)
    (horigin : ∀ o ∈ b.pool, o.symbol = symbol ∧ ∃ w ∈ placed, w.id = o.id ∧ w.symbol = o.symbol) :
    Known placed { books := x.books.insert symbol b, openOrders := openOrders } where
  book := by
    intro symbol' b' hbook
    rw [OrdMap.find?_insert] at hbook
    split_ifs at hbook
    · cases hbook
      exact hb
    · exact h.book symbol' b' hbook
  origin := by
    intro symbol' b' hbook
    rw [OrdMap.find?_insert] at hbook
    split_ifs at hbook with heq
    · cases hbook
      rw [heq]
      exact horigin
    · exact h.origin symbol' b' hbook

@[simp] theorem pool_linkOco (b : OrderBook) (order : Order) :
    (EngineState.linkOco b order).pool = b.pool := by
  unfold EngineState.linkOco
  split <;> rfl

@[simp] theorem stops_linkOco (b : OrderBook) (order : Order) :
    (EngineState.linkOco b order).stops = b.stops := by
  unfold EngineState.linkOco
  split <;> rfl

theorem ids_linkOco (b : OrderBook) (order : Order) :
    (EngineState.linkOco b order).toPool.ids = b.toPool.ids := by
  rw [Pool.ids, Pool.ids, live_toPool, live_toPool, pool_linkOco]

/-- Registering an OCO pair keeps the book sound. -/
theorem sound_linkOco {b : OrderBook} (hb : b.Sound) (order : Order) :
    (EngineState.linkOco b order).Sound := by
  unfold EngineState.linkOco
  split
  · exact hb
  · exact ⟨consistent_withLinks.mpr hb.book, hb.stops⟩

/-- To be of a symbol is a trait of an order. -/
theorem trait_symbol (symbol : String) : Trait (·.symbol = symbol) where
  withRemaining := fun _ _ h => h
  convertStop := fun _ h => h

theorem trait_placed (placed : List Order) :
    Trait fun o => ∃ w ∈ placed, w.id = o.id ∧ w.symbol = o.symbol where
  withRemaining := fun _ _ h => h
  convertStop := fun _ h => h

/-- A fresh order is not in the book it is given to. -/
theorem Known.fresh_linkOco (h : Known placed x) {order : Order}
    (hfresh : order.id ∉ placed.map (·.id)) :
    ∀ o ∈ (EngineState.linkOco (x.bookOf order.symbol) order).pool, o.id ≠ order.id := by
  intro o ho hid
  rw [pool_linkOco] at ho
  rcases ((h.bookOf order.symbol).2 o ho).2 with ⟨w, hw, hwid, _⟩
  exact hfresh (List.mem_map.mpr ⟨w, hw, hwid.trans hid⟩)

/-- The book an order was matched in. -/
theorem Known.matchInBook (h : Known placed x) {order : Order} (hadm : order.Admissible)
    (hfresh : order.id ∉ placed.map (·.id)) {b : OrderBook} {events : List EngineEvent}
    (hmatch : EngineState.matchInBook fuel (x.bookOf order.symbol) order = some (b, events)) :
    b.Sound ∧ ∀ o ∈ b.pool, o.symbol = order.symbol ∧
      ∃ w ∈ placed ++ [order], w.id = o.id ∧ w.symbol = o.symbol := by
  rcases h.bookOf order.symbol with ⟨hsound, horigin⟩
  have hsound' := sound_linkOco hsound order
  have hnew := h.fresh_linkOco hfresh
  refine ⟨(matchOrder_sound hsound' hadm hnew hmatch).1, ?_⟩
  intro o ho
  refine ⟨matchOrder_trait hsound' hadm hnew (trait_symbol order.symbol) ?_ rfl hmatch o ho,
    matchOrder_trait hsound' hadm hnew (trait_placed (placed ++ [order])) ?_ ?_ hmatch o ho⟩
  · intro o ho
    rw [pool_linkOco] at ho
    exact (horigin o ho).1
  · intro o ho
    rw [pool_linkOco] at ho
    rcases (horigin o ho).2 with ⟨w, hw, hid⟩
    exact ⟨w, List.mem_append_left _ hw, hid⟩
  · exact ⟨order, List.mem_append_right _ List.mem_cons_self, rfl, rfl⟩

/-- An order comes to a book only by its own placement. -/
theorem Step.mem_ids (hstep : Step fuel x cmd y) (h : Known placed x)
    (hcmd : ∀ order, cmd = .placeOrder order →
      order.Admissible ∧ order.id ∉ placed.map (·.id)) {symbol : String} {id : Uuid}
    (hid : id ∈ (y.bookOf symbol).toPool.ids) : id ∈ (x.bookOf symbol).toPool.ids ∨
      ∃ order, cmd = .placeOrder order ∧ id = order.id ∧ symbol = order.symbol := by
  cases cmd with
  -- in the book of its symbol an id is old or the order's own
  | placeOrder order =>
    rcases hcmd order rfl with ⟨hadm, hfresh⟩
    rcases hstep.place_book with ⟨book, events, hbooks, hmatch⟩
    rw [bookOf_insert hbooks] at hid
    split_ifs at hid with heq
    · have hle := (matchOrder_sound (sound_linkOco (h.bookOf order.symbol).1 order) hadm
        (h.fresh_linkOco hfresh) hmatch).2
      rcases Multiset.mem_cons.mp (Multiset.mem_of_le hle hid) with hid | hid
      · exact Or.inr ⟨order, rfl, hid, heq⟩
      · rw [ids_linkOco] at hid
        exact Or.inl (heq ▸ hid)
    · exact Or.inl hid
  -- a cancel brings nothing in
  | cancelOrder orderId =>
    refine Or.inl ?_
    cases hstep with
    | bookless => exact hid
    | @cancelled _ entry book _ hbook =>
      rw [bookOf_insert rfl] at hid
      split_ifs at hid with heq
      · have hof : x.bookOf symbol = book := by
          rw [bookOf, heq, hbook]
          rfl
        have hle := Multiset.map_le_map (f := (·.id)) (within_cancelOrder book orderId).pool_le
        exact hof ▸ Multiset.mem_of_le hle hid
      · exact hid

/-- Every step keeps the exchange sound. -/
theorem Step.known (hstep : Step fuel x cmd y) (h : Known placed x)
    (hcmd : ∀ order, cmd = .placeOrder order →
      order.Admissible ∧ order.id ∉ placed.map (·.id)) :
    Known (placed ++ placedOrders [cmd]) y := by
  have hsub : placed ⊆ placed ++ placedOrders [cmd] := List.subset_append_left _ _
  cases hstep with
  | placed requestId hmatch =>
    rcases hcmd _ rfl with ⟨hadm, hfresh⟩
    rcases h.matchInBook hadm hfresh hmatch with ⟨hsound, horigin⟩
    exact (h.mono hsub).insert hsound horigin
  | rejected requestId hmatch =>
    rcases hcmd _ rfl with ⟨hadm, hfresh⟩
    rcases h.matchInBook hadm hfresh hmatch with ⟨hsound, horigin⟩
    exact (h.mono hsub).insert hsound horigin
  | @cancelled orderId entry book _ hbook =>
    refine (h.mono hsub).insert ((h.book _ _ hbook).cancelOrder orderId) ?_
    intro o ho
    have ho' := Multiset.mem_of_le (within_cancelOrder book orderId).pool_le ho
    exact (h.mono hsub).origin _ _ hbook o ho'
  | bookless => exact h.mono hsub

/-- The induction rule for cancels. -/
theorem Steps.cancels_invariant [Rounding] (Inv : Exchange → Prop)
    (hstep : ∀ x orderId y, Inv x → Step fuel x (.cancelOrder orderId) y → Inv y)
    {ids : List Uuid} (h : Steps fuel x (ids.map .cancelOrder) y) (h0 : Inv x) : Inv y := by
  generalize hcmds : ids.map WalCommand.cancelOrder = cmds at h
  induction h generalizing ids with
  | nil => exact h0
  | concat _ hlast ih =>
    rcases List.map_eq_append_iff.mp hcmds with ⟨l, l', _, hl, hl'⟩
    rcases List.map_eq_singleton_iff.mp hl' with ⟨orderId, _, rfl⟩
    exact hstep _ orderId _ (ih hl) hlast

/-- A cancel brings no new order. -/
theorem Step.known_cancel {orderId : Uuid} (h : Step fuel x (.cancelOrder orderId) y)
    (hknown : Known placed x) : Known placed y := by
  have hy := h.known hknown (by rintro order ⟨⟩)
  rwa [show placedOrders [.cancelOrder orderId] = [] from rfl, List.append_nil] at hy

end Exchange

namespace EngineState

variable {fuel : ℕ} {st st' : EngineState}

/-- The exchange under a state of the server. -/
def exchange (st : EngineState) : Exchange where
  books := st.books
  openOrders := st.openOrders

theorem bookOf_exchange (st : EngineState) (symbol : String) :
    st.exchange.bookOf symbol = st.bookOf symbol := rfl

theorem bookOf_insert {symbol : String} {book : OrderBook}
    (h : st'.books = st.books.insert symbol book) (symbol' : String) :
    st'.bookOf symbol' = if symbol' = symbol then book else st.bookOf symbol' :=
  Exchange.bookOf_insert (x := st.exchange) (y := st'.exchange) h symbol'

/-- The commands in the command log. -/
def commands (st : EngineState) : List WalCommand := st.commandWal.entries.map (·.command)

/-! ## Logs and ports -/

@[simp] theorem exchange_appendCommand (st : EngineState) (command : WalCommand) :
    (st.appendCommand command).2.exchange = st.exchange := rfl

@[simp] theorem eventLog_appendCommand (st : EngineState) (command : WalCommand) :
    (st.appendCommand command).2.eventLog = st.eventLog := rfl

@[simp] theorem haltedSymbols_appendCommand (st : EngineState) (command : WalCommand) :
    (st.appendCommand command).2.haltedSymbols = st.haltedSymbols := rfl

/-- Only the event log, the halted symbols and the ports may differ. -/
structure Reports (st st' : EngineState) : Prop where
  exchange : st'.exchange = st.exchange
  commands : st'.commands = st.commands

theorem Reports.refl (st : EngineState) : Reports st st := ⟨rfl, rfl⟩

theorem Reports.trans {mid : EngineState} (h : Reports st mid) (h' : Reports mid st') :
    Reports st st' :=
  ⟨h'.exchange.trans h.exchange, h'.commands.trans h.commands⟩

/-- An append that succeeds has logged the command, and no more. -/
theorem appendCommand_ok {command : WalCommand} {u : Unit}
    (h : st.appendCommand command = (.ok u, st')) :
    st.disk.head = true ∧ st'.exchange = st.exchange ∧
      st'.commands = st.commands ++ [command] := by
  unfold appendCommand Wal.append at h
  dsimp only at h
  split_ifs at h with hdisk
  · cases h
    exact ⟨hdisk, rfl, List.map_append⟩
  · cases h

/-- One that fails has changed nothing that is reported. -/
theorem appendCommand_error {command : WalCommand} {e : ServerError}
    (h : st.appendCommand command = (.error e, st')) : Reports st st' := by
  unfold appendCommand Wal.append at h
  dsimp only at h
  split_ifs at h
  · cases h
  · cases h
    exact ⟨rfl, rfl⟩

/-- Logging events changes no book. -/
theorem sequenceEvents_reports (st : EngineState) (events : List Proto.EngineEvent) :
    Reports st (st.sequenceEvents events).2 := by
  induction events generalizing st with
  | nil => exact Reports.refl st
  | cons event events ih =>
    -- the rest is logged from the state that the first append leaves
    have htail := ih {
      st with
      eventLog := (st.eventLog.appendNext st.disk.head event).2
      disk := st.disk.tail }
    unfold sequenceEvents
    dsimp only
    split
    · exact ⟨rfl, rfl⟩
    · split
      · next h =>
        rw [h] at htail
        exact ⟨htail.exchange, htail.commands⟩
      · next h =>
        rw [h] at htail
        exact ⟨htail.exchange, htail.commands⟩

theorem reports_of_sequenceEvents {events : List Proto.EngineEvent}
    {r : Except ServerError (List SequencedEngineEvent)}
    (h : st.sequenceEvents events = (r, st')) : Reports st st' := by
  have hreports := st.sequenceEvents_reports events
  rw [h] at hreports
  exact hreports

theorem toWireCoreEvents_reports (st : EngineState) (symbol : String)
    (events : List EngineEvent) : Reports st (st.toWireCoreEvents symbol events).2 := by
  induction events generalizing st with
  | nil => exact Reports.refl st
  | cons event events ih =>
    cases event with
    | fill f =>
      have htail := ih (st.toWireFill symbol f).2
      exact ⟨htail.exchange, htail.commands⟩
    | rested => exact ih st
    | cancelled => exact ih st
    | stopTriggered => exact ih st

/-- Nor does the acknowledgement, but for the table of live orders. -/
theorem acknowledgePlace_reports [Rounding] (st : EngineState) (requestId : Uuid)
    (wireOrder : EngineOrder) (order : Order) (coreEvents : List EngineEvent) :
    Reports { st with
      openOrders := applyOpenOrderUpdates st.openOrders (some order) coreEvents }
      (st.acknowledgePlace requestId wireOrder order coreEvents).2 := by
  unfold acknowledgePlace
  dsimp only
  split
  · next h => exact (toWireCoreEvents_reports _ _ _).trans (reports_of_sequenceEvents h)
  · next h => exact (toWireCoreEvents_reports _ _ _).trans (reports_of_sequenceEvents h)

theorem marketStatusResponse_reports (st : EngineState) (requestId : Uuid) (symbol : String)
    (status : Proto.MarketStatus) :
    Reports st (st.marketStatusResponse requestId symbol status).2 := by
  unfold marketStatusResponse
  split
  · next h => exact reports_of_sequenceEvents h
  · next h => exact reports_of_sequenceEvents h

/-! ## Requests -/

/-- The commands that were logged are what was done. -/
structure Does [Rounding] (fuel : ℕ) (st : EngineState) (cmds : List WalCommand)
    (st' : EngineState) : Prop where
  logged : st'.commands = st.commands ++ cmds
  steps : Exchange.Steps fuel st.exchange cmds st'.exchange

theorem Reports.does [Rounding] (h : Reports st st') (fuel : ℕ) : Does fuel st [] st' where
  logged := by rw [h.commands, List.append_nil]
  steps := h.exchange ▸ .nil

theorem Does.trans [Rounding] {mid : EngineState} {cmds cmds' : List WalCommand}
    (h : Does fuel st cmds mid) (h' : Does fuel mid cmds' st') :
    Does fuel st (cmds ++ cmds') st' where
  logged := by rw [h'.logged, h.logged, List.append_assoc]
  steps := h.steps.append h'.steps

theorem Does.report [Rounding] {mid : EngineState} {cmds : List WalCommand}
    (h : Does fuel st cmds mid) (h' : Reports mid st') : Does fuel st cmds st' := by
  have hdoes := h.trans (h'.does fuel)
  rwa [List.append_nil] at hdoes

/-- The ids of the orders a request sets out to cancel. -/
def cancelTargets (st : EngineState) : EngineRequest → List Uuid
  | .cancel _ symbol orderId =>
    match st.openOrders.find? orderId with
    | none => []
    | some entry => if entry.symbol = symbol then [orderId] else []
  | .cancelAll _ userId symbol => st.ordersToCancel userId symbol
  | _ => []

/-- What a request may do: place an admitted order, or cancel orders. -/
inductive Effect [Rounding] (fuel : ℕ) (st st' : EngineState) : EngineRequest → Prop where
  | place {requestId : Uuid} {order : EngineOrder}
      (hvalid : validateWireOrder requestId order = none)
      (htrading : order.symbol ∉ st.haltedSymbols) (hdisk : st.disk.head = true)
      (hlogged : st'.commands = st.commands ++ [.placeOrder (toCoreOrder order)])
      (hstep : Exchange.Step fuel st.exchange (.placeOrder (toCoreOrder order)) st'.exchange) :
      Effect fuel st st' (.place requestId order)
  | cancels {req : EngineRequest} (ids : List Uuid) (htargets : ids ⊆ st.cancelTargets req)
      (hdoes : Does fuel st (ids.map .cancelOrder) st') : Effect fuel st st' req

theorem Reports.effect [Rounding] (h : Reports st st') (fuel : ℕ) (req : EngineRequest) :
    Effect fuel st st' req := .cancels [] (List.nil_subset _) (h.does fuel)

/-- A cancel is at most one step. -/
theorem cancelKnownOrder_does [Rounding] (fuel : ℕ) (st : EngineState) (orderId : Uuid) :
    ∃ ids ⊆ [orderId], Does fuel st (ids.map .cancelOrder) (st.cancelKnownOrder orderId).2 := by
  unfold cancelKnownOrder
  split
  · exact ⟨[], List.nil_subset _, (Reports.refl st).does fuel⟩
  · next entry hentry =>
    split
    · next h => exact ⟨[], List.nil_subset _, (appendCommand_error h).does fuel⟩
    · next st₁ h =>
      rcases appendCommand_ok h with ⟨_, hexchange, hcommands⟩
      have hbooks : st₁.books = st.books := congrArg Exchange.books hexchange
      have hopen : st₁.openOrders = st.openOrders := congrArg Exchange.openOrders hexchange
      refine ⟨[orderId], List.Subset.refl _, ?_⟩
      split
      · -- a cancel without a book is a step of the exchange that changes nothing
        next hbook =>
        rw [hbooks] at hbook
        have hstep : Exchange.Step fuel st.exchange (.cancelOrder orderId) st.exchange :=
          .bookless hentry hbook
        exact ⟨hcommands, .single (hexchange ▸ hstep)⟩
      · next book hbook =>
        rw [hbooks] at hbook
        refine ⟨hcommands, .single ?_⟩
        dsimp only [exchange]
        rw [hbooks, hopen]
        exact .cancelled hentry hbook

/-- A cancel-all carries out cancels, perhaps not all of them. -/
theorem cancelEach_does [Rounding] (fuel : ℕ) (st : EngineState) (locals : CancelAllLocals)
    (orderIds : List Uuid) :
    ∃ ids ⊆ orderIds, Does fuel st (ids.map .cancelOrder) (st.cancelEach locals orderIds).2 := by
  induction orderIds generalizing st locals with
  | nil => exact ⟨[], List.nil_subset _, (Reports.refl st).does fuel⟩
  | cons orderId orderIds ih =>
    rcases cancelKnownOrder_does fuel st orderId with ⟨ids, hsub, hids⟩
    have hhead : ids ⊆ orderId :: orderIds := List.Subset.trans hsub (by simp)
    unfold cancelEach
    split
    · rcases ih st locals with ⟨ids', hsub', hids'⟩
      exact ⟨ids', List.subset_cons_of_subset _ hsub', hids'⟩
    · split
      · next h =>
        rw [h] at hids
        exact ⟨ids, hhead, hids⟩
      · next st₁ h =>
        rw [h] at hids
        -- the loop goes on from the state of the cancel, whether it found the order or not
        have hrest : ∀ locals', ∃ ids ⊆ orderId :: orderIds,
            Does fuel st (ids.map .cancelOrder) (st₁.cancelEach locals' orderIds).2 := by
          intro locals'
          rcases ih st₁ locals' with ⟨ids', hsub', hids'⟩
          refine ⟨ids ++ ids', List.append_subset.mpr
            ⟨hhead, List.subset_cons_of_subset _ hsub'⟩, ?_⟩
          rw [List.map_append]
          exact hids.trans hids'
        split_ifs
        · exact hrest _
        · exact hrest _

/-- The effect of a placement: nothing, or its command. -/
theorem placeOrder_effect [Rounding] {requestId : Uuid} {order : EngineOrder}
    {result : Except ServerError ResponseBundle}
    (h : st.placeOrder fuel requestId order = some (result, st')) :
    Effect fuel st st' (.place requestId order) := by
  unfold placeOrder at h
  split at h
  · cases h
    exact (Reports.refl st).effect ..
  · next hvalid =>
    dsimp only at h
    split_ifs at h with hhalted
    · cases h
      exact (Reports.refl st).effect ..
    · split at h
      · next happ =>
        cases h
        exact (appendCommand_error happ).effect ..
      · -- logged: from here on the command counts, whatever is answered
        next st₁ happ =>
        rcases appendCommand_ok happ with ⟨hdisk, hexchange, hcommands⟩
        have hbooks : st₁.books = st.books := congrArg Exchange.books hexchange
        have hopen : st₁.openOrders = st.openOrders := congrArg Exchange.openOrders hexchange
        have hbook : st₁.bookOf order.symbol = st.exchange.bookOf (toCoreOrder order).symbol := by
          rw [← bookOf_exchange, hexchange]
          rfl
        rw [hbook] at h
        split at h
        · cases h
        · next book coreEvents hmatch =>
          split at h
          · next hrejected =>
            cases h
            refine .place hvalid hhalted hdisk hcommands ?_
            have hstep := Exchange.Step.rejected requestId hmatch
              (hrejected ▸ Option.some_ne_none _)
            dsimp only [exchange] at hstep ⊢
            rw [hbooks, hopen]
            exact hstep
          · next haccepted =>
            have hack := acknowledgePlace_reports { st₁ with
              books := st₁.books.insert order.symbol book } requestId order
              (toCoreOrder order) coreEvents
            rw [Option.some.inj h] at hack
            refine .place hvalid hhalted hdisk (hack.commands.trans hcommands) ?_
            have hstep := Exchange.Step.placed requestId hmatch haccepted
            rw [show st'.exchange = _ from hack.exchange]
            dsimp only [exchange] at hstep ⊢
            rw [hbooks, hopen]
            exact hstep

/-- The effect of a cancel. -/
theorem cancelOrder_does [Rounding] (fuel : ℕ) (st : EngineState) (requestId : Uuid)
    (symbol : String) (orderId : Uuid) :
    ∃ ids ⊆ st.cancelTargets (.cancel requestId symbol orderId),
      Does fuel st (ids.map .cancelOrder) (st.cancelOrder requestId symbol orderId).2 := by
  rcases cancelKnownOrder_does fuel st orderId with ⟨ids, hsub, hids⟩
  unfold cancelOrder
  split
  · exact ⟨[], List.nil_subset _, (Reports.refl st).does fuel⟩
  · next entry hentry =>
    split_ifs with hsymbol
    · exact ⟨[], List.nil_subset _, (Reports.refl st).does fuel⟩
    · -- the request names the order with its own symbol
      have htargets : ids ⊆ st.cancelTargets (.cancel requestId symbol orderId) := by
        simp only [cancelTargets, hentry, if_pos (not_not.mp hsymbol)]
        exact hsub
      refine ⟨ids, htargets, ?_⟩
      split
      · next h =>
        rw [h] at hids
        exact hids
      · next st₁ h =>
        rw [h] at hids
        split_ifs
        · exact hids
        · dsimp only
          split
          · next h' => exact hids.report (reports_of_sequenceEvents h')
          · next h' => exact hids.report (reports_of_sequenceEvents h')

/-- The effect of a cancel-all. -/
theorem cancelAll_does [Rounding] (fuel : ℕ) (st : EngineState) (requestId userId : Uuid)
    (symbol : Option String) :
    ∃ ids ⊆ st.cancelTargets (.cancelAll requestId userId symbol),
      Does fuel st (ids.map .cancelOrder) (st.cancelAll requestId userId symbol).2 := by
  rcases cancelEach_does fuel st ⟨[], OrdMap.empty, []⟩ (st.ordersToCancel userId symbol) with
    ⟨ids, hsub, hids⟩
  refine ⟨ids, hsub, ?_⟩
  unfold cancelAll
  dsimp only
  split
  · next h =>
    rw [h] at hids
    exact hids
  · next st₁ h =>
    rw [h] at hids
    split
    · next h' => exact hids.report (reports_of_sequenceEvents h')
    · next h' => exact hids.report (reports_of_sequenceEvents h')

/-- Every request, also one that fails, places an order or cancels orders, and logs
what it does. -/
theorem handleRequest_effect [Rounding] {req : EngineRequest}
    {result : Except ServerError ResponseBundle}
    (h : st.handleRequest fuel req = some (result, st')) : Effect fuel st st' req := by
  cases req with
  | place requestId order => exact placeOrder_effect h
  | cancel requestId symbol orderId =>
    rcases cancelOrder_does fuel st requestId symbol orderId with ⟨ids, hsub, hids⟩
    rw [Option.some.inj h] at hids
    exact .cancels ids hsub hids
  | cancelAll requestId userId symbol =>
    rcases cancelAll_does fuel st requestId userId symbol with ⟨ids, hsub, hids⟩
    rw [Option.some.inj h] at hids
    exact .cancels ids hsub hids
  -- the rest reports or does nothing to the books
  | haltMarket requestId symbol =>
    have hreports := marketStatusResponse_reports
      { st with haltedSymbols := insert symbol st.haltedSymbols } requestId symbol .halted
    rw [show marketStatusResponse _ _ _ _ = _ from Option.some.inj h] at hreports
    have hsame : Reports st st' := ⟨hreports.exchange, hreports.commands⟩
    exact hsame.effect ..
  | resumeMarket requestId symbol =>
    have hreports := marketStatusResponse_reports
      { st with haltedSymbols := st.haltedSymbols.erase symbol } requestId symbol .trading
    rw [show marketStatusResponse _ _ _ _ = _ from Option.some.inj h] at hreports
    have hsame : Reports st st' := ⟨hreports.exchange, hreports.commands⟩
    exact hsame.effect ..
  | snapshot requestId symbol depth =>
    cases h
    exact (Reports.refl st).effect ..
  | ping requestId =>
    cases h
    exact (Reports.refl st).effect ..

/-! ## Runs of requests -/

/-- Handles the requests in order. An error of a log file ends the connection it
occurs on, and the engine goes on from the state it left. -/
def runRequests (fuel : ℕ) (st : EngineState) : List EngineRequest → Option EngineState
  | [] => some st
  | req :: reqs =>
    match st.handleRequest fuel req with
    | some (_, st) => st.runRequests fuel reqs
    | none => none

/-- The orders the requests place. -/
def placements : List EngineRequest → List EngineOrder
  | [] => []
  | .place _ order :: reqs => order :: placements reqs
  | _ :: reqs => placements reqs

/-- The ids of the orders the requests place. -/
def placedIds (reqs : List EngineRequest) : List Uuid := (placements reqs).map (·.id)

theorem placements_append (reqs reqs' : List EngineRequest) :
    placements (reqs ++ reqs') = placements reqs ++ placements reqs' := by
  induction reqs with
  | nil => rfl
  | cons req reqs ih => cases req <;> simp only [List.cons_append, placements, ih]

/-- The placed orders are those of the requests. -/
theorem mem_placements {reqs : List EngineRequest} {order : Proto.EngineOrder} :
    order ∈ placements reqs ↔ ∃ requestId, .place requestId order ∈ reqs := by
  induction reqs with
  | nil => simp [placements]
  | cons req reqs ih =>
    cases req with
    | place requestId placed =>
      simp only [placements, List.mem_cons, ih, EngineRequest.place.injEq, exists_or]
      simp
    | cancel | cancelAll | haltMarket | resumeMarket | snapshot | ping =>
      simp only [placements, List.mem_cons, ih, reduceCtorEq, false_or]

theorem runRequests_append (fuel : ℕ) (st : EngineState) (reqs reqs' : List EngineRequest) :
    st.runRequests fuel (reqs ++ reqs') =
      (st.runRequests fuel reqs).bind fun mid => mid.runRequests fuel reqs' := by
  induction reqs generalizing st with
  | nil => rfl
  | cons req reqs ih =>
    simp only [List.cons_append, runRequests]
    split
    · exact ih _
    · rfl

/-- A run ends with its last request. -/
theorem runRequests_concat {reqs : List EngineRequest} {req : EngineRequest} {init : EngineState}
    (h : init.runRequests fuel (reqs ++ [req]) = some st) :
    ∃ mid result, init.runRequests fuel reqs = some mid ∧
      mid.handleRequest fuel req = some (result, st) := by
  rw [runRequests_append] at h
  rcases Option.bind_eq_some_iff.mp h with ⟨mid, hmid, hlast⟩
  unfold runRequests at hlast
  split at hlast
  · next result st₁ hhandle =>
    cases hlast
    exact ⟨mid, result, hmid, hhandle⟩
  · cases hlast

/-- The induction rule for runs: `Ok` is what is known of a request that follows
the requests `past` in the state they lead to. -/
theorem runRequests_invariant {init : EngineState} (Inv : List EngineRequest → EngineState → Prop)
    (Ok : List EngineRequest → EngineState → EngineRequest → Prop)
    (hstep : ∀ past st req result st', Inv past st → Ok past st req →
      st.handleRequest fuel req = some (result, st') → Inv (past ++ [req]) st')
    (h0 : Inv [] init) {reqs : List EngineRequest}
    (hok : ∀ l req l' mid, reqs = l ++ req :: l' → init.runRequests fuel l = some mid →
      Ok l mid req)
    (hrun : init.runRequests fuel reqs = some st) : Inv reqs st := by
  induction reqs using List.reverseRecOn generalizing st with
  | nil =>
    cases hrun
    exact h0
  | append_singleton reqs req ih =>
    rcases runRequests_concat hrun with ⟨mid, result, hmid, hhandle⟩
    refine hstep reqs mid req result st (ih ?_ hmid) (hok reqs req [] mid rfl hmid) hhandle
    intro l req' l' mid' hsplit hl
    exact hok l req' (l' ++ [req]) mid' (by rw [hsplit, List.append_assoc, List.cons_append]) hl

/-- An admitted order may be given to the book. -/
theorem admissible_of_valid {requestId : Uuid} {order : EngineOrder}
    (h : validateWireOrder requestId order = none) : (toCoreOrder order).Admissible := by
  unfold validateWireOrder at h
  split_ifs at h with hblank hquantity hprice hstop hdisplay
  refine ⟨not_le.mp hquantity, ?_, ?_⟩
  · intro hrest
    have hrequires : requiresPrice order.orderType = true := by
      cases htype : order.orderType <;> simp_all [toCoreOrder, toCoreOrderType,
        OrderType.canRest, requiresPrice]
    cases hp : order.price with
    | none => simp [hrequires, hp, missingOrNotPositive] at hprice
    | some p => exact ⟨p, hp⟩
  · intro hisStop
    have hrequires : requiresStopPrice order.orderType = true := by
      cases htype : order.orderType <;> simp_all [toCoreOrder, toCoreOrderType,
        OrderType.isStop, requiresStopPrice]
    cases hp : order.stopPrice with
    | none => simp [hrequires, hp, missingOrNotPositive] at hstop
    | some p => exact ⟨p, hp⟩

/-- What is known of the exchange after the requests `past`. -/
def KnownAfter (past : List EngineRequest) (st : EngineState) : Prop :=
  st.exchange.Known ((placements past).map toCoreOrder)

/-- A request that may follow `past`: an order it places has a fresh id. -/
def Fresh (past : List EngineRequest) (req : EngineRequest) : Prop :=
  ∀ requestId order, req = .place requestId order → order.id ∉ placedIds past

theorem Fresh.toCoreOrder {past : List EngineRequest} {req : EngineRequest} {requestId : Uuid}
    {order : EngineOrder} (h : Fresh past req) (hreq : req = .place requestId order) :
    (Server.toCoreOrder order).id ∉ ((placements past).map Server.toCoreOrder).map (·.id) := by
  rw [List.map_map]
  exact h requestId order hreq

theorem nodup_past {past rest : List EngineRequest} {reqs : List EngineRequest}
    (h : (placedIds reqs).Nodup) (hsplit : reqs = past ++ rest) : (placedIds past).Nodup := by
  rw [hsplit, placedIds, placements_append, List.map_append] at h
  exact (List.nodup_append.mp h).1

/-- When no id is placed twice, every request is fresh. -/
theorem fresh_of_nodup {reqs : List EngineRequest} (h : (placedIds reqs).Nodup) :
    ∀ l req l', reqs = l ++ req :: l' → Fresh l req := by
  rintro l req l' rfl requestId order rfl hmem
  rw [placedIds, placements_append, List.map_append] at h
  exact (List.nodup_append.mp h).2.2 order.id hmem order.id List.mem_cons_self rfl

theorem nodup_placedIds_append {past : List EngineRequest} {req : EngineRequest}
    (h : (placedIds past).Nodup) (hfresh : Fresh past req) :
    (placedIds (past ++ [req])).Nodup := by
  rw [placedIds, placements_append, List.map_append]
  refine List.Nodup.append h ?_ ?_
  · cases req <;> simp [placements]
  · intro x hold hnew
    cases req with
    | place requestId order =>
      rw [List.mem_singleton.mp hnew] at hold
      exact hfresh requestId order rfl hold
    | cancel | cancelAll | haltMarket | resumeMarket | snapshot | ping => cases hnew

/-- Every request keeps the exchange sound. -/
theorem handleRequest_known {past : List EngineRequest} {req : EngineRequest}
    {result : Except ServerError ResponseBundle} (hknown : KnownAfter past st)
    (hfresh : Fresh past req) (h : st.handleRequest fuel req = some (result, st')) :
    KnownAfter (past ++ [req]) st' := by
  have heffect := handleRequest_effect h
  unfold KnownAfter at hknown ⊢
  rw [placements_append, List.map_append]
  cases heffect with
  | @place requestId order hvalid htrading hdisk hlogged hstep =>
    refine hstep.known hknown ?_
    rintro _ ⟨⟩
    exact ⟨admissible_of_valid hvalid, hfresh.toCoreOrder rfl⟩
  | cancels ids _ hdoes =>
    refine Exchange.Known.mono ?_ (List.subset_append_left _ _)
    exact hdoes.steps.cancels_invariant _ (fun x orderId y hx hstep => hstep.known_cancel hx) hknown

theorem exchange_open [Rounding] {walFuel : ℕ} {idSource : Stream' Uuid} {clock : Stream' String}
    {disk : Stream' Bool} {snapshotDepth : ℕ} {init : EngineState}
    (h : EngineState.open walFuel [] [] idSource clock disk snapshotDepth = some init) :
    init.exchange = Exchange.empty := by
  cases h
  rfl

/-- Every run of requests with fresh order ids keeps the exchange sound. -/
theorem knownAfter_of_runRequests {init : EngineState} (hinit : init.exchange = Exchange.empty)
    {reqs : List EngineRequest} (hfresh : (placedIds reqs).Nodup)
    (hrun : init.runRequests fuel reqs = some st) : st.KnownAfter reqs := by
  refine runRequests_invariant (fun past st => st.KnownAfter past) (fun past _ req => Fresh past req)
    (fun past st req bundle st' hinv hok h => handleRequest_known hinv hok h) ?_
    (fun l req l' mid hsplit _ => fresh_of_nodup hfresh l req l' hsplit) hrun
  rw [KnownAfter, hinit]
  exact Exchange.known_empty

end EngineState

/-! ## Sample requests -/

/-- A limit order on the wire. -/
def wireLimit (id userId : Uuid) (side : Proto.OrderSide) (price quantity : Decimal)
    (stpMode : Proto.StpMode) : EngineOrder where
  id := id
  userId := userId
  symbol := "BTCUSDT"
  side := side
  orderType := .limit
  price := some price
  quantity := quantity
  stpMode := stpMode
  stopPrice := none
  ocoLinkedId := none
  displayQty := none

/-- The engine over empty logs, with a disk that never fails. -/
def emptyEngine : EngineState where
  books := OrdMap.empty
  commandWal := Wal.open []
  eventLog := EventLog.open []
  haltedSymbols := ∅
  openOrders := OrdMap.empty
  idSource := fun n => n
  clock := fun _ => "1970-01-01T00:00:00.000Z"
  disk := fun _ => true
  snapshotDepth := 20

theorem emptyEngine_open [Rounding] (fuel : ℕ) : EngineState.open fuel [] [] (fun n => n)
    (fun _ => "1970-01-01T00:00:00.000Z") (fun _ => true) 20 = some emptyEngine := rfl

end CryptoCex.Server
