import CryptoCex.Lib.Machine
import CryptoCex.Server.Exchange
import CryptoCex.Settlement.Effects

/-!
# Status writes of the API

The API writes the status of an order as soon as the engine has answered: the status of the
acknowledgement after a placement or a cancel, and `canceled` for the orders that an admin
action took off the books. Settlement meanwhile settles the events of these orders, and
takes the status for the mark of a cancel it has settled.

A write that puts `canceled` where settlement has not settled the cancel makes it skip the
release of the lock (`cancel_ack_keeps_lock`). A write does no harm if it changes nothing,
or if settlement overwrites it before it looks at it: a fill overwrites any status, a cancel
any status that is neither `canceled` nor `filled`. `Shadows` relates the tables with such
writes to those without, and `writes_undisturbing` says that they end up the same.
-/

namespace CryptoCex.Settlement

open CryptoCex.Core (Uuid)
open Db (LedgerEntry MarketRow OrderRow OrderStatus Tables value)
open Machine (run)
open Proto (EngineEvent SequencedEngineEvent TradeFill)

/-- A step of settlement or a status write of the API. -/
inductive StatusOp where
  | settle (e : SequencedEngineEvent)
  /-- After the acknowledgement of a placement or of a cancel. -/
  | updateStatus (orderId : Uuid) (status : OrderStatus)
  /-- By an admin action. -/
  | markCanceled (orderIds : List Uuid)

/-- One step; a transaction of settlement that fails blocks. -/
def interleave (arith : Arithmetic) (db : Tables) : StatusOp → Option Tables
  | .settle e => step arith db e
  | .updateStatus orderId status => some (db.updateStatus orderId status)
  | .markCanceled orderIds => some (db.markOrdersCanceled orderIds)

/-- The events that settlement settles. -/
def settledEvents (ops : List StatusOp) : List SequencedEngineEvent :=
  ops.filterMap fun
    | .settle e => some e
    | _ => none

/-! ## Harmless writes -/

/-- How an event meets the status of an order. -/
inductive Touch where
  /-- A fill overwrites it. -/
  | fill
  /-- A cancel looks at it. -/
  | cancel
deriving DecidableEq

def touchOf (orderId : Uuid) : EngineEvent → Option Touch
  | .fill f => if f.takerOrderId = orderId ∨ f.makerOrderId = orderId then some .fill else none
  | .orderCanceled id _ => if id = orderId then some .cancel else none
  | _ => none

/-- How the next event that settlement settles for the order will meet its status. -/
def nextTouch (orderId : Uuid) : List StatusOp → Option Touch
  | [] => none
  | .settle e :: ops => (touchOf orderId e.event).orElse fun _ => nextTouch orderId ops
  | _ :: ops => nextTouch orderId ops

/-- Settlement overwrites the status of the order, whichever of the two it is. -/
def Overwritten (ops : List StatusOp) (orderId : Uuid) (status status' : OrderStatus) : Prop :=
  nextTouch orderId ops = some .fill ∨
    nextTouch orderId ops = some .cancel ∧ terminal status = false ∧ terminal status' = false

/-- The step, with these to follow, is none that disturbs settlement. -/
def Harmless (db : Tables) (ops : List StatusOp) : StatusOp → Prop
  | .settle _ => True
  | .updateStatus orderId status => ∀ row, db.orders.find? orderId = some row →
      row.status = status ∨ Overwritten ops orderId row.status status
  | .markCanceled orderIds => ∀ orderId ∈ orderIds, ∀ row, db.orders.find? orderId = some row →
      row.status.markable = true → Overwritten ops orderId row.status .canceled

/-- No write of the run disturbs settlement. -/
def Undisturbing (arith : Arithmetic) (db : Tables) : List StatusOp → Prop
  | [] => True
  | op :: ops => Harmless db ops op ∧
      ∀ db', interleave arith db op = some db' → Undisturbing arith db' ops

/-! ## The simulation -/

/-- The rows differ in their status at most, and then settlement overwrites it. -/
def SameRow (ops : List StatusOp) (orderId : Uuid) : Option OrderRow → Option OrderRow → Prop
  | none, none => True
  | some row, some row' => row' = { row with status := row'.status } ∧
      (row.status = row'.status ∨ Overwritten ops orderId row.status row'.status)
  | _, _ => False

/-- The tables differ in the statuses of orders at most, and these settlement overwrites. -/
structure Shadows (ops : List StatusOp) (db db' : Tables) : Prop where
  balances : db'.balances = db.balances
  ledgerEntries : db'.ledgerEntries = db.ledgerEntries
  trades : db'.trades = db.trades
  deposits : db'.deposits = db.deposits
  markets : db'.markets = db.markets
  rows : ∀ orderId, SameRow ops orderId (db.orders.find? orderId) (db'.orders.find? orderId)

variable {arith : Arithmetic} {store : ℚ → Option ℚ} {db db' after : Tables}
  {ops : List StatusOp} {seq : ℕ}

/-- Either status may be the one that is overwritten. -/
theorem Overwritten.symm {orderId : Uuid} {status status' : OrderStatus}
    (h : Overwritten ops orderId status status') : Overwritten ops orderId status' status := by
  rcases h with hfill | ⟨hcancel, hopen, hopen'⟩
  · exact .inl hfill
  · exact .inr ⟨hcancel, hopen', hopen⟩

theorem SameRow.refl (ops : List StatusOp) (orderId : Uuid) (row : Option OrderRow) :
    SameRow ops orderId row row := by
  cases row with
  | none => trivial
  | some row => exact ⟨rfl, .inl rfl⟩

theorem SameRow.symm {orderId : Uuid} {row row' : Option OrderRow}
    (h : SameRow ops orderId row row') : SameRow ops orderId row' row := by
  cases row with
  | none =>
    cases row' with
    | none => trivial
    | some row' => exact h.elim
  | some row =>
    cases row' with
    | none => exact h.elim
    | some row' =>
      refine ⟨?_, ?_⟩
      · rw [h.1]
      · rcases h.2 with heq | hover
        · exact .inl heq.symm
        · exact .inr hover.symm

theorem Shadows.refl (ops : List StatusOp) (db : Tables) : Shadows ops db db where
  balances := rfl
  ledgerEntries := rfl
  trades := rfl
  deposits := rfl
  markets := rfl
  rows := fun orderId => .refl ops orderId _

/-- Tables that shadow each other do so either way. -/
theorem Shadows.symm (h : Shadows ops db db') : Shadows ops db' db where
  balances := h.balances.symm
  ledgerEntries := h.ledgerEntries.symm
  trades := h.trades.symm
  deposits := h.deposits.symm
  markets := h.markets.symm
  rows := fun orderId => (h.rows orderId).symm

/-- When nothing is left to settle, no status differs. -/
theorem Shadows.eq (h : Shadows [] db db') : db' = db := by
  have horders : db'.orders = db.orders := by
    refine OrdMap.ext_find? ?_
    intro orderId
    have hrow := h.rows orderId
    cases hfind : db.orders.find? orderId with
    | none =>
      cases hfind' : db'.orders.find? orderId with
      | none => rfl
      | some row' =>
        rw [hfind, hfind'] at hrow
        exact hrow.elim
    | some row =>
      cases hfind' : db'.orders.find? orderId with
      | none =>
        rw [hfind, hfind'] at hrow
        exact hrow.elim
      -- a status that differs is one that a fill or a cancel is still to write
      | some row' =>
        rw [hfind, hfind'] at hrow
        rcases hrow.2 with heq | hfill | ⟨hcancel, _⟩
        · rw [hrow.1, ← heq]
        · cases hfill
        · cases hcancel
  cases db
  cases db'
  cases horders
  cases h.balances
  cases h.ledgerEntries
  cases h.trades
  cases h.deposits
  cases h.markets
  rfl

/-- A row has its shadow, but for the status. -/
theorem Shadows.row {orderId : Uuid} {row : OrderRow} (h : Shadows ops db db')
    (hrow : db.orders.find? orderId = some row) : ∃ status,
      db'.orders.find? orderId = some { row with status := status } ∧
      (row.status = status ∨ Overwritten ops orderId row.status status) := by
  have hsame := h.rows orderId
  cases hfind : db'.orders.find? orderId with
  | none =>
    rw [hrow, hfind] at hsame
    exact hsame.elim
  | some row' =>
    rw [hrow, hfind] at hsame
    exact ⟨row'.status, congrArg some hsame.1, hsame.2⟩

theorem Shadows.row_none {orderId : Uuid} (h : Shadows ops db db')
    (hrow : db.orders.find? orderId = none) : db'.orders.find? orderId = none := by
  have hsame := h.rows orderId
  cases hfind : db'.orders.find? orderId with
  | none => rfl
  | some row' =>
    rw [hrow, hfind] at hsame
    exact hsame.elim

/-- An event that does not touch the order leaves what is to come for it. -/
theorem nextTouch_settle {orderId : Uuid} {e : SequencedEngineEvent}
    (h : touchOf orderId e.event = none) :
    nextTouch orderId (.settle e :: ops) = nextTouch orderId ops := by
  rw [nextTouch, h]
  rfl

/-- A step that does not touch a row leaves its fate open. -/
theorem SameRow.next {orderId : Uuid} {op : StatusOp} {row row' : Option OrderRow}
    (hnext : nextTouch orderId (op :: ops) = nextTouch orderId ops)
    (h : SameRow (op :: ops) orderId row row') : SameRow ops orderId row row' := by
  unfold SameRow Overwritten at *
  rw [hnext] at h
  exact h

/-- What the ledger does depends on balances and ledger only. -/
theorem applyLedgers_transfer {ms : List LedgerMutation} (db' : Tables)
    (h : applyLedgers store ms db = .ok after) (hbalances : db'.balances = db.balances)
    (hentries : db'.ledgerEntries = db.ledgerEntries) :
    applyLedgers store ms db' = .ok { db' with
      balances := after.balances
      ledgerEntries := after.ledgerEntries } := by
  induction ms generalizing db db' with
  | nil =>
    cases h
    rw [← hbalances, ← hentries]
    rfl
  | cons m ms ih =>
    rcases applyLedgers_cons_eq_ok.mp h with ⟨mid, hmid, hrest⟩
    rcases applyLedger_eq_ok.mp hmid with
      ⟨row, available, locked, amount, hrow, havailable, hlocked, hamount, h0, h1, hseq, rfl⟩
    refine applyLedgers_cons_eq_ok.mpr ⟨_, applyLedger_eq_ok.mpr ⟨row, available, locked, amount,
      hbalances ▸ hrow, havailable, hlocked, hamount, h0, h1, hseq, rfl⟩, ?_⟩
    exact ih _ hrest (by simp only [hbalances]) (by simp only [hentries])

/-- A fill is settled without a look at the statuses. -/
theorem Shadows.filled (seq : ℕ) {fill : TradeFill} {a : FillAmounts} (h : Shadows ops db db')
    (ha : a.Of arith db fill) : ∃ a' : FillAmounts, a'.Of arith db' fill ∧
      a'.mutations seq fill = a.mutations seq fill ∧
      a'.taker.row.market = a.taker.row.market ∧ a'.taker.id = a.taker.id ∧
      a'.maker.id = a.maker.id ∧
      setFill a'.taker.row a'.takerColumns = setFill a.taker.row a.takerColumns ∧
      setFill a'.maker.row a'.makerColumns = setFill a.maker.row a.makerColumns := by
  rcases h.row ha.taker.row with ⟨takerStatus, htaker, _⟩
  rcases h.row ha.maker.row with ⟨makerStatus, hmaker, _⟩
  -- the same amounts, read from rows that differ in their statuses
  let a' : FillAmounts := { a with
    taker := { a.taker with row := { a.taker.row with status := takerStatus } }
    maker := { a.maker with row := { a.maker.row with status := makerStatus } } }
  refine ⟨a', ?_, ?_, rfl, rfl, rfl, rfl, rfl⟩
  · exact {
      taker_id := ha.taker_id
      maker_id := ha.maker_id
      taker := ⟨htaker, h.markets ▸ ha.taker.market⟩
      maker := ⟨hmaker, h.markets ▸ ha.maker.market⟩
      notional := ha.notional
      takerFee := ha.takerFee
      makerFee := ha.makerFee
      takerColumns := ha.takerColumns
      makerColumns := ha.makerColumns }
  · unfold FillAmounts.mutations FillAmounts.buyer FillAmounts.seller parties
    cases fill.takerSide <;> rfl

/-- Settlement does the same with and without the writes. -/
theorem Shadows.settles {e : SequencedEngineEvent} (h : Shadows (.settle e :: ops) db db')
    (hfresh : ∀ trade ∈ db.trades, trade.engineSeq ≠ e.seq)
    (hsettles : Settles arith e.seq db e.event after) :
    ∃ after', Settles arith e.seq db' e.event after' ∧ Shadows ops after after' := by
  rcases e with ⟨seq, event⟩
  -- what holds of an order that the event does not touch
  have hnext : ∀ orderId, touchOf orderId event = none →
      SameRow ops orderId (db.orders.find? orderId) (db'.orders.find? orderId) := by
    intro orderId htouch
    exact (h.rows orderId).next (nextTouch_settle htouch)
  have hidle : (∀ orderId, touchOf orderId event = none) → Shadows ops db db' := by
    intro htouch
    exact { h with rows := fun orderId => hnext orderId (htouch orderId) }
  cases hsettles with
  | known hmarket hchecks hrow =>
    rcases h.row hrow with ⟨status, hrow', _⟩
    exact ⟨db', .known (h.markets ▸ hmarket) hchecks hrow', hidle fun _ => rfl⟩
  | @accepted order market row obligation _ hmarket hchecks hnew hobligation hledger =>
    have hkeeps := keepsRest_of_applyLedgers hledger
    have hledger' := applyLedgers_transfer { db' with
      orders := db'.orders.insert order.id row } hledger h.balances h.ledgerEntries
    refine ⟨_, .accepted (h.markets ▸ hmarket) hchecks (h.row_none hnew) hobligation hledger', ?_⟩
    refine ⟨rfl, rfl, h.trades.trans hkeeps.trades.symm, h.deposits.trans hkeeps.deposits.symm,
      h.markets.trans hkeeps.markets.symm, ?_⟩
    intro orderId
    rw [hkeeps.orders]
    simp only [OrdMap.find?_insert]
    split_ifs
    · exact .refl _ _ _
    · exact hnext orderId rfl
  | traded htraded =>
    rcases htraded with ⟨trade, htrade, hseq⟩
    exact absurd hseq (hfresh trade htrade)
  | @filled fill a price quantity after _ ha hprice hquantity hpos hid hledger =>
    have hkeeps := keepsRest_of_applyLedgers hledger
    rcases h.filled seq ha with
      ⟨a', ha', hmutations, hmarket, htakerId, hmakerId, htakerRow, hmakerRow⟩
    have hledger' := applyLedgers_transfer { db' with
      trades := db'.trades ++ [tradeRow seq fill a.taker.row.market price quantity] }
      hledger h.balances h.ledgerEntries
    rw [← hmutations, ← hmarket] at hledger'
    have hsettles' : Settles arith seq db' (.fill fill) { db' with
        balances := after.balances
        ledgerEntries := after.ledgerEntries
        trades := db'.trades ++ [tradeRow seq fill a'.taker.row.market price quantity]
        orders := a'.orders db'.orders } :=
      .filled (h.trades ▸ hfresh) ha' hprice hquantity hpos (h.trades ▸ hid) hledger'
    refine ⟨_, hsettles', rfl, rfl, ?_, h.deposits.trans hkeeps.deposits.symm,
      h.markets.trans hkeeps.markets.symm, ?_⟩
    · rw [hkeeps.trades, h.trades, hmarket]
    · intro orderId
      simp only [FillAmounts.orders, OrdMap.find?_insert, htakerId, hmakerId, htakerRow, hmakerRow]
      split_ifs with hmaker htaker
      · exact .refl _ _ _
      · exact .refl _ _ _
      · refine hnext orderId ?_
        rw [ha.maker_id] at hmaker
        rw [ha.taker_id] at htaker
        simp [touchOf, Ne.symm hmaker, Ne.symm htaker]
  | @closed orderId reason order hid hfetch hterminal =>
    rcases h.row hfetch.row with ⟨status, hrow', hstatus⟩
    have hcancel : nextTouch order.id (.settle ⟨seq, .orderCanceled orderId reason⟩ :: ops) =
        some .cancel := by simp [nextTouch, touchOf, hid]
    -- a status that differs would be open in both
    have hsame : order.row.status = status := by
      rcases hstatus with hsame | hfill | ⟨_, hopen, _⟩
      · exact hsame
      · rw [hcancel] at hfill
        cases hfill
      · rw [hterminal] at hopen
        cases hopen
    let order' : FetchedOrder := { order with row := { order.row with status := status } }
    have hid' : order'.id = orderId := hid
    have hfetch' : Fetches db' order' := ⟨hrow', h.markets ▸ hfetch.market⟩
    have hterminal' : terminal status = true := hsame ▸ hterminal
    refine ⟨db', .closed hid' hfetch' hterminal', { h with rows := ?_ }⟩
    intro id
    by_cases heq : id = order.id
    · rw [heq, hfetch.row, hrow', ← hsame]
      exact .refl _ _ _
    · refine hnext id ?_
      simp [touchOf, ← hid, Ne.symm heq]
  | @canceled orderId reason order obligation after hid hfetch hopen hobligation hledger =>
    have hkeeps := keepsRest_of_applyLedgers hledger
    rcases h.row hfetch.row with ⟨status, hrow', hstatus⟩
    have hcancel : nextTouch order.id (.settle ⟨seq, .orderCanceled orderId reason⟩ :: ops) =
        some .cancel := by simp [nextTouch, touchOf, hid]
    have hopen' : terminal status = false := by
      rcases hstatus with hsame | hfill | ⟨_, _, hopen'⟩
      · exact hsame ▸ hopen
      · rw [hcancel] at hfill
        cases hfill
      · exact hopen'
    let order' : FetchedOrder := { order with row := { order.row with status := status } }
    have hid' : order'.id = orderId := hid
    have hfetch' : Fetches db' order' := ⟨hrow', h.markets ▸ hfetch.market⟩
    have hledger' := applyLedgers_transfer db' hledger h.balances h.ledgerEntries
    have hsettles' : Settles arith seq db' (.orderCanceled orderId reason) { db' with
        balances := after.balances
        ledgerEntries := after.ledgerEntries
        orders := db'.orders.insert orderId { order.row with status := .canceled } } :=
      .canceled hid' hfetch' hopen' hobligation hledger'
    refine ⟨_, hsettles', rfl, rfl, h.trades.trans hkeeps.trades.symm,
      h.deposits.trans hkeeps.deposits.symm, h.markets.trans hkeeps.markets.symm, ?_⟩
    intro id
    simp only [OrdMap.find?_insert]
    split_ifs with heq
    · exact .refl _ _ _
    · refine hnext id ?_
      simp [touchOf, Ne.symm heq]
  | rested => exact ⟨db', .rested, hidle fun _ => rfl⟩
  | delta => exact ⟨db', .delta, hidle fun _ => rfl⟩
  | status => exact ⟨db', .status, hidle fun _ => rfl⟩

/-! ## The writes -/

/-- A harmless write of one status. -/
theorem Shadows.updateStatus {orderId : Uuid} {status : OrderStatus} (h : Shadows ops db db')
    (hharmless : ∀ row, db'.orders.find? orderId = some row →
      row.status = status ∨ Overwritten ops orderId row.status status) :
    Shadows ops db (db'.updateStatus orderId status) := by
  unfold Tables.updateStatus
  cases hfind : db'.orders.find? orderId with
  | none => exact h
  | some row' =>
    refine { h with rows := ?_ }
    intro id
    simp only [OrdMap.find?_insert]
    split_ifs with heq
    · rw [heq]
      have hsame := h.rows orderId
      cases hrow : db.orders.find? orderId with
      | none =>
        rw [hrow, hfind] at hsame
        exact hsame.elim
      | some row =>
        rw [hrow, hfind] at hsame
        refine ⟨?_, ?_⟩
        · rw [hsame.1]
        · rcases hharmless row' hfind with hnow | hover
          · exact hnow ▸ hsame.2
          · -- the status of the row without writes is overwritten by the same event
            rcases hover with hfill | ⟨hcancel, hopen', hopen⟩
            · exact .inr (.inl hfill)
            · refine .inr (.inr ⟨hcancel, ?_, hopen⟩)
              rcases hsame.2 with heq' | hfill | ⟨_, hrowOpen, _⟩
              · exact heq' ▸ hopen'
              · rw [hfill] at hcancel
                cases hcancel
              · exact hrowOpen
    · exact h.rows id

/-- Marking orders that are done leaves the shadow. -/
theorem Shadows.markOrdersCanceled {orderIds : List Uuid} (h : Shadows ops db db')
    (hharmless : ∀ orderId ∈ orderIds, ∀ row, db'.orders.find? orderId = some row →
      row.status.markable = true → Overwritten ops orderId row.status .canceled) :
    Shadows ops db (db'.markOrdersCanceled orderIds) := by
  unfold Tables.markOrdersCanceled
  induction orderIds generalizing db' with
  | nil => exact h
  | cons orderId orderIds ih =>
    have hfirst := hharmless orderId List.mem_cons_self
    have hothers : ∀ id ∈ orderIds, ∀ row, db'.orders.find? id = some row →
        row.status.markable = true → Overwritten ops id row.status .canceled := fun id hid =>
      hharmless id (List.mem_cons_of_mem orderId hid)
    rw [List.foldl_cons]
    unfold Tables.markOrderCanceled
    cases hfind : db'.orders.find? orderId with
    | none => exact ih h hothers
    | some row =>
      simp only
      split_ifs with hmark
      · refine ih (h.updateStatus ?_) ?_
        · intro row' hrow'
          rw [hfind] at hrow'
          cases hrow'
          exact .inr (hfirst row hfind hmark)
        · -- a marked order is not marked again
          intro id hid row' hrow' hmark'
          simp only [Tables.updateStatus, hfind, OrdMap.find?_insert] at hrow'
          split_ifs at hrow' with heq
          · cases hrow'
            cases hmark'
          · exact hothers id hid row' hrow' hmark'
      · exact ih h hothers

/-! ## Runs -/

/-- Settlement, with the writes and without, from tables that differ by harmless writes. -/
theorem run_of_shadows (h : Shadows ops db db')
    (hwrites : Undisturbing arith db' ops) (hseqs : ((settledEvents ops).map (·.seq)).Nodup)
    (hfresh : ∀ trade ∈ db.trades, trade.engineSeq ∉ (settledEvents ops).map (·.seq)) :
    run (interleave arith) db' ops = run (step arith) db (settledEvents ops) := by
  induction ops generalizing db db' with
  | nil =>
    rw [h.eq]
    rfl
  | cons op ops ih =>
    cases op with
    | updateStatus orderId status =>
      have hsame : Shadows ops db db' :=
        { h with rows := fun id => (h.rows id).next rfl }
      exact ih (hsame.updateStatus hwrites.1) (hwrites.2 _ rfl) hseqs hfresh
    | markCanceled orderIds =>
      have hsame : Shadows ops db db' :=
        { h with rows := fun id => (h.rows id).next rfl }
      exact ih (hsame.markOrdersCanceled hwrites.1) (hwrites.2 _ rfl) hseqs hfresh
    | settle e =>
      have hseqs' := List.nodup_cons.mp hseqs
      have hnew : ∀ trade ∈ db.trades, trade.engineSeq ≠ e.seq := by
        intro trade htrade heq
        exact hfresh trade htrade (heq ▸ List.mem_cons_self)
      change (step arith db' e).bind _ = (step arith db e).bind _
      cases hstep : step arith db e with
      | none =>
        -- what fails without the writes fails with them
        cases hstep' : step arith db' e with
        | none => rfl
        | some after' =>
          rcases h.symm.settles (h.trades ▸ hnew) (step_eq_some.mp hstep') with ⟨after, hafter, _⟩
          rw [step_eq_some.mpr hafter] at hstep
          cases hstep
      | some after =>
        rcases h.settles hnew (step_eq_some.mp hstep) with ⟨after', hafter', hshadows⟩
        have hstep' := step_eq_some.mpr hafter'
        rw [hstep']
        refine ih hshadows (hwrites.2 _ hstep') hseqs'.2 ?_
        intro trade htrade hmem
        rcases (step_eq_some.mp hstep).new_trades htrade with htrade | hseq
        · exact hfresh trade htrade (List.mem_cons_of_mem _ hmem)
        · rw [hseq] at hmem
          exact hseqs'.1 hmem

/-- With harmless writes of the API in between, settlement ends with the same tables as
without them, or stops at the same event. -/
theorem writes_undisturbing (arith : Arithmetic) (db : Tables) {ops : List StatusOp}
    (hseqs : ((settledEvents ops).map (·.seq)).Nodup)
    (hfresh : ∀ trade ∈ db.trades, trade.engineSeq ∉ (settledEvents ops).map (·.seq))
    (hwrites : Undisturbing arith db ops) :
    run (interleave arith) db ops = run (step arith) db (settledEvents ops) :=
  run_of_shadows (.refl ops db) hwrites hseqs hfresh

/-- The sell order of user 10 as the API leaves it before it asks the engine: one unit is
locked, and the row is pending. -/
def pendingSell : Tables :=
  { Db.openingTables [((10, 1), ⟨4, 1⟩)] with
    orders := OrdMap.empty.insert 1 {
      userId := 10
      market := "BTCUSDT"
      clientOrderId := none
      side := .sell
      status := .pending
      price := some 100
      quantity := some 1
      filledQuantity := 0
      avgFillPrice := none } }

/-- The events of the engine for the order and its cancel. -/
def canceledSellEvents : Option (List SequencedEngineEvent) :=
  (Server.emptyEngine.runRequests 10 [.place 1 (limitOrder 1 10 .sell 100 1),
    .cancel 2 "BTCUSDT" 1]).map (·.eventLog.entries)

/-- The API writes the statuses of both acknowledgements before settlement takes up the
events. Alone settlement releases the unit; after the writes it stays locked. -/
theorem cancel_ack_keeps_lock : ∃ es alone written, canceledSellEvents = some es ∧
    run (step .exact) pendingSell es = some alone ∧
    run (interleave .exact) pendingSell
      ([.updateStatus 1 .new, .updateStatus 1 .canceled] ++ es.map .settle) = some written ∧
    alone.balances (10, 1) = some ⟨5, 0⟩ ∧ written.balances (10, 1) = some ⟨4, 1⟩ := by
  have halone : (canceledSellEvents.bind fun es => run (step .exact) pendingSell es).map
      (·.balances (10, 1)) = some (some ⟨5, 0⟩) := by decide +kernel
  have hwritten : (canceledSellEvents.bind fun es => run (interleave .exact) pendingSell
      ([.updateStatus 1 .new, .updateStatus 1 .canceled] ++ es.map .settle)).map
        (·.balances (10, 1)) = some (some ⟨4, 1⟩) := by decide +kernel
  rcases Option.map_eq_some_iff.mp halone with ⟨alone, hbind, hbalance⟩
  rcases Option.bind_eq_some_iff.mp hbind with ⟨es, hes, hrun⟩
  rw [hes] at hwritten
  rcases Option.map_eq_some_iff.mp hwritten with ⟨written, hrun', hbalance'⟩
  exact ⟨es, alone, written, hes, hrun, hrun', hbalance, hbalance'⟩

/-- The status of the placement is written before settlement takes up the order, that of the
cancel after it has settled the cancel. -/
def lateWrites : List StatusOp :=
  [ .updateStatus 1 .new, .settle ⟨1, .orderAccepted (limitOrder 1 10 .sell 100 1)⟩,
    .settle ⟨2, .orderCanceled 1 .adminCancel⟩, .updateStatus 1 .canceled ]

instance (ops : List StatusOp) (orderId : Uuid) (status status' : OrderStatus) :
    Decidable (Overwritten ops orderId status status') :=
  inferInstanceAs (Decidable (_ ∨ _ ∧ _ ∧ _))

/-- A test of `Undisturbing` for runs without admin actions. -/
def checkWrites (arith : Arithmetic) (db : Tables) : List StatusOp → Bool
  | [] => true
  | op :: ops =>
    (match op with
      | .settle _ => true
      | .updateStatus orderId status =>
        (db.orders.find? orderId).all fun row =>
          row.status = status ∨ Overwritten ops orderId row.status status
      | .markCanceled _ => false) &&
    (interleave arith db op).all fun db' => checkWrites arith db' ops

/-- The check decides that no write disturbs. -/
theorem undisturbing_of_check (h : checkWrites arith db ops = true) :
    Undisturbing arith db ops := by
  induction ops generalizing db with
  | nil => trivial
  | cons op ops ih =>
    rcases Bool.and_eq_true_iff.mp h with ⟨hharmless, hrest⟩
    refine ⟨?_, ?_⟩
    · cases op with
      | settle e => trivial
      | updateStatus orderId status =>
        intro row hrow
        simpa [hrow] using hharmless
      | markCanceled orderIds => cases hharmless
    · intro db' hstep
      rw [hstep] at hrest
      exact ih hrest

theorem late_writes_release : ∃ db,
    run (interleave .exact) pendingSell lateWrites = some db ∧
    run (step .exact) pendingSell (settledEvents lateWrites) = some db ∧
    db.balances (10, 1) = some ⟨5, 0⟩ := by
  have hview : (run (interleave .exact) pendingSell lateWrites).map (·.balances (10, 1)) =
      some (some ⟨5, 0⟩) := by decide +kernel
  rcases Option.map_eq_some_iff.mp hview with ⟨db, hrun, hbalance⟩
  refine ⟨db, hrun, ?_, hbalance⟩
  have hwrites : Undisturbing .exact pendingSell lateWrites :=
    undisturbing_of_check (by decide +kernel)
  have hfresh : ∀ trade ∈ pendingSell.trades,
      trade.engineSeq ∉ (settledEvents lateWrites).map (·.seq) := by
    simp [pendingSell, Db.openingTables]
  rw [← writes_undisturbing .exact pendingSell (by decide) hfresh hwrites]
  exact hrun

end CryptoCex.Settlement
