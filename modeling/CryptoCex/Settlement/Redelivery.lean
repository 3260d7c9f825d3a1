import CryptoCex.Lib.Machine
import CryptoCex.Settlement.Effects

/-!
# Redelivered events

Settling an event leaves a mark that makes settling it again a no-op: the row of an accepted
order, the trade with the number of a fill, the status of a canceled order. The first two
stay forever. The third would be overwritten by a fill of the order, so that the result
below needs that no fill of an order follows its cancel.
-/

namespace CryptoCex.Settlement

open CryptoCex.Core (Uuid)
open Db (Tables)
open Machine (run)
open Proto (SequencedEngineEvent)

variable {arith : Arithmetic} {db db' : Tables} {e e' : SequencedEngineEvent}

/-- The mark an event leaves. -/
def Marked (arith : Arithmetic) (db : Tables) (e : SequencedEngineEvent) : Prop :=
  match e.event with
  | .orderAccepted order =>
    (∃ market, db.markets order.symbol = some market) ∧
      (∃ new, Tables.checkedRow arith.store (acceptedRow order) .new = .ok new) ∧
      ∃ row, db.orders.find? order.id = some row
  | .fill _ => ∃ trade ∈ db.trades, trade.engineSeq = e.seq
  | .orderCanceled orderId _ =>
    ∃ order, order.id = orderId ∧ Fetches db order ∧ terminal order.row.status = true
  | _ => True

/-- An event whose mark is there changes nothing. -/
theorem Marked.settles (h : Marked arith db e) : Settles arith e.seq db e.event db := by
  unfold Marked at h
  split at h
  · -- an accepted order: its row is there
    next order hevent =>
    rcases h with ⟨⟨market, hmarket⟩, ⟨new, hchecks⟩, row, hrow⟩
    rw [hevent]
    exact .known hmarket hchecks hrow
  · -- a fill: its trade is there
    next f hevent =>
    rw [hevent]
    exact .traded h
  · -- a cancellation: the order is in a terminal status
    next orderId reason hevent =>
    rcases h with ⟨order, hid, hfetch, hterminal⟩
    rw [hevent]
    exact .closed hid hfetch hterminal
  · next haccepted hfill hcanceled =>
    rcases e with ⟨seq, event⟩
    cases event with
    | orderAccepted order => exact absurd rfl (haccepted order)
    | fill f => exact absurd rfl (hfill f)
    | orderCanceled orderId reason => exact absurd rfl (hcanceled orderId reason)
    | orderRested => exact .rested
    | bookDelta => exact .delta
    | marketStatus => exact .status

/-- Settling an event leaves its mark. -/
theorem Settles.marked (h : Settles arith e.seq db e.event db') : Marked arith db' e := by
  rcases e with ⟨seq, event⟩
  cases h with
  | known hmarket hchecks hrow => exact ⟨⟨_, hmarket⟩, ⟨_, hchecks⟩, _, hrow⟩
  | accepted hmarket hchecks hnew hobligation hledger =>
    have hkeeps := keepsRest_of_applyLedgers hledger
    refine ⟨⟨_, hkeeps.markets ▸ hmarket⟩, ⟨_, hchecks⟩, ?_⟩
    rw [hkeeps.orders, OrdMap.find?_insert, if_pos rfl]
    exact ⟨_, rfl⟩
  | traded htraded => exact htraded
  | @filled fill a price quantity _ _ _ _ _ _ _ hledger =>
    refine ⟨tradeRow seq fill a.taker.row.market price quantity, ?_, rfl⟩
    rw [(keepsRest_of_applyLedgers hledger).trades, List.mem_append]
    exact .inr List.mem_cons_self
  | closed hid hfetch hterminal => exact ⟨_, hid, hfetch, hterminal⟩
  | @canceled orderId _ order _ _ hid hfetch _ _ hledger =>
    refine ⟨⟨orderId, { order.row with status := .canceled }, order.market⟩, rfl, ⟨?_, ?_⟩, rfl⟩
    · exact OrdMap.find?_insert .. |>.trans (if_pos rfl)
    · exact (keepsRest_of_applyLedgers hledger).markets ▸ hfetch.market
  | rested => trivial
  | delta => trivial
  | status => trivial

/-- The second event is not a fill of an order that the first one cancels. -/
def NotFilledAfter (e e' : SequencedEngineEvent) : Prop :=
  ∀ orderId reason, e.event = .orderCanceled orderId reason → ¬ FillOf orderId e'.event

/-- Later events leave the mark. -/
theorem Marked.step (h : Marked arith db e) (hafter : NotFilledAfter e e')
    (hsettles : Settles arith e'.seq db e'.event db') : Marked arith db' e := by
  unfold Marked at h ⊢
  split at h
  · next order hevent =>
    rcases h with ⟨hmarket, hchecks, row, hrow⟩
    rcases hsettles.row hrow with ⟨row', hrow', _⟩
    exact ⟨hsettles.markets ▸ hmarket, hchecks, row', hrow'⟩
  · next f hevent =>
    rcases h with ⟨trade, htrade, hseq⟩
    rcases hsettles.trades with ⟨new, hnew⟩
    exact ⟨trade, hnew ▸ List.mem_append_left new htrade, hseq⟩
  · next orderId reason hevent =>
    rcases h with ⟨order, rfl, hfetch, hterminal⟩
    rcases hsettles.row hfetch.row with ⟨row', hrow', hmarket, hstatus⟩
    refine ⟨⟨order.id, row', order.market⟩, rfl, ⟨hrow', ?_⟩, ?_⟩
    · rw [hsettles.markets, hmarket]
      exact hfetch.market
    · -- only a fill would take the order out of its terminal status
      rcases hstatus with hsame | hcanceled | hfill
      · exact hsame ▸ hterminal
      · exact hcanceled ▸ rfl
      · exact absurd hfill (hafter _ _ hevent)
  · trivial

/-! ## Runs -/

/-- `l'` is the list `l` with events applied again, any number of times and anywhere after
they were applied; `past` are the events applied before. -/
inductive Redelivers : List SequencedEngineEvent → List SequencedEngineEvent →
    List SequencedEngineEvent → Prop
  | nil (past : List SequencedEngineEvent) : Redelivers past [] []
  | next {past l l' : List SequencedEngineEvent} {e : SequencedEngineEvent}
      (h : Redelivers (e :: past) l l') : Redelivers past (e :: l) (e :: l')
  | again {past l l' : List SequencedEngineEvent} {e : SequencedEngineEvent} (hpast : e ∈ past)
      (h : Redelivers past l l') : Redelivers past l (e :: l')

/-- Deliveries that repeat marked events come to the same tables. -/
theorem run_of_redelivers {past l l' : List SequencedEngineEvent} (h : Redelivers past l l')
    (hmarked : ∀ e ∈ past, Marked arith db e)
    (hpast : ∀ e ∈ past, ∀ e' ∈ l, NotFilledAfter e e') (hl : l.Pairwise NotFilledAfter) :
    run (step arith) db l' = run (step arith) db l := by
  induction h generalizing db with
  | nil => rfl
  -- an event that is delivered for the first time leaves its mark
  | @next past l l' e _ ih =>
    rw [List.pairwise_cons] at hl
    simp only [run]
    cases hstep : step arith db e with
    | none => rfl
    | some mid =>
      have hsettles := step_eq_some.mp hstep
      refine ih ?_ ?_ hl.2
      · intro e' he'
        rcases List.mem_cons.mp he' with rfl | he'
        · exact hsettles.marked
        · exact (hmarked e' he').step (hpast e' he' e List.mem_cons_self) hsettles
      · intro e' he' e'' he''
        rcases List.mem_cons.mp he' with rfl | he'
        · exact hl.1 e'' he''
        · exact hpast e' he' e'' (List.mem_cons_of_mem _ he'')
  -- a repeated one changes nothing
  | @again past l l' e he _ ih =>
    simp only [run]
    rw [step_eq_some.mpr (hmarked e he).settles]
    exact ih hmarked hpast hl

/-- Settling is idempotent under redelivery: with or without the repeated events, the run
ends in the same tables, or stops at the same event. -/
theorem redelivery_idempotent (arith : Arithmetic) (db : Tables)
    {l l' : List SequencedEngineEvent} (hl : l.Pairwise NotFilledAfter)
    (h : Redelivers [] l l') : run (step arith) db l' = run (step arith) db l :=
  run_of_redelivers h (fun _ he => absurd he List.not_mem_nil)
    (fun _ he => absurd he List.not_mem_nil) hl

/-- The order is accepted and canceled; then both events come again. -/
theorem cancel_redelivered :
    run (step .exact) (Db.openingTables [((10, 1), ⟨5, 0⟩)])
        [⟨1, .orderAccepted (limitOrder 1 10 .sell 100 1)⟩,
          ⟨1, .orderAccepted (limitOrder 1 10 .sell 100 1)⟩,
          ⟨2, .orderCanceled 1 .adminCancel⟩, ⟨2, .orderCanceled 1 .adminCancel⟩,
          ⟨1, .orderAccepted (limitOrder 1 10 .sell 100 1)⟩] =
      run (step .exact) (Db.openingTables [((10, 1), ⟨5, 0⟩)])
        [⟨1, .orderAccepted (limitOrder 1 10 .sell 100 1)⟩, ⟨2, .orderCanceled 1 .adminCancel⟩] ∧
    (run (step .exact) (Db.openingTables [((10, 1), ⟨5, 0⟩)])
        [⟨1, .orderAccepted (limitOrder 1 10 .sell 100 1)⟩, ⟨2, .orderCanceled 1 .adminCancel⟩]).map
          (fun db => (db.balances (10, 1), db.ledgerEntries.length)) = some (some ⟨5, 0⟩, 2) := by
  refine ⟨redelivery_idempotent .exact _ ?_ ?_, by decide +kernel⟩
  · simp [NotFilledAfter, FillOf]
  · exact .next (.again (by simp) (.next (.again (by simp) (.again (by simp) (.nil _)))))

end CryptoCex.Settlement
