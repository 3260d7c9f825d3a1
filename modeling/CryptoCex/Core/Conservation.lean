import CryptoCex.Core.Frame
import Mathlib.Algebra.BigOperators.Group.List.Basic
import Mathlib.Algebra.Order.Group.Int

/-!
# Quantity conservation of one pass

Every unit a pass takes off the taker or off an order of the book is accounted
for. Fills are in the events of the pass. What Decrement self-trade prevention
and the cancels take is not in any event, so it is read off the states the loop
passes: `MatchState.ledger` lists, with the code's own branches, what the turn at
a state takes without a fill, and `MatchState.ledgerAfter` what follows the loop.

* the taker: what it came with is its fills, its decrements and its remainder;
* a maker: what it lost is its fills, its decrements and what a cancel removed;
* a decrement takes the same amount from both, as it is one entry.
-/

namespace CryptoCex.Core

open Loop OrderBook

/-! ## Sums -/

/-- The quantity of the fills with property `p`. -/
def fillSum (p : Fill → Bool) (events : List EngineEvent) : Decimal :=
  (events.map fun e => match e with
    | .fill f => if p f then f.quantity else 0
    | _ => 0).sum

/-- What a pass takes without a fill. -/
inductive LedgerEntry where
  /-- Decrement self-trade prevention took `amount` from the maker and the taker. -/
  | decrement (makerId : Uuid) (amount : Decimal)
  /-- A cancel removed the order when it had `amount` left. -/
  | cancel (orderId : Uuid) (amount : Decimal)
deriving DecidableEq, Repr

/-- All that was decremented. -/
def decrementTotal (ledger : List LedgerEntry) : Decimal :=
  (ledger.map fun e => match e with
    | .decrement _ amount => amount
    | .cancel _ _ => 0).sum

/-- What was decremented from one maker. -/
def decrementOf (id : Uuid) (ledger : List LedgerEntry) : Decimal :=
  (ledger.map fun e => match e with
    | .decrement makerId amount => if makerId = id then amount else 0
    | .cancel _ _ => 0).sum

/-- What cancels removed of one order. -/
def cancelOf (id : Uuid) (ledger : List LedgerEntry) : Decimal :=
  (ledger.map fun e => match e with
    | .decrement _ _ => 0
    | .cancel orderId amount => if orderId = id then amount else 0).sum

@[simp] theorem fillSum_nil (p : Fill → Bool) : fillSum p [] = 0 := rfl

/-- Fills of two logs add up. -/
@[simp] theorem fillSum_append (p : Fill → Bool) (events events' : List EngineEvent) :
    fillSum p (events ++ events') = fillSum p events + fillSum p events' := by
  simp [fillSum]

@[simp] theorem fillSum_fill (p : Fill → Bool) (f : Fill) :
    fillSum p [.fill f] = if p f then f.quantity else 0 := by
  simp [fillSum]

@[simp] theorem fillSum_cancelled (p : Fill → Bool) (id : Uuid) (reason : CancelReason)
    (events : List EngineEvent) :
    fillSum p (.cancelled id reason :: events) = fillSum p events := by
  simp [fillSum]

@[simp] theorem fillSum_rested (p : Fill → Bool) (id : Uuid) (r : Decimal) :
    fillSum p [.rested id r] = 0 := by
  simp [fillSum]

/-- Without fills there is nothing to add. -/
theorem fillSum_eq_zero {events : List EngineEvent} (h : ∀ f, EngineEvent.fill f ∉ events)
    (p : Fill → Bool) : fillSum p events = 0 := by
  induction events with
  | nil => rfl
  | cons e events ih =>
    have hrest := ih fun f hf => h f (List.mem_cons_of_mem _ hf)
    rw [← List.singleton_append, fillSum_append, hrest, add_zero]
    cases e with
    | fill f => exact absurd List.mem_cons_self (h f)
    | rested => rfl
    | cancelled => rfl
    | stopTriggered => rfl

@[simp] theorem decrementTotal_append (l l' : List LedgerEntry) :
    decrementTotal (l ++ l') = decrementTotal l + decrementTotal l' := by
  simp [decrementTotal]

@[simp] theorem decrementOf_append (id : Uuid) (l l' : List LedgerEntry) :
    decrementOf id (l ++ l') = decrementOf id l + decrementOf id l' := by
  simp [decrementOf]

@[simp] theorem cancelOf_append (id : Uuid) (l l' : List LedgerEntry) :
    cancelOf id (l ++ l') = cancelOf id l + cancelOf id l' := by
  simp [cancelOf]

/-- What is left of the orders with an id. -/
def remIn (M : Multiset Order) (id : Uuid) : Decimal :=
  ((M.filter (·.id = id)).map (·.remaining)).sum

/-- What is left of an order of the book; nothing when it is gone. -/
def OrderBook.remainingOf (b : OrderBook) (id : Uuid) : Decimal :=
  ((b.live.filter (·.id = id)).map (·.remaining)).sum

/-- What is left of an order is the same in the book and in its pool. -/
theorem remainingOf_eq (b : OrderBook) (id : Uuid) : b.remainingOf id = remIn b.pool id := by
  rw [remIn, pool_eq_coe_live, Multiset.filter_coe, Multiset.map_coe, Multiset.sum_coe]
  rfl

@[simp] theorem remIn_cons (o : Order) (M : Multiset Order) (id : Uuid) :
    remIn (o ::ₘ M) id = (if o.id = id then o.remaining else 0) + remIn M id := by
  unfold remIn
  split_ifs with h
  · rw [Multiset.filter_cons_of_pos (p := fun x => x.id = id) M h, Multiset.map_cons,
      Multiset.sum_cons]
  · rw [Multiset.filter_cons_of_neg (p := fun x => x.id = id) M h, zero_add]

@[simp] theorem remIn_add (M N : Multiset Order) (id : Uuid) :
    remIn (M + N) id = remIn M id + remIn N id := by
  simp [remIn, Multiset.filter_add]

/-- Nothing is left of an order that is not there. -/
theorem remIn_eq_zero {M : Multiset Order} {id : Uuid} (h : id ∉ M.map (·.id)) :
    remIn M id = 0 := by
  have hnone : M.filter (·.id = id) = 0 := by
    refine Multiset.filter_eq_nil.mpr ?_
    intro o ho hid
    exact h (Multiset.mem_map.mpr ⟨o, ho, hid⟩)
  rw [remIn, hnone]
  rfl

/-- The remainder of the one order with an id. -/
theorem remIn_of_mem {M : Multiset Order} {o : Order} (hunique : (M.map (·.id)).Nodup)
    (ho : o ∈ M) : remIn M o.id = o.remaining := by
  rcases Multiset.exists_cons_of_mem ho with ⟨N, rfl⟩
  rw [Multiset.map_cons, Multiset.nodup_cons] at hunique
  rw [remIn_cons, if_pos rfl, remIn_eq_zero hunique.1, add_zero]

/-! ## The ledger -/

/-- The OCO cancel of a terminal order removes what is left of its sibling. -/
def OrderBook.ocoLedger (b : OrderBook) (id : Uuid) : List LedgerEntry :=
  match b.ocoLinks.find? id with
  | none => []
  | some linkedId =>
    if linkedId ∈ b.live.map (·.id) then [.cancel linkedId (b.remainingOf linkedId)] else []

/-- What self-trade prevention takes. -/
def stpLedger (taker : Order) (peeked : PeekedMaker) : List LedgerEntry :=
  match taker.stpMode with
  | .cancelTaker => []
  | .cancelMaker => [.cancel peeked.id peeked.remaining]
  | .decrement =>
    .decrement peeked.id (min taker.remaining peeked.remaining) ::
      if peeked.remaining ≤ taker.remaining then [.cancel peeked.id 0] else []

/-- What the turn of the matching loop at this state takes without a fill. -/
def MatchState.ledger (s : MatchState) : List LedgerEntry :=
  if 0 < s.taker.remaining then
    match s.book.bestOppositePrice s.taker.side with
    | none => []
    | some price =>
      if takerPriceSatisfied s.taker price then
        match s.book.peekFrontMaker s.taker.side.opposite price with
        | none => []
        | some peeked =>
          if s.taker.userId = peeked.userId then stpLedger s.taker peeked
          else
            let filled := s.book.applyFillToMaker s.taker.side.opposite price
              (min s.taker.remaining peeked.effectiveQty) peeked
            if filled.2 then filled.1.ocoLedger peeked.id else []
      else []
  else []

/-- What follows the loop takes without a fill. -/
def MatchState.ledgerAfter (s : MatchState) : MatchExit → List LedgerEntry
  | .takerConsumed => []
  | .exhausted =>
    let final := s.book.finalizeTaker s.taker s.hadFills
    if takerTerminal s.taker final.2 then final.1.ocoLedger s.taker.id else []

/-- What a whole pass takes without a fill. -/
def OrderBook.passLedger (fuel : ℕ) (b : OrderBook) (taker : Order) : List LedgerEntry :=
  (trace matchTurn fuel (b.enterLoop taker)).flatMap MatchState.ledger ++
    match loop matchTurn fuel (b.enterLoop taker) with
    | none => []
    | some (s, exit) => s.ledgerAfter exit

/-- A larger maker survives the decrement. -/
theorem stpLedger_of_lt {taker : Order} {peeked : PeekedMaker}
    (hmode : taker.stpMode = .decrement) (h : taker.remaining < peeked.remaining) :
    stpLedger taker peeked = [.decrement peeked.id taker.remaining] := by
  simp only [stpLedger, hmode, min_eq_left h.le, if_neg (not_le.mpr h)]

/-- A maker that is not larger is decremented to nothing and cancelled. -/
theorem stpLedger_of_ge {taker : Order} {peeked : PeekedMaker}
    (hmode : taker.stpMode = .decrement) (h : peeked.remaining ≤ taker.remaining) :
    stpLedger taker peeked = [.decrement peeked.id peeked.remaining, .cancel peeked.id 0] := by
  simp only [stpLedger, hmode, min_eq_right h, if_pos h]

variable {s : MatchState} {price : Decimal} {m : Order} {rest : List Order}

/-- The ledger of a turn of self-trade prevention. -/
theorem Meets.ledger_own (hm : Meets s price m rest) (hown : s.taker.userId = m.userId) :
    s.ledger = stpLedger s.taker (peekedOf m) := by
  have hpeek := peekFrontMaker_eq hm.level
  have hown' : s.taker.userId = (peekedOf m).userId := hown
  simp only [MatchState.ledger, if_pos hm.pos, hm.best, hm.acceptable, if_true, hpeek, if_pos hown']

/-- The ledger of a fill: the OCO sibling, if the maker is used up. -/
theorem Meets.ledger_fill (hm : Meets s price m rest) (hother : s.taker.userId ≠ m.userId) :
    s.ledger = if m.remaining = (fillOf s.taker m price).quantity then
      (s.book.dropFront s.taker.side.opposite price m rest).ocoLedger m.id else [] := by
  have hpeek := peekFrontMaker_eq hm.level
  have hother' : ¬ s.taker.userId = (peekedOf m).userId := hother
  have heff : (peekedOf m).effectiveQty = m.effectiveQty := rfl
  by_cases hwhole : m.remaining = (fillOf s.taker m price).quantity
  · have hz : m.remaining - min s.taker.remaining m.effectiveQty = 0 := Int.sub_eq_zero.mpr hwhole
    simp only [MatchState.ledger, if_pos hm.pos, hm.best, hm.acceptable, if_true, hpeek,
      if_neg hother', heff, applyFillToMaker_whole hm.level hz, if_pos hwhole]
    rfl
  · have hz : m.remaining - min s.taker.remaining m.effectiveQty ≠ 0 :=
      fun h => hwhole (Int.sub_eq_zero.mp h)
    simp only [MatchState.ledger, if_pos hm.pos, hm.best, hm.acceptable, if_true, hpeek,
      if_neg hother', heff, applyFillToMaker_part hm.level hz, if_neg hwhole, Bool.false_eq_true,
      if_false]

/-! ## One step -/

/-- What happened between the books `b` and `b'` is accounted for: `taker` came
with its remainder and has `left` now, the events hold the fills and the ledger
the rest. -/
structure Balanced (b : OrderBook) (taker : Order) (b' : OrderBook) (left : Decimal)
    (events : List EngineEvent) (ledger : List LedgerEntry) : Prop where
  taken : taker.remaining =
    fillSum (·.takerOrderId = taker.id) events + decrementTotal ledger + left
  orders : ∀ x, b.remainingOf x = b'.remainingOf x + fillSum (·.makerOrderId = x) events +
    decrementOf x ledger + cancelOf x ledger
  cancels : ∀ x, x ≠ taker.id →
    ((∃ reason, EngineEvent.cancelled x reason ∈ events) ↔ ∃ a, LedgerEntry.cancel x a ∈ ledger)

theorem Balanced.refl (b : OrderBook) (taker : Order) :
    Balanced b taker b taker.remaining [] [] where
  taken := by simp [decrementTotal]
  orders := by simp [decrementOf, cancelOf]
  cancels := by simp

/-- Steps compose. -/
theorem Balanced.trans {b b' b'' : OrderBook} {taker taker' : Order} {left : Decimal}
    {events events' : List EngineEvent} {ledger ledger' : List LedgerEntry}
    (h : Balanced b taker b' taker'.remaining events ledger)
    (h' : Balanced b' taker' b'' left events' ledger') (hid : taker'.id = taker.id) :
    Balanced b taker b'' left (events ++ events') (ledger ++ ledger') where
  taken := by
    have h₁ := h.taken
    have h₂ := h'.taken
    rw [hid] at h₂
    simp only [fillSum_append, decrementTotal_append]
    lia
  orders := by
    intro x
    have h₁ := h.orders x
    have h₂ := h'.orders x
    simp only [fillSum_append, decrementOf_append, cancelOf_append]
    lia
  cancels := by
    intro x hx
    have h₁ := h.cancels x hx
    have h₂ := h'.cancels x (by rw [hid]; exact hx)
    simp only [List.mem_append, exists_or]
    exact or_congr h₁ h₂

/-- A step that only removes the order `o`, by a cancel. -/
theorem cancels_singleton (x : Uuid) (id : Uuid) (reason : CancelReason) (a : Decimal) :
    (∃ r, EngineEvent.cancelled x r ∈ [EngineEvent.cancelled id reason]) ↔
      ∃ a', LedgerEntry.cancel x a' ∈ [LedgerEntry.cancel id a] := by
  simp

variable {b b' : OrderBook} {taker : Order}

/-- The OCO cancel of a terminal order is accounted for. -/
theorem OrderBook.Consistent.balanced_oco (hb : b.Consistent) (taker : Order) (id : Uuid) :
    Balanced b taker (b.maybeCancelOco id).1 taker.remaining (b.maybeCancelOco id).2
      (b.ocoLedger id) := by
  have hfills : ∀ p, fillSum p (b.maybeCancelOco id).2 = 0 :=
    fillSum_eq_zero (fill_notMem_oco b id)
  rcases hb.maybeCancelOco id with ⟨hlink, heq⟩ | ⟨linkedId, hlink, hcancel⟩
  · have hledger : b.ocoLedger id = [] := by simp only [ocoLedger, hlink]
    rw [heq, hledger]
    exact Balanced.refl b taker
  · have hledger : b.ocoLedger id = if linkedId ∈ b.live.map (·.id) then
        [.cancel linkedId (b.remainingOf linkedId)] else [] := by
      simp only [ocoLedger, hlink]
    have hmem : linkedId ∈ b.live.map (·.id) ↔ linkedId ∈ b.pool.map (·.id) := by
      rw [pool_eq_coe_live, Multiset.map_coe, Multiset.mem_coe]
    -- the sibling is the one order with its id
    have hgone : ∀ (o : Order) (M : Multiset Order), b.pool = o ::ₘ M → o.id = linkedId →
        b.ocoLedger id = [.cancel linkedId o.remaining] ∧
          ∀ x, b.remainingOf x = remIn M x + cancelOf x [.cancel linkedId o.remaining] := by
      intro o M hpool hid
      have ho : o ∈ b.pool := by
        rw [hpool]
        exact Multiset.mem_cons_self _ _
      have hrem : b.remainingOf linkedId = o.remaining := by
        rw [remainingOf_eq, ← hid]
        exact remIn_of_mem hb.unique ho
      have hlive : linkedId ∈ b.live.map (·.id) :=
        hmem.mpr (Multiset.mem_map.mpr ⟨o, ho, hid⟩)
      refine ⟨by rw [hledger, if_pos hlive, hrem], ?_⟩
      intro x
      rw [remainingOf_eq, hpool, remIn_cons, hid]
      simp [cancelOf, add_comm]
    generalize b.maybeCancelOco id = r at hcancel hfills ⊢
    cases hcancel with
    | none hid =>
      have hlive : linkedId ∉ b.live.map (·.id) := by
        rw [hmem]
        intro h
        rcases Multiset.mem_map.mp h with ⟨o, ho, hoid⟩
        exact hid o ho hoid
      rw [hledger, if_neg hlive]
      have hrefl := Balanced.refl b taker
      exact ⟨hrefl.taken, hrefl.orders, hrefl.cancels⟩
    | resting b' o hid _ hresting hstops =>
      have hpool : b.pool = o ::ₘ b'.pool := by
        have hstops' : b'.stopPool = b.stopPool := by rw [stopPool, hstops]; rfl
        rw [pool, pool, hstops', ← Multiset.cons_add, ← hresting]
        rfl
      rcases hgone o b'.pool hpool hid with ⟨heq, hrem⟩
      refine ⟨by rw [hfills, heq]; simp [decrementTotal], ?_, ?_⟩
      · intro x
        rw [hfills, heq, hrem, remainingOf_eq]
        simp [decrementOf]
      · intro x _
        rw [heq]
        exact cancels_singleton x linkedId .oco o.remaining
    | stop b' o hid _ hresting hstops =>
      have hpool : b.pool = o ::ₘ b'.pool := by
        rw [pool, pool, hresting, ← Multiset.add_cons, ← hstops]
        rfl
      rcases hgone o b'.pool hpool hid with ⟨heq, hrem⟩
      refine ⟨by rw [hfills, heq]; simp [decrementTotal], ?_, ?_⟩
      · intro x
        rw [hfills, heq, hrem, remainingOf_eq]
        simp [decrementOf]
      · intro x _
        rw [heq]
        exact cancels_singleton x linkedId .oco o.remaining

/-- Taking the front order off a level. -/
theorem Meets.remainingOf_drop (hm : Meets s price m rest) (x : Uuid) :
    s.book.remainingOf x = (if m.id = x then m.remaining else 0) +
      (s.book.dropFront s.taker.side.opposite price m rest).remainingOf x := by
  rw [remainingOf_eq, pool_dropFront hm.level, remIn_cons, remainingOf_eq]

/-- Shrinking the front order of a level. -/
theorem Meets.remainingOf_shrink (hm : Meets s price m rest) {q : List Order} {r : Decimal}
    (hq : q.Perm (m.withRemaining r :: rest)) (x : Uuid) :
    s.book.remainingOf x = (if m.id = x then m.remaining - r else 0) +
      (s.book.withQueue s.taker.side.opposite price q).remainingOf x := by
  rcases pool_shrinkFront hm.level hq with ⟨others, hold, hnew⟩
  rw [remainingOf_eq, remainingOf_eq, hold, hnew, remIn_cons, remIn_cons,
    Order.id_withRemaining, Order.remaining_withRemaining]
  split_ifs <;> lia

/-- Every turn is accounted for. -/
theorem TurnSpec.balanced {t : Turn MatchState (MatchState × MatchExit)} (h : TurnSpec s t)
    (hs : LoopSound taker s) :
    ∃ new, (stateAfter t).events = s.events ++ new ∧
      Balanced s.book s.taker (stateAfter t).book (stateAfter t).taker.remaining new s.ledger := by
  -- each case names what the ledger gains, and then balances the taker, every order and the cancels
  cases h with
  | exhausted hex =>
    -- no order is met, so nothing is booked
    have hledger : s.ledger = [] := by
      unfold MatchState.ledger
      rcases hex with hle | hbest
      · rw [if_neg (not_lt.mpr hle)]
      · split_ifs with hpos
        · cases hopp : s.book.bestOppositePrice s.taker.side with
          | none => rfl
          | some price => simp only [hbest price hopp, Bool.false_eq_true, if_false]
        · rfl
    rw [hledger]
    exact ⟨[], (List.append_nil _).symm, Balanced.refl _ _⟩
  | cancelTaker hm hown hmode =>
    -- what is left of the taker is cancelled as it is
    have hledger : s.ledger = [] := by
      rw [hm.ledger_own hown]
      simp only [stpLedger, hmode]
    rw [hledger]
    refine ⟨_, rfl, ?_, ?_, ?_⟩
    · simp [stateAfter, decrementTotal]
    · intro x
      simp [stateAfter, decrementOf, cancelOf]
    · intro x hx
      simp [hx]
  | @cancelMaker price m rest hm hown hmode =>
    -- the maker goes with all it had left, and the taker keeps its own
    have hledger : s.ledger = [.cancel m.id m.remaining] := by
      rw [hm.ledger_own hown]
      simp only [stpLedger, hmode, peekedOf]
    rw [hledger]
    refine ⟨_, rfl, ?_, ?_, ?_⟩
    · simp [stateAfter, decrementTotal]
    · intro x
      rw [hm.remainingOf_drop x]
      simp [stateAfter, decrementOf, cancelOf, add_comm]
    · intro x _
      exact cancels_singleton x m.id _ _
  | @decrementTaker price m rest hm hown hmode hlt =>
    -- both lose what the taker had left, and the maker stays with less
    have hledger : s.ledger = [.decrement m.id s.taker.remaining] :=
      (hm.ledger_own hown).trans (stpLedger_of_lt hmode hlt)
    rw [hledger]
    refine ⟨_, rfl, ?_, ?_, ?_⟩
    · simp [stateAfter, decrementTotal]
    · intro x
      rw [hm.remainingOf_shrink (List.Perm.refl
        (m.withRemaining (m.remaining - s.taker.remaining) :: rest)) x]
      simp only [stateAfter, fillSum_cancelled, fillSum_nil, decrementOf, cancelOf, List.map_cons,
        List.map_nil, List.sum_cons, List.sum_nil]
      split_ifs <;> lia
    · intro x hx
      simp [hx]
  | @decrementMaker price m rest hm hown hmode hgt =>
    -- both lose what the maker had left: its cancel removes nothing more
    have hledger : s.ledger = [.decrement m.id m.remaining, .cancel m.id 0] :=
      (hm.ledger_own hown).trans (stpLedger_of_ge hmode hgt.le)
    rw [hledger]
    refine ⟨_, rfl, ?_, ?_, ?_⟩
    · simp [stateAfter, decrementTotal]
    · intro x
      rw [hm.remainingOf_drop x]
      simp [stateAfter, decrementOf, cancelOf, add_comm]
    · intro x _
      simp
  | @decrementBoth price m rest hm hown hmode heq =>
    -- the same, and nothing is left of the taker either
    have hledger : s.ledger = [.decrement m.id m.remaining, .cancel m.id 0] :=
      (hm.ledger_own hown).trans (stpLedger_of_ge hmode heq.ge)
    rw [hledger]
    refine ⟨_, rfl, ?_, ?_, ?_⟩
    · simp [stateAfter, decrementTotal, heq]
    · intro x
      rw [hm.remainingOf_drop x]
      simp [stateAfter, decrementOf, cancelOf, add_comm]
    · intro x hx
      simp [hx]
  | @fillPart price m rest hm hother hpart =>
    -- the fill accounts for both sides
    have hledger : s.ledger = [] := by
      rw [hm.ledger_fill hother, if_neg hpart]
    rw [hledger]
    refine ⟨_, rfl, ?_, ?_, ?_⟩
    · simp [stateAfter, decrementTotal, fillOf]
    · intro x
      rw [hm.remainingOf_shrink (levelAfterFill_perm m rest (fillOf s.taker m price).quantity) x]
      simp only [stateAfter, fillSum_fill, decrementOf, cancelOf, List.map_nil, List.sum_nil]
      by_cases hx : m.id = x
      · simp only [fillOf, hx, if_true, decide_true]
        lia
      · simp [fillOf, hx]
    · intro x _
      simp
  | @fillWhole price m rest hm hother hwhole =>
    -- the fill takes the maker off the book, and then its OCO sibling is cancelled
    have hledger : s.ledger =
        (s.book.dropFront s.taker.side.opposite price m rest).ocoLedger m.id := by
      rw [hm.ledger_fill hother, if_pos hwhole]
    have hfill : Balanced s.book s.taker (s.book.dropFront s.taker.side.opposite price m rest)
        (s.taker.withRemaining (s.taker.remaining - (fillOf s.taker m price).quantity)).remaining
        [.fill (fillOf s.taker m price)] [] := by
      refine ⟨?_, ?_, ?_⟩
      · simp [decrementTotal, fillOf]
      · intro x
        rw [hm.remainingOf_drop x]
        by_cases hx : m.id = x
        · simp only [decrementOf, cancelOf, fillSum_fill, List.map_nil, List.sum_nil, hx,
            if_true, hwhole]
          simp [fillOf, hx, add_comm]
        · simp [decrementOf, cancelOf, fillOf, hx]
      · intro x _
        simp
    have hoco := (hs.book.dropFront hm.level).balanced_oco
      (s.taker.withRemaining (s.taker.remaining - (fillOf s.taker m price).quantity)) m.id
    have hboth := hfill.trans hoco (Order.id_withRemaining ..)
    rw [hledger]
    exact ⟨_, List.append_assoc _ _ _, hboth⟩

/-! ## The loop and what follows it -/

/-- An OCO cancel decrements nothing. -/
theorem decrement_notMem_ocoLedger (b : OrderBook) (id x : Uuid) (a : Decimal) :
    LedgerEntry.decrement x a ∉ b.ocoLedger id := by
  unfold ocoLedger
  cases b.ocoLinks.find? id with
  | none => simp
  | some linkedId =>
    dsimp only
    split_ifs <;> simp

/-- The maker of a decrement, and what happens to it. -/
theorem TurnSpec.decrement_mem {t : Turn MatchState (MatchState × MatchExit)} (h : TurnSpec s t)
    {x : Uuid} {a : Decimal} (hx : LedgerEntry.decrement x a ∈ s.ledger) :
    (∃ price m rest, Meets s price m rest ∧ m.id = x) ∧
      ((∃ a', LedgerEntry.cancel x a' ∈ s.ledger) ∨
        ∃ s', t = .done (s', .takerConsumed) ∧ x ∈ s'.book.restingPool.map (·.id)) := by
  cases h with
  -- no turn, no entry
  | exhausted hex =>
    unfold MatchState.ledger at hx
    rcases hex with hle | hbest
    · rw [if_neg (not_lt.mpr hle)] at hx
      cases hx
    · split_ifs at hx with hpos
      · cases hopp : s.book.bestOppositePrice s.taker.side with
        | none =>
          rw [hopp] at hx
          cases hx
        | some price =>
          rw [hopp] at hx
          simp only [hbest price hopp, Bool.false_eq_true, if_false] at hx
          cases hx
      · cases hx
  -- the cancelling modes make no decrement
  | cancelTaker hm hown hmode =>
    rw [hm.ledger_own hown] at hx
    simp [stpLedger, hmode] at hx
  | cancelMaker hm hown hmode =>
    rw [hm.ledger_own hown] at hx
    simp [stpLedger, hmode] at hx
  -- the maker stays in front with less
  | @decrementTaker price m rest hm hown hmode hlt =>
    rw [(hm.ledger_own hown).trans (stpLedger_of_lt hmode hlt)] at hx
    have hid : m.id = x := by
      have := List.mem_singleton.mp hx
      simp only [LedgerEntry.decrement.injEq] at this
      exact this.1.symm
    refine ⟨⟨price, m, rest, hm, hid⟩, Or.inr ⟨_, rfl, ?_⟩⟩
    rcases restingPool_shrinkFront hm.level (List.Perm.refl
      (m.withRemaining (m.remaining - s.taker.remaining) :: rest)) with ⟨others, _, hnew⟩
    dsimp only
    rw [hnew, Multiset.map_cons, ← hid]
    exact Multiset.mem_cons_self _ _
  -- the maker is cancelled after its decrement
  | @decrementMaker price m rest hm hown hmode hgt =>
    rw [(hm.ledger_own hown).trans (stpLedger_of_ge hmode hgt.le)] at hx ⊢
    have hid : m.id = x := by
      simp only [List.mem_cons, LedgerEntry.decrement.injEq, reduceCtorEq, List.not_mem_nil,
        or_false] at hx
      exact hx.1.symm
    exact ⟨⟨price, m, rest, hm, hid⟩, Or.inl ⟨0, by simp [← hid, peekedOf]⟩⟩
  | @decrementBoth price m rest hm hown hmode heq =>
    rw [(hm.ledger_own hown).trans (stpLedger_of_ge hmode heq.ge)] at hx ⊢
    have hid : m.id = x := by
      simp only [List.mem_cons, LedgerEntry.decrement.injEq, reduceCtorEq, List.not_mem_nil,
        or_false] at hx
      exact hx.1.symm
    exact ⟨⟨price, m, rest, hm, hid⟩, Or.inl ⟨0, by simp [← hid, peekedOf]⟩⟩
  | fillPart hm hother hpart =>
    rw [hm.ledger_fill hother, if_neg hpart] at hx
    cases hx
  | fillWhole hm hother hwhole =>
    rw [hm.ledger_fill hother, if_pos hwhole] at hx
    exact absurd hx (decrement_notMem_ocoLedger _ _ _ _)

/-- What the ledger of the turns passed so far says. -/
structure LedgerSound (b : OrderBook) (taker : Order) (s : MatchState)
    (ledger : List LedgerEntry) : Prop where
  balanced : Balanced b taker s.book s.taker.remaining s.events ledger
  framed : s.toPass.Framed b.toPool taker
  makers : ∀ x a, LedgerEntry.decrement x a ∈ ledger →
    ∃ m ∈ b.restingPool, m.side = taker.side.opposite ∧ m.id = x

theorem ledgerSound_enterLoop (b : OrderBook) (taker : Order) :
    LedgerSound b taker (b.enterLoop taker) [] where
  balanced := Balanced.refl b taker
  framed := framed_enterLoop b taker
  makers := by
    intro x a h
    cases h

/-- A turn keeps the ledger sound. -/
theorem TurnSpec.ledgerSound {t : Turn MatchState (MatchState × MatchExit)} (h : TurnSpec s t)
    (hs : LoopSound taker s) {ledger : List LedgerEntry} (hl : LedgerSound b taker s ledger) :
    LedgerSound b taker (stateAfter t) (ledger ++ s.ledger) := by
  rcases h.balanced hs with ⟨new, hevents, hstep⟩
  have hframed := (h.refines hs.book).framed hs.pass hl.framed
  refine ⟨?_, ?_, ?_⟩
  · rw [hevents]
    exact hl.balanced.trans hstep hs.pass.id_eq
  · cases t with
    | next s' => exact hframed
    | done r => exact hframed
  · intro x a hx
    rcases List.mem_append.mp hx with hx | hx
    · exact hl.makers x a hx
    · rcases (h.decrement_mem hx).1 with ⟨price, m, rest, hm, hid⟩
      rcases hl.framed.faces hs.pass (hm.faces hs.book (restingPool_dropFront hm.level)) with
        ⟨m₀, hm₀, hid₀, hside, _⟩
      exact ⟨m₀, hm₀, hside, hid₀.trans hid⟩

/-- Every decrement leaves the maker on the book or comes with its cancel. -/
def DecrementsSettled (s : MatchState) (exit : MatchExit) (ledger : List LedgerEntry) : Prop :=
  ∀ x a, LedgerEntry.decrement x a ∈ ledger → (∃ a', LedgerEntry.cancel x a' ∈ ledger) ∨
    (exit = .takerConsumed ∧ x ∈ s.book.restingPool.map (·.id))

/-- The ledger of the whole loop is sound. -/
theorem matchLoop_ledger (h : Enters b taker) {fuel : ℕ} {exit : MatchExit}
    (hloop : loop matchTurn fuel (b.enterLoop taker) = some (s, exit)) :
    LedgerSound b taker s
        ((trace matchTurn fuel (b.enterLoop taker)).flatMap MatchState.ledger) ∧
      DecrementsSettled s exit
        ((trace matchTurn fuel (b.enterLoop taker)).flatMap MatchState.ledger) := by
  refine matchLoop_induct h
    (fun past s => LedgerSound b taker s (past.flatMap MatchState.ledger) ∧
      ∀ x a, LedgerEntry.decrement x a ∈ past.flatMap MatchState.ledger →
        ∃ a', LedgerEntry.cancel x a' ∈ past.flatMap MatchState.ledger)
    (fun past s exit => LedgerSound b taker s (past.flatMap MatchState.ledger) ∧
      DecrementsSettled s exit (past.flatMap MatchState.ledger)) ?_ ?_ ?_ hloop
  · exact ⟨ledgerSound_enterLoop b taker, fun x a hx => by cases hx⟩
  · -- a turn that goes on: what it decrements it cancels
    rintro past s s' _ hs ⟨hl, hsettled⟩ hspec
    have hflat : (past ++ [s]).flatMap MatchState.ledger =
        past.flatMap MatchState.ledger ++ s.ledger := by simp
    rw [hflat]
    refine ⟨hspec.ledgerSound hs hl, ?_⟩
    intro x a hx
    rcases List.mem_append.mp hx with hx | hx
    · rcases hsettled x a hx with ⟨a', ha'⟩
      exact ⟨a', List.mem_append_left _ ha'⟩
    · rcases (hspec.decrement_mem hx).2 with ⟨a', ha'⟩ | ⟨s'', hdone, _⟩
      · exact ⟨a', List.mem_append_right _ ha'⟩
      · cases hdone
  · -- the last turn may leave the taker decremented to zero, and that is cancelled after it
    rintro past s s' exit _ hs ⟨hl, hsettled⟩ hspec _
    have hflat : (past ++ [s]).flatMap MatchState.ledger =
        past.flatMap MatchState.ledger ++ s.ledger := by simp
    rw [hflat]
    refine ⟨hspec.ledgerSound hs hl, ?_⟩
    intro x a hx
    rcases List.mem_append.mp hx with hx | hx
    · rcases hsettled x a hx with ⟨a', ha'⟩
      exact Or.inl ⟨a', List.mem_append_left _ ha'⟩
    · rcases (hspec.decrement_mem hx).2 with ⟨a', ha'⟩ | ⟨s'', hdone, hmem⟩
      · exact Or.inl ⟨a', List.mem_append_right _ ha'⟩
      · cases hdone
        exact Or.inr ⟨rfl, hmem⟩

/-- Draining stops does not touch the other orders. -/
theorem remainingOf_drainAfter (b : OrderBook) (last : Option Decimal) {x : Uuid}
    (hx : x ∉ b.stopPool.map (·.id)) : (b.drainAfter last).1.remainingOf x = b.remainingOf x := by
  have hsplit := b.stopPool_drainAfter last
  have hzero : remIn (↑(b.hitAfter last)) x = 0 := by
    refine remIn_eq_zero ?_
    intro hmem
    refine hx ?_
    rw [hsplit, Multiset.map_add]
    exact Multiset.mem_add.mpr (Or.inl hmem)
  rw [remainingOf_eq, remainingOf_eq, pool, pool, restingPool_drainAfter, remIn_add, remIn_add]
  have hstops : remIn b.stopPool x = remIn (b.drainAfter last).1.stopPool x := by
    rw [hsplit, remIn_add, hzero, zero_add]
  rw [hstops]

/-- Resting an order does not touch the other orders. -/
theorem remainingOf_insertMaker (b : OrderBook) (o : Order) {x : Uuid} (hx : o.id ≠ x) :
    (b.insertMaker o).remainingOf x = b.remainingOf x := by
  cases hprice : o.price with
  | none => simp [insertMaker, hprice]
  | some price =>
    rw [remainingOf_eq, remainingOf_eq, pool, restingPool_insertMaker hprice,
      stopPool_insertMaker, Multiset.cons_add, remIn_cons, if_neg hx, zero_add, pool]

/-- What follows the loop, from its book `b` to `b'`, takes from orders that are
neither stops nor the taker only by cancels. -/
structure EndBalanced (taker : Order) (b b' : OrderBook) (new : List EngineEvent)
    (ledger : List LedgerEntry) : Prop where
  fills : ∀ p, fillSum p new = 0
  orders : ∀ x, x ≠ taker.id → x ∉ b.stopPool.map (·.id) →
    b.remainingOf x = b'.remainingOf x + cancelOf x ledger
  cancels : ∀ x, x ≠ taker.id → ((∃ reason, EngineEvent.cancelled x reason ∈ new) ↔
    ∃ a, LedgerEntry.cancel x a ∈ ledger)
  noDecrement : ∀ x a, LedgerEntry.decrement x a ∉ ledger

/-- Draining stops after the run keeps the balance. -/
theorem EndBalanced.drain {new : List EngineEvent} {ledger : List LedgerEntry}
    (h : EndBalanced taker b b' new ledger) (hstops : b'.stopPool ≤ b.stopPool)
    (last : Option Decimal) : EndBalanced taker b (b'.drainAfter last).1 new ledger where
  fills := h.fills
  orders := by
    intro x hx hstop
    have hstop' : x ∉ b'.stopPool.map (·.id) := fun hmem =>
      hstop (Multiset.mem_of_le (Multiset.map_le_map hstops) hmem)
    rw [remainingOf_drainAfter b' last hstop']
    exact h.orders x hx hstop
  cancels := h.cancels
  noDecrement := h.noDecrement

/-- The OCO cancel of a terminal taker, after events that name the taker only. -/
theorem endBalanced_oco (hs : LoopSound taker s) {events : List EngineEvent}
    (hfills : ∀ p, fillSum p events = 0)
    (hnames : ∀ x, x ≠ taker.id → ∀ reason, EngineEvent.cancelled x reason ∉ events) :
    EndBalanced taker s.book (s.book.maybeCancelOco s.taker.id).1
      (events ++ (s.book.maybeCancelOco s.taker.id).2) (s.book.ocoLedger s.taker.id) := by
  have hbal := hs.book.balanced_oco s.taker s.taker.id
  have hid : s.taker.id = taker.id := hs.pass.id_eq
  have hnofill : ∀ p, fillSum p (s.book.maybeCancelOco s.taker.id).2 = 0 :=
    fillSum_eq_zero (fill_notMem_oco s.book s.taker.id)
  have hnodec : ∀ x, decrementOf x (s.book.ocoLedger s.taker.id) = 0 := by
    intro x
    unfold ocoLedger
    cases s.book.ocoLinks.find? s.taker.id with
    | none => rfl
    | some linkedId =>
      dsimp only
      split_ifs <;> simp [decrementOf]
  -- fills, remaining quantities, and who is told of a cancel
  refine ⟨?_, ?_, ?_, decrement_notMem_ocoLedger _ _⟩
  · intro p
    rw [fillSum_append, hfills, hnofill, add_zero]
  · intro x _ _
    have h := hbal.orders x
    rw [hnofill, hnodec] at h
    lia
  · intro x hx
    have h := hbal.cancels x (by rw [hid]; exact hx)
    rw [← h]
    constructor
    · rintro ⟨reason, hmem⟩
      rcases List.mem_append.mp hmem with hmem | hmem
      · exact absurd hmem (hnames x hx reason)
      · exact ⟨reason, hmem⟩
    · rintro ⟨reason, hmem⟩
      exact ⟨reason, List.mem_append_right _ hmem⟩

/-- What follows the loop is accounted for. -/
theorem afterLoop_balanced (hs : LoopSound taker s) (exit : MatchExit) :
    ∃ new, (afterLoop s exit).2.1 = s.events ++ new ∧
      EndBalanced taker s.book (afterLoop s exit).1 new (s.ledgerAfter exit) := by
  have hid : s.taker.id = taker.id := hs.pass.id_eq
  cases exit with
  -- nothing follows but the stops
  | takerConsumed =>
    have hnone : EndBalanced taker s.book s.book [] [] := by
      refine ⟨fun _ => rfl, ?_, ?_, ?_⟩ <;> simp [cancelOf]
    exact ⟨[], (List.append_nil _).symm, hnone.drain (le_refl _) _⟩
  | exhausted =>
    unfold afterLoop MatchState.ledgerAfter
    have hspec := s.book.finalizeTaker_spec s.taker s.hadFills
    generalize s.book.finalizeTaker s.taker s.hadFills = final at hspec ⊢
    have hstops := (within_maybeCancelOco s.book s.taker.id).stops
    cases hspec with
    -- the taker is filled, and its sibling is cancelled
    | filled hzero =>
      have hterm : takerTerminal s.taker [] = true := by simp [takerTerminal, hzero]
      simp only [hterm, if_true]
      refine ⟨_, List.append_assoc _ _ _, EndBalanced.drain ?_ hstops _⟩
      exact endBalanced_oco hs (fun _ => rfl) (by simp)
    -- the rest of the taker is cancelled, and its sibling with it
    | cancelled _ reason =>
      simp only [takerTerminal_cancelled, if_true]
      refine ⟨_, List.append_assoc _ _ _, EndBalanced.drain ?_ hstops _⟩
      refine endBalanced_oco hs (by simp) ?_
      intro x hx r hmem
      have heq := List.mem_singleton.mp hmem
      cases heq
      exact hx hid
    -- the rest goes into the book
    | rested hne =>
      have hterm : takerTerminal s.taker [.rested s.taker.id s.taker.remaining] = false := by
        simp [takerTerminal, hne]
      simp only [hterm, Bool.false_eq_true, if_false, List.append_nil]
      refine ⟨_, rfl, EndBalanced.drain ⟨by simp, ?_, by simp, by simp⟩
        (stopPool_insertMaker _ _).le _⟩
      intro x hx _
      rw [remainingOf_insertMaker s.book s.taker (by rw [hid]; exact hx.symm)]
      simp [cancelOf]

/-! ## The whole pass -/

/-- The order was cancelled as the OCO sibling of an order that became terminal
in the pass. -/
def OcoStruck (b : OrderBook) (taker : Order) (r : OrderBook × List EngineEvent × List Order)
    (o : Order) : Prop :=
  EngineEvent.cancelled o.id .oco ∈ r.2.1 ∧
    ∃ y, b.ocoLinks.find? y = some o.id ∧ (y = taker.id ∨ y ∈ b.live.map (·.id)) ∧
      y ∉ r.1.live.map (·.id)

/-- Conservation of a pass of `taker` from book `b` that ended with `left` of the
taker and the last trade at `last`. -/
structure Conserves (b : OrderBook) (taker : Order) (left : Decimal) (last : Option Decimal)
    (r : OrderBook × List EngineEvent × List Order) (ledger : List LedgerEntry) : Prop where
  /-- What the taker came with was filled, decremented or is left. -/
  taken : taker.remaining =
    fillSum (·.takerOrderId = taker.id) r.2.1 + decrementTotal ledger + left
  /-- What is left of the taker rests or was cancelled. -/
  rest : left = 0 ∨ (∃ reason, EngineEvent.cancelled taker.id reason ∈ r.2.1) ∨
    (EngineEvent.rested taker.id left ∈ r.2.1 ∧ taker.withRemaining left ∈ r.1.resting taker.side)
  /-- What a maker lost was filled, decremented or removed by a cancel. -/
  maker : ∀ m ∈ b.resting taker.side.opposite,
    m.remaining - r.1.remainingOf m.id = fillSum (·.makerOrderId = m.id) r.2.1 +
      decrementOf m.id ledger + cancelOf m.id ledger
  /-- The cancels of the ledger are the cancels of the events. -/
  cancels : ∀ m ∈ b.resting taker.side.opposite,
    ((∃ reason, EngineEvent.cancelled m.id reason ∈ r.2.1) ↔
      ∃ a, LedgerEntry.cancel m.id a ∈ ledger)
  /-- The makers lost as much by decrements as the taker. -/
  decrements : ((b.resting taker.side.opposite).map fun m => decrementOf m.id ledger).sum =
    decrementTotal ledger
  /-- A maker that left without a cancel was filled. -/
  filled : ∀ m ∈ b.resting taker.side.opposite, m.id ∉ r.1.live.map (·.id) →
    (∀ reason, EngineEvent.cancelled m.id reason ∉ r.2.1) →
    fillSum (·.makerOrderId = m.id) r.2.1 = m.remaining
  /-- No fill is between orders of one user. -/
  users : ∀ f, EngineEvent.fill f ∈ r.2.1 → f.takerOrderId = taker.id ∧
    ∃ m ∈ b.resting taker.side.opposite, m.id = f.makerOrderId ∧ m.userId ≠ taker.userId
  /-- The taker's own side is unchanged, but for OCO siblings. -/
  own : ∀ o ∈ b.resting taker.side, o ∈ r.1.resting taker.side ∨ OcoStruck b taker r o
  /-- The stops are unchanged, but for OCO siblings and those the last trade hit, which leave the
  registry and are returned in active form. -/
  stops : ∀ o ∈ b.stops.orders, o ∈ r.1.stops.orders ∨ OcoStruck b taker r o ∨
    (o.id ∉ r.1.stops.orders.map (·.id) ∧ convertStop o ∈ r.2.2 ∧
      ∃ p, last = some p ∧ o.TriggeredBy p)

theorem OrderBook.Consistent.mem_resting_iff (hb : b.Consistent) {side : Side} {o : Order} :
    o ∈ b.resting side ↔ o ∈ b.restingPool ∧ o.side = side := by
  rw [mem_restingPool, mem_resting]
  constructor
  · rintro ⟨price, ho⟩
    exact ⟨⟨side, price, ho⟩, (hb.placed side price o ho).1⟩
  · rintro ⟨⟨side', price, ho⟩, hside⟩
    rw [(hb.placed side' price o ho).1] at hside
    subst hside
    exact ⟨price, ho⟩

/-- A sum over distinct ids that picks out one of them. -/
theorem sum_ite_eq_of_nodup {ids : List Uuid} (hunique : ids.Nodup) {x : Uuid} (hx : x ∈ ids)
    (a : Decimal) : (ids.map fun id => if x = id then a else 0).sum = a := by
  induction ids with
  | nil => cases hx
  | cons y ids ih =>
    rw [List.nodup_cons] at hunique
    rw [List.map_cons, List.sum_cons]
    by_cases hxy : x = y
    · have hzero : (ids.map fun id => if x = id then a else 0).sum = 0 := by
        refine List.sum_eq_zero ?_
        intro v hv
        rcases List.mem_map.mp hv with ⟨id, hid, rfl⟩
        rw [if_neg]
        rintro rfl
        rw [hxy] at hid
        exact hunique.1 hid
      rw [if_pos hxy, hzero, add_zero]
    · rw [if_neg hxy, zero_add]
      exact ih hunique.2 ((List.mem_cons.mp hx).resolve_left hxy)

/-- Decrements of known makers add up. -/
theorem sum_decrementOf {ids : List Uuid} (hunique : ids.Nodup) {ledger : List LedgerEntry}
    (hknown : ∀ x a, LedgerEntry.decrement x a ∈ ledger → x ∈ ids) :
    (ids.map fun id => decrementOf id ledger).sum = decrementTotal ledger := by
  induction ledger with
  | nil => simp [decrementOf, decrementTotal]
  | cons e ledger ih =>
    have hrest := ih (fun x a h => hknown x a (List.mem_cons_of_mem e h))
    cases e with
    -- a decrement counts for its maker only
    | decrement x a =>
      have hsplit : ∀ id, decrementOf id (.decrement x a :: ledger) =
          (if x = id then a else 0) + decrementOf id ledger := by
        intro id
        simp [decrementOf]
      have htotal : decrementTotal (.decrement x a :: ledger) = a + decrementTotal ledger := by
        simp [decrementTotal]
      simp only [hsplit]
      rw [List.sum_map_add, hrest, htotal,
        sum_ite_eq_of_nodup hunique (hknown x a List.mem_cons_self)]
    | cancel x a =>
      have hsplit : ∀ id, decrementOf id (.cancel x a :: ledger) = decrementOf id ledger := by
        intro id
        simp [decrementOf]
      have htotal : decrementTotal (.cancel x a :: ledger) = decrementTotal ledger := by
        simp [decrementTotal]
      simp only [hsplit]
      rw [hrest, htotal]

/-- Nothing was taken from an order that no decrement names. -/
theorem decrementOf_eq_zero {x : Uuid} {ledger : List LedgerEntry}
    (h : ∀ a, LedgerEntry.decrement x a ∉ ledger) : decrementOf x ledger = 0 := by
  refine List.sum_eq_zero ?_
  intro v hv
  rcases List.mem_map.mp hv with ⟨e, he, rfl⟩
  cases e with
  | decrement y a =>
    dsimp only
    rw [if_neg]
    rintro rfl
    exact h a he
  | cancel y a => rfl

theorem decrementTotal_eq_zero {ledger : List LedgerEntry}
    (h : ∀ x a, LedgerEntry.decrement x a ∉ ledger) : decrementTotal ledger = 0 := by
  refine List.sum_eq_zero ?_
  intro v hv
  rcases List.mem_map.mp hv with ⟨e, he, rfl⟩
  cases e with
  | decrement y a => exact absurd he (h y a)
  | cancel y a => rfl

/-- Nothing was cancelled of an order that no cancellation names. -/
theorem cancelOf_eq_zero {x : Uuid} {ledger : List LedgerEntry}
    (h : ∀ a, LedgerEntry.cancel x a ∉ ledger) : cancelOf x ledger = 0 := by
  refine List.sum_eq_zero ?_
  intro v hv
  rcases List.mem_map.mp hv with ⟨e, he, rfl⟩
  cases e with
  | decrement y a => rfl
  | cancel y a =>
    dsimp only
    rw [if_neg]
    rintro rfl
    exact h a he

/-- What is left of the taker rests or was cancelled. -/
theorem Pass.Finish.taker_left {a : Pass} {exit : MatchExit}
    {r : Pool × List EngineEvent × List Order} (h : a.Finish exit r) (hs : a.Sound taker)
    (hconsumed : exit = .takerConsumed → ∃ reason,
      EngineEvent.cancelled taker.id reason ∈ a.events) :
    a.taker.remaining = 0 ∨ (∃ reason, EngineEvent.cancelled taker.id reason ∈ r.2.1) ∨
      (EngineEvent.rested taker.id a.taker.remaining ∈ r.2.1 ∧ a.taker ∈ r.1.resting) := by
  cases h with
  | consumed => exact Or.inr (Or.inl (hconsumed rfl))
  | finalized hfinal =>
    cases hfinal with
    | filled hzero => exact Or.inl hzero
    | cancelled _ reason =>
      refine Or.inr (Or.inl ⟨reason, List.mem_append_right _ ?_⟩)
      rw [← hs.id_eq]
      exact List.mem_cons_self
    | rested =>
      refine Or.inr (Or.inr ⟨List.mem_append_right _ ?_, Multiset.mem_cons_self _ _⟩)
      rw [← hs.id_eq]
      exact List.mem_cons_self

/-- A taker consumed by self-trade prevention was cancelled. -/
theorem TurnSpec.consumed_cancelled {s' : MatchState}
    (h : TurnSpec s (.done (s', .takerConsumed))) :
    EngineEvent.cancelled s.taker.id .selfTradePrevented ∈ s'.events := by
  cases h with
  | cancelTaker => exact List.mem_append_right _ List.mem_cons_self
  | decrementTaker => exact List.mem_append_right _ List.mem_cons_self
  | decrementBoth =>
    exact List.mem_append_right _ (List.mem_cons_of_mem _ List.mem_cons_self)

/-- Every run of the loop conserves quantity, order by order. -/
theorem conserves_of_enters (h : Enters b taker) {fuel : ℕ}
    {r : OrderBook × List EngineEvent × List Order}
    (hrun : b.runMatchingLoop fuel taker = some r) :
    ∃ s exit, loop matchTurn fuel (b.enterLoop taker) = some (s, exit) ∧
      Conserves b taker s.taker.remaining s.lastTradePrice r (b.passLedger fuel taker) := by
  rcases runMatchingLoop_eq_some hrun with ⟨s, exit, hloop, rfl⟩
  have hs := h.loop_sound hloop
  rcases matchLoop_ledger h hloop with ⟨hl, hsettled⟩
  rcases afterLoop_balanced hs exit with ⟨new, hevents, hend⟩
  rcases afterLoop_refines hs h.ready exit with ⟨hcons, hfinish⟩
  have hledger : b.passLedger fuel taker =
      (trace matchTurn fuel (b.enterLoop taker)).flatMap MatchState.ledger ++
        s.ledgerAfter exit := by
    simp only [passLedger, hloop]
  generalize (trace matchTurn fuel (b.enterLoop taker)).flatMap MatchState.ledger = ledger
    at hl hsettled hledger
  have hfresh : taker.id ∉ b.toPool.ids := by
    intro hmem
    rcases Multiset.mem_map.mp hmem with ⟨o, ho, hid⟩
    exact h.fresh o ho hid
  have hframed := hfinish.framed hs.pass hfresh hl.framed
  have hconsumed : exit = .takerConsumed → ∃ reason,
      EngineEvent.cancelled taker.id reason ∈ s.events := by
    refine matchLoop_induct h (fun _ _ => True) (fun _ s exit => exit = .takerConsumed →
      ∃ reason, EngineEvent.cancelled taker.id reason ∈ s.events) trivial
      (fun _ _ _ _ _ _ _ => trivial) ?_ hloop
    rintro _ t s' _ _ ht _ hspec _ rfl
    rw [← ht.pass.id_eq]
    exact ⟨_, hspec.consumed_cancelled⟩
  -- a resting order is neither the taker nor a stop
  have hother : ∀ m ∈ b.resting taker.side.opposite,
      m.id ≠ taker.id ∧ m.id ∉ s.book.stopPool.map (·.id) ∧ m ∈ b.pool := by
    intro m hm
    have hrest := (h.book.mem_resting_iff.mp hm).1
    have hpool : m ∈ b.pool := mem_pool.mpr (Or.inl hrest)
    refine ⟨h.fresh m hpool, ?_, hpool⟩
    intro hmem
    have hstops : s.book.stopPool ≤ b.stopPool :=
      matchLoop_induct h (fun _ s => s.book.stopPool ≤ b.stopPool)
        (fun _ s _ => s.book.stopPool ≤ b.stopPool) (le_refl _)
        (fun _ _ _ _ ht hle hspec => (hspec.refines ht.book).stops_le.trans hle)
        (fun _ _ _ _ _ ht hle hspec _ => (hspec.refines ht.book).stops_le.trans hle) hloop
    have hunique := h.book.unique
    rw [pool, Multiset.map_add, Multiset.nodup_add] at hunique
    exact Multiset.disjoint_left.mp hunique.2.2 (Multiset.mem_map_of_mem _ hrest)
      (Multiset.mem_of_le (Multiset.map_le_map hstops) hmem)
  have hids : ∀ {x}, x ∈ b.toPool.ids ↔ x ∈ b.live.map (·.id) := by
    intro x
    rw [ids_toPool, Multiset.mem_coe]
  have hids' : ∀ {x}, x ∈ (afterLoop s exit).1.toPool.ids ↔
      x ∈ (afterLoop s exit).1.live.map (·.id) := by
    intro x
    rw [ids_toPool, Multiset.mem_coe]
  have hstruck : ∀ o, Pass.Struck b.toPool (fun y => (y = taker.id ∨ y ∈ b.toPool.ids) ∧
      y ∉ (afterLoop s exit).1.toPool.ids) (afterLoop s exit).2.1 o →
      OcoStruck b taker (afterLoop s exit) o := by
    rintro o ⟨hevent, y, hlink, hknown, hgone⟩
    refine ⟨hevent, y, hlink, ?_, fun hmem => hgone (hids'.mpr hmem)⟩
    rcases hknown with hy | hy
    · exact Or.inl hy
    · exact Or.inr (hids.mp hy)
  -- maker identity: the ledgers of the loop and of its end, added up
  have hmaker : ∀ m ∈ b.resting taker.side.opposite,
      m.remaining - (afterLoop s exit).1.remainingOf m.id =
        fillSum (·.makerOrderId = m.id) (afterLoop s exit).2.1 +
          decrementOf m.id (b.passLedger fuel taker) +
          cancelOf m.id (b.passLedger fuel taker) := by
    intro m hm
    rcases hother m hm with ⟨hne, hstop, hpool⟩
    have hbefore : b.remainingOf m.id = m.remaining := by
      rw [remainingOf_eq]
      exact remIn_of_mem h.book.unique hpool
    have hloopBal := hl.balanced.orders m.id
    have hendBal := hend.orders m.id hne hstop
    have hnodec := decrementOf_eq_zero (hend.noDecrement m.id)
    rw [hledger, hevents, fillSum_append, decrementOf_append, cancelOf_append, hend.fills, hnodec]
    lia
  have hcancels : ∀ m ∈ b.resting taker.side.opposite,
      ((∃ reason, EngineEvent.cancelled m.id reason ∈ (afterLoop s exit).2.1) ↔
        ∃ a, LedgerEntry.cancel m.id a ∈ b.passLedger fuel taker) := by
    intro m hm
    have hne := (hother m hm).1
    rw [hledger, hevents]
    simp only [List.mem_append, exists_or]
    exact or_congr (hl.balanced.cancels m.id hne) (hend.cancels m.id hne)
  -- the end of a run decrements nothing
  have hknown : ∀ x a, LedgerEntry.decrement x a ∈ b.passLedger fuel taker →
      LedgerEntry.decrement x a ∈ ledger := by
    intro x a hx
    rw [hledger] at hx
    rcases List.mem_append.mp hx with hx | hx
    · exact hx
    · exact absurd hx (hend.noDecrement x a)
  refine ⟨s, exit, hloop, ?_, ?_, hmaker, hcancels, ?_, ?_, ?_, ?_, ?_⟩
  · -- taker identity
    have hloopBal := hl.balanced.taken
    rw [hledger, hevents, fillSum_append, decrementTotal_append, hend.fills,
      decrementTotal_eq_zero hend.noDecrement]
    lia
  · -- what is left of the taker is nothing, cancelled or rested
    rcases hfinish.taker_left hs.pass hconsumed with hzero | hcancel | ⟨hrested, hmem⟩
    · exact Or.inl hzero
    · exact Or.inr (Or.inl hcancel)
    · refine Or.inr (Or.inr ⟨hrested, hcons.mem_resting_iff.mpr ⟨?_, rfl⟩⟩)
      have hsame : s.taker = taker.withRemaining s.taker.remaining := hs.pass.same
      rw [← hsame]
      exact hmem
  · -- decrements of the makers add up to those of the taker
    have hmap : (b.resting taker.side.opposite).map
          (fun m => decrementOf m.id (b.passLedger fuel taker)) =
        ((b.resting taker.side.opposite).map (·.id)).map
          fun id => decrementOf id (b.passLedger fuel taker) := by
      rw [List.map_map]
      rfl
    rw [hmap]
    refine sum_decrementOf ?_ ?_
    · have hunique := h.book.unique
      rw [pool, b.restingPool_perm_side taker.side.opposite, Multiset.map_add, Multiset.map_add,
        Multiset.nodup_add, Multiset.nodup_add] at hunique
      exact hunique.1.1
    · intro x a hx
      rcases hl.makers x a (hknown x a hx) with ⟨m, hm, hside, hid⟩
      exact List.mem_map.mpr ⟨m, h.book.mem_resting_iff.mpr ⟨hm, hside⟩, hid⟩
  · -- a maker that leaves without a cancellation was decremented in no turn, so it was filled
    intro m hm hgone hnocancel
    have hbal := hmaker m hm
    have hnone : ∀ a, LedgerEntry.cancel m.id a ∉ b.passLedger fuel taker := by
      intro a ha
      rcases (hcancels m hm).mpr ⟨a, ha⟩ with ⟨reason, hreason⟩
      exact hnocancel reason hreason
    have hnodec : ∀ a, LedgerEntry.decrement m.id a ∉ b.passLedger fuel taker := by
      intro a ha
      rcases hsettled m.id a (hknown m.id a ha) with ⟨a', ha'⟩ | ⟨hexit, hmem⟩
      · refine hnone a' ?_
        rw [hledger]
        exact List.mem_append_left _ ha'
      · refine hgone (hids'.mp ?_)
        rw [Pool.ids_eq_add]
        refine Multiset.mem_add.mpr (Or.inl ?_)
        subst hexit
        change m.id ∈ (s.book.drainAfter s.lastTradePrice).1.restingPool.map (·.id)
        rw [restingPool_drainAfter]
        exact hmem
    have hzero : (afterLoop s exit).1.remainingOf m.id = 0 := by
      rw [remainingOf_eq]
      exact remIn_eq_zero (fun hmem => hgone (hids'.mp hmem))
    rw [decrementOf_eq_zero hnodec, cancelOf_eq_zero hnone, hzero] at hbal
    lia
  · -- no fill pairs two orders of one user
    intro f hf
    rcases hframed.fills f hf with ⟨htaker, m, hm, hid, hside, _, huser⟩
    exact ⟨htaker, m, h.book.mem_resting_iff.mpr ⟨hm, hside⟩, hid, huser⟩
  · -- the taker's own side
    intro o ho
    rcases h.book.mem_resting_iff.mp ho with ⟨hrest, hside⟩
    rcases hframed.own o hrest hside with hmem | hmem
    · exact Or.inl (hcons.mem_resting_iff.mpr ⟨hmem, hside⟩)
    · exact Or.inr (hstruck o hmem)
  · -- the stops
    intro o ho
    rcases hframed.stops o ho with hmem | hmem | hmem
    · exact Or.inl hmem
    · exact Or.inr (Or.inl (hstruck o hmem))
    · refine Or.inr (Or.inr ⟨?_, hmem⟩)
      -- an order is in one place only, and this one is among those returned
      intro hkept
      have hplaces := hfinish.places.2
      rw [hs.pass.id_eq] at hplaces
      have hnodup := Multiset.nodup_of_le hplaces hs.pass.unique
      have hhit : o.id ∈ (afterLoop s exit).2.2.map (·.id) :=
        List.mem_map.mpr ⟨convertStop o, hmem.1, rfl⟩
      exact Multiset.disjoint_left.mp (Multiset.nodup_add.mp hnodup).2.2 hhit
        (Pool.mem_ids_of_mem_stops (P := (afterLoop s exit).1.toPool) hkept)

/-- From every book a run reaches, a pass of an incoming order conserves
quantity; with positive display quantities the pass returns. -/
theorem runMatchingLoop_conserves {cmds : List BookCommand} (hb : Reaches cmds b)
    (htaker : taker.Ready) (hfresh : taker.id ∉ submittedIds cmds) :
    (∀ fuel r, b.runMatchingLoop fuel taker = some r →
      ∃ s exit, loop matchTurn fuel (b.enterLoop taker) = some (s, exit) ∧
        Conserves b taker s.taker.remaining s.lastTradePrice r (b.passLedger fuel taker)) ∧
    ((∀ o ∈ taker :: submitted cmds, ∀ d, o.displayQty = some d → 0 < d) →
      ∃ n, ∀ fuel ≥ n, ∃ r, b.runMatchingLoop fuel taker = some r) := by
  have hafter := hb.after
  refine ⟨?_, ?_⟩
  · intro fuel r hrun
    exact conserves_of_enters ⟨hafter.sound.book, htaker, hafter.fresh hfresh⟩ hrun
  · intro hdisplay
    have hall := hb.all kept_sized (fun o ho =>
      ⟨(hb.admissible o ho).positive, hdisplay o (List.mem_cons_of_mem taker ho)⟩)
    refine ⟨taker.remaining.toNat + b.pool.card + 1, ?_⟩
    intro fuel hfuel
    exact runMatchingLoop_terminates kept_sized hall
      ⟨htaker.positive, hdisplay taker List.mem_cons_self⟩ hfuel

theorem limitOrder_ready {id userId : Uuid} {side : Side} {price quantity : Decimal}
    (h : 0 < quantity) : (limitOrder id userId side price quantity).Ready where
  positive := h
  active := rfl
  priced := fun _ => ⟨price, rfl⟩

/-- Conservation on the book of one resting ask, met by a buy order. -/
theorem runMatchingLoop_conserves_partial_fill :
    ∃ b, Reaches [.matchOrder (limitOrder 1 10 .sell 100 5)] b ∧
      (∀ fuel r, b.runMatchingLoop fuel (limitOrder 2 11 .buy 100 2) = some r →
        ∃ s exit, loop matchTurn fuel (b.enterLoop (limitOrder 2 11 .buy 100 2)) = some (s, exit) ∧
          Conserves b (limitOrder 2 11 .buy 100 2) s.taker.remaining s.lastTradePrice r
            (b.passLedger fuel (limitOrder 2 11 .buy 100 2))) ∧
      ∃ n, ∀ fuel ≥ n, ∃ r, b.runMatchingLoop fuel (limitOrder 2 11 .buy 100 2) = some r := by
  have hrun : (OrderBook.new.runCommands 5 [.matchOrder (limitOrder 1 10 .sell 100 5)]).isSome :=
    by decide
  rcases Option.isSome_iff_exists.mp hrun with ⟨b, hb⟩
  have hreach : Reaches [.matchOrder (limitOrder 1 10 .sell 100 5)] b :=
    ⟨by decide, by decide, 5, hb⟩
  have hpass := runMatchingLoop_conserves hreach
    (limitOrder_ready (by decide) : (limitOrder 2 11 .buy 100 2).Ready) (by decide)
  refine ⟨b, hreach, hpass.1, hpass.2 ?_⟩
  simp [submitted, limitOrder]

/-- A stop on the taker's own side, without any OCO link, leaves the registry
when the taker trades at its stop price. -/
theorem triggered_stop_not_unchanged :
    ∃ b r, Reaches [.matchOrder (limitOrder 1 10 .sell 100 5), .matchOrder (buyStop 2 100)] b ∧
      b.runMatchingLoop 5 (limitOrder 3 11 .buy 100 2) = some r ∧
      buyStop 2 100 ∈ b.stops.orders ∧ (buyStop 2 100).side = (limitOrder 3 11 .buy 100 2).side ∧
      b.ocoLinks = OrdMap.empty ∧ 2 ∉ r.1.live.map (·.id) := by
  have hcheck : ((OrderBook.new.runCommands 5
      [.matchOrder (limitOrder 1 10 .sell 100 5), .matchOrder (buyStop 2 100)]).bind fun b =>
      (b.runMatchingLoop 5 (limitOrder 3 11 .buy 100 2)).map fun r =>
        (decide (buyStop 2 100 ∈ b.stops.orders), decide (b.ocoLinks = OrdMap.empty),
          decide (2 ∈ r.1.live.map (·.id)))) = some (true, true, false) := by
    decide +kernel
  rcases Option.bind_eq_some_iff.mp hcheck with ⟨b, hrun, hcall⟩
  rcases Option.map_eq_some_iff.mp hcall with ⟨r, hmatch, hfate⟩
  simp only [Prod.mk.injEq, decide_eq_true_eq, decide_eq_false_iff_not] at hfate
  exact ⟨b, r, ⟨by decide, by decide, 5, hrun⟩, hmatch, hfate.1, rfl, hfate.2.1, hfate.2.2⟩

end CryptoCex.Core
