import CryptoCex.Core.Reload
import CryptoCex.Lib.Queues

/-!
# The slices of an iceberg

An iceberg goes to the back of its level when a fill takes the whole of its visible slice. Whether
it does is judged by each fill on its own: nothing records what earlier fills have taken of the
slice. Two takers that leave something of the slice each may take more than the slice together
before the iceberg loses its place (`slice_overrun`).

`runMarks` tells, for the turns of a run, where orders are put at the back of a level and where
makers trade. A run keeps to the slices exactly when each taker that meets an iceberg with an order
behind it asks for no more than what its slice, counted by the demand of the takers since the
iceberg was placed, has left (`slicesKept_iff`).
-/

namespace CryptoCex.Core

open Loop OrderBook

open Queues (split_concat)

/-- A maker that trades with a taker which asks for `asked`. -/
structure Deal where
  maker : Order
  asked : Decimal
  quantity : Decimal
  /-- Another order stands behind the maker in its level. -/
  waiting : Bool
deriving DecidableEq, Repr

/-- What happens to the place of an order in its level. -/
inductive Mark where
  /-- The order is put at the back of its level. -/
  | placed (orderId : Uuid)
  | traded (deal : Deal)
deriving DecidableEq, Repr

/-! ## What is read off a run -/

/-- The front order of a level and a taker of another user. -/
def dealOf (taker m : Order) (rest : List Order) : Deal where
  maker := m
  asked := taker.remaining
  quantity := min taker.remaining m.effectiveQty
  waiting := !rest.isEmpty

/-- A turn that trades, and where its maker goes. -/
def fillMarks (taker m : Order) (rest : List Order) : List Mark :=
  let fillQty := (dealOf taker m rest).quantity
  .traded (dealOf taker m rest) ::
    if m.remaining ≠ fillQty ∧ m.displayQty.isSome ∧ fillQty = m.effectiveQty then [.placed m.id]
    else []

/-- The marks of the turn of the matching loop at this state. -/
def MatchState.marks (s : MatchState) : List Mark :=
  if 0 < s.taker.remaining then
    match s.book.bestOppositePrice s.taker.side with
    | none => []
    | some price =>
      if takerPriceSatisfied s.taker price then
        match (s.book.levels s.taker.side.opposite).find? price with
        | none => []
        | some [] => []
        | some (m :: rest) =>
          if s.taker.userId = m.userId then [] else fillMarks s.taker m rest
      else []
  else []

/-- The taker that rests is put at the back of its level. -/
def MatchState.marksAfter (s : MatchState) : MatchExit → List Mark
  | .takerConsumed => []
  | .exhausted =>
    (s.book.finalizeTaker s.taker s.hadFills).2.filterMap fun e => match e with
      | .rested id _ => some (.placed id)
      | _ => none

namespace OrderBook

def passMarks (fuel : ℕ) (b : OrderBook) (taker : Order) : List Mark :=
  (trace matchTurn fuel (b.enterLoop taker)).flatMap MatchState.marks ++
    match loop matchTurn fuel (b.enterLoop taker) with
    | none => []
    | some (s, exit) => s.marksAfter exit

end OrderBook

/-- The marks of the pass at the top of the work queue. -/
def CascadeState.marks (fuel : ℕ) (c : CascadeState) : List Mark :=
  match c.workQueue with
  | [] => []
  | order :: _ => c.book.passMarks fuel order

namespace OrderBook

/-- A stop that is registered has no place in a level. -/
def commandMarks (fuel : ℕ) (b : OrderBook) : BookCommand → List Mark
  | .matchOrder order =>
    match b.preCheck order with
    | some _ => []
    | none =>
      if order.orderType.isStop then []
      else (trace (cascadeTurn fuel) fuel (b.enterCascade order)).flatMap (CascadeState.marks fuel)
  | .registerOco _ _ => []
  | .cancelOrder _ => []

def runMarks (fuel : ℕ) : OrderBook → List BookCommand → List Mark
  | _, [] => []
  | b, cmd :: cmds =>
    match b.exec fuel cmd with
    | none => []
    | some (b', _) => b.commandMarks fuel cmd ++ runMarks fuel b' cmds

end OrderBook

/-- The deals of makers with an order behind them count until the next place. -/
def Mark.tally (count : Deal → Decimal) (orderId : Uuid) (sum : Decimal) : Mark → Decimal
  | .placed id => if id = orderId then 0 else sum
  | .traded deal =>
    if deal.maker.id = orderId ∧ deal.waiting = true then sum + count deal else sum

/-- What an order has dealt since it was last put at the back of its level, with an order behind
it. -/
def sincePlaced (count : Deal → Decimal) (orderId : Uuid) (marks : List Mark) : Decimal :=
  marks.foldl (Mark.tally count orderId) 0

/-- An order with a visible slice never trades more than the slice, with an order behind it,
before it is put at the back of its level. -/
def SlicesKept (marks : List Mark) : Prop :=
  ∀ before deal after, marks = before ++ .traded deal :: after → deal.waiting = true →
    ∀ d, deal.maker.displayQty = some d → 0 < d →
      sincePlaced Deal.quantity deal.maker.id before + deal.quantity ≤ d

/-- The maker's slice is fresh, or its taker asks for no more than the takers since the maker was
placed have left of it, or the maker has no more than that. -/
def Deal.WithinSlice (deal : Deal) (before : List Mark) (slice : Decimal) : Prop :=
  let left := slice - sincePlaced Deal.asked deal.maker.id before
  left = slice ∨ deal.asked ≤ left ∨ deal.maker.remaining ≤ left

/-- No taker that meets an iceberg with an order behind it asks for more than its slice has
left. -/
def AsksWithinSlice (marks : List Mark) : Prop :=
  ∀ before deal after, marks = before ++ .traded deal :: after → deal.waiting = true →
    ∀ d, deal.maker.displayQty = some d → 0 < d → deal.WithinSlice before d

/-- The deals, as the events of the run tell them. -/
def deals (marks : List Mark) : List (Uuid × Decimal) :=
  marks.filterMap fun m => match m with
    | .traded deal => some (deal.maker.id, deal.quantity)
    | .placed _ => none

def fillDeals (events : List EngineEvent) : List (Uuid × Decimal) :=
  events.filterMap fun e => match e with
    | .fill f => some (f.makerOrderId, f.quantity)
    | _ => none

/-! ## Counting -/

section Counting

variable {marks before after : List Mark} {deal : Deal} {count : Deal → Decimal} {id orderId : Uuid}

@[simp] theorem sincePlaced_nil : sincePlaced count orderId [] = 0 := rfl

theorem sincePlaced_concat (marks : List Mark) (mark : Mark) :
    sincePlaced count orderId (marks ++ [mark]) =
      mark.tally count orderId (sincePlaced count orderId marks) := by
  simp only [sincePlaced, List.foldl_append, List.foldl_cons, List.foldl_nil]

/-- The count starts again when the order is placed. -/
theorem sincePlaced_placed : sincePlaced count orderId (marks ++ [.placed id]) =
    if id = orderId then 0 else sincePlaced count orderId marks :=
  sincePlaced_concat marks (.placed id)

/-- It goes on with a trade of an order that waits. -/
theorem sincePlaced_traded : sincePlaced count orderId (marks ++ [.traded deal]) =
    if deal.maker.id = orderId ∧ deal.waiting = true then
      sincePlaced count orderId marks + count deal
    else sincePlaced count orderId marks :=
  sincePlaced_concat marks (.traded deal)

/-- A count of what is not negative. -/
theorem sincePlaced_nonneg (h : ∀ deal, Mark.traded deal ∈ marks → 0 ≤ count deal) :
    0 ≤ sincePlaced count orderId marks := by
  induction marks using List.reverseRecOn with
  | nil => exact le_refl 0
  | append_singleton marks mark ih =>
    have hrest := ih fun deal hdeal => h deal (List.mem_append_left _ hdeal)
    cases mark with
    | placed id =>
      rw [sincePlaced_placed]
      split_ifs
      · exact le_refl 0
      · exact hrest
    | traded deal =>
      have hdeal := h deal (List.mem_append_right _ List.mem_cons_self)
      rw [sincePlaced_traded]
      split_ifs
      · exact Int.add_nonneg hrest hdeal
      · exact hrest

theorem deals_append (marks marks' : List Mark) :
    deals (marks ++ marks') = deals marks ++ deals marks' :=
  List.filterMap_append

theorem fillDeals_append (events events' : List EngineEvent) :
    fillDeals (events ++ events') = fillDeals events ++ fillDeals events' :=
  List.filterMap_append

theorem fillDeals_eq_nil {events : List EngineEvent} (h : ∀ f, EngineEvent.fill f ∉ events) :
    fillDeals events = [] := by
  rw [fillDeals, List.filterMap_eq_nil_iff]
  intro e he
  cases e with
  | fill f => exact absurd he (h f)
  | rested | cancelled | stopTriggered => rfl

end Counting

/-! ## The demand since the last place -/

/-- The deal is the fill of its maker with a taker that asks for `asked`. While the maker keeps
its place its takers get what they ask for. -/
structure DealTold (before : List Mark) (deal : Deal) : Prop where
  asked : 0 < deal.asked
  quantity : deal.quantity = min deal.asked deal.maker.effectiveQty
  since : deal.maker.displayQty ≠ none →
    sincePlaced Deal.asked deal.maker.id before = sincePlaced Deal.quantity deal.maker.id before

/-- The marks tell how the resting orders have come to where they are. -/
structure Told (marks : List Mark) (events : List EngineEvent) (resting : Multiset Order) :
    Prop where
  fills : deals marks = fillDeals events
  resting : ∀ o ∈ resting, o.displayQty ≠ none →
    sincePlaced Deal.asked o.id marks = sincePlaced Deal.quantity o.id marks
  deals : ∀ before deal after, marks = before ++ .traded deal :: after → DealTold before deal

section Told

variable {marks : List Mark} {events new : List EngineEvent}
  {resting resting' others : Multiset Order}
  {m o : Order} {f : Fill} {deal : Deal}

theorem told_nil : Told [] [] 0 where
  fills := rfl
  resting := fun o ho => absurd ho (Multiset.notMem_zero o)
  deals := fun before deal after h => absurd h (by simp)

/-- Orders leave, or only their remainders change. -/
theorem Told.keep (h : Told marks events resting) (hnew : ∀ f, EngineEvent.fill f ∉ new)
    (hresting : ∀ o ∈ resting', ∃ o₀ ∈ resting, o₀.id = o.id ∧ o₀.displayQty = o.displayQty) :
    Told marks (events ++ new) resting' where
  fills := by
    rw [fillDeals_append, fillDeals_eq_nil hnew, List.append_nil]
    exact h.fills
  resting := by
    intro o ho hdisplay
    rcases hresting o ho with ⟨o₀, ho₀, hid, hsame⟩
    rw [← hid]
    exact h.resting o₀ ho₀ (by rwa [hsame])
  deals := h.deals

theorem Told.keep_le (h : Told marks events resting) (hnew : ∀ f, EngineEvent.fill f ∉ new)
    (hle : resting' ≤ resting) : Told marks (events ++ new) resting' :=
  h.keep hnew fun o ho => ⟨o, Multiset.mem_of_le hle ho, rfl, rfl⟩

/-- An order is put at the back of its level. -/
theorem Told.place (h : Told marks events resting) (o : Order) :
    Told (marks ++ [.placed o.id]) events (o ::ₘ resting) where
  fills := by
    rw [deals_append, h.fills]
    exact List.append_nil _
  resting := by
    intro x hx hdisplay
    rw [sincePlaced_placed, sincePlaced_placed]
    split_ifs with hid
    · rfl
    · rcases Multiset.mem_cons.mp hx with rfl | hx
      · exact absurd rfl hid
      · exact h.resting x hx hdisplay
  deals := by
    intro before deal after hsplit
    rcases split_concat hsplit with ⟨_, hlast⟩ | ⟨after', hmarks⟩
    · cases hlast
    · exact h.deals before deal after' hmarks

/-- A maker trades. It may stay where it is if it has no slice, or the taker got what it asked
for. -/
theorem Told.trade (h : Told marks events (deal.maker ::ₘ others))
    (hothers : ∀ o ∈ others, o.id ≠ deal.maker.id) (hasked : 0 < deal.asked)
    (hquantity : deal.quantity = min deal.asked deal.maker.effectiveQty)
    (hid : f.makerOrderId = deal.maker.id) (hfill : f.quantity = deal.quantity)
    (hresting : ∀ o ∈ resting', o ∈ others ∨ (o.id = deal.maker.id ∧
      (o.displayQty ≠ none → deal.maker.displayQty ≠ none ∧ deal.quantity = deal.asked))) :
    Told (marks ++ [.traded deal]) (events ++ [.fill f]) resting' where
  fills := by
    rw [deals_append, fillDeals_append, h.fills]
    simp [Core.deals, fillDeals, hid, hfill]
  resting := by
    intro o ho hdisplay
    rw [sincePlaced_traded, sincePlaced_traded]
    rcases hresting o ho with ho | ⟨hoid, hstay⟩
    · -- another order than the maker
      have hne : ¬ (deal.maker.id = o.id ∧ deal.waiting = true) :=
        fun hand => hothers o ho hand.1.symm
      rw [if_neg hne, if_neg hne]
      exact h.resting o (Multiset.mem_cons_of_mem ho) hdisplay
    · -- the maker, where it stays on the book
      rcases hstay hdisplay with ⟨hmaker, hgot⟩
      have hsame := h.resting deal.maker (Multiset.mem_cons_self _ _) hmaker
      rw [hoid, hsame, hgot]
  deals := by
    intro before deal' after hsplit
    rcases split_concat hsplit with ⟨rfl, hlast⟩ | ⟨after', hmarks⟩
    · cases hlast
      exact ⟨hasked, hquantity, h.resting deal.maker (Multiset.mem_cons_self _ _)⟩
    · exact h.deals before deal' after' hmarks

end Told

/-! ## Turns -/

section Turns

variable {s : MatchState} {price : Decimal} {m : Order} {rest : List Order} {marks : List Mark}
  {events : List EngineEvent} {taker : Order}

/-- Self-trade prevention makes no trade. -/
theorem Meets.marks_own (hm : Meets s price m rest) (hown : s.taker.userId = m.userId) :
    s.marks = [] := by
  simp only [MatchState.marks, if_pos hm.pos, hm.best, hm.acceptable, if_true, hm.level,
    if_pos hown]

/-- A fill is one trade, after which a slice is placed again. -/
theorem Meets.marks_fill (hm : Meets s price m rest) (hother : s.taker.userId ≠ m.userId) :
    s.marks = fillMarks s.taker m rest := by
  simp only [MatchState.marks, if_pos hm.pos, hm.best, hm.acceptable, if_true, hm.level,
    if_neg hother]

/-- Without a turn there is no mark. -/
theorem marks_exhausted (h : s.taker.remaining ≤ 0 ∨ ∀ price,
    s.book.bestOppositePrice s.taker.side = some price →
      takerPriceSatisfied s.taker price = false) : s.marks = [] := by
  unfold MatchState.marks
  split_ifs with hpos
  · cases hbest : s.book.bestOppositePrice s.taker.side with
    | none => rfl
    | some price =>
      rcases h with hle | hno
      · exact absurd hpos (not_lt.mpr hle)
      · simp only [hno price hbest, Bool.false_eq_true, if_false]
  · rfl

/-- An iceberg of whose slice something is left has given the taker what it asked for. -/
theorem quantity_eq_asked {taker m : Order} {q : Decimal}
    (hq : q = min taker.remaining m.effectiveQty) (hleft : q ≠ m.effectiveQty) :
    q = taker.remaining := by
  rcases min_choice taker.remaining m.effectiveQty with h | h
  · rw [hq, h]
  · exact absurd (hq.trans h) hleft

/-- A turn is told by its marks. -/
theorem TurnSpec.told {t : Turn MatchState (MatchState × MatchExit)} (ht : TurnSpec s t)
    (hs : s.book.Consistent) (h : Told marks (events ++ s.events) s.book.restingPool) :
    Told (marks ++ s.marks) (events ++ (stateAfter t).events) (stateAfter t).book.restingPool := by
  -- a turn without a fill
  have hquiet : ∀ {new : List EngineEvent} {resting : Multiset Order}, s.marks = [] →
      (∀ f, EngineEvent.fill f ∉ new) →
      (∀ o ∈ resting, ∃ o₀ ∈ s.book.restingPool, o₀.id = o.id ∧ o₀.displayQty = o.displayQty) →
      Told (marks ++ s.marks) (events ++ (s.events ++ new)) resting := by
    intro new resting hmarks hnew hresting
    rw [hmarks, List.append_nil, ← List.append_assoc]
    exact h.keep hnew hresting
  have hdrop : ∀ {price m rest}, Meets s price m rest →
      ∀ o ∈ (s.book.dropFront s.taker.side.opposite price m rest).restingPool,
        ∃ o₀ ∈ s.book.restingPool, o₀.id = o.id ∧ o₀.displayQty = o.displayQty := by
    intro price m rest hm o ho
    exact ⟨o, Multiset.mem_of_le (within_dropFront hm.level).resting ho, rfl, rfl⟩
  have hids : ∀ {m : Order} {others : Multiset Order}, s.book.restingPool = m ::ₘ others →
      ∀ o ∈ others, o.id ≠ m.id := by
    intro m others hpool o ho hid
    have hunique := hs.unique
    rw [pool, hpool, Multiset.cons_add, Multiset.map_cons, Multiset.nodup_cons] at hunique
    refine hunique.1 (Multiset.mem_map.mpr ⟨o, ?_, hid⟩)
    exact Multiset.mem_add.mpr (.inl ho)
  cases ht with
  | exhausted hex =>
    rw [marks_exhausted hex, List.append_nil]
    exact h
  | cancelTaker hm hown =>
    exact hquiet (hm.marks_own hown) (by simp) fun o ho => ⟨o, ho, rfl, rfl⟩
  | cancelMaker hm hown => exact hquiet (hm.marks_own hown) (by simp) (hdrop hm)
  | @decrementTaker price m rest hm hown =>
    rcases restingPool_shrinkFront hm.level (List.Perm.refl
      (m.withRemaining (m.remaining - s.taker.remaining) :: rest)) with ⟨others, hold, hnew⟩
    refine hquiet (hm.marks_own hown) (by simp) ?_
    intro o ho
    have ho' : o ∈ m.withRemaining (m.remaining - s.taker.remaining) ::ₘ others := hnew ▸ ho
    rw [hold]
    rcases Multiset.mem_cons.mp ho' with rfl | ho'
    · exact ⟨m, Multiset.mem_cons_self _ _, rfl, rfl⟩
    · exact ⟨o, Multiset.mem_cons_of_mem ho', rfl, rfl⟩
  | decrementMaker hm hown => exact hquiet (hm.marks_own hown) (by simp) (hdrop hm)
  | decrementBoth hm hown => exact hquiet (hm.marks_own hown) (by simp) (hdrop hm)
  | @fillPart price m rest hm hother hpart =>
    rcases restingPool_shrinkFront hm.level
      (levelAfterFill_perm m rest (fillOf s.taker m price).quantity) with ⟨others, hold, hnew⟩
    rw [hold] at h
    rw [hm.marks_fill hother]
    simp only [stateAfter, hnew]
    rw [← List.append_assoc]
    by_cases hback : m.displayQty.isSome = true ∧
        (dealOf s.taker m rest).quantity = m.effectiveQty
    · -- the slice is used up: the iceberg trades and is placed again
      have hmarks : fillMarks s.taker m rest = [.traded (dealOf s.taker m rest)] ++
          [.placed m.id] := by
        rw [fillMarks, if_pos ⟨hpart, hback⟩]
        rfl
      have htrade : Told (marks ++ [.traded (dealOf s.taker m rest)])
          (events ++ s.events ++ [.fill (fillOf s.taker m price)]) others :=
        h.trade (hids hold) hm.pos rfl rfl rfl fun o ho => .inl ho
      rw [hmarks, ← List.append_assoc]
      exact htrade.place (m.withRemaining (m.remaining - (fillOf s.taker m price).quantity))
    · have hmarks : fillMarks s.taker m rest = [.traded (dealOf s.taker m rest)] := by
        rw [fillMarks, if_neg (fun hand => hback hand.2)]
      rw [hmarks]
      refine h.trade (hids hold) hm.pos rfl rfl rfl ?_
      intro o ho
      rcases Multiset.mem_cons.mp ho with rfl | ho
      · refine .inr ⟨rfl, fun hdisplay => ⟨hdisplay, ?_⟩⟩
        have hsome : m.displayQty.isSome = true := Option.isSome_iff_ne_none.mpr hdisplay
        exact quantity_eq_asked rfl fun heq => hback ⟨hsome, heq⟩
      · exact .inl ho
  | @fillWhole price m rest hm hother hwhole =>
    have hold := restingPool_dropFront hm.level
    rw [hold] at h
    have hmarks : fillMarks s.taker m rest = [.traded (dealOf s.taker m rest)] := by
      rw [fillMarks, if_neg (fun hand => hand.1 hwhole)]
    have htrade : Told (marks ++ [.traded (dealOf s.taker m rest)])
        (events ++ s.events ++ [.fill (fillOf s.taker m price)])
        (s.book.dropFront s.taker.side.opposite price m rest).restingPool :=
      h.trade (hids hold) hm.pos rfl rfl rfl fun o ho => .inl ho
    rw [hm.marks_fill hother, hmarks]
    simp only [stateAfter]
    rw [← List.append_assoc, ← List.append_assoc]
    exact htrade.keep_le (fill_notMem_oco _ _) (within_maybeCancelOco _ m.id).resting

/-- What follows the loop is told by its marks. -/
theorem LoopSound.told (hs : LoopSound taker s) (hready : taker.Ready)
    (h : Told marks (events ++ s.events) s.book.restingPool) (exit : MatchExit) :
    Told (marks ++ s.marksAfter exit) (events ++ (afterLoop s exit).2.1)
      (afterLoop s exit).1.restingPool := by
  cases exit with
  -- after a consumed taker only stops are drained
  | takerConsumed =>
    simp only [afterLoop, MatchState.marksAfter, restingPool_drainAfter, List.append_nil]
    exact h
  | exhausted =>
    simp only [afterLoop, restingPool_drainAfter]
    rcases within_ite_maybeCancelOco (s.book.finalizeTaker s.taker s.hadFills).1 s.taker.id
      (takerTerminal s.taker (s.book.finalizeTaker s.taker s.hadFills).2) with ⟨hwithin, hoco⟩
    rw [← List.append_assoc]
    refine Told.keep_le ?_ hoco hwithin.resting
    rw [MatchState.marksAfter]
    have hfinal := fill_notMem_finalize s.book s.taker s.hadFills
    have hspec := s.book.finalizeTaker_spec s.taker s.hadFills
    generalize s.book.finalizeTaker s.taker s.hadFills = final at hspec hfinal ⊢
    rw [← List.append_assoc]
    cases hspec with
    | filled =>
      rw [List.filterMap_nil, List.append_nil]
      exact h.keep_le hfinal (le_refl _)
    | cancelled =>
      rw [show List.filterMap _ _ = [] from rfl, List.append_nil]
      exact h.keep_le hfinal (le_refl _)
    -- the rest is placed behind the others of its price
    | rested _ _ hrest =>
      obtain ⟨price, hprice⟩ := hs.priced hready hrest
      rw [restingPool_insertMaker hprice]
      exact (h.keep_le hfinal (le_refl _)).place s.taker

end Turns

/-! ## Passes, calls and runs -/

section Runs

variable {b : OrderBook} {taker : Order} {fuel : ℕ} {marks : List Mark} {events : List EngineEvent}

/-- The marks tell the trades of a pass. -/
theorem told_pass {r : OrderBook × List EngineEvent × List Order} (henters : Enters b taker)
    (hrun : b.runMatchingLoop fuel taker = some r) (h : Told marks events b.restingPool) :
    Told (marks ++ b.passMarks fuel taker) (events ++ r.2.1) r.1.restingPool := by
  rcases runMatchingLoop_eq_some hrun with ⟨s, exit, hloop, rfl⟩
  have htold : Told (marks ++ (trace matchTurn fuel (b.enterLoop taker)).flatMap MatchState.marks)
      (events ++ s.events) s.book.restingPool := by
    refine matchLoop_induct henters
      (fun past s => Told (marks ++ past.flatMap MatchState.marks) (events ++ s.events)
        s.book.restingPool)
      (fun past s _ => Told (marks ++ past.flatMap MatchState.marks) (events ++ s.events)
        s.book.restingPool) ?_ ?_ ?_ hloop
    · rw [List.flatMap_nil, List.append_nil, enterLoop, List.append_nil]
      exact h
    · -- a turn that goes on
      intro past s s' _ hs hinv ht
      rw [List.flatMap_append, List.flatMap_singleton, ← List.append_assoc]
      exact ht.told hs.book hinv
    · -- the last turn
      intro past s s' exit _ hs hinv ht _
      rw [List.flatMap_append, List.flatMap_singleton, ← List.append_assoc]
      exact ht.told hs.book hinv
  rw [passMarks, hloop, ← List.append_assoc]
  exact (henters.loop_sound hloop).told henters.ready htold exit

/-- And of a pass of the cascade. -/
theorem told_cascadeStep {c c' : CascadeState} (hstep : CascadeStep fuel c c')
    (hc : CascadeSound c) (h : Told marks (events ++ c.events) c.book.restingPool) :
    Told (marks ++ c.marks fuel) (events ++ c'.events) c'.book.restingPool := by
  cases hstep with
  | @push order rest book new triggered hqueue hrun =>
    have hpass := told_pass (hc.enters hqueue) hrun h
    have hnew : ∀ f, EngineEvent.fill f ∉ triggered.map fun t => EngineEvent.stopTriggered t.id := by
      intro f hf
      rcases List.mem_map.mp hf with ⟨t, _, heq⟩
      cases heq
    simp only [CascadeState.marks, hqueue]
    rw [← List.append_assoc, ← List.append_assoc]
    exact hpass.keep_le hnew (le_refl _)
  | cut hqueue hrun =>
    have hpass := told_pass (hc.enters hqueue) hrun h
    simp only [CascadeState.marks, hqueue]
    rw [← List.append_assoc]
    exact hpass

theorem told_cascade {n : ℕ} {c : CascadeState} {r : OrderBook × List EngineEvent}
    (hc : CascadeSound c) (h : Told marks (events ++ c.events) c.book.restingPool)
    (hloop : loop (cascadeTurn fuel) n c = some r) :
    Told (marks ++ (trace (cascadeTurn fuel) n c).flatMap (CascadeState.marks fuel))
      (events ++ r.2) r.1.restingPool := by
  refine loop_invariant_trace
    (fun past c => Told (marks ++ past.flatMap (CascadeState.marks fuel)) (events ++ c.events)
      c.book.restingPool)
    (fun past r => Told (marks ++ past.flatMap (CascadeState.marks fuel)) (events ++ r.2)
      r.1.restingPool) ?_ ?_ ?_ hloop
  · rw [List.flatMap_nil, List.append_nil]
    exact h
  · intro past t t' hv hinv hnext
    rw [List.flatMap_append, List.flatMap_singleton, ← List.append_assoc]
    exact told_cascadeStep (cascadeTurn_next hnext) (cascadeSound_of_visits hc hv) hinv
  · intro past t r _ hinv hdone
    rcases cascadeTurn_done hdone with ⟨hqueue, rfl⟩
    rw [List.flatMap_append, List.flatMap_singleton, CascadeState.marks, hqueue, List.append_nil]
    exact hinv

/-- And of a command. -/
theorem told_exec {past : List BookCommand} {cmd : BookCommand} {r : OrderBook × List EngineEvent}
    (hb : After past b) (hcmd : Follows Order.Waiting past cmd) (hrun : b.exec fuel cmd = some r)
    (h : Told marks events b.restingPool) :
    Told (marks ++ b.commandMarks fuel cmd) (events ++ r.2) r.1.restingPool := by
  cases cmd with
  | registerOco legA legB =>
    cases hrun
    rw [commandMarks, List.append_nil, List.append_nil]
    exact h
  | cancelOrder id =>
    cases hrun
    rw [commandMarks, List.append_nil]
    exact h.keep_le (fill_notMem_cancelOrder b id) (within_cancelOrder b id).resting
  | matchOrder order =>
    rcases hcmd order rfl with ⟨hwaiting, hfresh⟩
    -- a call that only rejects or registers
    have hsingle : ∀ {e : EngineEvent}, (∀ f, e ≠ .fill f) →
        Told marks (events ++ [e]) b.restingPool := by
      intro e he
      exact h.keep_le (fun f hf => he f (List.mem_singleton.mp hf).symm) (le_refl _)
    cases matchOrder_cases (hrun : b.matchOrder fuel order = some r) with
    | rejected reason hpre =>
      simp only [commandMarks, hpre, List.append_nil]
      exact hsingle (by simp)
    | stop hpre hstop =>
      simp only [commandMarks, hpre, hstop, if_true, List.append_nil]
      unfold registerStopOrder
      cases b.stops.insert order with
      | error | ok => exact hsingle (by simp)
    | matched hpre hactive hloop =>
      simp only [commandMarks, hpre, hactive, Bool.false_eq_true, if_false]
      have hready : order.Ready := ⟨hwaiting.positive, hactive, hwaiting.priced⟩
      refine told_cascade (cascadeSound_enter hb.sound hready (hb.fresh hfresh)) ?_ hloop
      rw [enterCascade, List.append_nil]
      exact h

/-- A run is told by its marks. -/
theorem told_run {past cmds : List BookCommand} {b' : OrderBook}
    {returned : List (List EngineEvent)} (hb : After past b)
    (hok : ∀ l cmd l', cmds = l ++ cmd :: l' → Follows Order.Waiting (past ++ l) cmd)
    (hrun : b.runEvents fuel cmds = some (b', returned)) (h : Told marks events b.restingPool) :
    Told (marks ++ b.runMarks fuel cmds) (events ++ returned.flatten) b'.restingPool := by
  induction cmds generalizing b past marks events returned with
  | nil =>
    cases hrun
    rw [runMarks, List.append_nil, List.flatten_nil, List.append_nil]
    exact h
  | cons cmd cmds ih =>
    rw [runEvents] at hrun
    cases hr : b.exec fuel cmd with
    | none =>
      rw [hr] at hrun
      cases hrun
    | some r =>
      rw [hr] at hrun
      rcases Option.map_eq_some_iff.mp hrun with ⟨rest, hrest, heq⟩
      cases heq
      -- the first command comes with an order of its own
      have hcmd : Follows Order.Waiting past cmd := by
        have := hok [] cmd cmds rfl
        rwa [List.append_nil] at this
      rw [runMarks, hr, List.flatten_cons, ← List.append_assoc, ← List.append_assoc]
      refine ih (exec_after_waiting hb hcmd hr) ?_ hrest (told_exec hb hcmd hr h)
      intro l c l' hsplit
      have := hok (cmd :: l) c l' (by rw [hsplit, List.cons_append])
      rwa [List.append_assoc]

end Runs

/-! ## When the slices are kept -/

/-- One deal of an iceberg keeps to its slice exactly if its taker asks for no more than what is
left of it. -/
theorem DealTold.kept_iff {before : List Mark} {deal : Deal} {d : Decimal}
    (h : DealTold before deal) (hd : deal.maker.displayQty = some d)
    (hnonneg : 0 ≤ sincePlaced Deal.asked deal.maker.id before) :
    sincePlaced Deal.quantity deal.maker.id before + deal.quantity ≤ d ↔
      deal.WithinSlice before d := by
  have hasked := h.asked
  have heff : deal.maker.effectiveQty = min d deal.maker.remaining := by
    simp only [Order.effectiveQty, hd]
  rw [h.quantity, heff, ← h.since (by rw [hd]; exact Option.some_ne_none d), Deal.WithinSlice]
  generalize sincePlaced Deal.asked deal.maker.id before = since at hnonneg ⊢
  lia

/-- In a run of orders that have a quantity, a price where they can rest and an id of their own,
icebergs keep to their slices exactly if each taker that meets one asks for no more than what is
left. The marks of the run tell the fills that it returned. -/
theorem slicesKept_iff {cmds : List BookCommand} {fuel : ℕ} {b : OrderBook}
    {events : List (List EngineEvent)} (hall : ∀ o ∈ submitted cmds, o.Waiting)
    (hfresh : (submittedIds cmds).Nodup)
    (hrun : OrderBook.new.runEvents fuel cmds = some (b, events)) :
    deals (OrderBook.new.runMarks fuel cmds) = fillDeals events.flatten ∧
    (SlicesKept (OrderBook.new.runMarks fuel cmds) ↔
      AsksWithinSlice (OrderBook.new.runMarks fuel cmds)) := by
  have htold := told_run after_new (follows_of_nodup hall hfresh) hrun told_nil
  rw [List.nil_append, List.nil_append] at htold
  refine ⟨htold.fills, ?_⟩
  -- what has been traded since the order was placed is what the marks before the deal say
  have hdeal : ∀ before deal after d, OrderBook.new.runMarks fuel cmds =
      before ++ .traded deal :: after → deal.maker.displayQty = some d →
      (sincePlaced Deal.quantity deal.maker.id before + deal.quantity ≤ d ↔
        deal.WithinSlice before d) := by
    intro before deal after d hsplit hd
    refine (htold.deals before deal after hsplit).kept_iff hd (sincePlaced_nonneg ?_)
    intro earlier hearlier
    rcases List.append_of_mem hearlier with ⟨l, l', rfl⟩
    rw [List.append_assoc, List.cons_append] at hsplit
    exact (htold.deals l earlier _ hsplit).asked.le
  constructor
  · intro h before deal after hsplit hwaiting d hd hpos
    exact (hdeal before deal after d hsplit hd).mp (h before deal after hsplit hwaiting d hd hpos)
  · intro h before deal after hsplit hwaiting d hd hpos
    exact (hdeal before deal after d hsplit hd).mpr (h before deal after hsplit hwaiting d hd hpos)

/-- An offer of which only the display quantity shows. -/
def icebergOffer (id userId : Uuid) (price quantity display : Decimal) : Order :=
  { limitOrder id userId .sell price quantity with
    orderType := .iceberg
    displayQty := some display }

/-- An iceberg of 20 in slices of 5, an offer behind it, and three bids. -/
def slicedRun : List BookCommand :=
  [.matchOrder (icebergOffer 1 10 100 20 5), .matchOrder (limitOrder 2 11 .sell 100 5),
    .matchOrder (limitOrder 3 12 .buy 100 3), .matchOrder (limitOrder 4 12 .buy 100 4),
    .matchOrder (limitOrder 5 12 .buy 100 5)]

/-- The iceberg of the run, when it has `remaining` left and gets a bid that is not larger than
its slice. -/
def slicedDeal (remaining asked : Decimal) : Deal where
  maker := (icebergOffer 1 10 100 20 5).withRemaining remaining
  asked := asked
  quantity := asked
  waiting := true

/-- Between its two places the iceberg trades 12 with the offer behind it. -/
theorem slice_overrun :
    OrderBook.new.runMarks 9 slicedRun = [.placed 1, .placed 2, .traded (slicedDeal 20 3),
      .traded (slicedDeal 17 4), .traded (slicedDeal 13 5), .placed 1] ∧
    ¬ SlicesKept (OrderBook.new.runMarks 9 slicedRun) := by
  have hmarks : OrderBook.new.runMarks 9 slicedRun = [.placed 1, .placed 2,
      .traded (slicedDeal 20 3), .traded (slicedDeal 17 4), .traded (slicedDeal 13 5),
      .placed 1] := by decide +kernel
  refine ⟨hmarks, ?_⟩
  intro hkept
  have hsum := hkept [.placed 1, .placed 2, .traded (slicedDeal 20 3)] (slicedDeal 17 4)
    [.traded (slicedDeal 13 5), .placed 1] hmarks rfl 5 rfl (by decide)
  exact absurd hsum (by decide)

/-- The marks of that run. -/
theorem slicesKept_iff_sliced : ∃ b events,
    OrderBook.new.runEvents 9 slicedRun = some (b, events) ∧
    deals (OrderBook.new.runMarks 9 slicedRun) = fillDeals events.flatten ∧
    (SlicesKept (OrderBook.new.runMarks 9 slicedRun) ↔
      AsksWithinSlice (OrderBook.new.runMarks 9 slicedRun)) := by
  have hrun : (OrderBook.new.runEvents 9 slicedRun).isSome = true := by decide +kernel
  rcases Option.isSome_iff_exists.mp hrun with ⟨⟨b, events⟩, hrun⟩
  refine ⟨b, events, hrun, slicesKept_iff ?_ (by decide) hrun⟩
  intro o ho
  have hform : 0 < o.remaining ∧ o.price = some 100 := by
    simp only [slicedRun, submitted, List.mem_cons, List.not_mem_nil, or_false] at ho
    rcases ho with rfl | rfl | rfl | rfl | rfl
    all_goals exact ⟨by decide, rfl⟩
  exact ⟨hform.1, fun _ => ⟨100, hform.2⟩⟩

end CryptoCex.Core
