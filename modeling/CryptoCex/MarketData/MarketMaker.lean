import CryptoCex.Lib.OrdMap
import CryptoCex.Proto.Types
import Mathlib.Data.String.Basic

/-!
# The market maker

On every tick `refresh_quotes` goes through the recorded tickers, in any order. It withdraws the
quotes of a symbol whose ticker has gone stale; for a fresh one it withdraws the old quotes and
places ten bids and ten asks. Every request is followed by `?`, so the first placement that fails
ends the whole round, and stale symbols that come later keep their quotes
(`refreshQuotes_withdraws_iff`).
-/

namespace CryptoCex.MarketData

open CryptoCex.Core (Decimal Uuid)
open Proto (AckResult EngineOrder EngineResponse OrderSide)

/-! ## Quotes -/

structure BookTicker where
  symbol : String
  bidPrice : Decimal
  bidQuantity : Decimal
  askPrice : Decimal
  askQuantity : Decimal
deriving DecidableEq

structure QuoteLevel where
  price : Decimal
  quantity : Decimal
deriving DecidableEq

/-- Best first. -/
structure QuoteSet where
  bids : List QuoteLevel
  asks : List QuoteLevel

/-- The operations on decimals. An operation that overflows panics; then nothing returns. -/
structure Arithmetic where
  add : Decimal → Decimal → Decimal
  sub : Decimal → Decimal → Decimal
  mul : Decimal → Decimal → Decimal
  div : Decimal → Decimal → Decimal

/-- `Decimal::new(n, 0)` -/
def decimal (n : ℤ) : Decimal := n * 10 ^ 28

structure QuoteGenerator where
  levels : ℕ
  spreadBps : Decimal
  baseQuantity : Decimal

def QuoteGenerator.default10x10 : QuoteGenerator := ⟨10, decimal 5, decimal 1⟩

def QuoteGenerator.generate (generator : QuoteGenerator) (arith : Arithmetic)
    (ticker : BookTicker) : QuoteSet :=
  let mid := arith.div (arith.add ticker.bidPrice ticker.askPrice) (decimal 2)
  let offset (level : ℕ) : Decimal :=
    arith.div (arith.mul generator.spreadBps (decimal level)) (decimal 10000)
  let quantity (level : ℕ) : Decimal := arith.mul generator.baseQuantity (decimal level)
  { bids := (List.range' 1 generator.levels).map fun level =>
      ⟨arith.mul mid (arith.sub (decimal 1) (offset level)), quantity level⟩
    asks := (List.range' 1 generator.levels).map fun level =>
      ⟨arith.mul mid (arith.add (decimal 1) (offset level)), quantity level⟩ }

section

variable {generator : QuoteGenerator} {arith : Arithmetic} {ticker : BookTicker}

theorem length_bids : (generator.generate arith ticker).bids.length = generator.levels := by
  simp [QuoteGenerator.generate]

theorem length_asks : (generator.generate arith ticker).asks.length = generator.levels := by
  simp [QuoteGenerator.generate]

end

/-! ## The engine client -/

inductive EngineClientError where
  | io
  | timeout
  | rejected (code : String)
  | unexpected
deriving DecidableEq

/-- What a request returns for the reply to it: the result must be of the kind asked for. -/
def resultOf (requestId : Uuid) (isResult : AckResult → Bool)
    (reply : Except EngineClientError EngineResponse) : Except EngineClientError Unit :=
  match reply with
  | .error error => .error error
  | .ok (.ack id result) =>
    if id = requestId ∧ isResult result then .ok () else .error .unexpected
  | .ok (.reject rejected) => .error (.rejected rejected.code)
  | .ok _ => .error .unexpected

def isCancelAll : AckResult → Bool
  | .cancelAll _ _ => true
  | _ => false

def isOrder : AckResult → Bool
  | .order _ _ _ _ => true
  | _ => false

/-- How the engine behaves in a round: the reply to each request, and what it does to the market
maker's resting orders of the symbol. The requests to cancel and those to place are numbered
apart. -/
structure Engine where
  cancelReply : ℕ → Except EngineClientError EngineResponse
  canceled : ℕ → List EngineOrder → List EngineOrder
  placeReply : ℕ → Except EngineClientError EngineResponse
  placed : ℕ → EngineOrder → List EngineOrder → List EngineOrder

/-- The identifiers drawn in a round: of the requests, and of the orders placed. -/
structure Ids where
  cancelRequest : ℕ → Uuid
  placeRequest : ℕ → Uuid
  order : ℕ → Uuid

/-- The market maker's resting orders of each symbol, and how many requests were made. -/
structure World where
  resting : String → List EngineOrder
  cancels : ℕ
  places : ℕ

def World.setResting (w : World) (symbol : String) (orders : List EngineOrder) : World :=
  { w with resting := fun s => if s = symbol then orders else w.resting s }

@[simp] theorem World.resting_setResting_self (w : World) (symbol : String)
    (orders : List EngineOrder) : (w.setResting symbol orders).resting symbol = orders := by
  simp [setResting]

@[simp] theorem World.resting_setResting_ne (w : World) {symbol s : String}
    (orders : List EngineOrder) (h : s ≠ symbol) :
    (w.setResting symbol orders).resting s = w.resting s := by
  simp [setResting, h]

/-- `?`: what follows is done only if there was no error. -/
def andThen (r : World × Except EngineClientError Unit)
    (f : World → World × Except EngineClientError Unit) : World × Except EngineClientError Unit :=
  match r with
  | (w, .ok ()) => f w
  | (w, .error error) => (w, .error error)

section

variable (engine : Engine) (ids : Ids)

def Engine.cancelResult (n : ℕ) : Except EngineClientError Unit :=
  resultOf (ids.cancelRequest n) isCancelAll (engine.cancelReply n)

def Engine.placeResult (n : ℕ) : Except EngineClientError Unit :=
  resultOf (ids.placeRequest n) isOrder (engine.placeReply n)

def cancelAll (symbol : String) (w : World) : World × Except EngineClientError Unit :=
  ({ w.setResting symbol (engine.canceled w.cancels (w.resting symbol)) with
      cancels := w.cancels + 1 },
    engine.cancelResult ids w.cancels)

def place (order : EngineOrder) (w : World) : World × Except EngineClientError Unit :=
  ({ w.setResting order.symbol (engine.placed w.places order (w.resting order.symbol)) with
      places := w.places + 1 },
    engine.placeResult ids w.places)

end

def quoteOrder (id userId : Uuid) (symbol : String) (side : OrderSide) (level : QuoteLevel) :
    EngineOrder where
  id := id
  userId := userId
  symbol := symbol
  side := side
  orderType := .postOnly
  price := some level.price
  quantity := level.quantity
  stpMode := .decrement
  stopPrice := none
  ocoLinkedId := none
  displayQty := none

/-! ## The market maker -/

/-- Times are instants of a monotonic clock. -/
structure TimedTicker where
  ticker : BookTicker
  updatedAt : ℕ

structure MarketMaker where
  quoteGenerator : QuoteGenerator
  quotedSymbols : List String
  userId : Uuid
  staleAfter : ℕ
  latest : OrdMap String TimedTicker

def MarketMaker.new (userId : Uuid) (staleAfter : ℕ) (quotedSymbols : List String) :
    MarketMaker :=
  ⟨.default10x10, quotedSymbols, userId, staleAfter, OrdMap.empty⟩

def MarketMaker.recordTicker (mm : MarketMaker) (ticker : BookTicker) (now : ℕ) : MarketMaker :=
  if ticker.symbol ∉ mm.quotedSymbols then mm
  else { mm with latest := mm.latest.insert ticker.symbol ⟨ticker, now⟩ }

/-- `timed.updated_at.elapsed() > self.stale_after` -/
def MarketMaker.Stale (mm : MarketMaker) (timed : TimedTicker) (now : ℕ) : Prop :=
  mm.staleAfter < now - timed.updatedAt

instance (mm : MarketMaker) (timed : TimedTicker) (now : ℕ) : Decidable (mm.Stale timed now) :=
  inferInstanceAs (Decidable (_ < _))

section

variable (arith : Arithmetic) (engine : Engine) (ids : Ids)

/-- One of the loops over the levels of a side. -/
def placeLevels (userId : Uuid) (symbol : String) (side : OrderSide) :
    List QuoteLevel → World → World × Except EngineClientError Unit
  | [], w => (w, .ok ())
  | level :: levels, w =>
    andThen (place engine ids (quoteOrder (ids.order w.places) userId symbol side level) w)
      (placeLevels userId symbol side levels)

/-- What a round does for one symbol. -/
def refreshSymbol (mm : MarketMaker) (now : ℕ) (symbol : String) (timed : TimedTicker)
    (w : World) : World × Except EngineClientError Unit :=
  if mm.Stale timed now then cancelAll engine ids symbol w
  else
    let quotes := mm.quoteGenerator.generate arith timed.ticker
    andThen (cancelAll engine ids symbol w) fun w =>
      andThen (placeLevels engine ids mm.userId symbol .buy quotes.bids w)
        (placeLevels engine ids mm.userId symbol .sell quotes.asks)

/-- The loop over the tickers; `clock i` is the time when it comes to the ticker number `i`. -/
def refreshLoop (mm : MarketMaker) (clock : ℕ → ℕ) :
    ℕ → List (String × TimedTicker) → World → World × Except EngineClientError Unit
  | _, [], w => (w, .ok ())
  | i, (symbol, timed) :: tickers, w =>
    andThen (refreshSymbol arith engine ids mm (clock i) symbol timed w)
      (refreshLoop mm clock (i + 1) tickers)

/-- A round over the tickers in the order in which the map is iterated. -/
def refreshQuotes (mm : MarketMaker) (clock : ℕ → ℕ) (tickers : List (String × TimedTicker))
    (w : World) : World × Except EngineClientError Unit :=
  refreshLoop arith engine ids mm clock 0 tickers w

end

/-! ## What a round leaves alone, and where it ends -/

section

variable {arith : Arithmetic} {engine : Engine} {ids : Ids} {mm : MarketMaker} {clock : ℕ → ℕ}
  {userId : Uuid} {symbol s : String} {side : OrderSide}

/-- The requests to cancel succeed, and leave none of the market maker's orders. -/
structure CancelsSucceed (engine : Engine) (ids : Ids) : Prop where
  ok : ∀ n, engine.cancelResult ids n = .ok ()
  clears : ∀ n orders, engine.canceled n orders = []

/-- After a success the next action runs, -/
theorem andThen_ok {r : World × Except EngineClientError Unit}
    {f : World → World × Except EngineClientError Unit} (h : r.2 = .ok ()) :
    andThen r f = f r.1 := by
  obtain ⟨w, result⟩ := r
  subst h
  rfl

/-- after an error it does not. -/
theorem andThen_error {r : World × Except EngineClientError Unit}
    {f : World → World × Except EngineClientError Unit} {error : EngineClientError}
    (h : r.2 = .error error) : andThen r f = (r.1, .error error) := by
  obtain ⟨w, result⟩ := r
  subst h
  rfl

/-- Whether `n` placements succeed from the next one on. -/
def PlacesOk (engine : Engine) (ids : Ids) (w : World) (n : ℕ) : Prop :=
  ∀ k < n, engine.placeResult ids (w.places + k) = .ok ()

theorem placesOk_zero (w : World) : PlacesOk engine ids w 0 := by
  intro k hk
  omega

/-- The placements of two stretches succeed if those of each do. -/
theorem placesOk_add {w w' : World} {n m : ℕ} (h : w'.places = w.places + n) :
    PlacesOk engine ids w (n + m) ↔ PlacesOk engine ids w n ∧ PlacesOk engine ids w' m := by
  constructor
  · intro hall
    refine ⟨fun k hk => hall k (by omega), fun k hk => ?_⟩
    rw [h, Nat.add_assoc]
    exact hall (n + k) (by omega)
  · rintro ⟨hfirst, hrest⟩ k hk
    rcases Nat.lt_or_ge k n with hlt | hge
    · exact hfirst k hlt
    · have hk' := hrest (k - n) (by omega)
      rwa [h, Nat.add_assoc, Nat.add_sub_cancel' hge] at hk'

/-- What placing does: it touches one symbol, it succeeds if its requests do, and then it made
so many of them. -/
structure Places (engine : Engine) (ids : Ids) (symbol : String) (n : ℕ) (w : World)
    (r : World × Except EngineClientError Unit) : Prop where
  others : ∀ s, s ≠ symbol → r.1.resting s = w.resting s
  ok_iff : r.2 = .ok () ↔ PlacesOk engine ids w n
  places : r.2 = .ok () → r.1.places = w.places + n

/-- One placement after another. -/
theorem Places.andThen {w : World} {n m : ℕ} {r : World × Except EngineClientError Unit}
    {f : World → World × Except EngineClientError Unit} (h : Places engine ids symbol n w r)
    (hf : ∀ w', Places engine ids symbol m w' (f w')) :
    Places engine ids symbol (n + m) w (andThen r f) := by
  have hnext := hf r.1
  -- after an error nothing more is placed
  rcases hr : r.2 with error | ⟨⟩
  · have hnot : ¬PlacesOk engine ids w n := by
      rw [← h.ok_iff, hr]
      simp
    rw [andThen_error hr]
    constructor
    · exact h.others
    · have hfew : ¬PlacesOk engine ids w (n + m) := fun hall => hnot fun k hk => hall k (by omega)
      simp [hfew]
    · simp
  · have hplaces := h.places hr
    rw [andThen_ok hr]
    constructor
    · intro s hs
      rw [hnext.others s hs, h.others s hs]
    · rw [hnext.ok_iff, placesOk_add hplaces, ← h.ok_iff, hr]
      simp
    · intro hok
      rw [hnext.places hok, hplaces]
      omega

/-- One order is one placement. -/
theorem place_places (order : EngineOrder) (w : World) (h : order.symbol = symbol) :
    Places engine ids symbol 1 w (place engine ids order w) := by
  subst h
  constructor
  · intro s hs
    exact w.resting_setResting_ne _ hs
  · constructor
    · intro hok k hk
      obtain rfl : k = 0 := by omega
      exact hok
    · intro hall
      exact hall 0 (by omega)
  · intro _
    rfl

/-- One placement for each level, until one fails. -/
theorem placeLevels_places (levels : List QuoteLevel) (w : World) :
    Places engine ids symbol levels.length w
      (placeLevels engine ids userId symbol side levels w) := by
  induction levels generalizing w with
  | nil =>
    constructor
    · intro s _
      rfl
    · simp [placeLevels, placesOk_zero]
    · intro _
      rfl
  | cons level levels ih =>
    rw [List.length_cons, Nat.add_comm]
    have hfirst : Places engine ids symbol 1 w
        (place engine ids (quoteOrder (ids.order w.places) userId symbol side level) w) :=
      place_places _ w rfl
    exact hfirst.andThen ih

/-- How many placements a round makes for these tickers if none fails. -/
def quotesDue (mm : MarketMaker) (clock : ℕ → ℕ) : ℕ → List (String × TimedTicker) → ℕ
  | _, [] => 0
  | i, (_, timed) :: tickers =>
    (if mm.Stale timed (clock i) then 0 else 2 * mm.quoteGenerator.levels) +
      quotesDue mm clock (i + 1) tickers

/-- What a round does for one symbol: where the ticker is stale no order of it is left. -/
theorem refreshSymbol_places (hcancel : CancelsSucceed engine ids) (now : ℕ)
    (timed : TimedTicker) (w : World) :
    Places engine ids symbol (if mm.Stale timed now then 0 else 2 * mm.quoteGenerator.levels) w
        (refreshSymbol arith engine ids mm now symbol timed w) ∧
      (mm.Stale timed now →
        (refreshSymbol arith engine ids mm now symbol timed w).1.resting symbol = []) := by
  have hcanceled : Places engine ids symbol 0 w (cancelAll engine ids symbol w) := by
    constructor
    · intro s hs
      exact w.resting_setResting_ne _ hs
    · simp [cancelAll, hcancel.ok, placesOk_zero]
    · intro _
      rfl
  unfold refreshSymbol
  -- a stale ticker is withdrawn and not quoted
  split_ifs with hstale
  · refine ⟨hcanceled, fun _ => ?_⟩
    simp [cancelAll, World.setResting, hcancel.clears]
  · -- the ladder is withdrawn and both of its sides are placed again
    refine ⟨?_, fun h => absurd h hstale⟩
    have hquotes : ∀ w', Places engine ids symbol
        (mm.quoteGenerator.levels + mm.quoteGenerator.levels) w'
        (andThen (placeLevels engine ids mm.userId symbol .buy
            (mm.quoteGenerator.generate arith timed.ticker).bids w')
          (placeLevels engine ids mm.userId symbol .sell
            (mm.quoteGenerator.generate arith timed.ticker).asks)) := by
      intro w'
      refine Places.andThen ?_ fun w'' => ?_
      · rw [← length_bids]
        exact placeLevels_places _ w'
      · rw [← length_asks]
        exact placeLevels_places _ w''
    have hall := hcanceled.andThen hquotes
    rwa [Nat.zero_add, ← Nat.two_mul] at hall

/-- A round leaves the symbols alone that are not among its tickers. -/
theorem refreshLoop_others (hcancel : CancelsSucceed engine ids) {i : ℕ}
    {tickers : List (String × TimedTicker)} {w : World} (h : s ∉ tickers.map Prod.fst) :
    (refreshLoop arith engine ids mm clock i tickers w).1.resting s = w.resting s := by
  induction tickers generalizing i w with
  | nil => rfl
  | cons entry tickers ih =>
    obtain ⟨symbol, timed⟩ := entry
    simp only [List.map_cons, List.mem_cons, not_or] at h
    obtain ⟨hne, hrest⟩ := h
    have hfirst : (refreshSymbol arith engine ids mm (clock i) symbol timed w).1.resting s
        = w.resting s := (refreshSymbol_places hcancel (clock i) timed w).1.others s hne
    unfold refreshLoop
    rcases hr : (refreshSymbol arith engine ids mm (clock i) symbol timed w).2 with error | ⟨⟩
    · rw [andThen_error hr]
      exact hfirst
    · rw [andThen_ok hr, ih hrest]
      exact hfirst

/-- Where a round comes to a stale ticker the symbol is cleared, and it comes there if all the
placements before succeed. -/
theorem refreshLoop_stale (hcancel : CancelsSucceed engine ids) {i : ℕ}
    {pre post : List (String × TimedTicker)} {timed : TimedTicker} {w : World}
    (hnodup : ((pre ++ (s, timed) :: post).map Prod.fst).Nodup)
    (hstale : mm.Stale timed (clock (i + pre.length))) :
    (refreshLoop arith engine ids mm clock i (pre ++ (s, timed) :: post) w).1.resting s = [] ↔
      w.resting s = [] ∨ PlacesOk engine ids w (quotesDue mm clock i pre) := by
  -- the induction is on the tickers before the stale one; `i` counts them
  induction pre generalizing i w with
  | nil =>
    have hcleared : (refreshSymbol arith engine ids mm (clock i) s timed w).1.resting s = [] :=
      (refreshSymbol_places hcancel (clock i) timed w).2 hstale
    have hok : (refreshSymbol arith engine ids mm (clock i) s timed w).2 = .ok () := by
      have hstale' : mm.Stale timed (clock i) := hstale
      rw [(refreshSymbol_places hcancel (clock i) timed w).1.ok_iff, if_pos hstale']
      exact placesOk_zero w
    have hlast : s ∉ post.map Prod.fst := by
      rw [List.nil_append, List.map_cons, List.nodup_cons] at hnodup
      exact hnodup.1
    have hend : (refreshLoop arith engine ids mm clock i ((s, timed) :: post) w).1.resting s
        = [] := by
      unfold refreshLoop
      rw [andThen_ok hok, refreshLoop_others hcancel hlast]
      exact hcleared
    have hdue : PlacesOk engine ids w (quotesDue mm clock i []) := placesOk_zero w
    exact ⟨fun _ => .inr hdue, fun _ => hend⟩
  | cons entry pre ih =>
    obtain ⟨symbol, timed'⟩ := entry
    rw [List.cons_append, List.map_cons, List.nodup_cons] at hnodup
    obtain ⟨hfirst, hnodup⟩ := hnodup
    have hne : s ≠ symbol := by
      rintro rfl
      exact hfirst (by simp)
    have hplaces : Places engine ids symbol
        (if mm.Stale timed' (clock i) then 0 else 2 * mm.quoteGenerator.levels) w
        (refreshSymbol arith engine ids mm (clock i) symbol timed' w) :=
      (refreshSymbol_places hcancel (clock i) timed' w).1
    rw [List.cons_append, refreshLoop, quotesDue]
    rcases hr : (refreshSymbol arith engine ids mm (clock i) symbol timed' w).2 with error | ⟨⟩
    · -- the round ends here: one of the placements for this symbol failed
      have hfails : ¬PlacesOk engine ids w
          (if mm.Stale timed' (clock i) then 0 else 2 * mm.quoteGenerator.levels) := by
        rw [← hplaces.ok_iff, hr]
        simp
      have hnot : ¬PlacesOk engine ids w
          ((if mm.Stale timed' (clock i) then 0 else 2 * mm.quoteGenerator.levels) +
            quotesDue mm clock (i + 1) pre) :=
        fun hall => hfails fun k hk => hall k (by omega)
      rw [andThen_error hr, hplaces.others s hne]
      exact ⟨.inl, fun h => h.resolve_right hnot⟩
    · have hclock : i + 1 + pre.length = i + (pre.length + 1) := by omega
      rw [andThen_ok hr, ih hnodup (by rwa [hclock]), hplaces.others s hne,
        placesOk_add (hplaces.places hr), ← hplaces.ok_iff, hr]
      simp

/-- A round withdraws every stale quote exactly if all the placements due before each of the
stale symbols with resting orders succeed. -/
theorem refreshQuotes_withdraws_iff {start : ℕ} {tickers : List (String × TimedTicker)}
    {w : World} (hcancel : CancelsSucceed engine ids) (hclock : ∀ i, start ≤ clock i)
    (horder : tickers.Perm mm.latest.entries) :
    (∀ symbol timed, (symbol, timed) ∈ tickers → mm.Stale timed start →
        (refreshQuotes arith engine ids mm clock tickers w).1.resting symbol = []) ↔
      ∀ pre symbol timed post, tickers = pre ++ (symbol, timed) :: post →
        mm.Stale timed start → w.resting symbol ≠ [] →
          PlacesOk engine ids w (quotesDue mm clock 0 pre) := by
  have hnodup : (tickers.map Prod.fst).Nodup := by
    have hkeys : mm.latest.keys.Nodup := mm.latest.keys_sorted.imp ne_of_lt
    exact (horder.map Prod.fst).nodup_iff.2 hkeys
  -- a ticker that is stale when the round starts is stale when the round comes to it
  have hlate : ∀ {timed i}, mm.Stale timed start → mm.Stale timed (clock i) := by
    intro timed i hstale
    have := hclock i
    unfold MarketMaker.Stale at hstale ⊢
    omega
  constructor
  · rintro hall pre symbol timed post rfl hstale hresting
    have hend := hall symbol timed (by simp) hstale
    have hcases := (refreshLoop_stale hcancel hnodup (hlate hstale)).1 hend
    exact hcases.resolve_left hresting
  · intro hall symbol timed hmem hstale
    obtain ⟨pre, post, rfl⟩ := List.append_of_mem hmem
    apply (refreshLoop_stale hcancel hnodup (hlate hstale)).2
    by_cases hresting : w.resting symbol = []
    · exact .inl hresting
    · exact .inr (hall pre symbol timed post rfl hstale hresting)

end

/-! ### Two symbols, one of them stale -/

/-- Exact up to the last digit, for values without overflow. -/
def sampleArithmetic : Arithmetic where
  add := fun a b => a + b
  sub := fun a b => a - b
  mul := fun a b => a * b / 10 ^ 28
  div := fun a b => a * 10 ^ 28 / b

def sampleIds : Ids := ⟨fun n => n, fun n => n, fun n => 100 + n⟩

/-- An engine that cancels, and acknowledges every order with the status given or else rejects
it. -/
def sampleEngine (status : Option Proto.OrderStatus) : Engine where
  cancelReply := fun n => .ok (.ack (sampleIds.cancelRequest n) (.cancelAll [] 0))
  canceled := fun _ _ => []
  placeReply := fun n =>
    match status with
    | some status => .ok (.ack (sampleIds.placeRequest n) (.order (sampleIds.order n) status [] 0))
    | none => .ok (.reject ⟨sampleIds.placeRequest n, "POST_ONLY_REJECTED",
        "post-only order would cross the book"⟩)
  placed := fun _ order orders => if status.isSome then orders ++ [order] else orders

def sampleTicker (symbol : String) : BookTicker :=
  ⟨symbol, decimal 100, decimal 1, decimal 102, decimal 1⟩

/-- One ticker is a minute old, the other is new. -/
def sampleMaker : MarketMaker :=
  ((MarketMaker.new 7 30000 ["BTCUSDT", "ETHUSDT"]).recordTicker (sampleTicker "ETHUSDT")
    0).recordTicker (sampleTicker "BTCUSDT") 60000

/-- An order at the price of a minute ago rests in the stale symbol. -/
def sampleWorld : World where
  resting := fun symbol =>
    if symbol = "ETHUSDT" then
      [quoteOrder 50 7 "ETHUSDT" .buy ⟨decimal 100, decimal 1⟩]
    else []
  cancels := 0
  places := 0

theorem sampleEngine_cancels (status : Option Proto.OrderStatus) :
    CancelsSucceed (sampleEngine status) sampleIds := by
  constructor
  · intro n
    simp [Engine.cancelResult, sampleEngine, resultOf, isCancelAll]
  · intro n orders
    rfl

theorem sampleMaker_entries : sampleMaker.latest.entries =
    [("BTCUSDT", ⟨sampleTicker "BTCUSDT", 60000⟩), ("ETHUSDT", ⟨sampleTicker "ETHUSDT", 0⟩)] := by
  rfl

/-- Where the engine takes the orders the stale one is gone. -/
theorem refreshQuotes_withdraws_old :
    (refreshQuotes sampleArithmetic (sampleEngine (some .new)) sampleIds sampleMaker
      (fun _ => 60000) sampleMaker.latest.entries sampleWorld).1.resting "ETHUSDT" = [] := by
  have hclock : ∀ i : ℕ, 60000 ≤ (fun _ : ℕ => 60000) i := fun _ => le_refl _
  refine (refreshQuotes_withdraws_iff (sampleEngine_cancels _) hclock (List.Perm.refl _)).2 ?_
    "ETHUSDT" ⟨sampleTicker "ETHUSDT", 0⟩ ?_ ?_
  · -- every placement succeeds
    intro pre symbol timed post _ _ _ k _
    simp [Engine.placeResult, sampleEngine, resultOf, isOrder]
  · rw [sampleMaker_entries]
    simp
  · decide

/-- The engine rejects the first order for the fresh symbol: the round ends, and the stale symbol
keeps its order. -/
theorem stale_order_rests :
    CancelsSucceed (sampleEngine none) sampleIds ∧
      sampleMaker.Stale ⟨sampleTicker "ETHUSDT", 0⟩ 60000 ∧
      ("ETHUSDT", ⟨sampleTicker "ETHUSDT", 0⟩) ∈ sampleMaker.latest.entries ∧
      (refreshQuotes sampleArithmetic (sampleEngine none) sampleIds sampleMaker (fun _ => 60000)
        sampleMaker.latest.entries sampleWorld).2 =
          .error (.rejected "POST_ONLY_REJECTED") ∧
      (refreshQuotes sampleArithmetic (sampleEngine none) sampleIds sampleMaker (fun _ => 60000)
        sampleMaker.latest.entries sampleWorld).1.resting "ETHUSDT" ≠ [] := by
  refine ⟨sampleEngine_cancels none, by decide, ?_, ?_, ?_⟩
  · rw [sampleMaker_entries]
    simp
  · rw [sampleMaker_entries]
    rfl
  · rw [sampleMaker_entries]
    decide +kernel

end CryptoCex.MarketData
