import CryptoCex.Core.Grid
import CryptoCex.Server.Replay

/-!
# The exchange on a grid

On orders whose quantities are on a grid, every command does to the books what it does with exact
arithmetic (`Step.of_grid`, `ReplayStep.of_grid`), so what is known of the books of exact
arithmetic is known of those of the engine. Nothing is said of the depth that is published with
them: the total of a level may need to be rounded where none of its orders does.
-/

namespace CryptoCex.Server

open CryptoCex.Core CryptoCex.Core.OrderBook
open Proto (EngineOrder EngineRequest)

/-- The admitted orders of the requests have their quantities on the grid. -/
def PlacedOnGrid (D : Set Decimal) (reqs : List EngineRequest) : Prop :=
  ∀ requestId order, .place requestId order ∈ reqs → validateWireOrder requestId order = none →
    (toCoreOrder order).OnGrid D

/-- In exact arithmetic every admitted order is on the grid. -/
theorem placedOnGrid_univ (reqs : List EngineRequest) : PlacedOnGrid Set.univ reqs :=
  fun _ _ _ hvalid => ⟨(EngineState.admissible_of_valid hvalid).positive, Set.mem_univ _,
    fun _ _ => Set.mem_univ _⟩

theorem PlacedOnGrid.mono {D : Set Decimal} {reqs reqs' : List EngineRequest}
    (h : PlacedOnGrid D reqs') (hsub : reqs ⊆ reqs') : PlacedOnGrid D reqs :=
  fun requestId order hmem => h requestId order (hsub hmem)

namespace Exchange

/-- Every book holds orders on the grid. -/
def OnGrid (D : Set Decimal) (x : Exchange) : Prop :=
  ∀ symbol b, x.books.find? symbol = some b → b.All (Order.OnGrid D)

variable {D : Set Decimal} {fuel : ℕ} {x y : Exchange} {cmd : WalCommand}

theorem onGrid_empty (D : Set Decimal) : empty.OnGrid D := by
  intro symbol b h
  cases h

theorem OnGrid.bookOf (h : x.OnGrid D) (symbol : String) :
    (x.bookOf symbol).All (Order.OnGrid D) := by
  unfold Exchange.bookOf
  cases hbook : x.books.find? symbol with
  | none => exact all_new _
  | some b => exact h symbol b hbook

/-- Putting back a book on the grid keeps the exchange on it. -/
theorem OnGrid.insert (h : x.OnGrid D) {symbol : String} {b : OrderBook}
    (hb : b.All (Order.OnGrid D)) (openOrders : OpenOrders) :
    OnGrid D ⟨x.books.insert symbol b, openOrders⟩ := by
  intro symbol' b' hfind
  rw [OrdMap.find?_insert] at hfind
  split_ifs at hfind
  · cases hfind
    exact hb
  · exact h symbol' b' hfind

/-- Registering an OCO pair changes no order. -/
theorem all_linkOco {K : Order → Prop} {b : OrderBook} (hb : b.All K) (order : Order) :
    (EngineState.linkOco b order).All K := by
  unfold EngineState.linkOco
  split
  · exact hb
  · exact ⟨hb.noEmpty, hb.all⟩

variable [Rounding] (hD : Grid D)

include hD

/-- A match does what it does with exact arithmetic. -/
theorem matchInBook_grid {b : OrderBook} {order : Order} (hb : b.All (Order.OnGrid D))
    (horder : order.OnGrid D) :
    EngineState.matchInBook fuel b order = @EngineState.matchInBook Rounding.exact fuel b order ∧
      ∀ r, EngineState.matchInBook fuel b order = some r → r.1.All (Order.OnGrid D) :=
  matchOrder_grid hD fuel (all_linkOco hb order) horder

/-- One command does to the books what exact arithmetic does. -/
theorem Step.of_grid (h : Step fuel x cmd y) (hx : x.OnGrid D)
    (hcmd : ∀ order, cmd = .placeOrder order → order.OnGrid D) :
    (∃ z, @Step Rounding.exact fuel x cmd z ∧ z.books = y.books) ∧ y.OnGrid D := by
  cases h with
  | @placed requestId order book events hmatch haccepted =>
    obtain ⟨heq, hkeep⟩ := matchInBook_grid hD (hx.bookOf order.symbol) (hcmd order rfl)
    exact ⟨⟨_, @Step.placed Rounding.exact _ _ requestId _ _ _ (heq ▸ hmatch) haccepted, rfl⟩,
      hx.insert (hkeep _ hmatch) _⟩
  | @rejected requestId order book events hmatch hrejected =>
    obtain ⟨heq, hkeep⟩ := matchInBook_grid hD (hx.bookOf order.symbol) (hcmd order rfl)
    exact ⟨⟨_, @Step.rejected Rounding.exact _ _ requestId _ _ _ (heq ▸ hmatch) hrejected, rfl⟩,
      hx.insert (hkeep _ hmatch) _⟩
  | @cancelled orderId entry book hentry hbook =>
    exact ⟨⟨_, @Step.cancelled Rounding.exact _ _ _ _ _ hentry hbook, rfl⟩,
      hx.insert ((within_cancelOrder book orderId).all (hx _ _ hbook)) _⟩
  | bookless hentry hbook =>
    exact ⟨⟨_, @Step.bookless Rounding.exact _ _ _ _ hentry hbook, rfl⟩, hx⟩

/-- So does one command that is replayed. -/
theorem ReplayStep.of_grid (h : ReplayStep fuel x cmd y) (hx : x.OnGrid D)
    (hcmd : ∀ order, cmd = .placeOrder order → order.OnGrid D) :
    ((∃ z, @Step Rounding.exact fuel x cmd z ∧ z.books = y.books) ∨ y = x) ∧ y.OnGrid D := by
  rcases h.books with ⟨z, hstep, hbooks⟩ | rfl
  · obtain ⟨⟨z', hexact, hbooks'⟩, hz⟩ := hstep.of_grid hD hx hcmd
    refine ⟨.inl ⟨z', hexact, hbooks'.trans hbooks⟩, ?_⟩
    intro symbol b hfind
    exact hz symbol b (hbooks ▸ hfind)
  · exact ⟨.inr rfl, hx⟩

/-! ## What the books hold -/

variable {placed : List Order}

/-- What is known after a command of exact arithmetic is known after the command. -/
theorem Step.known_of_grid (h : Step fuel x cmd y) (hx : x.OnGrid D) (hknown : Known placed x)
    (hcmd : ∀ order, cmd = .placeOrder order →
      order.OnGrid D ∧ order.Admissible ∧ order.id ∉ placed.map (·.id)) :
    Known (placed ++ placedOrders [cmd]) y ∧ y.OnGrid D := by
  obtain ⟨⟨z, hexact, hbooks⟩, hy⟩ := h.of_grid hD hx fun order heq => (hcmd order heq).1
  exact ⟨(hexact.known hknown fun order heq => (hcmd order heq).2).of_books hbooks.symm, hy⟩

/-- The same for a command that is replayed. -/
theorem ReplayStep.known_of_grid (h : ReplayStep fuel x cmd y) (hx : x.OnGrid D)
    (hknown : Known placed x) (hcmd : ∀ order, cmd = .placeOrder order →
      order.OnGrid D ∧ order.Admissible ∧ order.id ∉ placed.map (·.id)) :
    Known (placed ++ placedOrders [cmd]) y ∧ y.OnGrid D := by
  obtain ⟨⟨z, hexact, hbooks⟩ | rfl, hy⟩ := h.of_grid hD hx fun order heq => (hcmd order heq).1
  · exact ⟨(hexact.known hknown fun order heq => (hcmd order heq).2).of_books hbooks.symm, hy⟩
  · exact ⟨hknown.mono (List.subset_append_left _ _), hx⟩

/-- The same for cancels, which compute nothing. -/
theorem Steps.known_of_cancels {ids : List Uuid} (h : Steps fuel x (ids.map .cancelOrder) y)
    (hx : x.OnGrid D) (hknown : Known placed x) : Known placed y ∧ y.OnGrid D := by
  refine h.cancels_invariant (fun x => Known placed x ∧ x.OnGrid D) ?_ ⟨hknown, hx⟩
  rintro x orderId y ⟨hknown, hx⟩ hstep
  have hy := hstep.known_of_grid hD hx hknown (by rintro order ⟨⟩)
  rwa [show placedOrders [.cancelOrder orderId] = [] from rfl, List.append_nil] at hy

/-- What a log stands for, replayed with rounding. -/
theorem Replayed.known_of_grid {entries : List WalEntry} (h : Replayed fuel entries x)
    (hcmds : Placeable (entries.map (·.command)))
    (hgrid : ∀ o ∈ placedOrders (entries.map (·.command)), o.OnGrid D) :
    Known (placedOrders (entries.map (·.command))) x ∧ x.OnGrid D := by
  refine h.induct (fun cmds x => Placeable cmds → (∀ o ∈ placedOrders cmds, o.OnGrid D) →
    Known (placedOrders cmds) x ∧ x.OnGrid D) ?_ ?_ hcmds hgrid
  · exact fun _ _ => ⟨known_empty, onGrid_empty D⟩
  · intro cmds x cmd y ih hstep hcmds hgrid
    rw [placedOrders_append] at hgrid ⊢
    obtain ⟨hknown, hx⟩ := ih hcmds.init fun o ho => hgrid o (List.mem_append_left _ ho)
    refine hstep.known_of_grid hD hx hknown ?_
    rintro order rfl
    exact ⟨hgrid order (List.mem_append_right _ List.mem_cons_self), hcmds.last order rfl⟩

end Exchange

end CryptoCex.Server
