import Mathlib.Algebra.Ring.Int.Defs
import Mathlib.Data.Int.Order.Basic
import Mathlib.Tactic.Common

/-!
# Domain types of the matching engine

The vocabulary of `cex-core`: sides, order types, self-trade prevention modes,
cancel reasons, orders and fills.

A `Decimal` is a mantissa of at most 96 bits at a scale of at most 28, so it is
a whole number of units of `10⁻²⁸`, and comparison, `min` and zero tests of
decimals are those of the integers counting these units. A sum or a difference is
exact only while its mantissa fits: beyond 96 bits `rust_decimal` drops places
and rounds. The operations of the engine therefore take the rounding as a
parameter (`Rounding`). Prices and quantities may have any sign: what the engine
rejects is a question of its checks, not of its types.
-/

namespace CryptoCex.Core

/-- A decimal number, counted in units of `10⁻²⁸`. -/
abbrev Decimal := ℤ

/-! ## Sums and differences -/

/-- The decimal that is returned for a sum or a difference with this exact
value. -/
class Rounding where
  round : Decimal → Decimal

/-- Exact arithmetic; it is meant wherever no other rounding is in scope. -/
instance Rounding.exact : Rounding := ⟨id⟩

namespace Decimal

variable [Rounding]

/-- `a - b` -/
def sub (a b : Decimal) : Decimal := Rounding.round (a - b)

/-- `a + b` -/
def add (a b : Decimal) : Decimal := Rounding.round (a + b)

/-- `xs.iter().sum()` -/
def sum (xs : List Decimal) : Decimal := xs.foldl add 0

end Decimal

@[simp] theorem Decimal.sub_exact (a b : Decimal) : Decimal.sub a b = a - b := rfl

@[simp] theorem Decimal.add_exact (a b : Decimal) : Decimal.add a b = a + b := rfl

/-- In exact arithmetic a sum is the sum. -/
@[simp] theorem Decimal.sum_exact (xs : List Decimal) : Decimal.sum xs = xs.sum := by
  rw [List.sum_eq_foldl]
  rfl

/-- A 128-bit identifier; only equality and order of identifiers matter. -/
abbrev Uuid := ℕ

/-- Side of the order. -/
inductive Side where
  | buy
  | sell
deriving DecidableEq, Repr

/-- The opposite side. -/
def Side.opposite : Side → Side
  | .buy => .sell
  | .sell => .buy

@[simp] theorem Side.opposite_opposite (s : Side) : s.opposite.opposite = s := by
  cases s <;> rfl

@[simp] theorem Side.opposite_ne (s : Side) : s.opposite ≠ s := by
  cases s <;> simp [opposite]

/-- There are two sides. -/
theorem Side.eq_opposite_of_ne {s t : Side} (h : s ≠ t) : s = t.opposite := by
  cases s <;> cases t <;> simp_all [opposite]

/-- Type of the order. -/
inductive OrderType where
  | limit
  | market
  | ioc
  | fok
  | postOnly
  | stopLimit
  | stopMarket
  | oco
  | iceberg
deriving DecidableEq, Repr

/-- Order types that live in the stop registry until triggered. -/
def OrderType.isStop : OrderType → Bool
  | .stopLimit | .stopMarket => true
  | _ => false

/-- Order types whose remainder is put on the book when matching ends, at
once or, for a stop-limit order, after it was triggered. -/
def OrderType.canRest : OrderType → Bool
  | .limit | .postOnly | .stopLimit | .oco | .iceberg => true
  | _ => false

/-- Self-trade prevention mode of the taker. -/
inductive StpMode where
  | decrement
  | cancelMaker
  | cancelTaker
deriving DecidableEq, Repr

/-- Stable cancellation reason codes. -/
inductive CancelReason where
  | noLiquidity
  | fokUnfilled
  | postOnlyCrossed
  | selfTradePrevented
  | oco
  | adminCancel
deriving DecidableEq, Repr

/-- An order as the matching engine sees it. -/
structure Order where
  id : Uuid
  userId : Uuid
  symbol : String
  side : Side
  orderType : OrderType
  /-- Limit price. -/
  price : Option Decimal
  /-- Total original quantity. -/
  quantity : Decimal
  /-- Quantity still to match or rest. -/
  remaining : Decimal
  stpMode : StpMode
  /-- Trigger price of stop orders. -/
  stopPrice : Option Decimal
  /-- The paired leg of an OCO order. -/
  ocoLinkedId : Option Uuid
  /-- Largest quantity shown on the book at once. -/
  displayQty : Option Decimal
deriving DecidableEq, Repr

/-- A limit order with cancel-taker self-trade prevention and no optional
field. -/
def limitOrder (id userId : Uuid) (side : Side) (price quantity : Decimal) : Order where
  id := id
  userId := userId
  symbol := "BTC-USD"
  side := side
  orderType := .limit
  price := some price
  quantity := quantity
  remaining := quantity
  stpMode := .cancelTaker
  stopPrice := none
  ocoLinkedId := none
  displayQty := none

/-- The order with another remaining quantity. -/
def Order.withRemaining (o : Order) (r : Decimal) : Order := { o with remaining := r }

@[simp] theorem Order.remaining_withRemaining (o : Order) (r : Decimal) :
    (o.withRemaining r).remaining = r := rfl

@[simp] theorem Order.id_withRemaining (o : Order) (r : Decimal) :
    (o.withRemaining r).id = o.id := rfl

@[simp] theorem Order.userId_withRemaining (o : Order) (r : Decimal) :
    (o.withRemaining r).userId = o.userId := rfl

@[simp] theorem Order.symbol_withRemaining (o : Order) (r : Decimal) :
    (o.withRemaining r).symbol = o.symbol := rfl

@[simp] theorem Order.side_withRemaining (o : Order) (r : Decimal) :
    (o.withRemaining r).side = o.side := rfl

@[simp] theorem Order.orderType_withRemaining (o : Order) (r : Decimal) :
    (o.withRemaining r).orderType = o.orderType := rfl

@[simp] theorem Order.price_withRemaining (o : Order) (r : Decimal) :
    (o.withRemaining r).price = o.price := rfl

@[simp] theorem Order.quantity_withRemaining (o : Order) (r : Decimal) :
    (o.withRemaining r).quantity = o.quantity := rfl

@[simp] theorem Order.stpMode_withRemaining (o : Order) (r : Decimal) :
    (o.withRemaining r).stpMode = o.stpMode := rfl

@[simp] theorem Order.stopPrice_withRemaining (o : Order) (r : Decimal) :
    (o.withRemaining r).stopPrice = o.stopPrice := rfl

@[simp] theorem Order.ocoLinkedId_withRemaining (o : Order) (r : Decimal) :
    (o.withRemaining r).ocoLinkedId = o.ocoLinkedId := rfl

@[simp] theorem Order.displayQty_withRemaining (o : Order) (r : Decimal) :
    (o.withRemaining r).displayQty = o.displayQty := rfl

@[simp] theorem Order.withRemaining_withRemaining (o : Order) (r r' : Decimal) :
    (o.withRemaining r).withRemaining r' = o.withRemaining r' := rfl

/-- The quantity one turn of the matching loop may take from a resting order:
the visible slice of an order with a display quantity, else all of it. -/
def Order.effectiveQty (o : Order) : Decimal :=
  match o.displayQty with
  | none => o.remaining
  | some d => min d o.remaining

/-- A single trade between a taker and a maker. -/
structure Fill where
  takerOrderId : Uuid
  makerOrderId : Uuid
  /-- Execution price, the maker's resting price. -/
  price : Decimal
  quantity : Decimal
  takerSide : Side
deriving DecidableEq, Repr

/-- Core domain errors. Only the stop registry's `insert` constructs one. -/
inductive Error where
  | missingStopPrice
  | missingDisplayQty
  | missingPrice
  | missingOcoLink
deriving DecidableEq, Repr

end CryptoCex.Core
