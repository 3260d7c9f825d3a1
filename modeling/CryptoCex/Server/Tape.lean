import CryptoCex.Server.Covers

/-!
# The tape

What a subscriber of the event stream may rely on, told apart from the books: a tape has the
orders that were accepted, with what the fills have left of them, and it says which events may
come next. A fill is between two open orders of different users on opposite sides, at the price
of the maker and within the limit of the taker, and takes no more than is left of either; a cancel
names an open order with something left, and after it nothing more is said of that order.

The matching engine keeps to it: the events of a call are accepted by every tape on which the live
orders of the book stand with at least what they have left (`matchOrder_taped`,
`cancelOrder_taped`). A tape may show more than is left, since self-trade prevention takes
quantity without an event.
-/

namespace CryptoCex.Server

open CryptoCex.Core CryptoCex.Core.OrderBook Loop

/-- An order on the tape: as it was accepted, what the fills have left of it, and whether it was
canceled. -/
structure Standing where
  order : Order
  left : Decimal
  closed : Bool

def Standing.take (s : Standing) (quantity : Decimal) : Standing :=
  { s with left := s.left - quantity }

def Standing.close (s : Standing) : Standing := { s with closed := true }

/-- The orders on the tape, by their ids. -/
abbrev Standings := Uuid → Option Standing

/-- The fill is a trade of the two orders, on the market of the symbol. -/
structure Trade (symbol : String) (f : Fill) (taker maker : Standing) : Prop where
  users : taker.order.userId ≠ maker.order.userId
  takerSymbol : taker.order.symbol = symbol
  makerSymbol : maker.order.symbol = symbol
  takerSide : taker.order.side = f.takerSide
  makerSide : maker.order.side = f.takerSide.opposite
  price : maker.order.price = some f.price
  limit : takerPriceSatisfied taker.order f.price = true
  positive : 0 < f.quantity
  takerLeft : f.quantity ≤ taker.left
  makerLeft : f.quantity ≤ maker.left

namespace Standings

def modify (t : Standings) (id : Uuid) (f : Standing → Standing) : Standings :=
  fun x => if x = id then (t x).map f else t x

/-- The order is accepted. -/
def place (t : Standings) (order : Order) : Standings :=
  fun x => if x = order.id then some ⟨order, order.quantity, false⟩ else t x

def apply (t : Standings) : EngineEvent → Standings
  | .fill f =>
    (t.modify f.makerOrderId (·.take f.quantity)).modify f.takerOrderId (·.take f.quantity)
  | .cancelled id _ => t.modify id Standing.close
  | .rested _ _ => t
  | .stopTriggered _ => t

def applyAll (t : Standings) (events : List EngineEvent) : Standings := events.foldl apply t

def IsOpen (t : Standings) (id : Uuid) (s : Standing) : Prop := t id = some s ∧ s.closed = false

/-- The event may come next, on the market of the symbol. -/
def Allows (symbol : String) (t : Standings) : EngineEvent → Prop
  | .fill f => ∃ taker maker, t.IsOpen f.takerOrderId taker ∧ t.IsOpen f.makerOrderId maker ∧
      Trade symbol f taker maker
  | .cancelled id _ => ∃ s, t.IsOpen id s ∧ 0 < s.left
  | .rested id remaining => ∃ s, t.IsOpen id s ∧ 0 < remaining ∧ remaining ≤ s.left
  | .stopTriggered id => ∃ s, t.IsOpen id s

/-- Each of the events may come when it does. -/
def Accepts (symbol : String) : Standings → List EngineEvent → Prop
  | _, [] => True
  | t, e :: events => t.Allows symbol e ∧ (t.apply e).Accepts symbol events

variable {t : Standings} {symbol : String} {e : EngineEvent} {events events' : List EngineEvent}
  {id x : Uuid}

theorem modify_ne (t : Standings) (f : Standing → Standing) (h : x ≠ id) :
    t.modify id f x = t x := if_neg h

theorem modify_self (t : Standings) (f : Standing → Standing) :
    t.modify id f id = (t id).map f := if_pos rfl

theorem applyAll_append (t : Standings) (events events' : List EngineEvent) :
    t.applyAll (events ++ events') = (t.applyAll events).applyAll events' := List.foldl_append

/-- The standings accept two logs one after the other. -/
theorem accepts_append :
    t.Accepts symbol (events ++ events') ↔
      t.Accepts symbol events ∧ (t.applyAll events).Accepts symbol events' := by
  induction events generalizing t with
  | nil => simp [Accepts, applyAll]
  | cons e events ih =>
    simp only [List.cons_append, Accepts, ih, applyAll, List.foldl_cons]
    rw [and_assoc]

/-- An event leaves the orders alone that it does not name. -/
theorem apply_unnamed (hx : x ∉ e.names) : t.apply e x = t x := by
  cases e with
  | fill f =>
    simp only [EngineEvent.names, List.mem_cons, List.not_mem_nil, or_false, not_or] at hx
    rw [apply, modify_ne _ _ hx.2, modify_ne _ _ hx.1]
  | cancelled id reason =>
    simp only [EngineEvent.names, List.mem_singleton] at hx
    exact modify_ne _ _ hx
  | rested => rfl
  | stopTriggered => rfl

/-- Events that do not name an order leave its standing. -/
theorem applyAll_unnamed (hx : x ∉ named events) : t.applyAll events x = t x := by
  induction events generalizing t with
  | nil => rfl
  | cons e events ih =>
    rw [named_cons, List.mem_append, not_or] at hx
    exact (ih hx.2).trans (apply_unnamed hx.1)

end Standings

/-! ## The orders of a book on a tape -/

/-- The order stands on the tape as one of the symbol, with no less than it has left. -/
def Backs (t : Standings) (symbol : String) (o : Order) : Prop :=
  ∃ s, t.IsOpen o.id s ∧ o.remaining ≤ s.left ∧ s.order.userId = o.userId ∧
    s.order.side = o.side ∧ s.order.price = o.price ∧ s.order.symbol = symbol

/-- A live order on a tape. -/
def Stands (t : Standings) (symbol : String) (o : Order) : Prop := o.Sized ∧ Backs t symbol o

variable {t : Standings} {symbol : String} {o : Order} {events : List EngineEvent}

theorem Backs.of_eq {t' : Standings} (h : Backs t symbol o) (heq : t' o.id = t o.id) :
    Backs t' symbol o := by
  rcases h with ⟨s, ⟨hfind, hopen⟩, hs⟩
  exact ⟨s, ⟨heq.trans hfind, hopen⟩, hs⟩

theorem Backs.unnamed (h : Backs t symbol o) (hx : o.id ∉ named events) :
    Backs (t.applyAll events) symbol o := h.of_eq (Standings.applyAll_unnamed hx)

theorem Stands.unnamed (h : Stands t symbol o) (hx : o.id ∉ named events) :
    Stands (t.applyAll events) symbol o := ⟨h.1, h.2.unnamed hx⟩

/-- What backs an order backs less of it. -/
theorem Backs.mono (h : Backs t symbol o) {r : Decimal} (hr : r ≤ o.remaining) :
    Backs t symbol (o.withRemaining r) := by
  rcases h with ⟨s, hopen, hle, hs⟩
  exact ⟨s, hopen, hr.trans hle, hs⟩

theorem Stands.convertStop (h : Stands t symbol o) : Stands t symbol (Core.convertStop o) :=
  ⟨kept_sized.convert o h.1, h.2⟩

/-- An order that has something left may be canceled. -/
theorem Backs.allows_cancelled (h : Backs t symbol o) (hpos : 0 < o.remaining)
    (reason : CancelReason) : t.Allows symbol (.cancelled o.id reason) := by
  rcases h with ⟨s, hopen, hle, _⟩
  exact ⟨s, hopen, hpos.trans_le hle⟩

/-- An order that is backed may rest. -/
theorem Backs.allows_rested (h : Backs t symbol o) (hpos : 0 < o.remaining) :
    t.Allows symbol (.rested o.id o.remaining) := by
  rcases h with ⟨s, hopen, hle, _⟩
  exact ⟨s, hopen, hpos, hle⟩

/-- What a fill takes of an order it takes of its standing. -/
theorem Backs.take (h : Backs t symbol o) (quantity : Decimal) :
    Backs (t.modify o.id (·.take quantity)) symbol (o.withRemaining (o.remaining - quantity)) := by
  rcases h with ⟨s, ⟨hfind, hopen⟩, hle, hs⟩
  refine ⟨s.take quantity, ⟨?_, hopen⟩, ?_, hs⟩
  · simp only [Order.id_withRemaining, Standings.modify_self, hfind, Option.map_some]
  · show o.remaining - quantity ≤ s.left - quantity
    lia

/-! ## One turn -/

section Turn

variable {a : Pass} {taker m : Order} {others : Multiset Order} {price : Decimal}

/-- A fill of the faced order, on the tape. -/
theorem Faces.taped_fill (hm : a.Faces price m others) (hs : a.Sound taker)
    (hother : a.taker.userId ≠ m.userId) (hpool : ∀ o ∈ a.pool.live, Stands t symbol o)
    (htaker : Backs t symbol a.taker) :
    t.Accepts symbol [.fill (fillOf a.taker m price)] ∧
      (∀ o ∈ Pool.live { a.pool with resting := others },
        Stands (t.applyAll [.fill (fillOf a.taker m price)]) symbol o) ∧
      Backs (t.applyAll [.fill (fillOf a.taker m price)]) symbol
        (m.withRemaining (m.remaining - (fillOf a.taker m price).quantity)) ∧
      Backs (t.applyAll [.fill (fillOf a.taker m price)]) symbol
        (a.taker.withRemaining (a.taker.remaining - (fillOf a.taker m price).quantity)) := by
  have hne := Faces.ne_taker hm hs
  have hmaker : Stands t symbol m := hpool m (Multiset.mem_add.mpr (Or.inl hm.mem))
  have htape : t.applyAll [.fill (fillOf a.taker m price)] =
      (t.modify m.id (·.take (fillOf a.taker m price).quantity)).modify a.taker.id
        (·.take (fillOf a.taker m price).quantity) := rfl
  -- the tape allows the fill; the others, the maker and the taker stand on it afterwards
  refine ⟨⟨?_, trivial⟩, ?_, ?_, ?_⟩
  · rcases htaker with ⟨s, hopen, hle, huser, hside, hprice, hsymbol⟩
    rcases hmaker with ⟨hsized, s', hopen', hle', huser', hside', hprice', hsymbol'⟩
    refine ⟨s, s', hopen, hopen', ?_⟩
    constructor
    · rw [huser, huser']
      exact hother
    · exact hsymbol
    · exact hsymbol'
    · exact hside
    · exact hside'.trans hm.side
    · exact hprice'.trans hm.priced
    · have hlimit := hm.acceptable
      unfold takerPriceSatisfied at hlimit ⊢
      rw [hprice, hside]
      exact hlimit
    · exact fillOf_quantity_pos hm.takerPos hsized
    · exact (fillOf_quantity_le_taker ..).trans hle
    · exact (fillOf_quantity_le ..).trans hle'
  · intro o ho
    rcases Faces.beside hm hs ho with ⟨hlive, hne, hne'⟩
    refine (hpool o hlive).unnamed ?_
    simp [EngineEvent.names, fillOf, hne, hne']
  · rw [htape]
    exact (hmaker.2.take _).of_eq (Standings.modify_ne _ _ hne)
  · rw [htape]
    have hstill : Backs (t.modify m.id (·.take (fillOf a.taker m price).quantity)) symbol a.taker :=
      htaker.of_eq (Standings.modify_ne _ _ hne.symm)
    exact hstill.take _

/-- The cancel of a sibling is allowed, and does not concern the orders that stay. -/
theorem Cancel.taped {P : Pool} {id : Uuid} {reason : CancelReason} {r : Pool × List EngineEvent}
    (hcancel : Pool.Cancel P id reason r) (hunique : P.ids.Nodup)
    (hpool : ∀ o ∈ P.live, Stands t symbol o) :
    t.Accepts symbol r.2 ∧ (∀ o ∈ r.1.live, Stands (t.applyAll r.2) symbol o) ∧
      ∀ o, Backs t symbol o → o.id ∉ P.ids → Backs (t.applyAll r.2) symbol o := by
  have hstays : r.1.live ≤ P.live := add_le_add hcancel.resting_le hcancel.stops_le
  -- the cancel is allowed; what stays, and what is elsewhere, is not named
  refine ⟨?_, ?_, ?_⟩
  · cases hcancel with
    | absent => exact trivial
    | resting o others hid heq =>
      have ho : Stands t symbol o := by
        refine hpool o (Multiset.mem_add.mpr (Or.inl ?_))
        rw [heq]
        exact Multiset.mem_cons_self _ _
      exact ⟨hid ▸ ho.2.allows_cancelled ho.1.positive reason, trivial⟩
    | stop o others hid heq =>
      have ho : Stands t symbol o := by
        refine hpool o (Multiset.mem_add.mpr (Or.inr ?_))
        rw [heq]
        exact Multiset.mem_cons_self _ _
      exact ⟨hid ▸ ho.2.allows_cancelled ho.1.positive reason, trivial⟩
  · intro o ho
    refine (hpool o (Multiset.mem_of_le hstays ho)).unnamed ?_
    intro hmem
    exact (hcancel.named_gone hunique hmem).2 (mem_ids_of_mem_live ho)
  · intro o ho hout
    refine ho.unnamed ?_
    intro hmem
    exact hout (hcancel.named_gone hunique hmem).1

/-- An OCO cancel is on the tape. -/
theorem OcoCancel.taped {P : Pool} {id : Uuid} {r : Pool × List EngineEvent}
    (hoco : Pool.OcoCancel P id r) (hunique : P.ids.Nodup)
    (hpool : ∀ o ∈ P.live, Stands t symbol o) :
    t.Accepts symbol r.2 ∧ (∀ o ∈ r.1.live, Stands (t.applyAll r.2) symbol o) ∧
      ∀ o, Backs t symbol o → o.id ∉ P.ids → Backs (t.applyAll r.2) symbol o := by
  cases hoco with
  | unlinked => exact ⟨trivial, hpool, fun o ho _ => ho⟩
  | linked sibling _ hcancel =>
    have htaped := Cancel.taped hcancel hunique hpool
    exact htaped

/-- The tape accepts the events of a turn. -/
theorem Turn.taped {u : Loop.Turn Pass (Pass × MatchExit)} (ht : a.Turn u) (hs : a.Sound taker)
    (hpool : ∀ o ∈ a.pool.live, Stands t symbol o) (htaker : Backs t symbol a.taker) :
    ∃ new, (Pass.after u).events = a.events ++ new ∧ t.Accepts symbol new ∧
      (∀ o ∈ (Pass.after u).pool.live, Stands (t.applyAll new) symbol o) ∧
      ∀ a', u = .next a' → Backs (t.applyAll new) symbol a'.taker := by
  -- the orders beside the faced one are not named by a cancel of that or of the taker
  have hbeside : ∀ {price m others} {id : Uuid} {reason : CancelReason},
      a.Faces price m others → id = m.id ∨ id = a.taker.id →
      ∀ o ∈ Pool.live { a.pool with resting := others },
        Stands (t.applyAll [.cancelled id reason]) symbol o := by
    intro price m others id reason hm hid o ho
    rcases Faces.beside hm hs ho with ⟨hlive, hne, hne'⟩
    refine (hpool o hlive).unnamed ?_
    rcases hid with rfl | rfl <;> simpa [EngineEvent.names]
  have hmaker : ∀ {price m others}, a.Faces price m others → Stands t symbol m := fun hm =>
    hpool _ (Multiset.mem_add.mpr (Or.inl hm.mem))
  cases ht with
  | exhausted =>
    refine ⟨[], (List.append_nil _).symm, trivial, hpool, ?_⟩
    rintro a' ⟨⟩
  | cancelTaker hm =>
    refine ⟨_, rfl, ⟨htaker.allows_cancelled hm.takerPos _, trivial⟩, ?_, ?_⟩
    · intro o ho
      refine (hpool o ho).unnamed ?_
      have hne : o.id ≠ a.taker.id := by
        intro heq
        exact hs.taker_notMem (hs.id_eq ▸ heq ▸ mem_ids_of_mem_live ho)
      simpa [EngineEvent.names]
    · rintro a' ⟨⟩
  | cancelMaker hm =>
    refine ⟨_, rfl, ⟨(hmaker hm).2.allows_cancelled hm.makerPos _, trivial⟩,
      hbeside hm (Or.inl rfl), ?_⟩
    rintro a' ⟨⟩
    refine htaker.unnamed ?_
    simpa [EngineEvent.names] using (Faces.ne_taker hm hs).symm
  | @decrementTaker price m others hm _ _ hlt =>
    refine ⟨_, rfl, ⟨htaker.allows_cancelled hm.takerPos _, trivial⟩, ?_, ?_⟩
    · intro o ho
      rcases mem_live_cons.mp ho with rfl | ho
      · -- the standing of the larger order shows what it had before
        have hle : m.remaining - a.taker.remaining ≤ m.remaining := by
          have := hm.takerPos
          lia
        have hsized : (m.withRemaining (m.remaining - a.taker.remaining)).Sized :=
          kept_sized.shrink m _ (hmaker hm).1 (Int.sub_pos_of_lt hlt) hle
        refine ⟨hsized, ((hmaker hm).2.mono hle).unnamed ?_⟩
        simpa [EngineEvent.names] using Faces.ne_taker hm hs
      · exact hbeside hm (Or.inr rfl) o ho
    · rintro a' ⟨⟩
  | @decrementMaker price m others hm _ _ hgt =>
    refine ⟨_, rfl, ⟨(hmaker hm).2.allows_cancelled hm.makerPos _, trivial⟩,
      hbeside hm (Or.inl rfl), ?_⟩
    rintro a' ⟨⟩
    have hle : a.taker.remaining - m.remaining ≤ a.taker.remaining := by
      have := hm.makerPos
      lia
    refine (htaker.mono hle).unnamed ?_
    simpa [EngineEvent.names] using (Faces.ne_taker hm hs).symm
  | @decrementBoth price m others hm =>
    have hne := Faces.ne_taker hm hs
    have hstill : Backs (t.applyAll [.cancelled m.id .selfTradePrevented]) symbol a.taker := by
      refine htaker.unnamed ?_
      simpa [EngineEvent.names] using hne.symm
    refine ⟨_, rfl, ⟨(hmaker hm).2.allows_cancelled hm.makerPos _,
      hstill.allows_cancelled hm.takerPos _, trivial⟩, ?_, ?_⟩
    · intro o ho
      rcases Faces.beside hm hs ho with ⟨hlive, hne, hne'⟩
      refine (hpool o hlive).unnamed ?_
      simp [EngineEvent.names, hne, hne']
    · rintro a' ⟨⟩
  | @fillPart price m others hm hother hpart =>
    rcases Faces.taped_fill hm hs hother hpool htaker with ⟨haccepts, hrest, hleft, htaker'⟩
    refine ⟨_, rfl, haccepts, ?_, ?_⟩
    · intro o ho
      rcases mem_live_cons.mp ho with rfl | ho
      · have hle : m.remaining - (fillOf a.taker m price).quantity ≤ m.remaining := by
          have : 0 < (fillOf a.taker m price).quantity :=
            fillOf_quantity_pos hm.takerPos (hmaker hm).1
          lia
        exact ⟨kept_sized.shrink m _ (hmaker hm).1 (Int.sub_pos_of_lt hpart) hle, hleft⟩
      · exact hrest o ho
    · rintro a' ⟨⟩
      exact htaker'
  | @fillWhole price m others hm hother hwhole r hoco =>
    rcases Faces.taped_fill hm hs hother hpool htaker with ⟨haccepts, hrest, _, htaker'⟩
    have hunique := (Multiset.nodup_cons.mp hs.unique).2
    have hout : a.taker.id ∉ Pool.ids { a.pool with resting := others } := by
      intro hmem
      refine hs.taker_notMem (hs.id_eq ▸ ?_)
      rw [hm.ids_eq]
      exact Multiset.mem_cons_of_mem hmem
    rw [hm.ids_eq, Multiset.nodup_cons] at hunique
    rcases OcoCancel.taped hoco hunique.2 hrest with ⟨hsibling, hrest', hframe⟩
    refine ⟨.fill (fillOf a.taker m price) :: r.2, List.append_assoc _ _ _,
      ⟨haccepts.1, hsibling⟩, hrest', ?_⟩
    rintro a' ⟨⟩
    exact hframe _ htaker' hout

/-- The tape accepts the events that end a pass. -/
theorem Finalize.taped {r : Pool × List EngineEvent} (hfinal : a.Finalize r) (hs : a.Sound taker)
    (hpool : ∀ o ∈ a.pool.live, Stands t symbol o) (htaker : Backs t symbol a.taker)
    (hdisplay : ∀ d, taker.displayQty = some d → 0 < d) :
    t.Accepts symbol r.2 ∧ ∀ o ∈ r.1.live, Stands (t.applyAll r.2) symbol o := by
  have hunique := (Multiset.nodup_cons.mp hs.unique).2
  have hne : ∀ o ∈ a.pool.live, o.id ≠ a.taker.id := by
    intro o ho heq
    exact hs.taker_notMem (hs.id_eq ▸ heq ▸ mem_ids_of_mem_live ho)
  have hpos : a.taker.remaining ≠ 0 → 0 < a.taker.remaining := fun hne =>
    lt_of_le_of_ne hs.remaining hne.symm
  cases hfinal with
  | filled _ hoco =>
    rcases OcoCancel.taped hoco hunique hpool with ⟨haccepts, hpool', _⟩
    exact ⟨haccepts, hpool'⟩
  -- the taker is still open when it is cancelled
  | @cancelled hleft reason _ _ r hoco =>
    have hbeside : ∀ o ∈ a.pool.live,
        Stands (t.applyAll [.cancelled a.taker.id reason]) symbol o := by
      intro o ho
      refine (hpool o ho).unnamed ?_
      simpa [EngineEvent.names] using hne o ho
    rcases OcoCancel.taped hoco hunique hbeside with ⟨haccepts, hpool', _⟩
    exact ⟨⟨htaker.allows_cancelled (hpos hleft) reason, haccepts⟩, hpool'⟩
  -- the taker becomes a live order with what it has left
  | rested hleft =>
    refine ⟨⟨htaker.allows_rested (hpos hleft), trivial⟩, ?_⟩
    intro o ho
    rcases mem_live_cons.mp ho with rfl | ho
    · have hsame := hs.same
      refine ⟨⟨hpos hleft, ?_⟩, htaker⟩
      rw [hsame]
      exact hdisplay
    · exact hpool o ho

/-- The stops that are triggered stand on the tape as they did in the book. -/
theorem Drains.stands {P : Pool} {last : Option Decimal} {hit : List Order}
    (hdrain : Pass.Drains P last hit others) (hpool : ∀ o ∈ P.live, Stands t symbol o) :
    (∀ o ∈ Pool.live { P with stops := others }, Stands t symbol o) ∧
      ∀ o ∈ hit.map convertStop, Stands t symbol o := by
  have hsplit : P.live = P.resting + (↑hit + others) := by
    rw [Pool.live, hdrain.split]
  refine ⟨?_, ?_⟩
  · intro o ho
    refine hpool o ?_
    rw [hsplit]
    rcases Multiset.mem_add.mp ho with ho | ho
    · exact Multiset.mem_add.mpr (Or.inl ho)
    · exact Multiset.mem_add.mpr (Or.inr (Multiset.mem_add.mpr (Or.inr ho)))
  · intro o ho
    rcases List.mem_map.mp ho with ⟨stop, hstop, rfl⟩
    refine (hpool stop ?_).convertStop
    rw [hsplit]
    exact Multiset.mem_add.mpr (Or.inr (Multiset.mem_add.mpr (Or.inl hstop)))

end Turn

/-! ## Passes and calls -/

section Calls

variable {b b' : OrderBook} {taker sub : Order} {fuel : ℕ} {triggered : List Order}

/-- The tape accepts the events of a pass. -/
theorem runMatchingLoop_taped (hpass : Enters b taker) (hpool : ∀ o ∈ b.pool, Stands t symbol o)
    (htaker : Stands t symbol taker)
    (hrun : b.runMatchingLoop fuel taker = some (b', events, triggered)) :
    t.Accepts symbol events ∧ (∀ o ∈ b'.pool, Stands (t.applyAll events) symbol o) ∧
      ∀ o ∈ triggered, Stands (t.applyAll events) symbol o := by
  refine runMatchingLoop_induct hpass
    (fun _ s => t.Accepts symbol s.toPass.events ∧
      (∀ o ∈ s.toPass.pool.live, Stands (t.applyAll s.toPass.events) symbol o) ∧
      Backs (t.applyAll s.toPass.events) symbol s.toPass.taker)
    (fun _ r => t.Accepts symbol r.2.1 ∧ (∀ o ∈ r.1.live, Stands (t.applyAll r.2.1) symbol o) ∧
      ∀ o ∈ r.2.2, Stands (t.applyAll r.2.1) symbol o)
    ⟨trivial, hpool, htaker.2⟩ ?_ ?_ hrun
  · rintro _ s s' _ hs ⟨haccepts, hlive, hbacks⟩ hspec
    rcases Turn.taped (hspec.refines hs.book) hs.pass hlive hbacks with
      ⟨new, hevents, hnew, hlive', hbacks'⟩
    rw [← Standings.applyAll_append, ← hevents] at hlive' hbacks'
    refine ⟨?_, hlive', hbacks' _ rfl⟩
    have hboth := Standings.accepts_append.mpr ⟨haccepts, hnew⟩
    rw [← hevents] at hboth
    exact hboth
  · rintro _ s s' exit r _ hs ⟨haccepts, hlive, hbacks⟩ hspec hs' hfinish
    rcases Turn.taped (hspec.refines hs.book) hs.pass hlive hbacks with
      ⟨new, hevents, hnew, hlive', _⟩
    have hboth := Standings.accepts_append.mpr ⟨haccepts, hnew⟩
    rw [← Standings.applyAll_append, ← hevents] at hlive'
    rw [← hevents] at hboth
    -- what ends the pass is accepted after the last turn
    cases hfinish with
    | consumed hdrain => exact ⟨hboth, Drains.stands hdrain hlive'⟩
    | finalized hfinal hdrain =>
      have hbacks' : Backs (t.applyAll s'.toPass.events) symbol s'.toPass.taker := by
        cases hspec with
        | exhausted => exact hbacks
      rcases Finalize.taped hfinal hs'.pass hlive' hbacks' htaker.1.display with
        ⟨hend, hlive''⟩
      rw [← Standings.applyAll_append] at hlive''
      exact ⟨Standings.accepts_append.mpr ⟨hboth, hend⟩, Drains.stands hdrain hlive''⟩

/-- The stops in the work queue are announced while they stand on the tape. -/
theorem accepts_stopTriggered {hit : List Order} (h : ∀ o ∈ hit, Stands t symbol o) :
    t.Accepts symbol (hit.map fun o => .stopTriggered o.id) ∧
      t.applyAll (hit.map fun o => .stopTriggered o.id) = t := by
  induction hit with
  | nil => exact ⟨trivial, rfl⟩
  | cons o hit ih =>
    rcases ih fun o ho => h o (List.mem_cons_of_mem _ ho) with ⟨haccepts, hsame⟩
    rcases h o List.mem_cons_self with ⟨_, s, hopen, _⟩
    exact ⟨⟨⟨s, hopen⟩, haccepts⟩, hsame⟩

/-- Between two passes: the tape accepted the events, and the orders of the book and of the work
queue stand on it. -/
structure CascadeTaped (t : Standings) (symbol : String) (c : CascadeState) : Prop where
  accepts : t.Accepts symbol c.events
  book : ∀ o ∈ c.book.pool, Stands (t.applyAll c.events) symbol o
  queue : ∀ o ∈ c.workQueue, Stands (t.applyAll c.events) symbol o

/-- A pass is on the tape. -/
theorem CascadeTaped.step {c c' : CascadeState} (hc : CascadeSound c)
    (hinv : CascadeTaped t symbol c) (hstep : CascadeStep fuel c c') :
    CascadeTaped t symbol c' := by
  have hpass : ∀ {order rest book new hit}, c.workQueue = order :: rest →
      c.book.runMatchingLoop fuel order = some (book, new, hit) →
      t.Accepts symbol (c.events ++ new) ∧
        (∀ o ∈ book.pool, Stands (t.applyAll (c.events ++ new)) symbol o) ∧
        (∀ o ∈ hit, Stands (t.applyAll (c.events ++ new)) symbol o) ∧
        ∀ o ∈ rest, Stands (t.applyAll (c.events ++ new)) symbol o := by
    intro order rest book new hit hqueue hrun
    have henters := hc.enters hqueue
    rcases runMatchingLoop_taped henters hinv.book
      (hinv.queue order (mem_workQueue_head hqueue)) hrun with ⟨hnew, hbook, hhit⟩
    rw [Standings.applyAll_append]
    refine ⟨Standings.accepts_append.mpr ⟨hinv.accepts, hnew⟩, hbook, hhit, ?_⟩
    intro o ho
    refine (hinv.queue o (mem_workQueue_tail hqueue ho)).unnamed ?_
    -- the orders on the queue are in no other place
    intro hmem
    have hplace := (runMatchingLoop_fate henters hrun).known o.id hmem
    have hunique := hc.unique
    have hrest : o.id ∈ rest.map (·.id) := List.mem_map_of_mem ho
    rw [hqueue, List.map_cons, ← Multiset.cons_coe, Multiset.cons_add, ← Multiset.add_cons,
      Multiset.nodup_add] at hunique
    exact Multiset.disjoint_left.mp hunique.2.2 hrest hplace
  cases hstep with
  | @push order rest book new hit hqueue hrun _ =>
    rcases hpass hqueue hrun with ⟨haccepts, hbook, hhit, hrest⟩
    rcases accepts_stopTriggered hhit with ⟨hstops, hsame⟩
    have htape : t.applyAll (c.events ++ new ++ hit.map fun o => .stopTriggered o.id) =
        t.applyAll (c.events ++ new) := by
      rw [Standings.applyAll_append, hsame]
    refine ⟨Standings.accepts_append.mpr ⟨haccepts, hstops⟩, ?_, ?_⟩
    · dsimp only
      rw [htape]
      exact hbook
    · dsimp only
      rw [htape]
      intro o ho
      rcases List.mem_append.mp ho with ho | ho
      · exact hhit o (List.mem_reverse.mp ho)
      · exact hrest o ho
  | @cut order rest book new hit hqueue hrun _ =>
    rcases hpass hqueue hrun with ⟨haccepts, hbook, _, hrest⟩
    exact ⟨haccepts, hbook, hrest⟩

/-- The tape accepts the events of a call, on which the order that is placed stands in full. -/
theorem matchOrder_taped (hb : b.Sound) (hadm : sub.Admissible)
    (hfresh : ∀ o ∈ b.pool, o.id ≠ sub.id) (hpool : ∀ o ∈ b.pool, Stands t symbol o)
    (hsub : Stands t symbol sub) (hcall : b.matchOrder fuel sub = some (b', events)) :
    t.Accepts symbol events ∧ ∀ o ∈ b'.pool, Stands (t.applyAll events) symbol o := by
  have hspec := matchOrder_spec hadm hcall
  generalize hr : (b', events) = r at hspec
  cases hspec with
  | rejected reject hpre =>
    cases hr
    -- rejected by its check, with its own cancellation
    have hevent : ∃ reason, reject = .cancelled sub.id reason := by
      rcases preCheck_eq_some hpre with ⟨_, h⟩ | ⟨_, h⟩
      · exact ⟨_, h⟩
      · exact ⟨_, h⟩
    rcases hevent with ⟨reason, rfl⟩
    refine ⟨⟨hsub.2.allows_cancelled hsub.1.positive reason, trivial⟩, ?_⟩
    intro o ho
    refine (hpool o ho).unnamed ?_
    simpa [EngineEvent.names] using hfresh o ho
  | registered stops _ _ hins =>
    cases hr
    have hstops : (↑stops.orders : Multiset Order) = sub ::ₘ b.stopPool :=
      (Multiset.coe_eq_coe.mpr (StopRegistry.insert_orders hins)).trans (Multiset.cons_coe ..).symm
    refine ⟨⟨hsub.2.allows_rested hsub.1.positive, trivial⟩, ?_⟩
    intro o ho
    rcases mem_pool.mp ho with ho | ho
    · exact hpool o (mem_pool.mpr (Or.inl ho))
    · rw [stopPool, hstops] at ho
      rcases Multiset.mem_cons.mp ho with rfl | ho
      · exact hsub
      · exact hpool o (mem_pool.mpr (Or.inr ho))
  | matched _ hactive hloop =>
    have hc₀ := cascadeSound_enter hb ⟨hadm.positive, hactive, hadm.priced⟩ hfresh
    -- the order itself stands on the tape when it enters
    have h0 : CascadeTaped t symbol (b.enterCascade sub) := by
      refine ⟨trivial, hpool, ?_⟩
      intro o ho
      rw [List.mem_singleton.mp ho]
      exact hsub
    rcases cascade_induct hc₀ (CascadeTaped t symbol) h0
      (fun c c' _ hc hinv hstep => hinv.step hc hstep) hloop with ⟨c, _, _, heq, _, hinv⟩
    cases hr.trans heq
    exact ⟨hinv.accepts, hinv.book⟩

/-- The tape accepts the cancel of an order and of its OCO sibling. -/
theorem cancelOrder_taped (hb : b.Consistent) (id : Uuid)
    (hpool : ∀ o ∈ b.pool, Stands t symbol o) :
    t.Accepts symbol (b.cancelOrder id).2 ∧
      ∀ o ∈ (b.cancelOrder id).1.pool, Stands (t.applyAll (b.cancelOrder id).2) symbol o := by
  -- one cancel on one book
  have hinternal : ∀ {b : OrderBook} {t : Standings} (id : Uuid) (reason : CancelReason),
      b.Consistent → (∀ o ∈ b.pool, Stands t symbol o) →
      t.Accepts symbol (b.cancelOrderInternal id reason).2 ∧
        ∀ o ∈ (b.cancelOrderInternal id reason).1.pool,
          Stands (t.applyAll (b.cancelOrderInternal id reason).2) symbol o := by
    intro b t id reason hb hpool
    rcases Cancel.taped (hb.cancels id reason).toPool hb.unique hpool with ⟨haccepts, hpool', _⟩
    exact ⟨haccepts, hpool'⟩
  unfold OrderBook.cancelOrder
  cases b.ocoLinks.find? id with
  | none => exact hinternal id .adminCancel hb hpool
  -- the second cancel is judged by the tape after the first
  | some linkedId =>
    have hlink : (b.unlink id linkedId).Consistent := consistent_unlink.mpr hb
    rcases hinternal id .adminCancel hlink hpool with ⟨haccepts, hpool'⟩
    rcases hinternal linkedId .oco ((hlink.cancels id .adminCancel).consistent hlink) hpool' with
      ⟨haccepts', hpool''⟩
    dsimp only
    rw [Standings.applyAll_append]
    exact ⟨Standings.accepts_append.mpr ⟨haccepts, haccepts'⟩, hpool''⟩

end Calls

end CryptoCex.Server
