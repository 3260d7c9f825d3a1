import CryptoCex.Server.Atomic

/-!
# Cancelling all orders of a user

`cancel_all` takes the orders to cancel from the table of live orders, in the order of
their ids, and cancels each in its book together with the order its OCO link names. What it
reports is what it took out, and it touches nothing else. It takes out the user's live
orders and their OCO siblings, and no others, exactly if (`cancelAll_exact_iff`)

* the table has the user's live orders (or the OCO link of one it has names them),
* the links of these orders have not been used up by the cancel of an earlier one,
* no OCO link it follows leads to a foreign order. That is what goes wrong: an order that
  is no longer live can still be in the table, and a later order of another user can name
  it as its OCO leg.
-/

namespace CryptoCex.Server

open CryptoCex.Core CryptoCex.Core.OrderBook
open Proto (EngineOrder EngineRequest)

/-! ## Whose orders they are -/

namespace Exchange

variable {fuel : ℕ} {x y : Exchange} {cmd : WalCommand} {placed : List Order}

/-- The entries of the table and the live orders belong to whom they were placed for. -/
structure Owned (placed : List Order) (x : Exchange) : Prop where
  table : Traced placed x.openOrders
  orders : ∀ symbol, ∀ o ∈ (x.bookOf symbol).pool, ∃ w ∈ placed, w.id = o.id ∧ w.userId = o.userId

theorem owned_empty : Owned [] empty where
  table := traced_empty
  orders := by
    intro symbol o ho
    simp [empty, bookOf] at ho

/-- To be owned by the user who placed it is a trait of an order. -/
theorem trait_owned (placed : List Order) :
    Trait fun o => ∃ w ∈ placed, w.id = o.id ∧ w.userId = o.userId where
  withRemaining := fun _ _ h => h
  convertStop := by
    intro o h
    unfold convertStop
    split <;> exact h

/-- A cancel brings no order into the books. -/
theorem Step.trait_cancel {K : Order → Prop} {orderId : Uuid}
    (h : Step fuel x (.cancelOrder orderId) y) (hknown : Known placed x)
    (hall : ∀ symbol, ∀ o ∈ (x.bookOf symbol).pool, K o) :
    ∀ symbol, ∀ o ∈ (y.bookOf symbol).pool, K o := by
  cases h with
  | @cancelled _ entry book hentry hbook =>
    intro symbol o ho
    rw [bookOf_insert (x := x) rfl] at ho
    split at ho
    · next heq =>
      have hspec := (hknown.book _ book hbook).1.cancelOrder_spec orderId
      have hold : o ∈ (x.bookOf entry.symbol).pool := by
        rw [mem_bookOf_of_find? hbook]
        exact ((hspec.pool o).mp ho).1
      exact hall entry.symbol o hold
    · exact hall symbol o ho
  | bookless => exact hall

/-- A placement brings no other order into the books than the one that is placed. -/
theorem Step.trait_place {K : Order → Prop} {order : Order} (hK : Trait K)
    (h : Step fuel x (.placeOrder order) y) (hknown : Known placed x) (hadm : order.Admissible)
    (hfresh : order.id ∉ placed.map (·.id)) (hself : K order)
    (hall : ∀ symbol, ∀ o ∈ (x.bookOf symbol).pool, K o) :
    ∀ symbol, ∀ o ∈ (y.bookOf symbol).pool, K o := by
  rcases h.place_book with ⟨book, events, hbooks, hmatch⟩
  intro symbol o ho
  rw [bookOf_insert hbooks] at ho
  split at ho
  · refine matchOrder_trait (sound_linkOco (hknown.bookOf order.symbol).1 order) hadm
      (hknown.fresh_linkOco hfresh) hK ?_ hself hmatch o ho
    intro o' ho'
    rw [pool_linkOco] at ho'
    exact hall _ o' ho'
  · exact hall symbol o ho

/-- A cancel leaves every order with its owner. -/
theorem Step.owned_cancel {orderId : Uuid} (h : Step fuel x (.cancelOrder orderId) y)
    (hknown : Known placed x) (hx : Owned placed x) : Owned placed y := by
  refine ⟨?_, h.trait_cancel hknown hx.orders⟩
  cases h with
  | cancelled => exact hx.table.updates (by rintro _ ⟨⟩) _
  | bookless => exact hx.table

theorem Owned.mono {placed' : List Order} (h : Owned placed x) (hsub : placed ⊆ placed') :
    Owned placed' x where
  table := h.table.mono hsub
  orders := by
    intro symbol o ho
    rcases h.orders symbol o ho with ⟨w, hw, heq⟩
    exact ⟨w, hsub hw, heq⟩

/-- So does a placement, whose order is owned by its user. -/
theorem Step.owned_place {order : Order} (h : Step fuel x (.placeOrder order) y)
    (hknown : Known placed x) (hadm : order.Admissible)
    (hfresh : order.id ∉ placed.map (·.id)) (hx : Owned placed x) :
    Owned (placed ++ [order]) y := by
  have hx' := hx.mono (List.subset_append_left placed [order])
  have hself : order ∈ placed ++ [order] := List.mem_append_right _ List.mem_cons_self
  refine ⟨?_, h.trait_place (trait_owned _) hknown hadm hfresh ⟨order, hself, rfl, rfl⟩ hx'.orders⟩
  cases h with
  | placed requestId hmatch haccepted =>
    refine hx'.table.updates ?_ _
    rintro _ ⟨⟩
    exact hself
  | rejected => exact hx'.table

/-- The entry of a live order is of its own user and symbol. -/
theorem Owned.entry_eq (hx : Owned placed x) (hknown : Known placed x)
    (hunique : (placed.map (·.id)).Nodup) {symbol : String} {o : Order} {entry : OpenOrder}
    (ho : o ∈ (x.bookOf symbol).pool) (hentry : x.openOrders.find? o.id = some entry) :
    entry.userId = o.userId ∧ entry.symbol = symbol := by
  rcases hx.table o.id entry hentry with ⟨w, hw, hid, huser, hsymbol⟩
  rcases hx.orders symbol o ho with ⟨w₁, hw₁, hid₁, huser₁⟩
  rcases (hknown.bookOf symbol).2 o ho with ⟨hosymbol, w₂, hw₂, hid₂, hsymbol₂⟩
  have heq₁ : w = w₁ := List.inj_on_of_nodup_map hunique hw hw₁ (hid.trans hid₁.symm)
  have heq₂ : w = w₂ := List.inj_on_of_nodup_map hunique hw hw₂ (hid.trans hid₂.symm)
  rw [← heq₁] at huser₁
  rw [← heq₂] at hsymbol₂
  exact ⟨huser.symm.trans huser₁, (hsymbol.symm.trans hsymbol₂).trans hosymbol⟩

end Exchange

/-! ## The loop -/

/-- The reported ids are those of the cancelled orders. -/
theorem mem_cancelledOrderIds {events : List EngineEvent} {x : Uuid} :
    x ∈ cancelledOrderIds events ↔ ∃ reason, .cancelled x reason ∈ events := by
  unfold cancelledOrderIds
  rw [List.mem_filterMap]
  constructor
  · rintro ⟨e, he, heq⟩
    cases e with
    | cancelled id reason =>
      cases heq
      exact ⟨reason, he⟩
    | fill | rested | stopTriggered => cases heq
  · rintro ⟨reason, he⟩
    exact ⟨_, he, rfl⟩

/-- Cancels take the orders they name out of the table. -/
theorem find?_cancelled {m : OpenOrders} {T : Option Order} {events : List EngineEvent}
    (hevents : ∀ e ∈ events, ∃ id reason, e = .cancelled id reason) (x : Uuid) :
    (applyOpenOrderUpdates m T events).find? x =
      if x ∈ cancelledOrderIds events then none else m.find? x := by
  by_cases hmem : x ∈ cancelledOrderIds events
  · rw [if_pos hmem]
    cases hfind : (applyOpenOrderUpdates m T events).find? x with
    | none => rfl
    | some entry =>
      rcases mem_cancelledOrderIds.mp hmem with ⟨reason, he⟩
      exact absurd he ((find?_applyOpenOrderUpdates_cancels hevents hfind).2 reason)
  · rw [if_neg hmem]
    refine find?_applyOpenOrderUpdates ?_
    intro e he hx
    rcases hevents e he with ⟨id, reason, rfl⟩
    rw [List.mem_singleton.mp hx] at hmem
    exact hmem (mem_cancelledOrderIds.mpr ⟨reason, he⟩)

/-- The orders the OCO links name as the list is gone through. A link that is used takes
the link of the order it names with it. -/
def namedByLinks (links : OrdMap Uuid Uuid) : List Uuid → List Uuid
  | [] => []
  | id :: ids =>
    match links.find? id with
    | none => namedByLinks links ids
    | some linkedId => linkedId :: namedByLinks ((links.erase id).erase linkedId) ids

/-- Orders without a link play no part. -/
theorem namedByLinks_filter {links : OrdMap Uuid Uuid} {p : Uuid → Bool} {ids : List Uuid}
    (h : ∀ id ∈ ids, p id = false → links.find? id = none) :
    namedByLinks links (ids.filter p) = namedByLinks links ids := by
  induction ids generalizing links with
  | nil => rfl
  | cons id ids ih =>
    have hrest : ∀ x ∈ ids, p x = false → links.find? x = none :=
      fun x hx => h x (List.mem_cons_of_mem _ hx)
    cases hp : p id with
    | false =>
      rw [List.filter_cons_of_neg (by simp [hp])]
      simp only [namedByLinks, h id List.mem_cons_self hp]
      exact ih hrest
    | true =>
      rw [List.filter_cons_of_pos hp]
      unfold namedByLinks
      split
      · -- it has no link, or a link that is used up here
        exact ih hrest
      · refine congrArg _ (ih ?_)
        intro x hx hpx
        simp only [OrdMap.find?_erase, hrest x hx hpx, ite_self]

theorem mem_namedByLinks_cons {b : OrderBook} {id x : Uuid} {ids : List Uuid} :
    x ∈ namedByLinks b.ocoLinks (id :: ids) ↔
      b.ocoLinks.find? id = some x ∨ x ∈ namedByLinks (b.linksWithout id) ids := by
  unfold linksWithout
  rw [namedByLinks]
  cases b.ocoLinks.find? id with
  | none => simp
  | some linkedId => simp [eq_comm]

/-- Nothing is linked to an order that a cancel has taken out. -/
theorem find?_linksWithout_of_scope {b : OrderBook} {id x : Uuid} (h : b.CancelScope id x) :
    (b.linksWithout id).find? x = none := by
  unfold linksWithout
  rcases h with rfl | hlink
  · cases hlink : b.ocoLinks.find? x with
    | none => exact hlink
    | some linkedId => simp only [OrdMap.find?_erase, if_true, ite_self]
  · simp only [hlink, OrdMap.find?_erase, if_true]

/-- No order is live in two books. -/
theorem Exchange.Known.same_symbol {x : Exchange} {placed : List Order} (h : x.Known placed)
    (hunique : (placed.map (·.id)).Nodup) {symbol symbol' : String} {id : Uuid}
    (hid : id ∈ (x.bookOf symbol).toPool.ids) (hid' : id ∈ (x.bookOf symbol').toPool.ids) :
    symbol = symbol' := by
  rcases mem_ids_iff.mp hid with ⟨o, ho, rfl⟩
  rcases mem_ids_iff.mp hid' with ⟨o', ho', heq⟩
  rcases (h.bookOf symbol).2 o ho with ⟨hsymbol, w, hw, hwid, hwsymbol⟩
  rcases (h.bookOf symbol').2 o' ho' with ⟨hsymbol', w', hw', hwid', hwsymbol'⟩
  have hsame : w = w' :=
    List.inj_on_of_nodup_map hunique hw hw' (hwid.trans (heq.symm.trans hwid'.symm))
  rw [← hsymbol, ← hwsymbol, hsame, hwsymbol', hsymbol']

namespace EngineState

variable {fuel : ℕ} {st st' : EngineState}

/-- Those of the ids whose entry is of this symbol. -/
def listedOn (st : EngineState) (ids : List Uuid) (symbol : String) : List Uuid :=
  ids.filter fun id => (st.openOrders.find? id).any fun entry => entry.symbol = symbol

/-- What the loop of `cancel_all` takes out of the books. -/
structure TakesOut (st : EngineState) (ids new : List Uuid) (st' : EngineState) : Prop where
  live : ∀ x ∈ new, ∃ symbol, x ∈ (st.bookOf symbol).toPool.ids
  books : ∀ symbol, Retains (fun x => decide (x ∉ new)) (st.bookOf symbol) (st'.bookOf symbol)
  mem_iff : ∀ symbol, ∀ x ∈ (st.bookOf symbol).toPool.ids, x ∈ new ↔
    x ∈ st.listedOn ids symbol ∨
      x ∈ namedByLinks (st.bookOf symbol).ocoLinks (st.listedOn ids symbol)

/-- A turn of the loop that finds no book leaves everything to the next ones. -/
theorem TakesOut.skip {id : Uuid} {ids new : List Uuid} {mid : EngineState}
    (h : TakesOut mid ids new st') (hexchange : mid.exchange = st.exchange)
    (hnone : ∀ symbol, (st.openOrders.find? id).any (fun entry => entry.symbol = symbol) = true →
      (st.bookOf symbol).toPool.ids = 0) : TakesOut st (id :: ids) new st' := by
  have hbooks : ∀ symbol, mid.bookOf symbol = st.bookOf symbol := by
    intro symbol
    rw [← bookOf_exchange, hexchange, bookOf_exchange]
  have hopen : mid.openOrders = st.openOrders := congrArg Exchange.openOrders hexchange
  refine ⟨?_, ?_, ?_⟩
  · intro x hx
    rcases h.live x hx with ⟨symbol, hmem⟩
    exact ⟨symbol, hbooks symbol ▸ hmem⟩
  · intro symbol
    exact hbooks symbol ▸ h.books symbol
  · intro symbol x hx
    -- ids) symbol = mid.listedOn ids symbol := by
    have hlisted : st.listedOn (id :: ids) symbol = mid.listedOn ids symbol := by
      unfold listedOn
      rw [hopen, List.filter_cons_of_neg]
      intro hany
      rw [hnone symbol hany] at hx
      exact absurd hx (Multiset.notMem_zero x)
    rw [hlisted, ← hbooks symbol]
    exact h.mem_iff symbol x (hbooks symbol ▸ hx)

/-- A turn that cancels an order in its book. -/
theorem TakesOut.cancel {placed : List Order} {id : Uuid} {ids new : List Uuid}
    {mid : EngineState} {entry : OpenOrder} {book : OrderBook}
    (hknown : st.exchange.Known placed) (howned : st.exchange.Owned placed)
    (hunique : (placed.map (·.id)).Nodup) (hentry : st.openOrders.find? id = some entry)
    (hbook : st.books.find? entry.symbol = some book)
    (hbooks : mid.books = st.books.insert entry.symbol (book.cancelOrder id).1)
    (hopen : mid.openOrders = applyOpenOrderUpdates st.openOrders none (book.cancelOrder id).2)
    (h : TakesOut mid ids new st') :
    TakesOut st (id :: ids) (cancelledOrderIds (book.cancelOrder id).2 ++ new) st' := by
  have hsound : book.Consistent := (hknown.book _ book hbook).1
  have hspec := hsound.cancelOrder_spec id
  have hof : st.bookOf entry.symbol = book := bookOf_of_find? hbook
  have hmidOf : ∀ symbol, mid.bookOf symbol = if symbol = entry.symbol then
      (book.cancelOrder id).1 else st.bookOf symbol := bookOf_insert hbooks
  generalize hA : cancelledOrderIds (book.cancelOrder id).2 = A
  have htold : ∀ x, x ∈ A ↔ x ∈ book.toPool.ids ∧ book.CancelScope id x := by
    intro x
    rw [← hA, mem_cancelledOrderIds, hspec.told]
  -- the orders taken out are in this book only, and so are their entries
  have hforeign : ∀ symbol, symbol ≠ entry.symbol → ∀ o ∈ (st.bookOf symbol).pool, o.id ∉ A := by
    intro symbol hne o ho hmem
    have hmem' : o.id ∈ (st.exchange.bookOf entry.symbol).toPool.ids := by
      rw [bookOf_exchange, hof]
      exact ((htold o.id).mp hmem).1
    exact hne (hknown.same_symbol hunique (mem_ids_iff.mpr ⟨o, ho, rfl⟩) hmem')
  have hlisted : ∀ symbol,
      mid.listedOn ids symbol = (st.listedOn ids symbol).filter fun x => decide (x ∉ A) := by
    intro symbol
    unfold listedOn
    rw [List.filter_filter]
    refine List.filter_congr ?_
    intro x _
    rw [hopen, find?_cancelled hspec.cancels, hA]
    by_cases hx : x ∈ A <;> simp [hx]
  have hentries : ∀ x ∈ A, ∀ symbol, symbol ≠ entry.symbol → x ∉ st.listedOn ids symbol := by
    intro x hx symbol hne hmem
    rcases mem_ids_iff.mp ((htold x).mp hx).1 with ⟨o, ho, rfl⟩
    have hany := (List.mem_filter.mp hmem).2
    cases hfind : st.openOrders.find? o.id with
    | none => simp [hfind] at hany
    | some entry' =>
      have ho' : o ∈ (st.exchange.bookOf entry.symbol).pool := by
        rw [bookOf_exchange, hof]
        exact ho
      have hown := (howned.entry_eq hknown hunique ho' hfind).2
      simp only [hfind, Option.any_some, decide_eq_true_eq] at hany
      exact hne (hany.symm.trans hown)
  refine ⟨?_, ?_, ?_⟩
  · intro x hx
    rcases List.mem_append.mp hx with hx | hx
    · exact ⟨entry.symbol, hof.symm ▸ ((htold x).mp hx).1⟩
    · rcases h.live x hx with ⟨symbol, hmem⟩
      refine ⟨symbol, ?_⟩
      rw [hmidOf] at hmem
      split at hmem
      · next heq =>
        rw [heq, hof]
        exact (Dwindles.cancelOrder hsound id).ids x hmem
      · exact hmem
  · intro symbol
    have hrest := h.books symbol
    rw [hmidOf] at hrest
    split at hrest
    · next heq =>
      rw [heq, hof] at *
      refine ((hsound.cancelOrder_retains id).trans hrest).congr ?_
      intro o ho
      have hscope : o.id ∈ A ↔ book.CancelScope id o.id := by
        rw [htold, and_iff_right (mem_ids_iff.mpr ⟨o, ho, rfl⟩)]
      simp only [List.mem_append, not_or, hscope, Bool.decide_and]
    · next hne =>
      refine hrest.congr ?_
      intro o ho
      simp only [List.mem_append, not_or, hforeign symbol hne o ho, not_false_eq_true, true_and]
  · intro symbol x hx
    by_cases heq : symbol = entry.symbol
    · rw [heq, hof] at hx ⊢
      have hhead : st.listedOn (id :: ids) entry.symbol = id :: st.listedOn ids entry.symbol := by
        unfold listedOn
        rw [List.filter_cons_of_pos (by simp [hentry])]
      have hnamed : namedByLinks (book.linksWithout id) (mid.listedOn ids entry.symbol) =
          namedByLinks (book.linksWithout id) (st.listedOn ids entry.symbol) := by
        rw [hlisted]
        refine namedByLinks_filter ?_
        intro y _ hy
        exact find?_linksWithout_of_scope ((htold y).mp (by simpa using hy)).2
      rw [hhead, mem_namedByLinks_cons, List.mem_append, List.mem_cons]
      by_cases hxA : x ∈ A
      · -- the order itself or its sibling
        rcases ((htold x).mp hxA).2 with hself | hsibling
        · exact iff_of_true (Or.inl hxA) (Or.inl (Or.inl hself))
        · exact iff_of_true (Or.inl hxA) (Or.inr (Or.inl hsibling))
      · have hscope : ¬ book.CancelScope id x := fun hscope => hxA ((htold x).mpr ⟨hx, hscope⟩)
        rcases not_or.mp hscope with ⟨hne, hlink⟩
        have hmid : x ∈ (mid.bookOf entry.symbol).toPool.ids := by
          rw [hmidOf, if_pos rfl]
          rcases mem_ids_iff.mp hx with ⟨o, ho, rfl⟩
          exact mem_ids_iff.mpr ⟨o, (hspec.pool o).mpr ⟨ho, hscope⟩, rfl⟩
        have hiff := h.mem_iff entry.symbol x hmid
        rw [hmidOf, if_pos rfl, hspec.links, hnamed, hlisted] at hiff
        simp only [List.mem_filter, decide_eq_true_eq] at hiff
        tauto
    · have hxA : x ∉ A := by
        rcases mem_ids_iff.mp hx with ⟨o, ho, rfl⟩
        exact hforeign symbol heq o ho
      have hskip : st.listedOn (id :: ids) symbol = st.listedOn ids symbol := by
        unfold listedOn
        rw [List.filter_cons_of_neg]
        simp only [hentry, Option.any_some, decide_eq_true_eq]
        exact fun hsymbol => heq hsymbol.symm
      have hsame : mid.listedOn ids symbol = st.listedOn ids symbol := by
        rw [hlisted, List.filter_eq_self.mpr]
        intro y hy
        exact decide_eq_true fun hyA => hentries y hyA symbol heq hy
      have hiff := h.mem_iff symbol x (by rw [hmidOf, if_neg heq]; exact hx)
      rw [hmidOf, if_neg heq, hsame] at hiff
      rw [hskip, List.mem_append, or_iff_right hxA]
      exact hiff

/-- Cancelling one id after the other takes out the orders and the siblings the links name. -/
theorem cancelEach_takesOut {placed : List Order} {locals locals' : CancelAllLocals}
    {ids : List Uuid} (hknown : st.exchange.Known placed) (howned : st.exchange.Owned placed)
    (hunique : (placed.map (·.id)).Nodup) (h : st.cancelEach locals ids = (.ok locals', st')) :
    ∃ new, locals'.canceledIds = locals.canceledIds ++ new ∧ TakesOut st ids new st' := by
  induction ids generalizing st locals with
  | nil =>
    cases h
    refine ⟨[], (List.append_nil _).symm, ⟨by simp, ?_, ?_⟩⟩
    · intro symbol
      exact .refl (by simp)
    · intro symbol x _
      simp [listedOn, namedByLinks]
  | cons id ids ih =>
    cases hentry : st.openOrders.find? id with
    | none =>
      -- taken out as the sibling of an earlier one
      simp only [cancelEach, hentry] at h
      rcases ih hknown howned h with ⟨new, hids, htakes⟩
      exact ⟨new, hids, htakes.skip rfl (by simp [hentry])⟩
    | some entry =>
      simp only [cancelEach, hentry] at h
      rcases cancelKnownOrder_cases hentry with ⟨_, mid, hcancel, _⟩ |
        ⟨_, events, mid, hcancel, _, _, ⟨hnone, rfl, hexchange⟩ |
          ⟨book, hbook, rfl, hbooks, hopen⟩⟩
      · rw [hcancel] at h
        cases h
      · rw [hcancel] at h
        have hloop : mid.cancelEach locals ids = (.ok locals', st') := h
        rcases ih (hexchange ▸ hknown) (hexchange ▸ howned) hloop with ⟨new, hids, htakes⟩
        refine ⟨new, hids, htakes.skip hexchange ?_⟩
        intro symbol hsymbol
        simp only [hentry, Option.any_some, decide_eq_true_eq] at hsymbol
        rw [← hsymbol, EngineState.bookOf, hnone, Option.getD_none]
        rfl
      · have hstep : Exchange.Step 0 st.exchange (.cancelOrder id) mid.exchange := by
          have hmid : mid.exchange = {
              books := st.exchange.books.insert entry.symbol (book.cancelOrder id).1
              openOrders :=
                applyOpenOrderUpdates st.exchange.openOrders none (book.cancelOrder id).2 } := by
            rw [exchange, hbooks, hopen]
            rfl
          rw [hmid]
          exact .cancelled hentry hbook
        have hloop : ∃ locals₁, mid.cancelEach locals₁ ids = (.ok locals', st') ∧
            locals₁.canceledIds =
              locals.canceledIds ++ cancelledOrderIds (book.cancelOrder id).2 := by
          rw [hcancel] at h
          simp only at h
          split at h
          · next hempty =>
            refine ⟨locals, h, ?_⟩
            rw [List.isEmpty_iff.mp hempty]
            exact (List.append_nil _).symm
          · exact ⟨_, h, rfl⟩
        rcases hloop with ⟨locals₁, hloop, hlocals⟩
        rcases ih (hstep.known_cancel hknown) (hstep.owned_cancel hknown howned) hloop with
          ⟨new, hids, htakes⟩
        refine ⟨_, ?_, htakes.cancel hknown howned hunique hentry hbook hbooks hopen⟩
        rw [hids, hlocals, List.append_assoc]

/-- `sort_unstable` and `dedup`. -/
theorem sort_dedup_spec (ids : List Uuid) :
    ((ids.insertionSort (· ≤ ·)).destutter (· ≠ ·)).Nodup ∧
      ∀ x, x ∈ (ids.insertionSort (· ≤ ·)).destutter (· ≠ ·) ↔ x ∈ ids := by
  rw [(List.pairwise_insertionSort (· ≤ ·) ids).destutter_eq_dedup]
  refine ⟨List.nodup_dedup _, ?_⟩
  intro x
  rw [List.mem_dedup, List.mem_insertionSort]

/-- What an acknowledged `cancel_all` did. -/
theorem cancelAll_takesOut {placed : List Order} {requestId userId : Uuid}
    {symbol : Option String} {bundle : ResponseBundle} (hknown : st.exchange.Known placed)
    (howned : st.exchange.Owned placed) (hunique : (placed.map (·.id)).Nodup)
    (h : st.cancelAll requestId userId symbol = (.ok bundle, st')) :
    ∃ orderIds seq, bundle.response = .ack requestId (.cancelAll orderIds seq) ∧
      orderIds.Nodup ∧ TakesOut st (st.ordersToCancel userId symbol) orderIds st' := by
  unfold cancelAll at h
  dsimp only at h
  split at h
  · cases h
  · next locals st₁ hloop =>
    split at h
    · cases h
    · next events st₂ hsequence =>
      cases h
      rcases cancelEach_takesOut hknown howned hunique hloop with ⟨new, hids, htakes⟩
      have hnew : locals.canceledIds = new := hids
      rcases sort_dedup_spec locals.canceledIds with ⟨hnodup, hmem⟩
      rw [hnew] at hmem
      have hbooks : ∀ s, st'.bookOf s = st₁.bookOf s := by
        intro s
        rw [← bookOf_exchange, (reports_of_sequenceEvents hsequence).exchange, bookOf_exchange]
      -- the response lists every id that was taken out, once
      refine ⟨_, _, rfl, hnodup, ⟨?_, ?_, ?_⟩⟩
      · intro x hx
        rw [hnew] at hx
        exact htakes.live x ((hmem x).mp hx)
      · intro s
        rw [hbooks]
        refine (htakes.books s).congr ?_
        intro o _
        rw [hnew, decide_eq_decide, hmem]
      · intro s x hx
        rw [hnew, hmem]
        exact htakes.mem_iff s x hx

/-! ## Exactly the user's orders -/

/-- The order is the user's, and of the symbol if one is given. -/
def InScope (userId : Uuid) (symbol : Option String) (o : Order) : Prop :=
  o.userId = userId ∧ ∀ s, symbol = some s → s = o.symbol

instance (userId : Uuid) (symbol : Option String) (o : Order) :
    Decidable (InScope userId symbol o) :=
  match symbol with
  | none => decidable_of_iff (o.userId = userId) (by simp [InScope])
  | some s => decidable_of_iff (o.userId = userId ∧ s = o.symbol) (by simp [InScope])

/-- The user's live orders in scope and their OCO siblings were taken out, and no others;
their ids are the ones reported. -/
structure CancelledExactly (st : EngineState) (userId : Uuid) (symbol : Option String)
    (orderIds : List Uuid) (st' : EngineState) : Prop where
  complete : ∀ s, ∀ o ∈ (st'.bookOf s).live, ¬ InScope userId symbol o
  removed : ∀ s, ∀ o ∈ (st.bookOf s).live, o ∉ (st'.bookOf s).live ↔
    InScope userId symbol o ∨ ∃ x ∈ (st.bookOf s).live, InScope userId symbol x ∧
      (st.bookOf s).ocoLinks.find? x.id = some o.id
  acknowledged : ∀ id, id ∈ orderIds ↔
    ∃ s, ∃ o ∈ (st.bookOf s).live, o.id = id ∧ o ∉ (st'.bookOf s).live
  nodup : orderIds.Nodup
  /-- Every other order is as it was, at its place in its queue. -/
  others : ∀ s, Retains (fun id => decide (id ∉ orderIds)) (st.bookOf s) (st'.bookOf s)

/-- The orders of the table `cancel_all` cancels on a symbol. -/
def targets (st : EngineState) (userId : Uuid) (symbol : Option String) (s : String) : List Uuid :=
  st.listedOn (st.ordersToCancel userId symbol) s

/-- The orders it reaches by OCO links. -/
def siblings (st : EngineState) (userId : Uuid) (symbol : Option String) (s : String) :
    List Uuid := namedByLinks (st.bookOf s).ocoLinks (st.targets userId symbol s)

/-- The table and the OCO links lead to the user's orders and their siblings. -/
structure LeadsToOwn (st : EngineState) (userId : Uuid) (symbol : Option String) : Prop where
  /-- The table has the user's live orders. -/
  listed : ∀ s, ∀ o ∈ (st.bookOf s).live, InScope userId symbol o →
    o.id ∈ st.targets userId symbol s ∨ o.id ∈ st.siblings userId symbol s
  /-- A sibling is reached before the link to it is gone. -/
  linked : ∀ s, ∀ o ∈ (st.bookOf s).live, InScope userId symbol o →
    ∀ x ∈ (st.bookOf s).live, (st.bookOf s).ocoLinks.find? o.id = some x.id →
      x.id ∈ st.targets userId symbol s ∨ x.id ∈ st.siblings userId symbol s
  /-- No link leads to a foreign order. -/
  own : ∀ s, ∀ o ∈ (st.bookOf s).live, o.id ∈ st.siblings userId symbol s →
    InScope userId symbol o ∨ ∃ x ∈ (st.bookOf s).live, InScope userId symbol x ∧
      (st.bookOf s).ocoLinks.find? x.id = some o.id

/-- A live order that is a target is in the scope of the request. -/
theorem inScope_of_target {placed : List Order} {userId : Uuid} {symbol : Option String}
    {s : String} {o : Order} (hknown : st.exchange.Known placed)
    (howned : st.exchange.Owned placed) (hunique : (placed.map (·.id)).Nodup)
    (ho : o ∈ (st.bookOf s).pool) (htarget : o.id ∈ st.targets userId symbol s) :
    InScope userId symbol o := by
  rcases mem_ordersToCancel.mp (List.mem_filter.mp htarget).1 with ⟨entry, hentry, huser, hscope⟩
  rcases howned.entry_eq hknown hunique ho hentry with ⟨hown, hsymbol⟩
  have hosymbol : o.symbol = s := ((hknown.bookOf s).2 o ho).1
  refine ⟨hown.symm.trans huser, ?_⟩
  intro t ht
  rw [hosymbol, hscope t ht, hsymbol]

/-- The report is exact when no link leads out of the scope. -/
theorem cancelledExactly_iff {placed : List Order} {userId : Uuid} {symbol : Option String}
    {orderIds : List Uuid} (hknown : st.exchange.Known placed)
    (howned : st.exchange.Owned placed) (hunique : (placed.map (·.id)).Nodup)
    (hnodup : orderIds.Nodup)
    (htakes : TakesOut st (st.ordersToCancel userId symbol) orderIds st') :
    CancelledExactly st userId symbol orderIds st' ↔ st.LeadsToOwn userId symbol := by
  -- what is taken out, by id and by order
  have hgone : ∀ s, ∀ o ∈ (st.bookOf s).live, o ∉ (st'.bookOf s).live ↔ o.id ∈ orderIds := by
    intro s o ho
    rw [mem_live_iff, (htakes.books s).mem_pool_iff]
    simp [mem_live_iff.mp ho]
  have hreached : ∀ s, ∀ o ∈ (st.bookOf s).live, o ∉ (st'.bookOf s).live ↔
      o.id ∈ st.targets userId symbol s ∨ o.id ∈ st.siblings userId symbol s := by
    intro s o ho
    rw [hgone s o ho]
    exact htakes.mem_iff s o.id (mem_ids_iff.mpr ⟨o, mem_live_iff.mp ho, rfl⟩)
  constructor
  · intro hexact
    refine ⟨?_, ?_, ?_⟩
    · intro s o ho hscope
      exact (hreached s o ho).mp ((hexact.removed s o ho).mpr (Or.inl hscope))
    · intro s o ho hscope x hx hlink
      exact (hreached s x hx).mp ((hexact.removed s x hx).mpr (Or.inr ⟨o, ho, hscope, hlink⟩))
    · intro s o ho hsibling
      exact (hexact.removed s o ho).mp ((hreached s o ho).mpr (Or.inr hsibling))
  · intro hleads
    have hremoved : ∀ s, ∀ o ∈ (st.bookOf s).live, o ∉ (st'.bookOf s).live ↔
        InScope userId symbol o ∨ ∃ x ∈ (st.bookOf s).live, InScope userId symbol x ∧
          (st.bookOf s).ocoLinks.find? x.id = some o.id := by
      intro s o ho
      rw [hreached s o ho]
      constructor
      · rintro (htarget | hsibling)
        · exact Or.inl (inScope_of_target hknown howned hunique (mem_live_iff.mp ho) htarget)
        · exact hleads.own s o ho hsibling
      · rintro (hscope | ⟨x, hx, hscope, hlink⟩)
        · exact hleads.listed s o ho hscope
        · exact hleads.linked s x hx hscope o ho hlink
    refine ⟨?_, hremoved, ?_, hnodup, htakes.books⟩
    · intro s o ho hscope
      have hbefore : o ∈ (st.bookOf s).live :=
        mem_live_iff.mpr (((htakes.books s).mem_pool_iff o).mp (mem_live_iff.mp ho)).1
      exact (hremoved s o hbefore).mpr (Or.inl hscope) ho
    · intro id
      constructor
      · intro hid
        rcases htakes.live id hid with ⟨s, hmem⟩
        rcases mem_ids_iff.mp hmem with ⟨o, ho, rfl⟩
        exact ⟨s, o, mem_live_iff.mpr ho, rfl, (hgone s o (mem_live_iff.mpr ho)).mpr hid⟩
      · rintro ⟨s, o, ho, rfl, hout⟩
        exact (hgone s o ho).mp hout

/-! ## Reachable states -/

theorem unique_placed {reqs : List EngineRequest} (h : (placedIds reqs).Nodup) :
    (((placements reqs).map toCoreOrder).map (·.id)).Nodup := by
  have heq : ((placements reqs).map toCoreOrder).map (·.id) = placedIds reqs := by
    rw [List.map_map]
    rfl
  rw [heq]
  exact h

/-- Every request leaves the orders with their owners. -/
theorem handleRequest_owned {past : List EngineRequest} {req : EngineRequest}
    {result : Except ServerError ResponseBundle} (hknown : st.KnownAfter past)
    (howned : st.exchange.Owned ((placements past).map toCoreOrder)) (hfresh : Fresh past req)
    (h : st.handleRequest fuel req = some (result, st')) :
    st'.exchange.Owned ((placements (past ++ [req])).map toCoreOrder) := by
  have heffect := handleRequest_effect h
  unfold KnownAfter at hknown
  rw [placements_append, List.map_append]
  cases heffect with
  | @place requestId order hvalid htrading hdisk hlogged hstep =>
    exact hstep.owned_place hknown (admissible_of_valid hvalid) (hfresh.toCoreOrder rfl) howned
  | cancels ids _ hdoes =>
    refine Exchange.Owned.mono ?_ (List.subset_append_left _ _)
    refine (hdoes.steps.cancels_invariant (fun x => x.Known _ ∧ x.Owned _) ?_ ⟨hknown, howned⟩).2
    rintro x orderId y ⟨hx, hx'⟩ hstep
    exact ⟨hstep.known_cancel hx, hstep.owned_cancel hx hx'⟩

/-- So does every run. -/
theorem owned_of_runRequests {init : EngineState} (hinit : init.exchange = Exchange.empty)
    {reqs : List EngineRequest} (hfresh : (placedIds reqs).Nodup)
    (hrun : init.runRequests fuel reqs = some st) :
    st.KnownAfter reqs ∧ st.exchange.Owned ((placements reqs).map toCoreOrder) := by
  refine runRequests_invariant
    (fun past st => st.KnownAfter past ∧ st.exchange.Owned ((placements past).map toCoreOrder))
    (fun past _ req => Fresh past req) ?_ ?_
    (fun l req l' _ hsplit _ => fresh_of_nodup hfresh l req l' hsplit) hrun
  · rintro past mid req result mid' ⟨hknown, howned⟩ hreq h
    exact ⟨handleRequest_known hknown hreq h, handleRequest_owned hknown howned hreq h⟩
  · unfold KnownAfter
    rw [hinit]
    exact ⟨Exchange.known_empty, Exchange.owned_empty⟩

/-- A `cancel_all` that is handled without an I/O error takes out exactly the user's live
orders in scope and their OCO siblings if and only if the table and the links lead to
these. -/
theorem cancelAll_exact_iff {idSource : Stream' Uuid} {clock : Stream' String}
    {disk : Stream' Bool} {snapshotDepth : ℕ} {init : EngineState}
    (hinit : EngineState.open fuel [] [] idSource clock disk snapshotDepth = some init)
    (reqs : List EngineRequest) (hfresh : (placedIds reqs).Nodup)
    (hrun : init.runRequests fuel reqs = some st) {requestId userId : Uuid}
    {symbol : Option String} {bundle : ResponseBundle}
    (h : st.handleRequest fuel (.cancelAll requestId userId symbol) = some (.ok bundle, st')) :
    (∃ orderIds seq, bundle.response = .ack requestId (.cancelAll orderIds seq) ∧
      CancelledExactly st userId symbol orderIds st') ↔ st.LeadsToOwn userId symbol := by
  rcases owned_of_runRequests (exchange_open hinit) hfresh hrun with ⟨hknown, howned⟩
  have hunique := unique_placed hfresh
  rcases cancelAll_takesOut hknown howned hunique (Option.some.inj h) with
    ⟨orderIds, seq, hresponse, hnodup, htakes⟩
  rw [← cancelledExactly_iff hknown howned hunique hnodup htakes]
  constructor
  · rintro ⟨orderIds', seq', hresponse', hexact⟩
    rw [hresponse] at hresponse'
    cases hresponse'
    exact hexact
  · intro hexact
    exact ⟨orderIds, seq, hresponse, hexact⟩

/-- Order 1 of user 10 is no longer live but in the table, and order 4 of user 12 names it
as its OCO leg: cancelling all orders of user 10 cancels order 4. -/
theorem cancelAll_takes_foreign_order : ∃ st bundle st',
    emptyEngine.runRequests 10 (staleEntry ++ [.place 0 lateSibling]) = some st ∧
      st.handleRequest 10 (.cancelAll 0 10 none) = some (.ok bundle, st') ∧
      ¬ ∃ orderIds seq, bundle.response = .ack 0 (.cancelAll orderIds seq) ∧
        CancelledExactly st 10 none orderIds st' := by
  have hview : ((emptyEngine.runRequests 10 (staleEntry ++ [.place 0 lateSibling])).bind fun st =>
      (st.handleRequest 10 (.cancelAll 0 10 none)).map fun r =>
        (r.1.isOk, (st.bookOf "BTCUSDT").live.map (fun o => (o.id, o.userId)),
          (r.2.bookOf "BTCUSDT").live.map (·.id))) = some (true, [(4, 12)], []) := by
    decide +kernel
  rcases Option.bind_eq_some_iff.mp hview with ⟨st, hrun, hmap⟩
  rcases Option.map_eq_some_iff.mp hmap with ⟨⟨result, st'⟩, hhandle, hviews⟩
  simp only [Prod.mk.injEq] at hviews
  rcases hviews with ⟨hok, hbefore, hafter⟩
  cases result with
  | error => cases hok
  | ok bundle =>
    refine ⟨st, bundle, st', hrun, hhandle, ?_⟩
    rintro ⟨orderIds, seq, _, hexact⟩
    -- only order 4 was live, and it is not of user 10
    have hforeign : ∀ o ∈ (st.bookOf "BTCUSDT").live, ¬ InScope 10 none o := by
      intro o ho hscope
      have hmem := List.mem_map_of_mem (f := fun o : Order => (o.id, o.userId)) ho
      rw [hbefore, List.mem_singleton, Prod.mk.injEq, hscope.1] at hmem
      exact absurd hmem.2 (by decide)
    have hlive : ∃ o, o ∈ (st.bookOf "BTCUSDT").live := by
      refine List.exists_mem_of_ne_nil _ ?_
      intro hnil
      rw [hnil] at hbefore
      cases hbefore
    rcases hlive with ⟨o, ho⟩
    have hgone : o ∉ (st'.bookOf "BTCUSDT").live := by
      rw [List.map_eq_nil_iff.mp hafter]
      exact List.not_mem_nil
    rcases (hexact.removed "BTCUSDT" o ho).mp hgone with hscope | ⟨x, hx, hscope, _⟩
    · exact hforeign o ho hscope
    · exact hforeign x hx hscope

/-- The theorem on an order with a foreign OCO sibling and another user's order. -/
theorem cancelAll_with_sibling_exact : ∃ st bundle st' orderIds seq,
    emptyEngine.runRequests 10 [.place 0 (wireLimit 1 10 .sell 100 5 .cancelTaker),
        .place 0 lateSibling, .place 0 (wireLimit 5 11 .sell 105 2 .cancelTaker)] = some st ∧
      st.handleRequest 10 (.cancelAll 0 10 none) = some (.ok bundle, st') ∧
      bundle.response = .ack 0 (.cancelAll orderIds seq) ∧
        CancelledExactly st 10 none orderIds st' := by
  have hview : ((emptyEngine.runRequests 10 [.place 0 (wireLimit 1 10 .sell 100 5 .cancelTaker),
      .place 0 lateSibling, .place 0 (wireLimit 5 11 .sell 105 2 .cancelTaker)]).bind fun st =>
      (st.handleRequest 10 (.cancelAll 0 10 none)).map fun r =>
        (r.1.isOk, st.books.keys,
          decide (∀ o ∈ (st.bookOf "BTCUSDT").live, InScope 10 none o →
            o.id ∈ st.targets 10 none "BTCUSDT"),
          decide (∀ o ∈ (st.bookOf "BTCUSDT").live, InScope 10 none o →
            ∀ x ∈ (st.bookOf "BTCUSDT").live,
              (st.bookOf "BTCUSDT").ocoLinks.find? o.id = some x.id →
                x.id ∈ st.siblings 10 none "BTCUSDT"),
          decide (∀ o ∈ (st.bookOf "BTCUSDT").live, o.id ∈ st.siblings 10 none "BTCUSDT" →
            ∃ x ∈ (st.bookOf "BTCUSDT").live, InScope 10 none x ∧
              (st.bookOf "BTCUSDT").ocoLinks.find? x.id = some o.id))) =
      some (true, ["BTCUSDT"], true, true, true) := by
    decide +kernel
  rcases Option.bind_eq_some_iff.mp hview with ⟨st, hrun, hmap⟩
  rcases Option.map_eq_some_iff.mp hmap with ⟨⟨result, st'⟩, hhandle, hviews⟩
  simp only [Prod.mk.injEq, decide_eq_true_eq] at hviews
  rcases hviews with ⟨hok, hkeys, hlisted, hlinked, hown⟩
  cases result with
  | error => cases hok
  | ok bundle =>
    -- there is no other book
    have hempty : ∀ s ≠ "BTCUSDT", (st.bookOf s).live = [] := by
      intro s hs
      cases hfind : st.books.find? s with
      | none =>
        rw [EngineState.bookOf, hfind]
        rfl
      | some book =>
        have hmem := OrdMap.mem_keys.mpr ⟨book, hfind⟩
        rw [hkeys, List.mem_singleton] at hmem
        exact absurd hmem hs
    have hleads : st.LeadsToOwn 10 none := by
      refine ⟨?_, ?_, ?_⟩
      · intro s o ho hscope
        by_cases hs : s = "BTCUSDT"
        · subst hs
          exact Or.inl (hlisted o ho hscope)
        · rw [hempty s hs] at ho
          cases ho
      · intro s o ho hscope x hx hlink
        by_cases hs : s = "BTCUSDT"
        · subst hs
          exact Or.inr (hlinked o ho hscope x hx hlink)
        · rw [hempty s hs] at ho
          cases ho
      · intro s o ho hsibling
        by_cases hs : s = "BTCUSDT"
        · subst hs
          exact Or.inr (hown o ho hsibling)
        · rw [hempty s hs] at ho
          cases ho
    rcases (cancelAll_exact_iff (emptyEngine_open 10) _ (by decide) hrun hhandle).mpr hleads with
      ⟨orderIds, seq, hresponse, hexact⟩
    exact ⟨st, bundle, st', orderIds, seq, hrun, hhandle, hresponse, hexact⟩

end EngineState

end CryptoCex.Server
