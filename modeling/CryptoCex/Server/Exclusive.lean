import CryptoCex.Core.Oco
import CryptoCex.Server.Exchange

/-!
# OCO pairs through a run

An order is accepted when the command log has it, live while a book has it as a
resting order or a stop, and terminal when it was accepted and is not live. Of two
orders that name each other, one that is terminal should leave the other neither
live nor filled later (`OcoExclusive`).

The book follows the link of an order only where it knows it, and `KeepsPair` says
what a placement must not do: a third order names a leg, a leg comes after its
sibling is gone or on another symbol, or the call tears the pair apart
(`CallKeeps`). Cancels need no condition.
-/

namespace CryptoCex.Server

open CryptoCex.Core CryptoCex.Core.OrderBook
open Proto (EngineOrder EngineRequest)

namespace EngineState

/-- The order rests in a book or waits in its stop registry. -/
def Live (st : EngineState) (x : Uuid) : Prop :=
  ∃ symbol, x ∈ (st.bookOf symbol).live.map (·.id)

/-- The command log has the order, on this symbol. -/
def AcceptedOn (st : EngineState) (symbol : String) (x : Uuid) : Prop :=
  ∃ o ∈ Exchange.placedOrders st.commands, o.id = x ∧ o.symbol = symbol

/-- The order was accepted and is gone: filled, cancelled or rejected. -/
def Terminal (st : EngineState) (x : Uuid) : Prop :=
  (∃ symbol, st.AcceptedOn symbol x) ∧ ¬ st.Live x

/-- The server gives the order of the request to its book. -/
structure Admits (st : EngineState) (requestId : Uuid) (order : EngineOrder) : Prop where
  valid : validateWireOrder requestId order = none
  trading : order.symbol ∉ st.haltedSymbols
  logged : st.disk.head = true

/-- The match of the request fills the order. -/
def Fills (fuel : ℕ) (st : EngineState) (req : EngineRequest) (x : Uuid) : Prop :=
  ∃ requestId order book events f, req = .place requestId order ∧ st.Admits requestId order ∧
    matchInBook fuel (st.bookOf order.symbol) (toCoreOrder order) = some (book, events) ∧
    .fill f ∈ events ∧ (f.makerOrderId = x ∨ f.takerOrderId = x)

end EngineState

/-- After every request, a leg that is terminal has no live sibling, and the sibling is
not filled later. -/
def OcoExclusive (L : OcoPair) (fuel : ℕ) (init : EngineState) (reqs : List EngineRequest) :
    Prop :=
  ∀ past rest st, reqs = past ++ rest → init.runRequests fuel past = some st →
    ∀ p q, L.Sibling p q → st.Terminal p → ¬ st.Live q ∧
      ∀ mid req last st', rest = mid ++ req :: last → st.runRequests fuel mid = some st' →
        ¬ st'.Fills fuel req q

/-- What a placement must meet for the pair to stay together. -/
structure KeepsPair (L : OcoPair) (fuel : ℕ) (st : EngineState) (order : EngineOrder) :
    Prop where
  /-- Only its sibling names a leg. -/
  names : ∀ l q, order.ocoLinkedId = some l → L.Sibling l q → order.id = q
  /-- The sibling of a leg, if it was accepted, is live in the leg's book. -/
  sibling : ∀ q symbol, L.Sibling order.id q → st.AcceptedOn symbol q →
    symbol = order.symbol ∧ q ∈ (st.bookOf order.symbol).live.map (·.id)
  call : CallKeeps L fuel (EngineState.linkOco (st.bookOf order.symbol) (toCoreOrder order))
    (toCoreOrder order)

/-! ## The invariant -/

variable {L : OcoPair} {fuel : ℕ} {acc acc' : String → Uuid → Prop} {x y : Exchange}
  {placed : List Order}

/-- The books hold accepted orders only, and each keeps the pair together. -/
structure PairIn (L : OcoPair) (acc : String → Uuid → Prop) (x : Exchange) : Prop where
  live : ∀ symbol, ∀ i ∈ (x.bookOf symbol).toPool.ids, acc symbol i
  same : ∀ p q s s', L.Sibling p q → acc s p → acc s' q → s = s'
  bound : ∀ symbol, L.Bound (acc symbol L.legA ∧ acc symbol L.legB)
    (x.bookOf symbol).ocoLinks (x.bookOf symbol).toPool.ids

theorem both_of_sibling {p q : Uuid} (hpq : L.Sibling p q) {symbol : String} :
    (acc symbol L.legA ∧ acc symbol L.legB) ↔ acc symbol p ∧ acc symbol q := by
  rcases hpq with ⟨rfl, rfl⟩ | ⟨rfl, rfl⟩
  · exact Iff.rfl
  · exact and_comm

/-- The book of one symbol changes, and orders may be accepted on it. -/
theorem PairIn.insert (h : PairIn L acc x) {symbol : String} {b : OrderBook}
    (hbooks : y.books = x.books.insert symbol b)
    (hsame : ∀ p q s s', L.Sibling p q → acc' s p → acc' s' q → s = s')
    (hacc : ∀ symbol', symbol' ≠ symbol → acc' symbol' = acc symbol')
    (hlive : ∀ i ∈ b.toPool.ids, acc' symbol i)
    (hbound : L.Bound (acc' symbol L.legA ∧ acc' symbol L.legB) b.ocoLinks b.toPool.ids) :
    PairIn L acc' y := by
  refine ⟨?_, hsame, ?_⟩
  · intro symbol'
    rw [Exchange.bookOf_insert hbooks]
    split_ifs with heq
    · rw [heq]
      exact hlive
    · rw [hacc symbol' heq]
      exact h.live symbol'
  · intro symbol'
    rw [Exchange.bookOf_insert hbooks]
    split_ifs with heq
    · rw [heq]
      exact hbound
    · rw [hacc symbol' heq]
      exact h.bound symbol'

/-- A cancel keeps the pair together. -/
theorem PairIn.cancel {orderId : Uuid} (h : PairIn L acc x) (hknown : x.Known placed)
    (hstep : Exchange.Step fuel x (.cancelOrder orderId) y) : PairIn L acc y := by
  cases hstep with
  | bookless => exact h
  | @cancelled _ entry book _ hbook =>
    have hof : x.bookOf entry.symbol = book := by
      rw [Exchange.bookOf, hbook]
      rfl
    refine h.insert rfl h.same (fun _ _ => rfl) ?_ ?_
    · intro i hi
      have hle := Multiset.map_le_map (f := (·.id)) (within_cancelOrder book orderId).pool_le
      exact h.live entry.symbol i (hof ▸ Multiset.mem_of_le hle hi)
    · exact cancelOrder_bound (hknown.book _ _ hbook).book (hof ▸ h.bound entry.symbol) orderId

/-- Registering the pair binds it. -/
theorem linkOco_bound {both : Prop} {b : OrderBook} {order : Order}
    (h : L.Bound both b.ocoLinks b.toPool.ids)
    (hnamed : ∀ q, L.Sibling order.id q → order.ocoLinkedId = some q)
    (hnames : ∀ l q, order.ocoLinkedId = some l → L.Sibling l q → order.id = q) :
    L.Bound both (EngineState.linkOco b order).ocoLinks b.toPool.ids ∧
      ∀ q, L.Sibling order.id q →
        (EngineState.linkOco b order).ocoLinks.find? order.id = some q := by
  unfold EngineState.linkOco
  cases hlink : order.ocoLinkedId with
  | none =>
    refine ⟨h, ?_⟩
    intro q hq
    rw [hnamed q hq] at hlink
    cases hlink
  | some l =>
    refine ⟨h.link ?_, ?_⟩
    · -- the two ids it links are the pair, or neither is of the pair
      intro p q hpq
      constructor
      · rintro rfl
        exact Option.some.inj (hlink.symm.trans (hnamed q hpq))
      · rintro rfl
        exact hnames l p hlink hpq.symm
    · intro q hq
      have hlq : l = q := Option.some.inj (hlink.symm.trans (hnamed q hq))
      have hne : order.id ≠ l := hlq ▸ hq.ne
      show ((b.ocoLinks.insert order.id l).insert l order.id).find? order.id = some q
      rw [OrdMap.find?_insert, OrdMap.find?_insert, if_neg hne, if_pos rfl, hlq]

/-- A placement that meets the condition keeps the pair together. -/
theorem PairIn.place {order : Order} (h : PairIn L acc x) (hknown : x.Known placed)
    (hadm : order.Admissible) (hfresh : order.id ∉ placed.map (·.id))
    (hnamed : ∀ q, L.Sibling order.id q → order.ocoLinkedId = some q)
    (hnames : ∀ l q, order.ocoLinkedId = some l → L.Sibling l q → order.id = q)
    (hsibling : ∀ q symbol, L.Sibling order.id q → acc symbol q →
      symbol = order.symbol ∧ q ∈ (x.bookOf order.symbol).toPool.ids)
    (hcall : CallKeeps L fuel (EngineState.linkOco (x.bookOf order.symbol) order) order)
    (hunseen : ∀ symbol, ¬ acc symbol order.id)
    (hacc : ∀ symbol i, acc' symbol i ↔ acc symbol i ∨ (i = order.id ∧ symbol = order.symbol))
    (hstep : Exchange.Step fuel x (.placeOrder order) y) : PairIn L acc' y := by
  rcases hstep.place_book with ⟨book, events, hbooks, hmatch⟩
  have hsound := Exchange.sound_linkOco (hknown.bookOf order.symbol).1 order
  have hnew : order.id ∉ (x.bookOf order.symbol).toPool.ids := by
    rw [← Exchange.ids_linkOco _ order]
    intro hmem
    rcases Multiset.mem_map.mp hmem with ⟨o, ho, hid⟩
    exact hknown.fresh_linkOco hfresh o ho hid
  have hold : ∀ {symbol i}, i ≠ order.id → acc' symbol i → acc symbol i := by
    intro symbol i hne hi
    rcases (hacc symbol i).mp hi with hi | ⟨hi, _⟩
    · exact hi
    · exact absurd hi hne
  have hown : ∀ {symbol}, acc' symbol order.id → symbol = order.symbol := by
    intro symbol hi
    rcases (hacc symbol order.id).mp hi with hi | ⟨_, hsymbol⟩
    · exact absurd hi (hunseen symbol)
    · exact hsymbol
  -- the sibling of the order, if it was accepted, is on the order's symbol
  have hhome : ∀ {symbol symbol' q}, L.Sibling order.id q → acc' symbol order.id →
      acc' symbol' q → symbol = symbol' := by
    intro symbol symbol' q hq hi hq'
    rw [hown hi, (hsibling q symbol' hq (hold hq.ne.symm hq')).1]
  rcases linkOco_bound (h.bound order.symbol) hnamed hnames with ⟨hlinked, hlink⟩
  have henter : L.Bound (acc' order.symbol L.legA ∧ acc' order.symbol L.legB)
      (EngineState.linkOco (x.bookOf order.symbol) order).ocoLinks
      (order.id ::ₘ (EngineState.linkOco (x.bookOf order.symbol) order).toPool.ids) := by
    rw [Exchange.ids_linkOco]
    refine hlinked.enter hnew hlink ?_ ?_
    · intro hboth q hq
      have hq' := ((both_of_sibling hq).mp hboth).2
      exact (hsibling q _ hq (hold hq.ne.symm hq')).2
    · rintro ⟨hA, hB⟩ hnot
      refine ⟨hold ?_ hA, hold ?_ hB⟩
      · exact fun heq => hnot L.legB (Or.inl ⟨heq.symm, rfl⟩)
      · exact fun heq => hnot L.legA (Or.inr ⟨heq.symm, rfl⟩)
  refine h.insert hbooks ?_ ?_ ?_ (matchOrder_bound hsound hadm hcall henter hmatch)
  · intro p q s s' hpq hp hq
    by_cases hpo : p = order.id
    · subst hpo
      exact hhome hpq hp hq
    · by_cases hqo : q = order.id
      · subst hqo
        exact (hhome hpq.symm hq hp).symm
      · exact h.same p q s s' hpq (hold hpo hp) (hold hqo hq)
  · intro symbol' hne
    funext i
    rw [hacc symbol' i]
    exact propext (or_iff_left fun hi => hne hi.2)
  · intro i hi
    have hy : i ∈ (y.bookOf order.symbol).toPool.ids := by
      rw [Exchange.bookOf_insert hbooks, if_pos rfl]
      exact hi
    rw [hacc]
    rcases hstep.mem_ids hknown (by rintro _ ⟨⟩; exact ⟨hadm, hfresh⟩) hy with hold | ⟨_, ⟨⟩, hnew, _⟩
    · exact Or.inl (h.live _ i hold)
    · exact Or.inr ⟨hnew, rfl⟩

/-! ## Runs -/

namespace EngineState

variable {st st' : EngineState} {past : List EngineRequest} {req : EngineRequest}

/-- The ids of the live orders. -/
def liveIds (st : EngineState) : List Uuid := st.books.values.flatMap fun b => b.live.map (·.id)

/-- Live orders are those whose ids are live. -/
theorem live_iff_mem_liveIds {i : Uuid} : st.Live i ↔ i ∈ st.liveIds := by
  unfold Live liveIds bookOf
  rw [List.mem_flatMap]
  constructor
  · rintro ⟨symbol, hi⟩
    cases hbook : st.books.find? symbol with
    | none =>
      rw [hbook] at hi
      cases hi
    | some b =>
      rw [hbook] at hi
      exact ⟨b, List.mem_map.mpr ⟨_, OrdMap.find?_eq_some.mp hbook, rfl⟩, hi⟩
  · rintro ⟨b, hb, hi⟩
    rcases List.mem_map.mp hb with ⟨⟨symbol, _⟩, hentry, rfl⟩
    refine ⟨symbol, ?_⟩
    rw [OrdMap.find?_eq_some.mpr hentry]
    exact hi

/-- An order is terminal when it was accepted and is not live. -/
theorem terminal_iff {i : Uuid} : st.Terminal i ↔
    i ∈ (Exchange.placedOrders st.commands).map (·.id) ∧ i ∉ st.liveIds := by
  rw [Terminal, live_iff_mem_liveIds, List.mem_map]
  refine and_congr_left fun _ => ?_
  constructor
  · rintro ⟨symbol, o, ho, hid, _⟩
    exact ⟨o, ho, hid⟩
  · rintro ⟨o, ho, hid⟩
    exact ⟨o.symbol, o, ho, hid, rfl⟩

theorem live_iff {i : Uuid} : st.Live i ↔ ∃ symbol, i ∈ (st.bookOf symbol).toPool.ids := by
  unfold Live
  simp only [ids_toPool, Multiset.mem_coe]

/-- What holds after the requests `past`: what was accepted was placed by them, and the
pair is together. -/
structure PairKept (L : OcoPair) (past : List EngineRequest) (st : EngineState) : Prop where
  known : st.KnownAfter past
  accepted : ∀ symbol i, st.AcceptedOn symbol i → i ∈ placedIds past
  pair : PairIn L st.AcceptedOn st.exchange

/-- The sibling of a terminal leg is not live. -/
theorem PairKept.not_live (h : PairKept L past st) {p q : Uuid} (hpq : L.Sibling p q)
    (hp : st.Terminal p) : ¬ st.Live q := by
  rintro hq
  rcases live_iff.mp hq with ⟨symbol, hq⟩
  rcases hp with ⟨⟨symbol', hp⟩, hgone⟩
  have hq' := h.pair.live symbol q hq
  have hsymbol := h.pair.same p q symbol' symbol hpq hp hq'
  subst hsymbol
  have hboth := (both_of_sibling hpq).mpr ⟨hp, hq'⟩
  exact hgone (live_iff.mpr ⟨symbol', (h.pair.bound symbol').together hboth q p hpq.symm hq⟩)

/-- The accepted orders are those of the log. -/
theorem acceptedOn_concat {cmds : List WalCommand} (h : st'.commands = st.commands ++ cmds)
    {symbol : String} {i : Uuid} : st'.AcceptedOn symbol i ↔ st.AcceptedOn symbol i ∨
      ∃ o ∈ Exchange.placedOrders cmds, o.id = i ∧ o.symbol = symbol := by
  unfold AcceptedOn
  rw [h, Exchange.placedOrders_append]
  simp only [List.mem_append, or_and_right, exists_or]

/-- Every request that meets the condition keeps the pair together. -/
theorem handleRequest_pairKept {result : Except ServerError ResponseBundle}
    (h : PairKept L past st) (hfresh : Fresh past req)
    (hreq : ∀ requestId order, req = .place requestId order → st.Admits requestId order →
      (∀ q, L.Sibling order.id q → order.ocoLinkedId = some q) ∧ KeepsPair L fuel st order)
    (hhandle : st.handleRequest fuel req = some (result, st')) :
    PairKept L (past ++ [req]) st' := by
  have hknown := handleRequest_known h.known hfresh hhandle
  have hmono : ∀ i ∈ placedIds past, i ∈ placedIds (past ++ [req]) := by
    intro i hi
    rw [placedIds, placements_append, List.map_append]
    exact List.mem_append_left _ hi
  cases handleRequest_effect hhandle with
  | @place requestId order hvalid htrading hdisk hlogged hstep =>
    rcases hreq requestId order rfl ⟨hvalid, htrading, hdisk⟩ with ⟨hnamed, hkeeps⟩
    -- accepted: the pair is linked if both legs are there now
    have hacc : ∀ symbol i, st'.AcceptedOn symbol i ↔ st.AcceptedOn symbol i ∨
        (i = (toCoreOrder order).id ∧ symbol = (toCoreOrder order).symbol) := by
      intro symbol i
      rw [acceptedOn_concat hlogged]
      simp [Exchange.placedOrders, eq_comm]
    have hunseen : ∀ symbol, ¬ st.AcceptedOn symbol order.id := fun symbol hi =>
      hfresh requestId order rfl (h.accepted symbol order.id hi)
    have hplaced := hfresh.toCoreOrder rfl
    refine ⟨hknown, ?_, ?_⟩
    · intro symbol i hi
      rcases (hacc symbol i).mp hi with hi | ⟨rfl, _⟩
      · exact hmono i (h.accepted symbol i hi)
      · rw [placedIds, placements_append, List.map_append]
        exact List.mem_append_right _ List.mem_cons_self
    · refine h.pair.place h.known (admissible_of_valid hvalid) hplaced hnamed hkeeps.names ?_
        hkeeps.call hunseen hacc hstep
      intro q symbol hq hi
      rcases hkeeps.sibling q symbol hq hi with ⟨hsymbol, hlive⟩
      refine ⟨hsymbol, ?_⟩
      rw [ids_toPool]
      exact hlive
  | cancels ids _ hdoes =>
    have hacc : ∀ symbol i, st'.AcceptedOn symbol i ↔ st.AcceptedOn symbol i := by
      intro symbol i
      rw [acceptedOn_concat hdoes.logged]
      simp
    refine ⟨hknown, fun symbol i hi => hmono i (h.accepted symbol i ((hacc symbol i).mp hi)), ?_⟩
    -- each cancel keeps the pair
    have heq : st'.AcceptedOn = st.AcceptedOn :=
      funext fun symbol => funext fun i => propext (hacc symbol i)
    rw [heq]
    refine (hdoes.steps.cancels_invariant (fun x => x.Known _ ∧ PairIn L st.AcceptedOn x) ?_
      ⟨h.known, h.pair⟩).2
    rintro x orderId y ⟨hx, hpair⟩ hstep
    exact ⟨hstep.known_cancel hx, hpair.cancel hx hstep⟩

/-- An order that is terminal stays so. -/
theorem PairKept.terminal (h : PairKept L past st) (hfresh : Fresh past req) {i : Uuid}
    (hi : st.Terminal i) {result : Except ServerError ResponseBundle}
    (hhandle : st.handleRequest fuel req = some (result, st')) : st'.Terminal i := by
  rcases hi with ⟨⟨symbol, hacc⟩, hgone⟩
  have hgone' : ∀ symbol, i ∉ (st.bookOf symbol).toPool.ids := fun symbol hmem =>
    hgone (live_iff.mpr ⟨symbol, hmem⟩)
  cases handleRequest_effect hhandle with
  -- only a placement of its own id could bring it back, and ids are fresh
  | @place requestId order hvalid _ _ hlogged hstep =>
    refine ⟨⟨symbol, (acceptedOn_concat hlogged).mpr (Or.inl hacc)⟩, ?_⟩
    intro hlive
    rcases live_iff.mp hlive with ⟨symbol', hlive⟩
    have hplaced := hfresh.toCoreOrder rfl
    rcases hstep.mem_ids h.known (by rintro _ ⟨⟩; exact ⟨admissible_of_valid hvalid, hplaced⟩)
      hlive with hlive | ⟨_, ⟨⟩, rfl, _⟩
    · exact hgone' symbol' hlive
    · exact hfresh requestId order rfl (h.accepted symbol order.id hacc)
  | cancels ids _ hdoes =>
    refine ⟨⟨symbol, (acceptedOn_concat hdoes.logged).mpr (Or.inl hacc)⟩, ?_⟩
    have hinv := hdoes.steps.cancels_invariant
      (fun x => x.Known _ ∧ ∀ symbol, i ∉ (x.bookOf symbol).toPool.ids) ?_ ⟨h.known, hgone'⟩
    · intro hlive
      rcases live_iff.mp hlive with ⟨symbol', hlive⟩
      exact hinv.2 symbol' hlive
    · rintro x orderId y ⟨hx, hout⟩ hstep
      refine ⟨hstep.known_cancel hx, ?_⟩
      intro symbol' hmem
      rcases hstep.mem_ids hx (by rintro _ ⟨⟩) hmem with hmem | ⟨_, ⟨⟩, _⟩
      exact hout symbol' hmem

/-- The sibling of a terminal leg is not filled. -/
theorem PairKept.not_fills (h : PairKept L past st) (hfresh : Fresh past req)
    (hreq : ∀ requestId order, req = .place requestId order → st.Admits requestId order →
      KeepsPair L fuel st order) {p q : Uuid} (hpq : L.Sibling p q) (hp : st.Terminal p) :
    ¬ st.Fills fuel req q := by
  rintro ⟨requestId, order, book, events, f, rfl, hadmits, hmatch, hfill, hq⟩
  have hkeeps := hreq requestId order rfl hadmits
  have hplaced := hfresh.toCoreOrder rfl
  have hnamed : q ∈ named events := by
    refine List.mem_flatMap.mpr ⟨_, hfill, ?_⟩
    rcases hq with rfl | rfl
    · exact List.mem_cons_self
    · exact List.mem_cons_of_mem _ List.mem_cons_self
  have hsound := Exchange.sound_linkOco (h.known.bookOf order.symbol).1 (toCoreOrder order)
  have hother : q ≠ (toCoreOrder order).id := by
    -- a leg that comes after its sibling is gone does not meet the condition
    rintro rfl
    rcases hp with ⟨⟨symbol, hacc⟩, hgone⟩
    exact hgone ⟨order.symbol, (hkeeps.sibling p symbol hpq.symm hacc).2⟩
  have hout : q ∉ (linkOco (st.bookOf order.symbol) (toCoreOrder order)).toPool.ids := by
    rw [Exchange.ids_linkOco]
    intro hmem
    exact h.not_live hpq hp (live_iff.mpr ⟨order.symbol, hmem⟩)
  exact matchOrder_unnamed hsound (admissible_of_valid hadmits.valid)
    (h.known.fresh_linkOco hplaced) hother hout hmatch hnamed

theorem pairKept_empty {init : EngineState} (hexchange : init.exchange = Exchange.empty)
    (hcommands : init.commands = []) : PairKept L [] init where
  known := by
    rw [KnownAfter, hexchange]
    exact Exchange.known_empty
  accepted := by
    rintro symbol i ⟨o, ho, _⟩
    rw [hcommands] at ho
    cases ho
  pair := by
    rw [hexchange]
    refine ⟨?_, ?_, ?_⟩
    · intro symbol i hi
      cases Multiset.notMem_zero i hi
    · rintro p q s s' _ ⟨o, ho, _⟩
      rw [hcommands] at ho
      cases ho
    · intro symbol
      refine ⟨Multiset.nodup_zero, ?_, ?_, ?_⟩
      · rintro x l ⟨⟩
      · intro p q _ hp
        cases Multiset.notMem_zero p hp
      · intro _ p q _ hp
        cases Multiset.notMem_zero p hp

end EngineState

/-- In every run of requests with fresh order ids in which two orders name each other
and every placement meets the condition, the pair is exclusive. -/
theorem ocoExclusive_of_keepsPair (L : OcoPair) {idSource : Stream' Uuid}
    {clock : Stream' String} {disk : Stream' Bool} {snapshotDepth : ℕ} {init : EngineState}
    (hinit : EngineState.open fuel [] [] idSource clock disk snapshotDepth = some init)
    (reqs : List EngineRequest) (hfresh : (EngineState.placedIds reqs).Nodup)
    (hnamed : ∀ order ∈ EngineState.placements reqs, ∀ q, L.Sibling order.id q →
      order.ocoLinkedId = some q)
    (hkeeps : ∀ past requestId order rest mid, reqs = past ++ .place requestId order :: rest →
      init.runRequests fuel past = some mid → mid.Admits requestId order →
      KeepsPair L fuel mid order) : OcoExclusive L fuel init reqs := by
  have hempty : init.PairKept L [] := by
    cases hinit
    exact EngineState.pairKept_empty rfl rfl
  have hnext := EngineState.fresh_of_nodup hfresh
  -- the pair is together after every prefix of the run
  have hkept : ∀ past rest st, reqs = past ++ rest → init.runRequests fuel past = some st →
      st.PairKept L past := by
    intro past rest st hsplit hrun
    refine EngineState.runRequests_invariant (fun past st => st.PairKept L past)
      (fun past st req => EngineState.Fresh past req ∧
        ∀ requestId order, req = .place requestId order → st.Admits requestId order →
          (∀ q, L.Sibling order.id q → order.ocoLinkedId = some q) ∧ KeepsPair L fuel st order)
      (fun _ _ _ _ _ h hok => EngineState.handleRequest_pairKept h hok.1 hok.2) hempty ?_ hrun
    intro l req l' mid hl hmid
    have hreqs : reqs = l ++ req :: (l' ++ rest) := by
      rw [hsplit, hl, List.append_assoc, List.cons_append]
    refine ⟨hnext l req _ hreqs, ?_⟩
    rintro requestId order rfl hadmits
    refine ⟨hnamed order ?_, hkeeps l requestId order _ mid hreqs hmid hadmits⟩
    rw [hreqs, EngineState.placements_append]
    exact List.mem_append_right _ List.mem_cons_self
  intro past rest st hsplit hrun p q hpq hp
  refine ⟨(hkept past rest st hsplit hrun).not_live hpq hp, ?_⟩
  intro mid req last st' hrest hmid
  have hreqs : reqs = (past ++ mid) ++ req :: last := by
    rw [hsplit, hrest, List.append_assoc]
  have hruns : ∀ l s, st.runRequests fuel l = some s →
      init.runRequests fuel (past ++ l) = some s := by
    intro l s hl
    rw [EngineState.runRequests_append, hrun]
    exact hl
  have hp' : st'.Terminal p := by
    refine EngineState.runRequests_invariant (fun _ st => st.Terminal p)
      (fun l st req => st.PairKept L (past ++ l) ∧ EngineState.Fresh (past ++ l) req)
      (fun _ _ _ _ _ h hok hhandle => hok.1.terminal hok.2 h hhandle) hp ?_ hmid
    intro l r l' s hl hs
    have hreqs' : reqs = (past ++ l) ++ r :: (l' ++ req :: last) := by
      rw [hreqs, hl]
      simp only [List.append_assoc, List.cons_append]
    exact ⟨hkept _ _ s hreqs' (hruns l s hs), hnext _ r _ hreqs'⟩
  refine (hkept _ _ st' hreqs (hruns mid st' hmid)).not_fills (hnext _ req _ hreqs) ?_ hpq hp'
  rintro requestId order rfl hadmits
  exact hkeeps _ requestId order _ st' hreqs (hruns mid st' hmid) hadmits

/-! ## Undisturbed placements -/

instance (L : OcoPair) (p q : Uuid) : Decidable (L.Sibling p q) :=
  inferInstanceAs (Decidable (_ ∨ _))

/-- A placement that neither the pre-checks nor self-trade prevention nor a stop can
disturb, of an order that is no leg or joins its sibling on the same side. -/
structure Undisturbed (L : OcoPair) (st : EngineState) (order : EngineOrder) : Prop where
  checked : order.orderType ≠ .fok ∧ order.orderType ≠ .postOnly
  names : ∀ l ∈ order.ocoLinkedId, ∀ q ∈ [L.legA, L.legB], L.Sibling l q → order.id = q
  sibling : ∀ o ∈ Exchange.placedOrders st.commands, L.Sibling order.id o.id →
    o.symbol = order.symbol ∧ o.id ∈ (st.bookOf order.symbol).live.map (·.id)
  stops : (st.bookOf order.symbol).stops.orders = []
  others : ∀ o ∈ (st.bookOf order.symbol).live, o.side = (toCoreSide order.side).opposite →
    o.userId ≠ order.userId ∧ ¬ L.Sibling order.id o.id

instance (L : OcoPair) (st : EngineState) (order : EngineOrder) :
    Decidable (Undisturbed L st order) :=
  decidable_of_iff ((order.orderType ≠ .fok ∧ order.orderType ≠ .postOnly) ∧
    (∀ l ∈ order.ocoLinkedId, ∀ q ∈ [L.legA, L.legB], L.Sibling l q → order.id = q) ∧
    (∀ o ∈ Exchange.placedOrders st.commands, L.Sibling order.id o.id →
      o.symbol = order.symbol ∧ o.id ∈ (st.bookOf order.symbol).live.map (·.id)) ∧
    (st.bookOf order.symbol).stops.orders = [] ∧
    ∀ o ∈ (st.bookOf order.symbol).live, o.side = (toCoreSide order.side).opposite →
      o.userId ≠ order.userId ∧ ¬ L.Sibling order.id o.id)
    ⟨fun h => ⟨h.1, h.2.1, h.2.2.1, h.2.2.2.1, h.2.2.2.2⟩,
      fun h => ⟨h.checked, h.names, h.sibling, h.stops, h.others⟩⟩

/-- A placement that does not disturb the pair keeps it. -/
theorem keepsPair_of_undisturbed {past : List EngineRequest} {st : EngineState}
    {requestId : Uuid} {order : EngineOrder} (hknown : st.KnownAfter past)
    (hfresh : EngineState.Fresh past (.place requestId order))
    (hvalid : validateWireOrder requestId order = none) (h : Undisturbed L st order) :
    KeepsPair L fuel st order := by
  have hsound := Exchange.sound_linkOco (hknown.bookOf order.symbol).1 (toCoreOrder order)
  refine ⟨?_, ?_, ?_⟩
  · intro l q hl hq
    refine h.names l hl q ?_ hq
    rcases hq with ⟨_, rfl⟩ | ⟨_, rfl⟩ <;> simp
  · rintro q symbol hq ⟨o, ho, rfl, rfl⟩
    exact h.sibling o ho hq
  · refine callKeeps_of_others hsound (hknown.fresh_linkOco (hfresh.toCoreOrder rfl))
      (EngineState.admissible_of_valid hvalid) ?_ ?_ ?_
    · rw [stopPool, Exchange.stops_linkOco, h.stops]
      rfl
    · intro o ho hside
      have hpool := mem_pool.mpr (Or.inl ho)
      rw [Exchange.pool_linkOco, pool_eq_coe_live] at hpool
      exact h.others o (Multiset.mem_coe.mp hpool) hside
    · -- an order that is rejected before the match has failed its check, and this one passes
      intro y _ hpre
      refine absurd ?_ hpre
      rcases h.checked with ⟨hfok, hpost⟩
      cases htype : order.orderType <;> simp_all [preCheck, toCoreOrder, toCoreOrderType]

/-- The check on a run decides it. -/
theorem undisturbed_of_check {init st : EngineState} {past : List EngineRequest}
    {order : EngineOrder} (hrun : init.runRequests fuel past = some st)
    (hcheck : (init.runRequests fuel past).all (fun st => decide (Undisturbed L st order))) :
    Undisturbed L st order := by
  rw [hrun] at hcheck
  exact of_decide_eq_true hcheck

/-- A limit order of an OCO pair. -/
def wireLeg (id linkedId : Uuid) (price : Decimal) : EngineOrder :=
  { wireLimit id 10 .sell price 5 .cancelTaker with ocoLinkedId := some linkedId }

/-- Both legs are placed and another order follows. -/
def legsThen (order : EngineOrder) : List EngineRequest :=
  [.place 0 (wireLeg 1 2 100), .place 0 (wireLeg 2 1 105), .place 0 order]

/-- The run theorem on a pair whose first leg is filled by another user. -/
theorem ocoExclusive_after_fill :
    ∃ st, emptyEngine.runRequests 10 (legsThen (wireLimit 3 11 .buy 100 5 .cancelTaker)) =
      some st ∧ st.Terminal 1 ∧ ¬ st.Live 2 := by
  have hview : (emptyEngine.runRequests 10
      (legsThen (wireLimit 3 11 .buy 100 5 .cancelTaker))).map (fun st =>
        ((Exchange.placedOrders st.commands).map (·.id), st.liveIds)) = some ([1, 2, 3], []) := by
    decide +kernel
  rcases Option.map_eq_some_iff.mp hview with ⟨st, hst, hids⟩
  rcases Prod.mk.inj hids with ⟨hplaced, hlive⟩
  have hterminal : st.Terminal 1 := by
    rw [EngineState.terminal_iff, hplaced, hlive]
    decide
  refine ⟨st, hst, hterminal, ?_⟩
  have hexclusive := ocoExclusive_of_keepsPair ⟨1, 2, by decide⟩ (emptyEngine_open 10)
    (legsThen (wireLimit 3 11 .buy 100 5 .cancelTaker)) (by decide)
    (by simp [legsThen, EngineState.placements, OcoPair.Sibling, wireLeg, wireLimit]) ?_
  · exact (hexclusive _ [] st (List.append_nil _).symm hst 1 2 (by decide) hterminal).1
  · intro past requestId order rest mid hsplit hmid hadmits
    have hknown := EngineState.knownAfter_of_runRequests
      (EngineState.exchange_open (emptyEngine_open 10)) (EngineState.nodup_past (by decide) hsplit) hmid
    refine keepsPair_of_undisturbed hknown
      (EngineState.fresh_of_nodup (by decide) past _ rest hsplit) hadmits.valid ?_
    -- before each of the three placements the pair is undisturbed
    rcases List.cons_eq_append_iff.mp hsplit with ⟨rfl, hreq⟩ | ⟨past₁, rfl, hsplit₁⟩
    · cases hreq
      exact undisturbed_of_check hmid (by decide +kernel)
    · rcases List.cons_eq_append_iff.mp hsplit₁ with ⟨rfl, hreq⟩ | ⟨past₂, rfl, hsplit₂⟩
      · cases hreq
        exact undisturbed_of_check hmid (by decide +kernel)
      · rcases List.cons_eq_append_iff.mp hsplit₂ with ⟨rfl, hreq⟩ | ⟨past₃, rfl, hsplit₃⟩
        · cases hreq
          exact undisturbed_of_check hmid (by decide +kernel)
        · cases past₃ <;> cases hsplit₃

/-- Self-trade prevention takes one leg of a pair, and the other goes on resting. -/
theorem leg_rests_after_stp :
    ¬ OcoExclusive ⟨1, 2, by decide⟩ 10 emptyEngine
      (legsThen (wireLimit 3 10 .buy 100 5 .cancelMaker)) := by
  have hview : (emptyEngine.runRequests 10
      (legsThen (wireLimit 3 10 .buy 100 5 .cancelMaker))).map (fun st =>
        ((Exchange.placedOrders st.commands).map (·.id), st.liveIds)) =
          some ([1, 2, 3], [3, 2]) := by
    decide +kernel
  rcases Option.map_eq_some_iff.mp hview with ⟨st, hst, hids⟩
  rcases Prod.mk.inj hids with ⟨hplaced, hlive⟩
  intro hexclusive
  refine (hexclusive _ [] st (List.append_nil _).symm hst 1 2 (by decide) ?_).1 ?_
  · rw [EngineState.terminal_iff, hplaced, hlive]
    decide
  · rw [EngineState.live_iff_mem_liveIds, hlive]
    decide

end CryptoCex.Server
