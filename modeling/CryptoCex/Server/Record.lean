import CryptoCex.Server.Admission
import CryptoCex.Server.Halt
import CryptoCex.Server.Recovery
import CryptoCex.Server.Shown
import CryptoCex.Server.Tape

/-!
# The event log as a tape

The event log is what the rest of the exchange knows of the engine: the bridge stores it, and
settlement moves balances by it. It is a tape: an order is accepted once and before anything else
is said of it, not on a halted market, and then the log keeps to what `Tape.Allows` says of fills
and cancels, on every market at once.

Appends may fail. The log is a tape as long as the acceptance of an order is appended whenever its
command was, and the resumption of a market whenever it took effect (`Recorded`); any other append
may fail and take the rest of its request's events with it (`eventLog_taped`).
-/

namespace CryptoCex.Server

open CryptoCex.Core CryptoCex.Core.OrderBook
open Proto (EngineOrder EngineRequest SequencedEngineEvent TradeFill)

/-! ## Tapes of wire events -/

structure Tape where
  standings : Standings
  halted : Finset String

def toCoreFill (f : TradeFill) : Fill where
  takerOrderId := f.takerOrderId
  makerOrderId := f.makerOrderId
  price := f.price
  quantity := f.quantity
  takerSide := toCoreSide f.takerSide

namespace Tape

def blank : Tape := ⟨fun _ => none, ∅⟩

def apply (t : Tape) : Proto.EngineEvent → Tape
  | .orderAccepted order => { t with standings := t.standings.place (toCoreOrder order) }
  | .orderRested _ _ => t
  | .fill f => { t with standings := t.standings.apply (.fill (toCoreFill f)) }
  | .orderCanceled orderId _ => { t with standings := t.standings.modify orderId Standing.close }
  | .bookDelta _ _ _ => t
  | .marketStatus symbol .halted => { t with halted := insert symbol t.halted }
  | .marketStatus symbol .trading => { t with halted := t.halted.erase symbol }

def applyAll (t : Tape) (events : List Proto.EngineEvent) : Tape := events.foldl apply t

/-- The event may come next. -/
def Allows (t : Tape) : Proto.EngineEvent → Prop
  | .orderAccepted order =>
    t.standings order.id = none ∧ 0 < order.quantity ∧ order.symbol ∉ t.halted
  | .orderRested orderId remaining =>
    ∃ s, t.standings.IsOpen orderId s ∧ 0 < remaining ∧ remaining ≤ s.left
  | .fill f => t.standings.Allows f.symbol (.fill (toCoreFill f)) ∧ f.symbol ∉ t.halted
  | .orderCanceled orderId _ => ∃ s, t.standings.IsOpen orderId s ∧ 0 < s.left
  | .bookDelta _ _ _ => True
  | .marketStatus _ _ => True

def Accepts : Tape → List Proto.EngineEvent → Prop
  | _, [] => True
  | t, e :: events => t.Allows e ∧ (t.apply e).Accepts events

variable {t : Tape} {e : Proto.EngineEvent} {events events' : List Proto.EngineEvent}

theorem applyAll_append (t : Tape) (events events' : List Proto.EngineEvent) :
    t.applyAll (events ++ events') = (t.applyAll events).applyAll events' := List.foldl_append

/-- A tape accepts two logs one after the other. -/
theorem accepts_append :
    t.Accepts (events ++ events') ↔ t.Accepts events ∧ (t.applyAll events).Accepts events' := by
  induction events generalizing t with
  | nil => simp [Accepts, applyAll]
  | cons e events ih =>
    simp only [List.cons_append, Accepts, ih, applyAll, List.foldl_cons]
    rw [and_assoc]

end Tape

/-! ## The events of a match, and of a cancel -/

section Wire

variable {t : Tape} {symbol : String} {events : List EngineEvent}

theorem toCoreFill_toWireFill (st : EngineState) (symbol : String) (f : Fill) :
    toCoreFill (st.toWireFill symbol f).1 = f := by
  rcases f with ⟨taker, maker, price, quantity, side⟩
  cases side <;> rfl

/-- A tape takes the wire events of a match as its standings take the events of the core. -/
theorem toWireCoreEvents_taped (st : EngineState) (htrading : symbol ∉ t.halted)
    (haccepts : t.standings.Accepts symbol events) :
    t.Accepts (st.toWireCoreEvents symbol events).1.1 ∧
      t.applyAll (st.toWireCoreEvents symbol events).1.1 =
        { t with standings := t.standings.applyAll events } := by
  induction events generalizing st t with
  | nil => exact ⟨trivial, rfl⟩
  | cons e events ih =>
    rcases haccepts with ⟨hallows, haccepts⟩
    cases e with
    -- only a fill is rewritten, and it is read back as itself
    | fill f =>
      have hfill := toCoreFill_toWireFill st symbol f
      have happly : t.apply (.fill (st.toWireFill symbol f).1) =
          { t with standings := t.standings.apply (.fill f) } := by
        rw [Tape.apply, hfill]
      rcases ih (t := { t with standings := t.standings.apply (.fill f) })
        (st.toWireFill symbol f).2 htrading haccepts with ⟨hrest, htape⟩
      dsimp only at htape
      have hfirst : t.Allows (.fill (st.toWireFill symbol f).1) := by
        refine ⟨?_, htrading⟩
        rw [hfill]
        exact hallows
      rw [← happly] at hrest htape
      exact ⟨⟨hfirst, hrest⟩, htape⟩
    | rested id remaining =>
      rcases ih st htrading haccepts with ⟨hrest, htape⟩
      exact ⟨⟨hallows, hrest⟩, htape⟩
    | cancelled id reason =>
      rcases ih (t := { t with standings := t.standings.apply (.cancelled id reason) }) st htrading
        haccepts with ⟨hrest, htape⟩
      exact ⟨⟨hallows, hrest⟩, htape⟩
    | stopTriggered id => exact ih st htrading haccepts

/-- Cancels are taken from halted markets as well. -/
theorem toWireCancelEvents_taped (haccepts : t.standings.Accepts symbol events)
    (hcancels : ∀ e ∈ events, ∃ id reason, e = .cancelled id reason) :
    t.Accepts (EngineState.toWireCancelEvents events) ∧
      t.applyAll (EngineState.toWireCancelEvents events) =
        { t with standings := t.standings.applyAll events } := by
  induction events generalizing t with
  | nil => exact ⟨trivial, rfl⟩
  | cons e events ih =>
    rcases hcancels e List.mem_cons_self with ⟨id, reason, rfl⟩
    rcases haccepts with ⟨hallows, haccepts⟩
    rcases ih (t := { t with standings := t.standings.apply (.cancelled id reason) }) haccepts
      (fun e he => hcancels e (List.mem_cons_of_mem _ he)) with ⟨hrest, htape⟩
    exact ⟨⟨hallows, hrest⟩, htape⟩

end Wire

/-! ## What was said before an order was live -/

section Back

variable {t : Tape} {symbol : String} {o : Order} {e : Proto.EngineEvent}
  {events pre post : List Proto.EngineEvent}

/-- An event that says something of orders that were accepted before. -/
def Tells : Proto.EngineEvent → Prop
  | .orderAccepted _ => False
  | .marketStatus _ _ => False
  | _ => True

theorem Tape.halted_apply (htells : Tells e) : (t.apply e).halted = t.halted := by
  cases e with
  | orderAccepted | marketStatus => exact htells.elim
  | orderRested | fill | orderCanceled | bookDelta => rfl

/-- Events that only tell accept no order. -/
theorem isSome_apply (htells : Tells e) {x : Uuid} :
    ((t.apply e).standings x).isSome = (t.standings x).isSome := by
  have hmodify : ∀ (s : Standings) (id : Uuid) (f : Standing → Standing),
      (s.modify id f x).isSome = (s x).isSome := by
    intro s id f
    unfold Standings.modify
    split_ifs <;> simp
  cases e with
  | orderAccepted | marketStatus => exact htells.elim
  | orderRested | bookDelta => rfl
  | orderCanceled id reason => exact hmodify _ _ _
  | fill f => exact (hmodify _ _ _).trans (hmodify _ _ _)

/-- What is on a tape stays on it. -/
theorem isSome_applyAll_of {x : Uuid} (h : (t.standings x).isSome) :
    ((t.applyAll events).standings x).isSome := by
  induction events generalizing t with
  | nil => exact h
  | cons e events ih =>
    refine ih (t := t.apply e) ?_
    by_cases htells : Tells e
    · rw [isSome_apply htells]
      exact h
    · cases e with
      | orderAccepted order =>
        change (if x = order.id then some _ else t.standings x).isSome
        split_ifs
        · rfl
        · exact h
      | marketStatus symbol status => cases status <;> exact h
      | orderRested | bookDelta | orderCanceled | fill => exact (htells trivial).elim

/-- What stands after an event stood before it with at least as much left. -/
theorem Backs.before (h : Backs (t.apply e).standings symbol o) (hallows : t.Allows e)
    (htells : Tells e) : Backs t.standings symbol o := by
  -- an order that is open after its standing changed was open before
  have hmodify : ∀ {st : Standings} {id : Uuid} {f : Standing → Standing},
      (∀ s, (f s).order = s.order ∧ (f s).left ≤ s.left ∧
        ((f s).closed = false → s.closed = false)) →
      Backs (st.modify id f) symbol o → Backs st symbol o := by
    rintro st id f hf ⟨s, ⟨hfind, hopen⟩, hle, hs⟩
    by_cases hid : o.id = id
    · subst hid
      rw [Standings.modify_self] at hfind
      rcases Option.map_eq_some_iff.mp hfind with ⟨s₀, hfind₀, rfl⟩
      rcases hf s₀ with ⟨horder, hleft, hclosed⟩
      rw [horder] at hs
      exact ⟨s₀, ⟨hfind₀, hclosed hopen⟩, hle.trans hleft, hs⟩
    · rw [Standings.modify_ne _ _ hid] at hfind
      exact ⟨s, ⟨hfind, hopen⟩, hle, hs⟩
  cases e with
  | orderAccepted | marketStatus => exact htells.elim
  | orderRested | bookDelta => exact h
  | orderCanceled id reason =>
    refine hmodify ?_ h
    intro s
    refine ⟨rfl, le_refl _, ?_⟩
    rintro ⟨⟩
  | fill f =>
    rcases hallows with ⟨⟨_, _, _, _, htrade⟩, _⟩
    have hpos : 0 < (toCoreFill f).quantity := htrade.positive
    have htake : ∀ s : Standing, (s.take (toCoreFill f).quantity).order = s.order ∧
        (s.take (toCoreFill f).quantity).left ≤ s.left ∧
        ((s.take (toCoreFill f).quantity).closed = false → s.closed = false) := by
      intro s
      refine ⟨rfl, ?_, fun h => h⟩
      show s.left - (toCoreFill f).quantity ≤ s.left
      lia
    exact hmodify htake (hmodify htake h)

/-- What backs an order after events that tell backed it before. -/
theorem Backs.beforeAll (h : Backs (t.applyAll events).standings symbol o)
    (haccepts : t.Accepts events) (htells : ∀ e ∈ events, Tells e) :
    Backs t.standings symbol o := by
  induction events generalizing t with
  | nil => exact h
  | cons e events ih =>
    rcases haccepts with ⟨hallows, haccepts⟩
    exact (ih h haccepts fun e he => htells e (List.mem_cons_of_mem _ he)).before hallows
      (htells e List.mem_cons_self)

theorem Tape.halted_applyAll (htells : ∀ e ∈ events, Tells e) :
    (t.applyAll events).halted = t.halted := by
  induction events generalizing t with
  | nil => rfl
  | cons e events ih =>
    have hrest := ih (t := t.apply e) fun e he => htells e (List.mem_cons_of_mem _ he)
    exact hrest.trans (halted_apply (htells e List.mem_cons_self))

/-- What was on the tape before an event that it allows stood with at least as much left. -/
theorem Backs.earlier (h : Backs (t.applyAll events).standings symbol o)
    (haccepts : t.Accepts events) (hsome : (t.standings o.id).isSome) :
    Backs t.standings symbol o := by
  induction events generalizing t with
  | nil => exact h
  | cons e events ih =>
    rcases haccepts with ⟨hallows, haccepts⟩
    by_cases htells : Tells e
    · have hstill : ((t.apply e).standings o.id).isSome := by
        rw [isSome_apply htells]
        exact hsome
      exact (ih h haccepts hstill).before hallows htells
    · -- the acceptance of another order, or a change of a market
      have hsame : (t.apply e).standings o.id = t.standings o.id := by
        cases e with
        | orderAccepted order =>
          refine if_neg ?_
          intro heq
          have hnone : t.standings order.id = none := hallows.1
          have heq : o.id = order.id := heq
          rw [heq, hnone] at hsome
          cases hsome
        | marketStatus symbol status => cases status <;> rfl
        | orderRested | bookDelta | orderCanceled | fill => exact (htells trivial).elim
      have hstill : ((t.apply e).standings o.id).isSome := by
        rw [hsame]
        exact hsome
      exact (ih h haccepts hstill).of_eq hsame.symm

end Back

section Origin

variable {t : Tape} {events : List Proto.EngineEvent} {x : Uuid} {s : Standing}

/-- An order stands on a tape as it was accepted, with no more left than its quantity. -/
theorem Tape.origin (h : (blank.applyAll events).standings x = some s)
    (haccepts : blank.Accepts events) : s.left ≤ s.order.quantity ∧
      ∃ order, .orderAccepted order ∈ events ∧ order.id = x ∧ s.order = toCoreOrder order := by
  -- a change of a standing leaves its order, with no more left
  have hmodify : ∀ {st : Standings} {id : Uuid} {f : Standing → Standing} {s : Standing},
      (∀ s, (f s).order = s.order ∧ (f s).left ≤ s.left) → st.modify id f x = some s →
      ∃ s₀, st x = some s₀ ∧ s.order = s₀.order ∧ s.left ≤ s₀.left := by
    intro st id f s hf hs
    unfold Standings.modify at hs
    split_ifs at hs
    · rcases Option.map_eq_some_iff.mp hs with ⟨s₀, hs₀, rfl⟩
      exact ⟨s₀, hs₀, hf s₀⟩
    · exact ⟨s, hs, rfl, le_refl _⟩
  induction events using List.reverseRecOn generalizing s with
  | nil => cases h
  | append_singleton events e ih =>
    rcases Tape.accepts_append.mp haccepts with ⟨hbefore, hallows, _⟩
    -- so what stood before stands with no more left
    have hold : ∀ {s₀}, (blank.applyAll events).standings x = some s₀ → s.order = s₀.order →
        s.left ≤ s₀.left → s.left ≤ s.order.quantity ∧ ∃ order,
          .orderAccepted order ∈ events ++ [e] ∧ order.id = x ∧ s.order = toCoreOrder order := by
      intro s₀ hs₀ horder hle
      rcases ih hs₀ hbefore with ⟨hleft, order, hmem, hid, hsame⟩
      rw [horder]
      exact ⟨hle.trans hleft, order, List.mem_append_left _ hmem, hid, hsame⟩
    rw [Tape.applyAll_append] at h
    cases e with
    | orderAccepted order =>
      change ((blank.applyAll events).standings.place (toCoreOrder order)) x = some s at h
      unfold Standings.place at h
      split_ifs at h with hx
      · cases h
        exact ⟨le_refl _, order, List.mem_append_right _ List.mem_cons_self, hx.symm, rfl⟩
      · exact hold h rfl (le_refl _)
    | orderRested | bookDelta => exact hold h rfl (le_refl _)
    | marketStatus symbol status => cases status <;> exact hold h rfl (le_refl _)
    | orderCanceled orderId reason =>
      change ((blank.applyAll events).standings.modify orderId Standing.close) x = some s at h
      rcases hmodify (f := Standing.close) (fun s => ⟨rfl, le_refl s.left⟩) h with
        ⟨s₀, hs₀, horder, hle⟩
      exact hold hs₀ horder hle
    | fill f =>
      rcases hallows with ⟨⟨_, _, _, _, htrade⟩, _⟩
      have hpos : 0 < (toCoreFill f).quantity := htrade.positive
      have htake : ∀ s : Standing, (s.take (toCoreFill f).quantity).order = s.order ∧
          (s.take (toCoreFill f).quantity).left ≤ s.left := by
        intro s
        refine ⟨rfl, ?_⟩
        show s.left - (toCoreFill f).quantity ≤ s.left
        lia
      rcases hmodify htake h with ⟨s₁, hs₁, horder₁, hle₁⟩
      rcases hmodify htake hs₁ with ⟨s₀, hs₀, horder₀, hle₀⟩
      exact hold hs₀ (horder₁.trans horder₀) (hle₁.trans hle₀)

end Origin

/-! ## States on a tape -/

namespace EngineState

variable {fuel : ℕ} {st st' mid : EngineState} {t : Tape} {placed : List Order}

/-- The live orders stand on the tape, and no market is halted on it that is not halted. -/
structure Taped (t : Tape) (st : EngineState) : Prop where
  halted : t.halted ⊆ st.haltedSymbols
  live : ∀ symbol, ∀ o ∈ (st.bookOf symbol).pool, Stands t.standings symbol o

/-- The tape depends on the books and the halted markets only. -/
theorem Taped.congr (h : Taped t st) (hbooks : st'.books = st.books)
    (hhalted : st'.haltedSymbols = st.haltedSymbols) : Taped t st' where
  halted := hhalted ▸ h.halted
  live := by
    intro symbol
    unfold bookOf
    rw [hbooks]
    exact h.live symbol

/-- What a failed append does not say may be left out. -/
theorem Taped.ofPrefix {pre post : List Proto.EngineEvent} (h : Taped (t.applyAll (pre ++ post)) st)
    (haccepts : t.Accepts (pre ++ post)) (htells : ∀ e ∈ post, Tells e) :
    t.Accepts pre ∧ Taped (t.applyAll pre) st := by
  rcases Tape.accepts_append.mp haccepts with ⟨hpre, hpost⟩
  rw [Tape.applyAll_append] at h
  refine ⟨hpre, ?_, ?_⟩
  · rw [← Tape.halted_applyAll htells]
    exact h.halted
  · intro symbol o ho
    rcases h.live symbol o ho with ⟨hsized, hbacks⟩
    exact ⟨hsized, hbacks.beforeAll hpost htells⟩

/-- The book of one symbol is replaced; the orders of the others are not named by the events. -/
theorem Taped.insert (h : Taped t st) (hknown : st.exchange.Known placed)
    (hunique : (placed.map (·.id)).Nodup) {symbol : String} {book : OrderBook}
    {standings : Standings} (hbooks : st'.books = st.books.insert symbol book)
    (hhalted : st'.haltedSymbols = st.haltedSymbols)
    (hbook : ∀ o ∈ book.pool, Stands standings symbol o)
    (hframe : ∀ x, x ∉ (st.bookOf symbol).toPool.ids → (t.standings x).isSome →
      standings x = t.standings x) :
    Taped { t with standings := standings } st' where
  halted := hhalted ▸ h.halted
  live := by
    intro symbol' o ho
    rw [bookOf_insert hbooks] at ho
    split_ifs at ho with hsame
    · -- the book that is replaced
      subst hsame
      exact hbook o ho
    · rcases h.live symbol' o ho with ⟨hsized, hbacks⟩
      -- an order of another book, whose id this one does not have
      have hout : o.id ∉ (st.bookOf symbol).toPool.ids := by
        unfold bookOf at ho
        cases hfind : st.books.find? symbol' with
        | none =>
          rw [hfind] at ho
          simp at ho
        | some b' =>
          rw [hfind] at ho
          exact hknown.notMem_bookOf hunique hsame hfind ho
      refine ⟨hsized, hbacks.of_eq (hframe o.id hout ?_)⟩
      rcases hbacks with ⟨s, hopen, _⟩
      rw [hopen.1]
      rfl

/-! ## Appends -/

/-- Appending the events, or the first of them. If they begin with the acceptance of an order,
that has to be appended. -/
theorem Taped.sequence {events : List Proto.EngineEvent}
    {result : Except ServerError (List SequencedEngineEvent)}
    (h : Taped (t.applyAll events) mid) (haccepts : t.Accepts events)
    (htells : (∀ e ∈ events, Tells e) ∨ mid.disk.head = true ∧ ∀ e ∈ events.tail, Tells e)
    (hseq : mid.sequenceEvents events = (result, st')) :
    ∃ new, mid.eventLog.Extends new st'.eventLog ∧ new.map (·.event) ⊆ events ∧
      t.Accepts (new.map (·.event)) ∧ Taped (t.applyAll (new.map (·.event))) st' := by
  rcases sequenceEvents_extends hseq with ⟨new, hext, ⟨post, hpost⟩, _, hfirst⟩
  have hsub : new.map (·.event) ⊆ events := by
    rw [← hpost]
    exact List.subset_append_left _ _
  have htells' : ∀ e ∈ post, Tells e := by
    intro e he
    rcases htells with htells | ⟨hdisk, htells⟩
    · refine htells e ?_
      rw [← hpost]
      exact List.mem_append_right _ he
    · refine htells e ?_
      rw [← hpost] at hfirst ⊢
      cases hnew : new.map (·.event) with
      | nil =>
        -- the first event is among those that were appended
        rw [hnew] at hfirst
        cases post with
        | nil => cases he
        | cons e' post => cases hfirst hdisk e' rfl
      | cons e' rest => exact List.mem_append_right _ he
  rw [← hpost] at h haccepts
  rcases h.ofPrefix haccepts htells' with ⟨hpre, htaped⟩
  exact ⟨new, hext, hsub, hpre,
    htaped.congr (sequenceEvents_books hseq).1 (sequenceEvents_haltedSymbols hseq)⟩

/-! ## Cancels -/

theorem names_subset_concerns (e : EngineEvent) : e.names ⊆ concerns e := by
  cases e <;> simp [EngineEvent.names, concerns]

/-- The cancel of one order keeps the live orders on the tape; its events may be appended later. -/
theorem Taped.cancelKnown (h : Taped t st) (hknown : st.exchange.Known placed)
    (hunique : (placed.map (·.id)).Nodup) {orderId : Uuid}
    {result : Except ServerError (List EngineEvent)}
    (hcancel : st.cancelKnownOrder orderId = (result, st')) :
    st'.exchange.Known placed ∧ (∀ error, result = .error error → Taped t st') ∧
      ∀ events, result = .ok events → t.Accepts (toWireCancelEvents events) ∧
        Taped (t.applyAll (toWireCancelEvents events)) st' := by
  have hknown' : st'.exchange.Known placed := by
    rcases cancelKnownOrder_does 0 st orderId with ⟨ids, _, hdoes⟩
    rw [hcancel] at hdoes
    exact hdoes.steps.cancels_invariant (·.Known placed)
      (fun x id y hx hstep => hstep.known_cancel hx) hknown
  refine ⟨hknown', ?_⟩
  unfold cancelKnownOrder at hcancel
  split at hcancel
  · cases hcancel
    refine ⟨fun _ herror => (by cases herror), ?_⟩
    rintro _ ⟨⟩
    exact ⟨trivial, h⟩
  · next entry _ =>
    split at hcancel
    · next happ =>
      cases hcancel
      refine ⟨fun _ _ => h.congr (appendCommand_books happ).1 (appendCommand_eventLog happ).2.2, ?_⟩
      rintro _ ⟨⟩
    · next st₁ happ =>
      have hbooks := (appendCommand_books happ).1
      have hhalted := (appendCommand_eventLog happ).2.2
      split at hcancel
      · cases hcancel
        refine ⟨fun _ herror => (by cases herror), ?_⟩
        rintro _ ⟨⟩
        exact ⟨trivial, h.congr hbooks hhalted⟩
      · -- the order is on the book its entry names
        next book hbook =>
        generalize hr : book.cancelOrder orderId = r at hcancel
        cases hcancel
        refine ⟨fun _ herror => (by cases herror), ?_⟩
        rintro _ ⟨⟩
        subst hr
        have hsame : st.bookOf entry.symbol = book := by
          rw [bookOf, ← hbooks, hbook]
          rfl
        have hb := (hknown.bookOf entry.symbol).1.book
        rw [bookOf_exchange, hsame] at hb
        have hlive := h.live entry.symbol
        rw [hsame] at hlive
        rcases cancelOrder_taped hb orderId hlive with ⟨haccepts, hpool⟩
        rcases toWireCancelEvents_taped haccepts (hb.cancelOrder_spec orderId).cancels with
          ⟨hwire, htape⟩
        refine ⟨hwire, ?_⟩
        rw [htape]
        have hinserted : st₁.books.insert entry.symbol (book.cancelOrder orderId).1 =
            st.books.insert entry.symbol (book.cancelOrder orderId).1 := by
          rw [hbooks]
        refine h.insert hknown hunique hinserted hhalted hpool ?_
        · intro x hx _
          rw [hsame] at hx
          refine Standings.applyAll_unnamed ?_
          intro hmem
          rcases List.mem_flatMap.mp hmem with ⟨e, he, hname⟩
          refine hx (cancelOrder_concerns hb orderId e he x ?_)
          exact names_subset_concerns e hname

theorem tells_toWireCancelEvents (events : List EngineEvent) :
    ∀ e ∈ toWireCancelEvents events, Tells e := by
  intro e he
  rcases List.mem_filterMap.mp he with ⟨core, _, heq⟩
  cases core with
  | cancelled => cases heq; exact trivial
  | fill | rested | stopTriggered => cases heq

theorem tells_bookDeltaEvent (st : EngineState) (symbol : String) :
    Tells (st.bookDeltaEvent symbol) := trivial

/-- Events that only show the books. -/
theorem accepts_bookDeltas (t : Tape) (st : EngineState) (symbols : List String) :
    t.Accepts (symbols.map st.bookDeltaEvent) ∧
      t.applyAll (symbols.map st.bookDeltaEvent) = t := by
  induction symbols with
  | nil => exact ⟨trivial, rfl⟩
  | cons symbol symbols ih => exact ⟨⟨trivial, ih.1⟩, ih.2⟩

/-- A log that grew by events of the tape, in which no other orders are accepted than these. -/
def Grows (orders : List EngineOrder) (t : Tape) (st st' : EngineState) : Prop :=
  ∃ new, st'.eventLog.entries = st.eventLog.entries ++ new ∧ t.Accepts (new.map (·.event)) ∧
    Taped (t.applyAll (new.map (·.event))) st' ∧
    ∀ order, .orderAccepted order ∈ new.map (·.event) → order ∈ orders

/-- A request that logs nothing leaves the tape as it is. -/
theorem Grows.nothing (orders : List EngineOrder) (h : Taped t st')
    (hlog : st'.eventLog = st.eventLog) : Grows orders t st st' := by
  refine ⟨[], by rw [hlog, List.append_nil], trivial, h, ?_⟩
  rintro order ⟨⟩

/-- Events of cancels, then the changed books. -/
theorem Taped.sequenceCancels {events : List Proto.EngineEvent} {symbols : List String}
    {result : Except ServerError (List SequencedEngineEvent)}
    (h : Taped (t.applyAll events) mid) (haccepts : t.Accepts events)
    (htells : ∀ e ∈ events, Tells e)
    (hlog : mid.eventLog = st.eventLog)
    (hseq : mid.sequenceEvents (events ++ symbols.map mid.bookDeltaEvent) = (result, st')) :
    Grows [] t st st' := by
  rcases accepts_bookDeltas (t.applyAll events) mid symbols with ⟨hdeltas, hsame⟩
  have htells' : ∀ e ∈ events ++ symbols.map mid.bookDeltaEvent, Tells e := by
    intro e he
    rcases List.mem_append.mp he with he | he
    · exact htells e he
    · rcases List.mem_map.mp he with ⟨symbol, _, rfl⟩
      exact tells_bookDeltaEvent mid symbol
  have htape : Taped (t.applyAll (events ++ symbols.map mid.bookDeltaEvent)) mid := by
    rw [Tape.applyAll_append, hsame]
    exact h
  rcases htape.sequence (Tape.accepts_append.mpr ⟨haccepts, hdeltas⟩) (Or.inl htells') hseq with
    ⟨new, hext, hsub, hnew, htaped⟩
  refine ⟨new, by rw [hext.entries, hlog], hnew, htaped, ?_⟩
  intro order horder
  exact (htells' _ (hsub horder)).elim

/-- A cancel grows the tape by its events. -/
theorem cancelOrder_grows (h : Taped t st) (hknown : st.exchange.Known placed)
    (hunique : (placed.map (·.id)).Nodup) {requestId : Uuid} {symbol : String} {orderId : Uuid}
    {result : Except ServerError ResponseBundle}
    (hcancel : st.cancelOrder requestId symbol orderId = (result, st')) : Grows [] t st st' := by
  unfold cancelOrder at hcancel
  split at hcancel
  · cases hcancel
    exact .nothing _ h rfl
  · split_ifs at hcancel
    · cases hcancel
      exact .nothing _ h rfl
    · split at hcancel
      · next hknownOrder =>
        cases hcancel
        exact .nothing _ ((h.cancelKnown hknown hunique hknownOrder).2.1 _ rfl)
          (cancelKnownOrder_eventLog hknownOrder).1
      · next coreEvents mid hknownOrder =>
        rcases (h.cancelKnown hknown hunique hknownOrder).2.2 _ rfl with ⟨haccepts, htaped⟩
        have hlog := (cancelKnownOrder_eventLog hknownOrder).1
        split_ifs at hcancel with hempty
        · cases hcancel
          rw [List.isEmpty_iff.mp hempty] at htaped
          exact .nothing _ htaped hlog
        · -- whether all appends succeed or not
          have hgrows : ∀ {r st''}, mid.sequenceEvents
              (toWireCancelEvents coreEvents ++ [symbol].map mid.bookDeltaEvent) = (r, st'') →
              Grows [] t st st'' := fun hseq =>
            htaped.sequenceCancels haccepts (tells_toWireCancelEvents _) hlog hseq
          dsimp only at hcancel
          split at hcancel
          · next hseq =>
            cases hcancel
            exact hgrows hseq
          · next hseq =>
            cases hcancel
            exact hgrows hseq

/-- The loop of `cancel_all`: its events are appended when it is over, or not at all. -/
theorem Taped.cancelEach {locals : CancelAllLocals} {orderIds : List Uuid}
    {result : Except ServerError CancelAllLocals} (h : Taped (t.applyAll locals.wireEvents) st)
    (haccepts : t.Accepts locals.wireEvents) (htells : ∀ e ∈ locals.wireEvents, Tells e)
    (hknown : st.exchange.Known placed) (hunique : (placed.map (·.id)).Nodup)
    (hcancel : st.cancelEach locals orderIds = (result, st')) :
    ∃ events, Taped (t.applyAll events) st' ∧ t.Accepts events ∧ (∀ e ∈ events, Tells e) ∧
      ∀ locals', result = .ok locals' → locals'.wireEvents = events := by
  induction orderIds generalizing st locals with
  | nil =>
    cases hcancel
    refine ⟨locals.wireEvents, h, haccepts, htells, ?_⟩
    rintro _ ⟨⟩
    rfl
  | cons orderId orderIds ih =>
    unfold EngineState.cancelEach at hcancel
    -- an id that is not listed any more is passed over
    split at hcancel
    · exact ih h haccepts htells hknown hcancel
    · split at hcancel
      · -- a cancel that fails ends the loop with what was done so far
        next hknownOrder =>
        cases hcancel
        refine ⟨locals.wireEvents, (h.cancelKnown hknown hunique hknownOrder).2.1 _ rfl, haccepts,
          htells, ?_⟩
        rintro _ ⟨⟩
      · next mid hknownOrder =>
        rcases h.cancelKnown hknown hunique hknownOrder with ⟨hknown', _, hok⟩
        rcases hok _ rfl with ⟨hcancels, htaped⟩
        split_ifs at hcancel with hempty
        · rw [List.isEmpty_iff.mp hempty] at htaped
          exact ih htaped haccepts htells hknown' hcancel
        · rw [← Tape.applyAll_append] at htaped
          refine ih htaped (Tape.accepts_append.mpr ⟨haccepts, hcancels⟩) ?_ hknown' hcancel
          intro e he
          rcases List.mem_append.mp he with he | he
          · exact htells e he
          · exact tells_toWireCancelEvents _ e he

/-- So does a cancel-all. -/
theorem cancelAll_grows (h : Taped t st) (hknown : st.exchange.Known placed)
    (hunique : (placed.map (·.id)).Nodup) {requestId userId : Uuid} {symbol : Option String}
    {result : Except ServerError ResponseBundle}
    (hcancel : st.cancelAll requestId userId symbol = (result, st')) : Grows [] t st st' := by
  have hstart : Taped (t.applyAll (CancelAllLocals.mk [] OrdMap.empty []).wireEvents) st := h
  unfold cancelAll at hcancel
  dsimp only at hcancel
  split at hcancel
  · -- the loop has failed, and nothing is logged
    next heach =>
    cases hcancel
    rcases hstart.cancelEach trivial (List.forall_mem_nil _) hknown hunique heach with
      ⟨events, htaped, haccepts, htells, _⟩
    refine .nothing _ ?_ (cancelEach_eventLog heach).1
    rw [← List.nil_append events] at htaped haccepts
    exact (htaped.ofPrefix haccepts htells).2
  · -- all events are appended at the end, as far as the disk takes them
    next locals mid heach =>
    rcases hstart.cancelEach trivial (List.forall_mem_nil _) hknown hunique heach with
      ⟨events, htaped, haccepts, htells, hlocals⟩
    have hevents := hlocals _ rfl
    have hgrows : ∀ {r st''}, mid.sequenceEvents
        (locals.wireEvents ++ locals.changedSymbols.keys.map mid.bookDeltaEvent) = (r, st'') →
        Grows [] t st st'' := by
      intro r st'' hseq
      rw [hevents] at hseq
      exact htaped.sequenceCancels haccepts htells (cancelEach_eventLog heach).1 hseq
    split at hcancel
    · next hseq =>
      cases hcancel
      exact hgrows hseq
    · next hseq =>
      cases hcancel
      exact hgrows hseq

/-! ## Placements -/

/-- The order has something left and shows a part of it. -/
theorem kept_stands_or (t : Standings) (symbol : String) (id : Uuid) :
    Kept fun o => o.Sized ∧ (o.id = id ∨ Backs t symbol o) where
  sized := fun _ h => h.1
  shrink := by
    rintro o r ⟨hsized, horigin⟩ hr hle
    exact ⟨kept_sized.shrink o r hsized hr hle, horigin.imp_right fun h => h.mono hle⟩
  convert := fun o h => ⟨kept_sized.convert o h.1, h.2⟩

/-- The match of an order that is then rejected is not logged. The live orders still stand on the
tape, which shows more than is left of those it filled. -/
theorem Taped.rejected (h : Taped t st) (hknown : st.exchange.Known placed)
    (hunique : (placed.map (·.id)).Nodup) {order : Order} (hadm : order.Admissible)
    (hsized : order.Sized) (hfresh : order.id ∉ placed.map (·.id)) {book : OrderBook}
    {events : List EngineEvent}
    (hmatch : matchInBook fuel (st.bookOf order.symbol) order = some (book, events))
    (hkill : ∃ e ∈ events, e.Kills order.id)
    (hbooks : st'.books = st.books.insert order.symbol book)
    (hhalted : st'.haltedSymbols = st.haltedSymbols) : Taped t st' := by
  have hsound := Exchange.sound_linkOco (hknown.bookOf order.symbol).1 order
  have hall : (linkOco (st.bookOf order.symbol) order).All
      fun o => o.Sized ∧ (o.id = order.id ∨ Backs t.standings order.symbol o) := by
    refine ⟨hsound.book.noEmpty, ?_⟩
    intro o ho
    rw [Exchange.pool_linkOco] at ho
    rcases h.live order.symbol o ho with ⟨hsized, hbacks⟩
    exact ⟨hsized, Or.inr hbacks⟩
  have hbook := (matchOrder_all (kept_stands_or t.standings order.symbol order.id) hall
    ⟨hsized, Or.inl rfl⟩ hmatch).1
  refine h.insert hknown hunique hbooks hhalted ?_ fun _ _ _ => rfl
  intro o ho
  rcases hbook.all o ho with ⟨hsized, hid | hbacks⟩
  · rcases hkill with ⟨e, he, hkill⟩
    exact (hknown.killed_gone hadm hfresh hmatch he hkill (hid ▸ mem_ids_of_mem_live ho)).elim
  · exact ⟨hsized, hbacks⟩

/-- The match of an order that is placed on the tape. -/
theorem Taped.matched (h : Taped t st) (hknown : st.exchange.Known placed)
    (hunique : (placed.map (·.id)).Nodup) {order : Order} (hadm : order.Admissible)
    (hsized : order.Sized) (hfull : order.remaining = order.quantity)
    (hfresh : order.id ∉ placed.map (·.id)) (hnew : t.standings order.id = none)
    {book : OrderBook} {events : List EngineEvent}
    (hmatch : matchInBook fuel (st.bookOf order.symbol) order = some (book, events))
    (hbooks : st'.books = st.books.insert order.symbol book)
    (hhalted : st'.haltedSymbols = st.haltedSymbols) :
    (t.standings.place order).Accepts order.symbol events ∧
      Taped { t with standings := (t.standings.place order).applyAll events } st' := by
  have hsound := Exchange.sound_linkOco (hknown.bookOf order.symbol).1 order
  have hother := hknown.fresh_linkOco hfresh
  rw [bookOf_exchange] at hsound hother
  have hpool : ∀ o ∈ (linkOco (st.bookOf order.symbol) order).pool,
      Stands (t.standings.place order) order.symbol o := by
    intro o ho
    have hne := hother o ho
    rw [Exchange.pool_linkOco] at ho
    rcases h.live order.symbol o ho with ⟨hsized, hbacks⟩
    exact ⟨hsized, hbacks.of_eq (if_neg hne)⟩
  have hsub : Stands (t.standings.place order) order.symbol order :=
    ⟨hsized, ⟨order, order.quantity, false⟩, ⟨if_pos rfl, rfl⟩, hfull.le, rfl, rfl, rfl, rfl⟩
  rcases matchOrder_taped hsound hadm hother hpool hsub hmatch with ⟨haccepts, hbook⟩
  refine ⟨haccepts, h.insert hknown hunique hbooks hhalted hbook ?_⟩
  intro x hx hfind
  have hne : x ≠ order.id := by
    rintro rfl
    rw [hnew] at hfind
    cases hfind
  rw [Standings.applyAll_unnamed]
  · exact if_neg hne
  · -- the events name the order and those of its book
    intro hmem
    rcases List.mem_flatMap.mp hmem with ⟨e, he, hname⟩
    rcases Multiset.mem_cons.mp (matchOrder_concerns hsound hadm hother hmatch e he x
      (names_subset_concerns e hname)) with heq | hin
    · exact hne heq
    · rw [Exchange.ids_linkOco] at hin
      exact hx hin

theorem tells_toWireCoreEvents (st : EngineState) (symbol : String) (events : List EngineEvent) :
    ∀ e ∈ (st.toWireCoreEvents symbol events).1.1, Tells e := by
  induction events generalizing st with
  | nil => simp [toWireCoreEvents]
  | cons event events ih =>
    cases event with
    | fill f => exact List.forall_mem_cons.mpr ⟨trivial, ih (st.toWireFill symbol f).2⟩
    | rested => exact List.forall_mem_cons.mpr ⟨trivial, ih st⟩
    | cancelled => exact List.forall_mem_cons.mpr ⟨trivial, ih st⟩
    | stopTriggered => exact ih st

/-- An acknowledged order is appended before the events of its match. -/
theorem acknowledgePlace_grows {requestId : Uuid} {wireOrder : EngineOrder}
    {events : List EngineEvent} {result : Except ServerError ResponseBundle}
    (hnew : t.standings wireOrder.id = none)
    (hpositive : 0 < wireOrder.quantity) (htrading : wireOrder.symbol ∉ t.halted)
    (haccepts : (t.standings.place (toCoreOrder wireOrder)).Accepts wireOrder.symbol events)
    (htaped : ∀ st'' : EngineState, st''.books = st.books → st''.haltedSymbols = st.haltedSymbols →
      Taped { t with
        standings := (t.standings.place (toCoreOrder wireOrder)).applyAll events } st'')
    (hdisk : st.disk.head = true)
    (hack : st.acknowledgePlace requestId wireOrder (toCoreOrder wireOrder) events =
      (result, st')) : Grows [wireOrder] t st st' := by
  unfold acknowledgePlace at hack
  dsimp only at hack
  generalize hst : { st with
    openOrders := applyOpenOrderUpdates st.openOrders (some (toCoreOrder wireOrder)) events } = st₁
    at hack
  have hports := toWireCoreEvents_ports st₁ wireOrder.symbol events
  have hbooks := (toWireCoreEvents_books wireOrder.symbol st₁ wireOrder.symbol events).1
  have htells := tells_toWireCoreEvents st₁ wireOrder.symbol events
  rcases toWireCoreEvents_taped (t := t.apply (.orderAccepted wireOrder)) st₁ htrading haccepts with
    ⟨hwire, htape⟩
  generalize st₁.toWireCoreEvents wireOrder.symbol events = wired at *
  rcases wired with ⟨⟨wireEvents, fills⟩, mid⟩
  subst hst
  have hgrows : ∀ {r st''}, mid.sequenceEvents (.orderAccepted wireOrder ::
      (wireEvents ++ [mid.bookDeltaEvent wireOrder.symbol])) = (r, st'') →
      Grows [wireOrder] t st st'' := by
    intro r st'' hseq
    -- the diff that comes last tells nothing of orders
    have htells' : ∀ e ∈ wireEvents ++ [mid.bookDeltaEvent wireOrder.symbol], Tells e := by
      intro e he
      rcases List.mem_append.mp he with he | he
      · exact htells e he
      · rw [List.mem_singleton.mp he]
        exact tells_bookDeltaEvent mid _
    have hlive : Taped (t.applyAll (.orderAccepted wireOrder ::
        (wireEvents ++ [mid.bookDeltaEvent wireOrder.symbol]))) mid := by
      have hstep : t.applyAll (.orderAccepted wireOrder ::
          (wireEvents ++ [mid.bookDeltaEvent wireOrder.symbol])) =
          (t.apply (.orderAccepted wireOrder)).applyAll wireEvents := by
        show ((t.apply (.orderAccepted wireOrder)).applyAll (wireEvents ++ _)) = _
        rw [Tape.applyAll_append]
        rfl
      rw [hstep, htape]
      exact htaped mid hbooks hports.2.2
    rcases hlive.sequence ⟨⟨hnew, hpositive, htrading⟩, Tape.accepts_append.mpr
      ⟨hwire, trivial, trivial⟩⟩ (Or.inr ⟨hports.2.1.symm ▸ hdisk, htells'⟩) hseq with
      ⟨new, hext, hsub, hnew, htaped⟩
    refine ⟨new, by rw [hext.entries, hports.1], hnew, htaped, ?_⟩
    intro order horder
    rcases List.mem_cons.mp (hsub horder) with heq | hrest
    · cases heq
      exact List.mem_singleton_self _
    · exact (htells' _ hrest).elim
  dsimp only at hack
  split at hack
  · next hseq =>
    cases hack
    exact hgrows hseq
  · next hseq =>
    cases hack
    exact hgrows hseq

/-- So does a placement. -/
theorem placeOrder_grows (h : Taped t st) (hknown : st.exchange.Known placed)
    (hunique : (placed.map (·.id)).Nodup) {requestId : Uuid} {order : EngineOrder}
    (hdisplay : order.orderType ≠ .iceberg → ∀ d, order.displayQty = some d → 0 < d)
    (hfresh : order.id ∉ placed.map (·.id)) (hnew : t.standings order.id = none)
    (hrecorded : st.Admits requestId order → st.disk.tail.head = true)
    {result : Except ServerError ResponseBundle}
    (hplace : st.placeOrder fuel requestId order = some (result, st')) :
    Grows [order] t st st' := by
  unfold placeOrder at hplace
  split at hplace
  · cases hplace
    exact .nothing _ h rfl
  · next hvalid =>
    have hadm := admissible_of_valid hvalid
    have hsized : (toCoreOrder order).Sized := Admitted.sized ⟨⟨requestId, hvalid⟩, hdisplay⟩
    dsimp only at hplace
    split_ifs at hplace with hhalted
    · cases hplace
      exact .nothing _ h rfl
    · split at hplace
      · next happ =>
        cases hplace
        have hports := appendCommand_eventLog happ
        exact .nothing _ (h.congr (appendCommand_books happ).1 hports.2.2) hports.1
      · next st₁ happ =>
        have hports := appendCommand_eventLog happ
        have hbooks := (appendCommand_books happ).1
        have hbook : st₁.bookOf order.symbol = st.bookOf order.symbol := by
          rw [bookOf, hbooks]
          rfl
        rw [hbook] at hplace
        split at hplace
        · cases hplace
        · next book events hmatch =>
          split at hplace
          · -- matched and then rejected: the book has changed, the log has not
            next hrejected =>
            cases hplace
            have hkill := exists_kills_of_preReject (hrejected ▸ Option.some_ne_none _)
            refine .nothing _ (h.rejected hknown hunique hadm hsized hfresh hmatch hkill ?_
              hports.2.2) hports.1
            exact congrArg (·.insert order.symbol book) hbooks
          · have hgrows : Grows [order] t
                { st₁ with books := st₁.books.insert order.symbol book } st' := by
              have hmatched : ∀ st'' : EngineState,
                  st''.books = st.books.insert order.symbol book →
                  st''.haltedSymbols = st.haltedSymbols → _ := fun st'' hbooks'' hhalted'' =>
                h.matched hknown hunique hadm hsized rfl hfresh hnew hmatch hbooks'' hhalted''
              have hinserted : st₁.books.insert order.symbol book =
                  st.books.insert order.symbol book := by rw [hbooks]
              refine acknowledgePlace_grows hnew hadm.positive ?_
                (hmatched { st₁ with books := st₁.books.insert order.symbol book } hinserted
                  hports.2.2).1
                ?_ ?_ (Option.some.inj hplace)
              · exact fun hmem => hhalted (h.halted hmem)
              · intro st'' hbooks'' hhalted''
                exact (hmatched st'' (hbooks''.trans hinserted)
                  (hhalted''.trans hports.2.2)).2
              · change st₁.disk.head = true
                rw [hports.2.1]
                exact hrecorded ⟨hvalid, hhalted, (appendCommand_ok happ).1⟩
            rcases hgrows with ⟨new, hlog, hrest⟩
            exact ⟨new, hlog.trans (congrArg (·.entries ++ new) hports.1), hrest⟩

/-! ## Market control -/

/-- A halt may go unrecorded; then the tape goes on without it. -/
theorem haltMarket_grows (h : Taped t st) {requestId : Uuid} {symbol : String}
    {result : Except ServerError ResponseBundle}
    (hhalt : st.haltMarket requestId symbol = (result, st')) : Grows [] t st st' := by
  have hhalted : t.halted ⊆ insert symbol st.haltedSymbols :=
    h.halted.trans (Finset.subset_insert _ _)
  unfold haltMarket marketStatusResponse at hhalt
  have hgrows : ∀ {r st''}, { st with haltedSymbols := insert symbol st.haltedSymbols
      }.sequenceEvents [.marketStatus symbol .halted] = (r, st'') → Grows [] t st st'' := by
    intro r st'' hseq
    rcases sequenceEvents_extends hseq with ⟨new, hext, hprefix, _, _⟩
    have hsame := sequenceEvents_books hseq
    have hlive : ∀ t' : Tape, t'.standings = t.standings →
        t'.halted ⊆ insert symbol st.haltedSymbols → Taped t' st'' := by
      intro t' hstandings hsub
      refine ⟨(sequenceEvents_haltedSymbols hseq).symm ▸ hsub, ?_⟩
      rw [hstandings]
      have hkept : Taped t { st'' with haltedSymbols := st.haltedSymbols } :=
        h.congr hsame.1 rfl
      exact hkept.live
    refine ⟨new, hext.entries, ?_⟩
    -- the one event is in the log, or the append has failed
    rcases List.prefix_cons_iff.mp hprefix with hnone | ⟨rest, hone, hrest⟩
    · rw [hnone]
      exact ⟨trivial, hlive t rfl hhalted, by rintro order ⟨⟩⟩
    · rw [hone, List.prefix_nil.mp hrest]
      refine ⟨⟨trivial, trivial⟩, hlive _ rfl ?_, ?_⟩
      · exact Finset.insert_subset_insert _ h.halted
      · intro order horder
        cases List.mem_singleton.mp horder
  split at hhalt
  · next hseq =>
    cases hhalt
    exact hgrows hseq
  · next hseq =>
    cases hhalt
    exact hgrows hseq

/-- A resumption has to be recorded. -/
theorem resumeMarket_grows (h : Taped t st) (hdisk : st.disk.head = true) {requestId : Uuid}
    {symbol : String} {result : Except ServerError ResponseBundle}
    (hresume : st.resumeMarket requestId symbol = (result, st')) : Grows [] t st st' := by
  unfold resumeMarket marketStatusResponse at hresume
  have hgrows : ∀ {r st''}, { st with haltedSymbols := st.haltedSymbols.erase symbol
      }.sequenceEvents [.marketStatus symbol .trading] = (r, st'') → Grows [] t st st'' := by
    intro r st'' hseq
    -- fewer markets are halted, on the tape as in the engine
    have htaped : Taped (t.applyAll [.marketStatus symbol .trading])
        { st with haltedSymbols := st.haltedSymbols.erase symbol } :=
      ⟨Finset.erase_subset_erase _ h.halted, h.live⟩
    rcases htaped.sequence ⟨trivial, trivial⟩ (Or.inr ⟨hdisk, by simp⟩) hseq with
      ⟨new, hext, hsub, haccepts, htaped'⟩
    refine ⟨new, hext.entries, haccepts, htaped', ?_⟩
    intro order horder
    cases List.mem_singleton.mp (hsub horder)
  split at hresume
  · next hseq =>
    cases hresume
    exact hgrows hseq
  · next hseq =>
    cases hresume
    exact hgrows hseq

/-! ## Runs -/

/-- The acceptance of an order is appended if its command is, and a resumption if it takes
effect. -/
structure Recorded (st : EngineState) (req : EngineRequest) : Prop where
  place : ∀ requestId order, req = .place requestId order → st.Admits requestId order →
    st.disk.tail.head = true
  resume : ∀ requestId symbol, req = .resumeMarket requestId symbol → st.disk.head = true

/-- Every request grows the log by events of the tape. -/
theorem handleRequest_grows (h : Taped t st) (hknown : st.exchange.Known placed)
    (hunique : (placed.map (·.id)).Nodup) {req : EngineRequest}
    (hplace : ∀ requestId order, req = .place requestId order →
      (order.orderType ≠ .iceberg → ∀ d, order.displayQty = some d → 0 < d) ∧
      order.id ∉ placed.map (·.id) ∧ t.standings order.id = none)
    (hrecorded : st.Recorded req) {result : Except ServerError ResponseBundle}
    (hhandle : st.handleRequest fuel req = some (result, st')) :
    Grows (placements [req]) t st st' := by
  cases req with
  | place requestId order =>
    rcases hplace requestId order rfl with ⟨hdisplay, hfresh, hnew⟩
    exact placeOrder_grows h hknown hunique hdisplay hfresh hnew
      (hrecorded.place requestId order rfl) hhandle
  | cancel requestId symbol orderId =>
    exact cancelOrder_grows h hknown hunique (Option.some.inj hhandle)
  | cancelAll requestId userId symbol =>
    exact cancelAll_grows h hknown hunique (Option.some.inj hhandle)
  | haltMarket requestId symbol => exact haltMarket_grows h (Option.some.inj hhandle)
  | resumeMarket requestId symbol =>
    exact resumeMarket_grows h (hrecorded.resume requestId symbol rfl) (Option.some.inj hhandle)
  | snapshot | ping =>
    cases hhandle
    exact .nothing _ h rfl

/-- What is on a tape was accepted. -/
theorem isSome_applyAll {events : List Proto.EngineEvent} {x : Uuid}
    (h : ((t.applyAll events).standings x).isSome) :
    (t.standings x).isSome ∨ ∃ order, .orderAccepted order ∈ events ∧ order.id = x := by
  induction events generalizing t with
  | nil => exact Or.inl h
  | cons e events ih =>
    rcases ih h with h | ⟨order, horder, hid⟩
    · cases e with
      | orderAccepted order =>
        by_cases hid : x = order.id
        · exact Or.inr ⟨order, List.mem_cons_self, hid.symm⟩
        · have hplaced : (t.standings.place (toCoreOrder order)) x = t.standings x := if_neg hid
          exact Or.inl (hplaced ▸ h)
      | marketStatus symbol status => cases status <;> exact Or.inl h
      | orderRested | bookDelta => exact Or.inl h
      | orderCanceled | fill =>
        rw [isSome_apply (by exact trivial)] at h
        exact Or.inl h
    · exact Or.inr ⟨order, List.mem_cons_of_mem _ horder, hid⟩

/-- The log of a run on its tape. -/
structure RunTaped (past : List EngineRequest) (st : EngineState) : Prop where
  known : st.KnownAfter past
  accepts : Tape.blank.Accepts (st.eventLog.entries.map (·.event))
  taped : Taped (Tape.blank.applyAll (st.eventLog.entries.map (·.event))) st
  placed : ∀ x, ((Tape.blank.applyAll (st.eventLog.entries.map (·.event))).standings x).isSome →
    x ∈ placedIds past

/-- Every recorded request grows the tape. -/
theorem RunTaped.grows {past : List EngineRequest} {req : EngineRequest} (h : RunTaped past st)
    (hunique : (placedIds past).Nodup) (hfresh : Fresh past req)
    (hdisplay : ∀ order ∈ placements [req], order.orderType ≠ .iceberg →
      ∀ d, order.displayQty = some d → 0 < d)
    (hrecorded : st.Recorded req) {result : Except ServerError ResponseBundle}
    (hhandle : st.handleRequest fuel req = some (result, st')) :
    Grows (placements [req]) (Tape.blank.applyAll (st.eventLog.entries.map (·.event))) st st' := by
  have hids : (((placements past).map toCoreOrder).map (·.id)) = placedIds past := by
    rw [List.map_map]
    rfl
  refine handleRequest_grows h.taped h.known (hids ▸ hunique) ?_ hrecorded hhandle
  rintro requestId order rfl
  have hnew := hfresh requestId order rfl
  refine ⟨hdisplay order List.mem_cons_self, hids ▸ hnew, ?_⟩
  rw [← Option.not_isSome_iff_eq_none]
  exact fun hsome => hnew (h.placed _ hsome)

/-- So the run stays on its tape. -/
theorem RunTaped.step {past : List EngineRequest} {req : EngineRequest} (h : RunTaped past st)
    (hfresh : Fresh past req) {result : Except ServerError ResponseBundle}
    (hhandle : st.handleRequest fuel req = some (result, st'))
    (hgrows : Grows (placements [req])
      (Tape.blank.applyAll (st.eventLog.entries.map (·.event))) st st') :
    RunTaped (past ++ [req]) st' := by
  rcases hgrows with ⟨new, hlog, haccepts, htaped, hnames⟩
  have hmap : st'.eventLog.entries.map (·.event) =
      st.eventLog.entries.map (·.event) ++ new.map (·.event) := by
    rw [hlog, List.map_append]
  -- the tape goes on where the log stood before the request
  have htape : Tape.blank.applyAll (st'.eventLog.entries.map (·.event)) =
      (Tape.blank.applyAll (st.eventLog.entries.map (·.event))).applyAll (new.map (·.event)) := by
    rw [hmap, Tape.applyAll_append]
  constructor
  · exact handleRequest_known h.known hfresh hhandle
  · rw [hmap]
    exact Tape.accepts_append.mpr ⟨h.accepts, haccepts⟩
  · rw [htape]
    exact htaped
  · intro x hx
    rw [htape] at hx
    rw [placedIds, placements_append, List.map_append]
    rcases isSome_applyAll hx with hx | ⟨order, horder, rfl⟩
    · exact List.mem_append_left _ (h.placed x hx)
    · exact List.mem_append_right _ (List.mem_map_of_mem (hnames order horder))

/-- An engine with empty logs is on the blank tape. -/
theorem runTaped_open {init : EngineState} {idSource : Stream' Uuid} {clock : Stream' String}
    {disk : Stream' Bool} {snapshotDepth : ℕ}
    (hopen : EngineState.open fuel [] [] idSource clock disk snapshotDepth = some init) :
    RunTaped [] init := by
  cases hopen
  refine ⟨Exchange.known_empty, trivial, ⟨Finset.empty_subset _, ?_⟩, by rintro x ⟨⟩⟩
  intro symbol o ho
  simp [bookOf] at ho

/-- Every recorded run is on the tape of its log. -/
theorem runTaped_of_runRequests {init : EngineState} {idSource : Stream' Uuid}
    {clock : Stream' String} {disk : Stream' Bool} {snapshotDepth : ℕ}
    (hopen : EngineState.open fuel [] [] idSource clock disk snapshotDepth = some init)
    {reqs : List EngineRequest} (hfresh : (placedIds reqs).Nodup)
    (hdisplay : ∀ order ∈ placements reqs, order.orderType ≠ .iceberg →
      ∀ d, order.displayQty = some d → 0 < d)
    (hrecorded : ∀ l req l' mid, reqs = l ++ req :: l' → init.runRequests fuel l = some mid →
      mid.Recorded req)
    (hrun : init.runRequests fuel reqs = some st) : RunTaped reqs st := by
  -- the requests before each one have distinct ids as well
  refine runRequests_invariant RunTaped
    (fun past st req => (placedIds past).Nodup ∧ Fresh past req ∧
      (∀ order ∈ placements [req], order.orderType ≠ .iceberg →
        ∀ d, order.displayQty = some d → 0 < d) ∧ st.Recorded req) ?_ ?_ ?_ hrun
  · rintro past st req result st' h ⟨hunique, hnew, hd, hr⟩ hhandle
    exact h.step hnew hhandle (h.grows hunique hnew hd hr hhandle)
  · exact runTaped_open hopen
  · rintro l req l' mid rfl hmid
    refine ⟨?_, fresh_of_nodup hfresh l req l' rfl, ?_, hrecorded l req l' mid rfl hmid⟩
    · rw [placedIds, placements_append, List.map_append] at hfresh
      exact (List.nodup_append.mp hfresh).1
    · intro order horder
      refine hdisplay order ?_
      rw [← List.singleton_append, placements_append, placements_append]
      exact List.mem_append_right _ (List.mem_append_left _ horder)

/-- The event log of every run from empty logs is a tape, on all markets, and the live orders stand
on it. Order ids are fresh, what an order shows is positive, and no append to the event log fails
where the one to the command log did not (`Recorded`). -/
theorem eventLog_taped {init : EngineState} {idSource : Stream' Uuid} {clock : Stream' String}
    {disk : Stream' Bool} {snapshotDepth : ℕ}
    (hopen : EngineState.open fuel [] [] idSource clock disk snapshotDepth = some init)
    {reqs : List EngineRequest} (hfresh : (placedIds reqs).Nodup)
    (hdisplay : ∀ order ∈ placements reqs, order.orderType ≠ .iceberg →
      ∀ d, order.displayQty = some d → 0 < d)
    (hrecorded : ∀ l req l' mid, reqs = l ++ req :: l' → init.runRequests fuel l = some mid →
      mid.Recorded req)
    (hrun : init.runRequests fuel reqs = some st) :
    Tape.blank.Accepts (st.eventLog.entries.map (·.event)) ∧
      ∀ symbol, ∀ o ∈ (st.bookOf symbol).pool,
        Backs (Tape.blank.applyAll (st.eventLog.entries.map (·.event))).standings symbol o := by
  have h : RunTaped reqs st := runTaped_of_runRequests hopen hfresh hdisplay hrecorded hrun
  exact ⟨h.accepts, fun symbol o ho => (h.taped.live symbol o ho).2⟩

/-- A resting order, and one that takes a part of it. -/
def sellThenBuy : List EngineRequest :=
  [.place 0 (wireLimit 1 10 .sell 100 5 .cancelTaker),
    .place 1 (wireLimit 2 11 .buy 100 3 .cancelTaker)]

theorem sellThenBuy_recorded (l : List EngineRequest) (req : EngineRequest)
    (l' : List EngineRequest) (mid : EngineState) (hsplit : sellThenBuy = l ++ req :: l')
    (hmid : emptyEngine.runRequests 10 l = some mid) : mid.Recorded req := by
  have hdisk : ∀ past ∈ sellThenBuy.inits, (emptyEngine.runRequests 10 past).map
      (fun st => (st.disk.head, st.disk.tail.head)) = some (true, true) := by
    decide +kernel
  have hpast := hdisk l ((List.mem_inits _ _).mpr ⟨_, hsplit.symm⟩)
  rw [hmid] at hpast
  rcases Prod.mk.inj (Option.some.inj hpast) with ⟨hhead, htail⟩
  exact ⟨fun _ _ _ _ => htail, fun _ _ _ => hhead⟩

theorem sellThenBuy_taped : ∃ st, emptyEngine.runRequests 10 sellThenBuy = some st ∧
    st.eventLog.entries.length = 6 ∧
    Tape.blank.Accepts (st.eventLog.entries.map (·.event)) ∧
      ∀ symbol, ∀ o ∈ (st.bookOf symbol).pool,
        Backs (Tape.blank.applyAll (st.eventLog.entries.map (·.event))).standings symbol o := by
  have hrun : (emptyEngine.runRequests 10 sellThenBuy).map (·.eventLog.entries.length) =
      some 6 := by
    decide +kernel
  rcases Option.map_eq_some_iff.mp hrun with ⟨st, hst, hlength⟩
  exact ⟨st, hst, hlength, eventLog_taped (emptyEngine_open 10) (by decide) (by decide)
    sellThenBuy_recorded hst⟩

end EngineState

end CryptoCex.Server
