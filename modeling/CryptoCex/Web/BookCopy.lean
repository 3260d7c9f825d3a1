import CryptoCex.Server.Shown
import CryptoCex.Web.Client
import CryptoCex.Web.OrderBook

/-!
# The copy of a book at the client

The client starts from a snapshot of a book and merges every later diff. A diff holds all levels
that are left, and none of quantity zero for the levels that are gone, so the client keeps these
(`bought_level_stays`).

If the last diff shows the book as it is, the copy is the book exactly if every price text that
the snapshot or a diff has shown is in the last of them (`copy_iff`).
-/

namespace CryptoCex.Web

open CryptoCex.Core (BookDepth Decimal OrderBook)
open Machine (run Along)
open Proto (BookSnapshot EngineRequest)
open Server (EngineState Session deltasOf)

def OrderBookMessage.levels (msg : OrderBookMessage) : BookSide → List PriceLevelTuple
  | .bids => msg.bids
  | .asks => msg.asks

def OrderBookState.rows (state : OrderBookState) : BookSide → List BookSideRow
  | .bids => state.bids
  | .asks => state.asks

/-- What the client has merged last. -/
def lastMessage (snapshot : OrderBookMessage) (deltas : List OrderBookMessage) :
    OrderBookMessage := deltas.getLast?.getD snapshot

/-- The price texts that the messages show on a side. -/
def pricesOn (side : BookSide) (msgs : List OrderBookMessage) : List DecimalText :=
  msgs.flatMap fun msg => (msg.levels side).map Prod.fst

variable {snapshot : OrderBookMessage} {deltas : List OrderBookMessage}

theorem lastMessage_mem (snapshot : OrderBookMessage) (deltas : List OrderBookMessage) :
    lastMessage snapshot deltas ∈ snapshot :: deltas := by
  unfold lastMessage
  cases hlast : deltas.getLast? with
  | none => exact List.mem_cons_self
  | some delta => exact List.mem_cons_of_mem _ (List.mem_of_getLast? hlast)

/-- Diffs that come in the order of their numbers are all merged. -/
theorem tracks_merge (hproper : ∀ msg ∈ snapshot :: deltas, ∀ side, Proper side (msg.levels side))
    (hsorted : (snapshot :: deltas).Pairwise (·.seq < ·.seq)) :
    (deltas.foldl mergeBookDelta (snapshotToState snapshot)).seq =
      (lastMessage snapshot deltas).seq ∧
    ∀ side, Tracks side (pricesOn side (snapshot :: deltas))
      ((lastMessage snapshot deltas).levels side)
      ((deltas.foldl mergeBookDelta (snapshotToState snapshot)).rows side) := by
  induction deltas using List.reverseRecOn with
  -- the snapshot alone
  | nil =>
    refine ⟨rfl, ?_⟩
    intro side
    have hfirst := tracks_snapshot (hproper snapshot List.mem_cons_self side)
    have hshown : pricesOn side [snapshot] = (snapshot.levels side).map Prod.fst :=
      List.flatMap_singleton _ _
    rw [hshown]
    cases side with
    | bids => exact hfirst
    | asks => exact hfirst
  -- the last delta is newer than the state, so it is merged
  | append_singleton deltas delta ih =>
    rw [← List.cons_append] at hproper hsorted
    rcases List.pairwise_append.mp hsorted with ⟨hbefore, _, hnewest⟩
    rcases ih (fun msg hmsg => hproper msg (List.mem_append_left _ hmsg)) hbefore with
      ⟨hseq, htracks⟩
    have hlast : lastMessage snapshot (deltas ++ [delta]) = delta := by
      simp [lastMessage]
    have hnewer := hnewest _ (lastMessage_mem snapshot deltas) delta (List.mem_singleton.mpr rfl)
    rw [hlast, List.foldl_append, List.foldl_cons, List.foldl_nil, ← List.cons_append]
    generalize deltas.foldl mergeBookDelta (snapshotToState snapshot) = state at hseq htracks
    have hmerge : ¬ delta.seq ≤ state.seq := by omega
    unfold mergeBookDelta
    rw [if_neg hmerge]
    refine ⟨rfl, ?_⟩
    intro side
    have hshown : pricesOn side (snapshot :: deltas ++ [delta]) =
        pricesOn side (snapshot :: deltas) ++ (delta.levels side).map Prod.fst := by
      unfold pricesOn
      rw [List.flatMap_append, List.flatMap_singleton]
    have hnext := (htracks side).apply
      (hproper delta (List.mem_append_right _ (List.mem_singleton.mpr rfl)) side)
    rw [hshown]
    cases side with
    | bids => exact hnext
    | asks => exact hnext

/-! ## What the engine sends -/

/-- The message is what the engine has sent: its number as JavaScript reads it, and the levels as
texts, spelled in any way. -/
structure Writes (msg : OrderBookMessage) (sent : BookSnapshot) : Prop where
  seq : msg.seq = jsNumber sent.seq
  bids : msg.bids.map numbers = sent.bids
  asks : msg.asks.map numbers = sent.asks

def sideOf (depth : BookDepth) : BookSide → List (Decimal × Decimal)
  | .bids => depth.bids
  | .asks => depth.asks

theorem Writes.numbers_eq {msg : OrderBookMessage} {sent : BookSnapshot} (h : Writes msg sent)
    (side : BookSide) : (msg.levels side).map numbers = sideOf (Server.levelsOf sent) side := by
  cases side with
  | bids => exact h.bids
  | asks => exact h.asks

/-- The levels of a book: the best first, no price twice, and something to trade at each. -/
theorem shown_sorted (st : EngineState) (symbol : String) (side : BookSide) :
    (sideOf (st.shown symbol) side).Pairwise (fun left right => side.Better left.1 right.1) ∧
    ∀ level ∈ sideOf (st.shown symbol) side, 0 < level.2 := by
  have hlevels : st.shown symbol = ⟨[], []⟩ ∨ ∃ book : OrderBook,
      st.shown symbol = book.depthLevels st.snapshotDepth := by
    unfold EngineState.shown EngineState.bookSnapshot
    cases st.books.find? symbol with
    | none => exact .inl rfl
    | some book => exact .inr ⟨book, rfl⟩
  -- the levels of a book are sorted, and the filter keeps those with a quantity
  rcases hlevels with hnone | ⟨book, hbook⟩
  · rw [hnone]
    cases side <;> exact ⟨.nil, by simp [sideOf]⟩
  · rw [hbook]
    cases side with
    | bids =>
      refine ⟨List.Pairwise.filter _ (List.pairwise_map.mpr ?_), ?_⟩
      · refine List.Pairwise.sublist (List.take_sublist _ _) (List.pairwise_reverse.mpr ?_)
        exact book.bids.sorted
      · intro level hlevel
        exact of_decide_eq_true (List.mem_filter.mp hlevel).2
    | asks =>
      refine ⟨List.Pairwise.filter _ (List.pairwise_map.mpr ?_), ?_⟩
      · exact List.Pairwise.sublist (List.take_sublist _ _) book.asks.sorted
      · intro level hlevel
        exact of_decide_eq_true (List.mem_filter.mp hlevel).2

/-- What the engine publishes is a proper list of levels for the client. -/
theorem proper_of_writes {msg : OrderBookMessage} {sent : BookSnapshot} (h : Writes msg sent)
    {st : EngineState} {symbol : String} (hshown : Server.levelsOf sent = st.shown symbol)
    (side : BookSide) : Proper side (msg.levels side) := by
  rcases shown_sorted st symbol side with ⟨hsorted, hpositive⟩
  rw [← hshown, ← h.numbers_eq side] at hsorted hpositive
  have hlevels := List.pairwise_map.mp hsorted
  refine ⟨hlevels, ?_⟩
  intro level hlevel
  have hquantity := hpositive (numbers level) (List.mem_map_of_mem hlevel)
  rw [Bool.eq_false_iff]
  intro hzero
  have hunits := level.2.isZeroDecimal_iff.mp hzero
  unfold numbers at hquantity
  rw [hunits] at hquantity
  exact lt_irrefl _ hquantity

/-! ## The copy -/

/-- The rows are the levels of a snapshot, as numbers and in its order. -/
def Shows (state : OrderBookState) (fresh : BookSnapshot) : Prop :=
  ∀ side, (levelsOf (state.rows side)).map numbers = sideOf (Server.levelsOf fresh) side

/-- Every price text that has been shown is in the last message. -/
def PricesStay (snapshot : OrderBookMessage) (deltas : List OrderBookMessage) : Prop :=
  ∀ side, ∀ p ∈ pricesOn side (snapshot :: deltas),
    p ∈ ((lastMessage snapshot deltas).levels side).map Prod.fst

theorem writes_last {first : BookSnapshot} {sent : List BookSnapshot}
    (hfirst : Writes snapshot first) (h : List.Forall₂ Writes deltas sent) :
    Writes (lastMessage snapshot deltas) (sent.getLast?.getD first) := by
  unfold lastMessage
  induction h generalizing snapshot first with
  | nil => exact hfirst
  | @cons delta delta' deltas sent hdelta _ ih =>
    rw [List.getLast?_cons, List.getLast?_cons]
    exact ih hdelta

/-- JavaScript reads numbers up to `2 ^ 53` as they are. -/
theorem seqs_eq {msgs : List OrderBookMessage} {sent : List BookSnapshot}
    (h : List.Forall₂ Writes msgs sent) (hsmall : ∀ delta ∈ sent, delta.seq ≤ 2 ^ 53) :
    msgs.map (·.seq) = sent.map (·.seq) := by
  induction h with
  | nil => rfl
  | @cons msg delta msgs sent hmsg _ ih =>
    rw [List.map_cons, List.map_cons, ih fun d hd => hsmall d (List.mem_cons_of_mem _ hd),
      hmsg.seq, jsNumber_of_le (hsmall delta List.mem_cons_self)]

theorem exists_sent {msgs : List OrderBookMessage} {sent : List BookSnapshot}
    (h : List.Forall₂ Writes msgs sent) : ∀ msg ∈ msgs, ∃ delta ∈ sent, Writes msg delta := by
  induction h with
  | nil => simp
  | @cons msg delta msgs sent hmsg _ ih =>
    intro msg' hmem
    rcases List.mem_cons.mp hmem with rfl | hmem
    · exact ⟨delta, List.mem_cons_self, hmsg⟩
    · rcases ih msg' hmem with ⟨delta', hdelta', hwrites⟩
      exact ⟨delta', List.mem_cons_of_mem _ hdelta', hwrites⟩

/-- The client has a snapshot of a book and merges all later diffs. All requests since are
answered, and no placement is rejected after it has changed the levels. Then the copy of the
client is the book as a fresh snapshot shows it exactly if every price text that has been shown is
in the last message. -/
theorem copy_iff {fuel : ℕ} {symbol : String} {st : EngineState} {reqs : List EngineRequest}
    {s : Session} (hok : Along (Session.step fuel) (Session.Audible fuel symbol) ⟨st, []⟩ reqs)
    (hrun : run (Session.step fuel) ⟨st, []⟩ reqs = some s)
    (hsmall : s.engine.eventLog.sequence ≤ 2 ^ 53)
    (hsnapshot : Writes snapshot (st.bookSnapshot symbol st.snapshotDepth))
    (hdeltas : List.Forall₂ Writes deltas (deltasOf symbol s.emitted)) :
    Shows (deltas.foldl mergeBookDelta (snapshotToState snapshot))
      (s.engine.bookSnapshot symbol s.engine.snapshotDepth) ↔ PricesStay snapshot deltas := by
  have hfollows := Session.follows_of_run hok hrun
  have hsent := List.Forall₂.cons hsnapshot hdeltas
  have hmax : s.engine.eventLog.sequence < Server.u64Max := hsmall.trans_lt (by decide)
  have hle := hfollows.numbered.le hmax
  have hbounds := (hfollows.numbered.bounds (hle.trans hmax.le)).2.2
  -- the messages come in the order of their numbers
  have hseqs : ((st.bookSnapshot symbol st.snapshotDepth :: deltasOf symbol s.emitted).map
      (·.seq)).Pairwise (· < ·) := by
    rw [List.map_cons]
    have hsub := Server.Session.seqs_deltasOf symbol s.emitted
    refine List.pairwise_cons.mpr ⟨?_, ?_⟩
    · intro seq hseq
      rcases List.mem_map.mp (hsub.subset hseq) with ⟨e, he, rfl⟩
      have hlow := (hbounds e he).1
      have hhigh := (hbounds e he).2
      show st.eventLog.sequence < e.seq
      omega
    · exact (List.pairwise_map.mpr (hfollows.numbered.pairwise hmax)).sublist hsub
  have hlimit : ∀ delta ∈ st.bookSnapshot symbol st.snapshotDepth :: deltasOf symbol s.emitted,
      delta.seq ≤ 2 ^ 53 := by
    intro delta hdelta
    rcases List.mem_cons.mp hdelta with rfl | hdelta
    · exact hle.trans hsmall
    · have hmem : delta.seq ∈ (deltasOf symbol s.emitted).map (·.seq) :=
        List.mem_map_of_mem hdelta
      have hfound := (Server.Session.seqs_deltasOf symbol s.emitted).subset hmem
      rcases List.mem_map.mp hfound with ⟨e, he, heq⟩
      rw [← heq]
      exact (hbounds e he).2.trans hsmall
  have hsorted : (snapshot :: deltas).Pairwise (·.seq < ·.seq) := by
    rw [← seqs_eq hsent hlimit] at hseqs
    exact List.pairwise_map.mp hseqs
  have hproper : ∀ msg ∈ snapshot :: deltas, ∀ side, Proper side (msg.levels side) := by
    intro msg hmsg side
    rcases List.mem_cons.mp hmsg with rfl | hmsg
    · exact proper_of_writes hsnapshot rfl side
    · rcases exists_sent hdeltas msg hmsg with ⟨delta, hdelta, hwrites⟩
      rcases hfollows.shows delta hdelta with ⟨st', hshown⟩
      exact proper_of_writes hwrites hshown side
  have hlast : Server.levelsOf ((deltasOf symbol s.emitted).getLast?.getD
      (st.bookSnapshot symbol st.snapshotDepth)) = s.engine.shown symbol := by
    rw [← hfollows.last]
    unfold Session.lastShown
    cases (deltasOf symbol s.emitted).getLast? <;> rfl
  have htracks := (tracks_merge hproper hsorted).2
  refine forall_congr' ?_
  intro side
  have hnumbers := (writes_last hsnapshot hdeltas).numbers_eq side
  rw [hlast] at hnumbers
  have hiff := (htracks side).numbers_eq_iff
    (hproper _ (lastMessage_mem snapshot deltas) side)
  rw [hnumbers] at hiff
  exact hiff

/-! ## A level that is bought up -/

/-- An order at the price of 100. -/
def orderAt100 (id userId : Core.Uuid) (side : Proto.OrderSide) (quantity : Decimal) :
    EngineRequest :=
  .place id (Server.wireLimit id userId side (100 * 10 ^ 28) (quantity * 10 ^ 28) .cancelTaker)

def emptySnapshot : OrderBookMessage := ⟨0, [], []⟩

/-- A diff with one ask. -/
def askDelta (seq : ℕ) (digit : Fin 10) : OrderBookMessage := ⟨seq, [], [(hundred, single digit)]⟩

/-- Requests of which `Audible` is tested. -/
theorem along_audible {symbol : String} {s : Session} {reqs : List EngineRequest}
    (h : Machine.checkAlong (Session.step 10) (fun s req => decide (s.Audible 10 symbol req)) s
      reqs = true) : Along (Session.step 10) (Session.Audible 10 symbol) s reqs :=
  Machine.along_of_check (fun _ _ hcheck => of_decide_eq_true hcheck) h

/-- Five are offered at 100, and one is bought. -/
def buyOne : List EngineRequest := [orderAt100 1 10 .sell 5, orderAt100 2 20 .buy 1]

theorem rest_of_level_shown : ∃ s : Session,
    run (Session.step 10) ⟨Server.emptyEngine, []⟩ buyOne = some s ∧
    List.Forall₂ Writes [askDelta 3 5, askDelta 6 4] (deltasOf "BTCUSDT" s.emitted) ∧
    Shows ([askDelta 3 5, askDelta 6 4].foldl mergeBookDelta (snapshotToState emptySnapshot))
      (s.engine.bookSnapshot "BTCUSDT" s.engine.snapshotDepth) := by
  have hok : Along (Session.step 10) (Session.Audible 10 "BTCUSDT") ⟨Server.emptyEngine, []⟩
      buyOne := along_audible (by decide +kernel)
  have hsnapshot : Writes emptySnapshot (Server.emptyEngine.bookSnapshot "BTCUSDT" 20) :=
    ⟨by decide +kernel, rfl, rfl⟩
  refine ⟨_, rfl, ?written, (copy_iff hok rfl (by decide +kernel) hsnapshot ?written).mpr ?_⟩
  · exact .cons ⟨by decide +kernel, by decide +kernel, by decide +kernel⟩
      (.cons ⟨by decide +kernel, by decide +kernel, by decide +kernel⟩ .nil)
  · intro side
    cases side with
    | bids => decide +kernel
    | asks => decide +kernel

/-- Five are offered at 100, and bought. -/
def buyAll : List EngineRequest := [orderAt100 1 10 .sell 5, orderAt100 2 20 .buy 5]

/-- The book is empty, and the client has the offer still. -/
theorem bought_level_stays : ∃ s : Session,
    Along (Session.step 10) (Session.Audible 10 "BTCUSDT") ⟨Server.emptyEngine, []⟩ buyAll ∧
    run (Session.step 10) ⟨Server.emptyEngine, []⟩ buyAll = some s ∧
    Writes emptySnapshot (Server.emptyEngine.bookSnapshot "BTCUSDT" 20) ∧
    List.Forall₂ Writes [askDelta 3 5, ⟨6, [], []⟩] (deltasOf "BTCUSDT" s.emitted) ∧
    ¬ Shows ([askDelta 3 5, ⟨6, [], []⟩].foldl mergeBookDelta (snapshotToState emptySnapshot))
      (s.engine.bookSnapshot "BTCUSDT" s.engine.snapshotDepth) := by
  refine ⟨_, along_audible (by decide +kernel), rfl, ⟨by decide +kernel, rfl, rfl⟩, ?_, ?_⟩
  · exact .cons ⟨by decide +kernel, by decide +kernel, by decide +kernel⟩
      (.cons ⟨by decide +kernel, by decide +kernel, by decide +kernel⟩ .nil)
  · intro hshows
    have hasks := hshows .asks
    revert hasks
    decide +kernel

end CryptoCex.Web
