import CryptoCex.Lib.Paging
import CryptoCex.Settlement.Passbook
import CryptoCex.Settlement.Serializable

/-!
# The ledger history of an account

`get_history` pages through the ledger entries of a user by their ids, newest first, while
transactions insert more of them. An entry has its id from the moment it is inserted and is there
for readers when its transaction commits, so entries appear out of the order of their ids. But the
entries of one user and asset do not: who inserts one has updated the balance in the same
transaction, and its row is locked until the transaction ends. So a client that follows
`nextCursor` reads a history without gaps for each asset (`history_unbroken`).
-/

namespace CryptoCex.Api

open CryptoCex.Core (Uuid)
open Db (LedgerEntry MarketRow Tables)
open Paging (Grown Pager Reading page)
open Settlement (Account Arithmetic Cell Cells Content Work opened)
open TwoPhase (Script)

/-- A row of `ledger_entries`, with its id. -/
abbrev LedgerRow := ℕ × LedgerEntry

/-- The committed entries of a user in these assets. -/
def entriesOf (assets : List Uuid) (cells : Cells) (userId : Uuid) : List LedgerRow :=
  assets.flatMap fun assetId => (cells (.account userId assetId)).entries

/-- The entries below the cursor, newest first. -/
def ledgerHistory (assets : List Uuid) (cells : Cells) (userId : Uuid) (cursor : Option ℕ)
    (limit : ℕ) : List LedgerRow :=
  page Prod.fst limit (entriesOf assets cells userId) cursor

/-- `GET /account/history`: the rows and `nextCursor`. -/
def getHistory (assets : List Uuid) (cells : Cells) (userId : Uuid) (cursor : Option ℕ)
    (limit : ℤ) : List LedgerRow × Option ℕ :=
  let limit := (min (max limit 1) 200).toNat
  let rows := ledgerHistory assets cells userId cursor limit
  (rows, rows.getLast?.map Prod.fst)

/-- The client asks for the next page, and stops at one without `nextCursor`. -/
def nextPage (assets : List Uuid) (cells : Cells) (userId : Uuid) (limit : ℤ)
    (r : Pager LedgerRow ℕ) : Pager LedgerRow ℕ :=
  let (rows, nextCursor) := getHistory assets cells userId r.cursor limit
  { cursor := nextCursor, read := r.read ++ rows, done := nextCursor.isNone }

/-- A statement of some transaction, or a request of the client. -/
inductive HistoryAct where
  | sql (act : TwoPhase.Act Work)
  | request (limit : ℤ)

def historyStep (arith : Arithmetic) (markets : String → Option MarketRow) (assets : List Uuid)
    (userId : Uuid) :
    TwoPhase.State Content Bool Work × Pager LedgerRow ℕ → HistoryAct →
      Option (TwoPhase.State Content Bool Work × Pager LedgerRow ℕ)
  | (st, r), .sql act => (TwoPhase.step (Work.script arith markets) st act).map (·, r)
  | (st, r), .request limit =>
    if r.done then none else some (st, nextPage assets st.cells userId limit r)

/-- Reading a page is a turn of the pager over what is committed. -/
theorem nextPage_eq_turn (assets : List Uuid) (cells : Cells) (userId : Uuid) (limit : ℤ)
    (r : Pager LedgerRow ℕ) : nextPage assets cells userId limit r =
      r.turn Prod.fst (page Prod.fst (min (max limit 1) 200).toNat (entriesOf assets cells userId)
        r.cursor) := by
  unfold nextPage Paging.Pager.turn getHistory ledgerHistory
  dsimp only
  rw [Option.isNone_map]

/-! ## What transactions write -/

/-- The write adds at most one entry, at the end and with its own number for an id. -/
def AddsEntry : ∀ cell, (Content cell → ℕ → Content cell) → Prop
  | .account userId assetId, write => ∀ account n, (write account n).entries = account.entries ∨
      ∃ entry, entry.userId = userId ∧ entry.assetId = assetId ∧
        (write account n).entries = account.entries ++ [(n, entry)]
  | _, _ => True

section

variable {arith : Arithmetic} {markets : String → Option MarketRow}

/-- A statement on a balance that leaves its entries. -/
theorem adds_none {α : Type} {userId assetId : Uuid}
    {f : Account → ℕ → Option (Account × α)}
    (h : ∀ account n account' a, f account n = some (account', a) →
      account'.entries = account.entries) :
    Script.Writes AddsEntry (Script.statement (.account userId assetId) f) := by
  refine Script.writes_statement ?_
  intro account n
  refine .inl ?_
  dsimp only
  cases hf : f account n with
  | none => rfl
  | some r => exact h account n r.1 r.2 hf

/-- Updating a balance leaves the entries as they are. -/
theorem updateBalance_writes {userId assetId : Uuid} {x y : ℚ} :
    (Settlement.Statements.updateBalance arith userId assetId x y).Writes AddsEntry := by
  refine adds_none ?_
  intro account n account' a hf
  rcases Option.bind_eq_some_iff.mp hf with ⟨row, _, hf⟩
  rcases Option.bind_eq_some_iff.mp hf with ⟨after, _, hf⟩
  cases hf
  rfl

theorem tryLockBalance_writes {userId assetId : Uuid} {amount : ℚ} :
    (Settlement.Statements.tryLockBalance arith userId assetId amount).Writes AddsEntry := by
  refine adds_none ?_
  intro account n account' a hf
  split at hf
  · cases hf
    rfl
  · split_ifs at hf
    · rcases Option.bind_eq_some_iff.mp hf with ⟨after, _, hf⟩
      cases hf
      rfl
    · cases hf
      rfl

theorem unlockBalance_writes {userId assetId : Uuid} {amount : ℚ} :
    (Settlement.Statements.unlockBalance arith userId assetId amount).Writes AddsEntry := by
  refine adds_none ?_
  intro account n account' a hf
  split at hf
  · cases hf
    rfl
  · rcases Option.bind_eq_some_iff.mp hf with ⟨after, _, hf⟩
    cases hf
    rfl

theorem insertEntry_writes {m : Settlement.LedgerMutation} {after : Db.Balance} :
    (Settlement.Statements.insertEntry arith m after).Writes AddsEntry := by
  refine Script.writes_statement ?_
  intro account n
  dsimp only
  cases hamount : arith.store m.amount with
  | none => exact .inl rfl
  | some amount =>
    by_cases hseq : m.engineSeq = some 0
    · simp [hseq]
    · simp only [Option.bind_eq_bind, Option.bind_some, if_neg hseq]
      exact .inr ⟨_, rfl, rfl, rfl⟩

theorem insertFaucetEntry_writes {userId assetId depositId : Uuid} {amount : ℚ} :
    (Settlement.Statements.insertFaucetEntry arith userId assetId amount depositId).Writes
      AddsEntry := by
  refine Script.writes_statement ?_
  intro account n
  dsimp only
  cases hamount : arith.store amount with
  | none => exact .inl rfl
  | some stored =>
    cases hbalance : account.balance with
    | none => exact .inl rfl
    | some after => exact .inr ⟨_, rfl, rfl, rfl⟩

/-- A statement on another cell. -/
theorem other_writes {α : Type} {cell : Cell} {f : Content cell → ℕ → Option (Content cell × α)}
    (hother : ∀ userId assetId, cell ≠ .account userId assetId) :
    Script.Writes AddsEntry (Script.statement cell f) := by
  refine Script.writes_statement ?_
  cases cell with
  | account userId assetId => exact absurd rfl (hother userId assetId)
  | _ => trivial

theorem applyLedger_writes {m : Settlement.LedgerMutation} :
    (Settlement.Statements.applyLedger arith m).Writes AddsEntry :=
  updateBalance_writes.bind fun _ => insertEntry_writes

theorem applyLedgers_writes (ms : List Settlement.LedgerMutation) :
    (Settlement.Statements.applyLedgers arith ms).Writes AddsEntry := by
  induction ms with
  | nil => trivial
  | cons m ms ih => exact applyLedger_writes.bind fun _ => ih

theorem applyObligation_writes {mutation : Uuid → ℚ → Settlement.LedgerMutation}
    {obligation : Uuid × ℚ} :
    (Settlement.Statements.applyObligation arith mutation obligation).Writes AddsEntry := by
  unfold Settlement.Statements.applyObligation
  split_ifs
  · exact applyLedger_writes
  · trivial

theorem compute_writes {α : Type} (x : Except Db.DbError α) :
    (Settlement.Statements.compute x).Writes AddsEntry := by
  cases x <;> trivial

theorem settleOrderAccepted_writes {seq : ℕ} {order : Proto.EngineOrder} :
    (Settlement.Statements.settleOrderAccepted arith markets seq order).Writes AddsEntry := by
  unfold Settlement.Statements.settleOrderAccepted
  split
  · trivial
  · refine (other_writes (by simp)).bind ?_
    intro inserted
    split_ifs
    · trivial
    · exact (compute_writes _).bind fun _ => applyObligation_writes

theorem settleFill_writes {seq : ℕ} {fill : Proto.TradeFill} :
    (Settlement.Statements.settleFill arith markets seq fill).Writes AddsEntry := by
  refine (other_writes (by simp)).bind ?_
  intro existing
  split_ifs
  · trivial
  · refine (other_writes (by simp)).bind fun taker => ?_
    refine (other_writes (by simp)).bind fun maker => ?_
    refine ((other_writes (by simp)).bind fun _ => other_writes (by simp)).bind fun _ => ?_
    refine Script.Writes.bind ?_ fun _ => ?_
    · refine (compute_writes _).bind fun notional => ?_
      refine (compute_writes _).bind fun takerFee => ?_
      exact (compute_writes _).bind fun makerFee => applyLedgers_writes _
    · exact (other_writes (by simp)).bind fun _ => other_writes (by simp)

theorem settleCancel_writes {seq : ℕ} {orderId : Uuid} :
    (Settlement.Statements.settleCancel arith markets seq orderId).Writes AddsEntry := by
  refine (other_writes (by simp)).bind ?_
  intro order
  split_ifs
  · trivial
  · refine (compute_writes _).bind fun obligation => ?_
    exact applyObligation_writes.bind fun _ => other_writes (by simp)

theorem settle_writes {seq : ℕ} {event : Proto.EngineEvent} :
    (Settlement.Statements.settle arith markets seq event).Writes AddsEntry := by
  refine (other_writes (by simp)).bind ?_
  intro _
  cases event with
  | orderAccepted order => exact settleOrderAccepted_writes
  | fill f => exact settleFill_writes
  | orderCanceled orderId reason => exact settleCancel_writes
  | _ => trivial

theorem insertClientOrder_writes {userId : Uuid} (clientOrderId : Option String) :
    (Settlement.Statements.insertClientOrder userId clientOrderId).Writes AddsEntry := by
  cases clientOrderId with
  | none => trivial
  | some clientOrderId => exact other_writes (by simp)

/-- Every transaction writes so. -/
theorem script_writes (work : Work) : (work.script arith markets).Writes AddsEntry := by
  cases work with
  | faucet userId assetId amount depositId =>
    refine Script.Writes.bind ?_ fun _ => trivial
    refine updateBalance_writes.bind fun _ => ?_
    exact (other_writes (by simp)).bind fun _ => insertFaucetEntry_writes
  | tryLock userId assetId amount => exact tryLockBalance_writes
  | unlock userId assetId amount => exact unlockBalance_writes.bind fun _ => trivial
  | insert input =>
    refine Script.Writes.bind ?_ fun _ => trivial
    exact (other_writes (by simp)).bind fun row => insertClientOrder_writes _
  | updateStatus orderId status => exact (other_writes (by simp)).bind fun _ => trivial
  | settle e => exact settle_writes.bind fun _ => trivial

end

/-! ## The ledger of many transactions -/

/-- Entries of one user and asset, in the order of their ids, all below `n`. -/
structure Numbered (userId assetId : Uuid) (n : ℕ) (rows : List LedgerRow) : Prop where
  rises : rows.Pairwise fun row row' => row.1 < row'.1
  below : ∀ row ∈ rows, row.1 < n
  own : ∀ row ∈ rows, row.2.userId = userId ∧ row.2.assetId = assetId

theorem Numbered.mono {userId assetId : Uuid} {n : ℕ} {rows : List LedgerRow}
    (h : Numbered userId assetId n rows) : Numbered userId assetId (n + 1) rows where
  rises := h.rises
  below := fun row hrow => Nat.lt_succ_of_lt (h.below row hrow)
  own := h.own

/-- An entry with the next number keeps the entries of an account in order. -/
theorem Numbered.add {userId assetId : Uuid} {n : ℕ} {rows : List LedgerRow}
    (h : Numbered userId assetId n rows) {entry : LedgerEntry} (huser : entry.userId = userId)
    (hasset : entry.assetId = assetId) :
    Numbered userId assetId (n + 1) (rows ++ [(n, entry)]) where
  rises := by
    refine List.pairwise_append.mpr ⟨h.rises, List.pairwise_singleton _ _, ?_⟩
    intro row hrow row' hrow'
    rw [List.mem_singleton.mp hrow']
    exact h.below row hrow
  below := by
    intro row hrow
    rcases List.mem_append.mp hrow with hrow | hrow
    · exact Nat.lt_succ_of_lt (h.below row hrow)
    · rw [List.mem_singleton.mp hrow]
      exact Nat.lt_succ_self n
  own := by
    intro row hrow
    rcases List.mem_append.mp hrow with hrow | hrow
    · exact h.own row hrow
    · rw [List.mem_singleton.mp hrow]
      exact ⟨huser, hasset⟩

/-- The entries of an account are its own, in the order of their ids, and the next id is larger. -/
def InOrder : ∀ cell, ℕ → Content cell → Prop
  | .account userId assetId, n, account => Numbered userId assetId n account.entries
  | _, _, _ => True

/-- Entries are only added, at the end. -/
def Extends : ∀ cell, Content cell → Content cell → Prop
  | .account _ _, account, account' => ∃ rows, account'.entries = account.entries ++ rows
  | _, _, _ => True

/-- The ids of the entries of a cell. -/
def ids : ∀ cell, Content cell → Set ℕ
  | .account _ _, account => fun m => ∃ row ∈ account.entries, row.1 = m
  | _, _ => ∅

theorem inOrder_mono (cell : Cell) (n : ℕ) (content : Content cell) (h : InOrder cell n content) :
    InOrder cell (n + 1) content := by
  cases cell with
  | account userId assetId => exact Numbered.mono h
  | _ => trivial

/-- Such a write keeps the order of the entries in its cell, -/
theorem keepsCell_of_adds (cell : Cell) (write : Content cell → ℕ → Content cell)
    (h : AddsEntry cell write) : TwoPhase.KeepsCell InOrder cell write := by
  intro content n hcontent
  cases cell with
  | account userId assetId =>
    show Numbered userId assetId (n + 1) (write content n).entries
    rcases h content n with hsame | ⟨entry, huser, hasset, hadd⟩
    · rw [hsame]
      exact Numbered.mono hcontent
    · rw [hadd]
      exact Numbered.add hcontent huser hasset
  | _ => trivial

/-- it only extends the cell, -/
theorem changesCell_of_adds (cell : Cell) (write : Content cell → ℕ → Content cell)
    (h : AddsEntry cell write) : TwoPhase.ChangesCell Extends cell write := by
  intro content n
  cases cell with
  | account userId assetId =>
    rcases h content n with hsame | ⟨entry, _, _, hadd⟩
    · exact ⟨[], by rw [hsame, List.append_nil]⟩
    · exact ⟨_, hadd⟩
  | _ => trivial

/-- and the numbers that are new in the cell were drawn from the counter. -/
theorem drawsCell_of_adds (cell : Cell) (write : Content cell → ℕ → Content cell)
    (h : AddsEntry cell write) : TwoPhase.DrawsCell ids cell write := by
  intro content n m hm
  cases cell with
  | account userId assetId =>
    rcases hm with ⟨row, hrow, rfl⟩
    rcases h content n with hsame | ⟨entry, _, _, hadd⟩
    · rw [hsame] at hrow
      exact .inl ⟨row, hrow, rfl⟩
    · rw [hadd] at hrow
      rcases List.mem_append.mp hrow with hrow | hrow
      · exact .inl ⟨row, hrow, rfl⟩
      · rw [List.mem_singleton.mp hrow]
        exact .inr rfl
  | _ => exact absurd hm (Set.notMem_empty m)

theorem extends_refl (cell : Cell) (content : Content cell) : Extends cell content content := by
  cases cell with
  | account userId assetId => exact ⟨[], (List.append_nil _).symm⟩
  | _ => trivial

theorem extends_trans (cell : Cell) (a b c : Content cell) (h : Extends cell a b)
    (h' : Extends cell b c) : Extends cell a c := by
  cases cell with
  | account userId assetId =>
    rcases h with ⟨rows, hrows⟩
    rcases h' with ⟨rows', hrows'⟩
    exact ⟨rows ++ rows', by rw [hrows', hrows, List.append_assoc]⟩
  | _ => trivial

/-- What holds of the ledger while transactions run. -/
structure Ledgered (st : TwoPhase.State Content Bool Work) : Prop where
  locked : TwoPhase.Locked st
  order : TwoPhase.Kept InOrder st
  changed : TwoPhase.Changed Extends st
  apart : TwoPhase.Apart ids st

variable {arith : Arithmetic} {markets : String → Option MarketRow}
  {st st' : TwoPhase.State Content Bool Work}

/-- Locked cells and ordered entries are kept by a step of any transaction. -/
theorem Ledgered.step (h : Ledgered st) {act : TwoPhase.Act Work}
    (hstep : TwoPhase.step (Work.script arith markets) st act = some st') :
    Ledgered st' ∧ ∀ cell, Extends cell (st.cells cell) (st'.cells cell) := by
  have hsteps := TwoPhase.step_steps hstep
  have hchanged := h.changed.step extends_refl extends_trans
    (fun work => (script_writes work).imp changesCell_of_adds) h.locked hsteps
  refine ⟨⟨h.locked.step hsteps, ?_, hchanged.1, ?_⟩, hchanged.2⟩
  · exact h.order.step inOrder_mono
      (fun work => (script_writes work).imp keepsCell_of_adds) hsteps
  · exact h.apart.step (fun work => (script_writes work).imp drawsCell_of_adds) hsteps

theorem ledgered_of_run (h : Ledgered st) {acts : List (TwoPhase.Act Work)}
    (hrun : Machine.run (TwoPhase.step (Work.script arith markets)) st acts = some st') :
    Ledgered st' := by
  induction acts generalizing st with
  | nil =>
    cases hrun
    exact h
  | cons act acts ih =>
    rcases Option.bind_eq_some_iff.mp hrun with ⟨mid, hstep, hrest⟩
    exact ih (h.step hstep).1 hrest

/-! ## Tables as they are opened -/

/-- An entry of an account is in the table, at the place that is its id. -/
theorem mem_cellsOf {db : Tables} {userId assetId : Uuid} {row : LedgerRow}
    (h : row ∈ (Settlement.cellsOf db (.account userId assetId)).entries) :
    db.ledgerEntries[row.1]? = some row.2 ∧ row.2.userId = userId ∧ row.2.assetId = assetId := by
  rcases List.mem_map.mp h with ⟨⟨entry, id⟩, hmem, rfl⟩
  rcases List.mem_filter.mp hmem with ⟨hmem, hkey⟩
  refine ⟨List.mem_zipIdx_iff_getElem?.mp hmem, ?_⟩
  simpa using hkey

/-- At the start the entries of an account are numbered by their places in the table. -/
theorem numbered_cellsOf (db : Tables) (userId assetId : Uuid) :
    Numbered userId assetId db.ledgerEntries.length
      (Settlement.cellsOf db (.account userId assetId)).entries where
  rises := by
    have hsnd : (db.ledgerEntries.zipIdx.map Prod.snd).Pairwise (· < ·) := by
      rw [List.zipIdx_map_snd]
      exact List.pairwise_lt_range'
    refine List.pairwise_map.mpr ?_
    exact (List.pairwise_map.mp hsnd).sublist List.filter_sublist
  below := by
    intro row hrow
    exact (List.getElem?_eq_some_iff.mp (mem_cellsOf hrow).1).1
  own := fun row hrow => (mem_cellsOf hrow).2

theorem mem_ids_cellsOf {db : Tables} {cell : Cell} {m : ℕ}
    (h : m ∈ ids cell (Settlement.cellsOf db cell)) : ∃ entry, db.ledgerEntries[m]? = some entry ∧
      cell = .account entry.userId entry.assetId := by
  cases cell with
  | account userId assetId =>
    rcases h with ⟨row, hrow, rfl⟩
    rcases mem_cellsOf hrow with ⟨hget, rfl, rfl⟩
    exact ⟨row.2, hget, rfl⟩
  | _ => exact absurd h (Set.notMem_empty m)

/-- Nothing but the tables is there yet. -/
theorem holds_opened {db : Tables} {cell : Cell} {m : ℕ}
    (h : TwoPhase.Holds ids (opened db) cell m) : m ∈ ids cell (Settlement.cellsOf db cell) := by
  rcases h with h | ⟨i, s, hs, _⟩
  · exact h
  · cases hs

/-- The start of a run. -/
theorem ledgered_opened (db : Tables) : Ledgered (opened db) where
  locked := TwoPhase.locked_start _ _
  order := by
    refine .start ?_
    intro cell
    cases cell with
    | account userId assetId => exact numbered_cellsOf db userId assetId
    | _ => trivial
  changed := .start _ _
  apart := by
    refine ⟨?_, ?_, TwoPhase.writing_start _ _ _⟩
    · intro cell m hm
      rcases mem_ids_cellsOf (holds_opened hm) with ⟨entry, hget, _⟩
      exact (List.getElem?_eq_some_iff.mp hget).1
    · intro cell cell' m hm hm'
      rcases mem_ids_cellsOf (holds_opened hm) with ⟨entry, hget, rfl⟩
      rcases mem_ids_cellsOf (holds_opened hm') with ⟨entry', hget', rfl⟩
      -- both ids are the same place in the one table
      rw [hget] at hget'
      cases hget'
      rfl

/-- The entries of a user have grown, each asset at its end. -/
theorem Ledgered.grown (h : Ledgered st') {assets : List Uuid} {userId : Uuid}
    (hextends : ∀ cell, Extends cell (st.cells cell) (st'.cells cell)) :
    Grown Prod.fst (fun row => row.2.assetId) (entriesOf assets st.cells userId)
      (entriesOf assets st'.cells userId) where
  mem := by
    intro row hrow
    rcases List.mem_flatMap.mp hrow with ⟨assetId, hasset, hrow⟩
    rcases hextends (.account userId assetId) with ⟨rows, hrows⟩
    refine List.mem_flatMap.mpr ⟨assetId, hasset, ?_⟩
    rw [hrows]
    exact List.mem_append_left _ hrow
  behind := by
    intro row hrow hnew seen hseen hsame
    rcases List.mem_flatMap.mp hrow with ⟨assetId, hasset, hrow⟩
    rcases List.mem_flatMap.mp hseen with ⟨assetId', hasset', hseen⟩
    rcases hextends (.account userId assetId) with ⟨rows, hrows⟩
    rcases hextends (.account userId assetId') with ⟨rows', hrows'⟩
    have hnumbered : Numbered userId assetId st'.counter _ :=
      h.order.cells (.account userId assetId)
    have hnumbered' : Numbered userId assetId' st'.counter _ :=
      h.order.cells (.account userId assetId')
    -- both are of one asset
    obtain rfl : assetId' = assetId := by
      have hrow' := (hnumbered.own row hrow).2
      have hseen' := (hnumbered'.own seen (by rw [hrows']; exact List.mem_append_left _ hseen)).2
      rw [← hrow', ← hseen', hsame]
    have hrises := hnumbered.rises
    rw [hrows] at hrow hrises
    rcases List.mem_append.mp hrow with hold | hadded
    · exact absurd (List.mem_flatMap.mpr ⟨assetId', hasset, hold⟩) hnew
    · exact (List.pairwise_append.mp hrises).2.2 seen hseen row hadded

/-- No two entries of a user have one id. -/
theorem Ledgered.keys (h : Ledgered st) {assets : List Uuid} (hassets : assets.Nodup)
    (userId : Uuid) :
    (entriesOf assets st.cells userId).Pairwise fun row row' => row.1 ≠ row'.1 := by
  refine List.pairwise_flatMap.mpr ⟨?_, ?_⟩
  · intro assetId _
    have hnumbered : Numbered userId assetId st.counter _ := h.order.cells (.account userId assetId)
    exact hnumbered.rises.imp fun hlt => hlt.ne
  · refine hassets.imp ?_
    intro assetId assetId' hne row hrow row' hrow' hid
    have hcells := h.apart.unique (.account userId assetId) (.account userId assetId') row.1
      (.inl ⟨row, hrow, rfl⟩) (.inl ⟨row', hrow', hid.symm⟩)
    cases hcells
    exact hne rfl

/-! ## The history -/

/-- The client reads while the ledger grows. -/
theorem reading_of_run {assets : List Uuid} (hassets : assets.Nodup) {userId : Uuid}
    {began : List LedgerRow} {r r' : Pager LedgerRow ℕ} (h : Ledgered st)
    (hreading : Reading Prod.fst (fun row => row.2.assetId) began (entriesOf assets st.cells userId)
      r) {acts : List HistoryAct}
    (hrun : Machine.run (historyStep arith markets assets userId) (st, r) acts = some (st', r')) :
    Ledgered st' ∧ Reading Prod.fst (fun row => row.2.assetId) began
      (entriesOf assets st'.cells userId) r' := by
  induction acts generalizing st r with
  | nil =>
    cases hrun
    exact ⟨h, hreading⟩
  | cons act acts ih =>
    rcases Option.bind_eq_some_iff.mp hrun with ⟨⟨mid, rmid⟩, hstep, hrest⟩
    cases act with
    | sql act =>
      rcases Option.map_eq_some_iff.mp hstep with ⟨mid', hsql, heq⟩
      cases heq
      -- a commit may let the ledger grow
      rcases h.step hsql with ⟨hmid, hextends⟩
      exact ih hmid (hreading.grow (hmid.grown hextends)) hrest
    | request limit =>
      simp only [historyStep] at hstep
      split_ifs at hstep with hdone
      cases hstep
      have hlimit : 0 < (min (max limit 1) 200).toNat := by omega
      have hturn := hreading.turn (h.keys hassets userId) hlimit (by simpa using hdone)
      rw [← nextPage_eq_turn] at hturn
      exact ih h hturn hrest

/-- A client that pages through the ledger while transactions of any number of sessions run reads
entries whose ids fall, and misses only what was not there when it began and is, for its asset,
newer than everything it has read. -/
theorem history_unbroken (arith : Arithmetic) (db : Tables) (assets : List Uuid)
    (hassets : assets.Nodup) (userId : Uuid) (before : List (TwoPhase.Act Work))
    (st₀ : TwoPhase.State Content Bool Work)
    (hbefore : Machine.run (TwoPhase.step (Work.script arith db.markets)) (opened db) before =
      some st₀)
    (acts : List HistoryAct) (st : TwoPhase.State Content Bool Work) (r : Pager LedgerRow ℕ)
    (hrun : Machine.run (historyStep arith db.markets assets userId) (st₀, .fresh) acts =
      some (st, r)) :
    (r.read.Pairwise fun row row' => row'.1 < row.1) ∧
    (∀ row ∈ r.read, row ∈ entriesOf assets st.cells userId) ∧
    ∀ row ∈ entriesOf assets st.cells userId, r.Passed row.1 → row ∉ r.read →
      row ∉ entriesOf assets st₀.cells userId ∧
        ∀ seen ∈ r.read, seen.2.assetId = row.2.assetId → seen.1 < row.1 := by
  have hstart := ledgered_of_run (ledgered_opened db) hbefore
  rcases reading_of_run hassets hstart (.fresh _ _ _) hrun with ⟨_, hreading⟩
  exact ⟨hreading.falls, hreading.mem, hreading.missed⟩

/-! ## The history as a passbook -/

/-- The entries of an account continue each other, whatever transactions ran. -/
theorem isChain_entries {db : Tables} (hempty : db.ledgerEntries = [])
    {acts : List (TwoPhase.Act Work)}
    (hrun : Machine.run (TwoPhase.step (Work.script .exact db.markets)) (opened db) acts =
      some st) (userId assetId : Uuid) :
    (st.cells (.account userId assetId)).entries.IsChain
      fun row row' => Settlement.Continues row.2 row'.2 := by
  rcases Settlement.represents_of_run hrun with ⟨db', hperformed, hrep⟩
  have hbook := Settlement.passbook_of_run (Settlement.passbook_of_empty hempty)
    (Settlement.run_of_performed hperformed)
  have hchain := hbook.continues (userId, assetId)
  unfold Settlement.accountEntries at hchain
  rw [← hrep.entries userId assetId] at hchain
  exact (List.isChain_map _).mp hchain

/-- Requests do not change the tables. -/
theorem sql_of_run {assets : List Uuid} {userId : Uuid} {r r' : Pager LedgerRow ℕ}
    {acts : List HistoryAct}
    (hrun : Machine.run (historyStep arith markets assets userId) (st, r) acts = some (st', r')) :
    ∃ sqls, Machine.run (TwoPhase.step (Work.script arith markets)) st sqls = some st' := by
  induction acts generalizing st r with
  | nil =>
    cases hrun
    exact ⟨[], rfl⟩
  | cons act acts ih =>
    rcases Option.bind_eq_some_iff.mp hrun with ⟨⟨mid, rmid⟩, hstep, hrest⟩
    rcases ih hrest with ⟨sqls, hsqls⟩
    cases act with
    | sql act =>
      rcases Option.map_eq_some_iff.mp hstep with ⟨mid', hsql, heq⟩
      cases heq
      exact ⟨act :: sqls, Option.bind_eq_some_iff.mpr ⟨mid, hsql, hsqls⟩⟩
    | request limit =>
      simp only [historyStep] at hstep
      split_ifs at hstep
      cases hstep
      exact ⟨sqls, hsqls⟩

/-- An entry of the user is in the account of its asset. -/
theorem Ledgered.mem_account (h : Ledgered st) {assets : List Uuid} {userId : Uuid}
    {row : LedgerRow} (hrow : row ∈ entriesOf assets st.cells userId) :
    row.2.assetId ∈ assets ∧ row ∈ (st.cells (.account userId row.2.assetId)).entries := by
  rcases List.mem_flatMap.mp hrow with ⟨assetId, hasset, hmem⟩
  have hnumbered : Numbered userId assetId st.counter _ := h.order.cells (.account userId assetId)
  rw [(hnumbered.own row hmem).2]
  exact ⟨hasset, hmem⟩

/-- Of each asset the history read is a passbook: every row continues the next older one, across
pages and whatever committed in between. -/
theorem read_is_passbook (db : Tables) (hempty : db.ledgerEntries = []) (assets : List Uuid)
    (hassets : assets.Nodup) (userId : Uuid) (before : List (TwoPhase.Act Work))
    (st₀ : TwoPhase.State Content Bool Work)
    (hbefore : Machine.run (TwoPhase.step (Work.script .exact db.markets)) (opened db) before =
      some st₀)
    (acts : List HistoryAct) (st : TwoPhase.State Content Bool Work) (r : Pager LedgerRow ℕ)
    (hrun : Machine.run (historyStep .exact db.markets assets userId) (st₀, .fresh) acts =
      some (st, r)) (assetId : Uuid) :
    (r.read.filter fun row => row.2.assetId = assetId).IsChain fun newer older =>
      Settlement.Continues older.2 newer.2 := by
  rcases reading_of_run hassets (ledgered_of_run (ledgered_opened db) hbefore) (.fresh _ _ _) hrun
    with ⟨hledgered, hreading⟩
  rcases sql_of_run hrun with ⟨sqls, hsqls⟩
  have hall : Machine.run (TwoPhase.step (Work.script .exact db.markets)) (opened db)
      (before ++ sqls) = some st := by
    rw [Machine.run_append, hbefore]
    exact hsqls
  have hchain := isChain_entries hempty hall userId assetId
  have hnumbered : Numbered userId assetId st.counter _ :=
    hledgered.order.cells (.account userId assetId)
  refine Paging.isChain_of_linked (hreading.falls.sublist List.filter_sublist) ?_
  intro newer hnewer older holder hlt hnone
  rcases List.mem_filter.mp hnewer with ⟨hnewerRead, hnewerAsset⟩
  rcases List.mem_filter.mp holder with ⟨holderRead, holderAsset⟩
  obtain rfl := of_decide_eq_true hnewerAsset
  have holderAsset' := of_decide_eq_true holderAsset
  rcases hledgered.mem_account (hreading.mem newer hnewerRead) with ⟨hasset, hnewerMem⟩
  have holderMem := (hledgered.mem_account (hreading.mem older holderRead)).2
  rw [holderAsset'] at holderMem
  refine Paging.linked_of_isChain hchain hnumbered.rises holderMem hnewerMem hlt ?_
  -- what is between them in the ledger was read as well
  intro row hrow hafter hbefore'
  have hrowAsset := (hnumbered.own row hrow).2
  have hread : row ∈ r.read :=
    hreading.between holderRead hnewerRead (List.mem_flatMap.mpr ⟨_, hasset, hrow⟩) hrowAsset.symm
      hafter.le hbefore'.le
  exact hnone row (List.mem_filter.mpr ⟨hread, decide_eq_true hrowAsset⟩) hafter hbefore'

/-- The balances of user 7 in assets 2 and 3. -/
def twoAssets : Tables := Db.openingTables [((7, 2), ⟨10, 0⟩), ((7, 3), ⟨0, 0⟩)]

/-- A deposit of session `i` up to its commit. -/
def depositing (i assetId depositId : ℕ) : List HistoryAct :=
  [.sql (.start i (.faucet 7 assetId 5 depositId)), .sql (.access i), .sql (.access i),
    .sql (.access i)]

/-- The first deposit commits after a later one was read, and a third one after both. -/
def lateCommit : List HistoryAct :=
  depositing 0 2 40 ++ depositing 1 3 41 ++ [.sql (.commit 1), .request 50, .sql (.commit 0)] ++
    depositing 2 3 42 ++ [.sql (.commit 2), .request 50, .request 50]

theorem lateCommit_unbroken : ∃ st r,
    Machine.run (historyStep .exact twoAssets.markets [2, 3] 7) (opened twoAssets, .fresh)
      lateCommit = some (st, r) ∧
    r.read.map Prod.fst = [5, 2] ∧
    ∀ row ∈ entriesOf [2, 3] st.cells 7, row ∉ r.read →
      ∀ seen ∈ r.read, seen.2.assetId = row.2.assetId → seen.1 < row.1 := by
  have htested : (Machine.run (historyStep .exact twoAssets.markets [2, 3] 7)
      (opened twoAssets, .fresh) lateCommit).any
        (fun s => s.2.done && decide (s.2.read.map Prod.fst = [5, 2])) = true := by
    decide +kernel
  rcases (Option.any_eq_true _ _).mp htested with ⟨⟨st, r⟩, hrun, hread⟩
  rcases Bool.and_eq_true_iff.mp hread with ⟨hdone, hids⟩
  have hhistory := history_unbroken .exact twoAssets [2, 3] (by decide) 7 [] (opened twoAssets) rfl
    lateCommit st r hrun
  refine ⟨st, r, hrun, of_decide_eq_true hids, ?_⟩
  intro row hrow hnot
  exact (hhistory.2.2 row hrow (.inl hdone) hnot).2

/-- Two deposits with a lock before the second commits, then two pages of one row. -/
def twoDeposits : List HistoryAct :=
  depositing 0 2 40 ++ [.sql (.commit 0)] ++ depositing 1 2 41 ++
    [.sql (.start 2 (.tryLock 7 3 0)), .sql (.access 2), .sql (.commit 2), .sql (.commit 1),
      .request 1, .request 1]

theorem twoDeposits_passbook : ∃ st r,
    Machine.run (historyStep .exact twoAssets.markets [2, 3] 7) (opened twoAssets, .fresh)
      twoDeposits = some (st, r) ∧
    r.read.map (fun row => (row.1, Settlement.totalAfter row.2)) = [(5, 20), (2, 15)] ∧
    (r.read.filter fun row => row.2.assetId = 2).IsChain fun newer older =>
      Settlement.Continues older.2 newer.2 := by
  have htested : (Machine.run (historyStep .exact twoAssets.markets [2, 3] 7)
      (opened twoAssets, .fresh) twoDeposits).any (fun s => decide
        (s.2.read.map (fun row => (row.1, Settlement.totalAfter row.2)) = [(5, 20), (2, 15)])) =
          true := by
    decide +kernel
  rcases (Option.any_eq_true _ _).mp htested with ⟨⟨st, r⟩, hrun, hread⟩
  exact ⟨st, r, hrun, of_decide_eq_true hread,
    read_is_passbook twoAssets rfl [2, 3] (by decide) 7 [] (opened twoAssets) rfl _ st r hrun 2⟩

end CryptoCex.Api
