import CryptoCex.Server.Wire
import Mathlib.Data.Stream.Defs

/-!
# The two log files of the engine

The command log of `wal.rs` and the event log of `event_log.rs`, as the lists of
the records written to them. Whether an append succeeds is up to the disk: it is
the next value of a stream of outcomes. A record is in the file when its append
succeeded; the encodings are not modelled here.
-/

namespace CryptoCex.Server

open CryptoCex.Core
open Proto (SequencedEngineEvent)

/-- Errors of request handling: the only one is a failed append. -/
inductive ServerError where
  | io
deriving DecidableEq, Repr

/-- The largest `u64`. -/
def u64Max : ℕ := 2 ^ 64 - 1

/-- A command recorded in the command log. -/
inductive WalCommand where
  /-- An order was submitted to the engine. -/
  | placeOrder (order : Order)
  /-- An order was cancelled by id. -/
  | cancelOrder (orderId : Uuid)
deriving DecidableEq, Repr

/-- A record with its sequence number. -/
structure WalEntry where
  seq : ℕ
  command : WalCommand
deriving DecidableEq, Repr

/-- The append-only command log. -/
structure Wal where
  entries : List WalEntry
  /-- Number of the last entry written or tried. -/
  sequence : ℕ
deriving DecidableEq, Repr

/-- The last sequence number of the entries, 0 when there is none. -/
def Wal.findLastSeq (entries : List WalEntry) : ℕ :=
  match entries.getLast? with
  | none => 0
  | some e => e.seq

/-- Opens the log over its existing entries. -/
def Wal.open (entries : List WalEntry) : Wal where
  entries := entries
  sequence := Wal.findLastSeq entries

/-- Appends a command. The sequence is advanced before the write, so a failed
append uses up its number. -/
def Wal.append (wal : Wal) (ok : Bool) (command : WalCommand) : Except ServerError Unit × Wal :=
  let sequence := (wal.sequence + 1) % (u64Max + 1)
  if ok then (.ok (), { entries := wal.entries ++ [⟨sequence, command⟩], sequence := sequence })
  else (.error .io, { wal with sequence := sequence })

/-- The append-only event log. -/
structure EventLog where
  entries : List SequencedEngineEvent
  /-- Number of the last event written. -/
  sequence : ℕ
deriving DecidableEq, Repr

/-- Opens the log over its existing events. -/
def EventLog.open (entries : List SequencedEngineEvent) : EventLog where
  entries := entries
  sequence := lastSeqOrCurrent entries 0

/-- Appends an event under the next number, which is used up only when the write
succeeds. -/
def EventLog.appendNext (log : EventLog) (ok : Bool) (event : Proto.EngineEvent) :
    Except ServerError SequencedEngineEvent × EventLog :=
  let sequenced : SequencedEngineEvent := ⟨min u64Max (log.sequence + 1), event⟩
  if ok then
    (.ok sequenced, { entries := log.entries ++ [sequenced], sequence := sequenced.seq })
  else (.error .io, log)

end CryptoCex.Server
