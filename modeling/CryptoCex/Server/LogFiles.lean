import CryptoCex.Lib.Frames
import CryptoCex.Server.Logs

/-!
# The bytes of the two log files

`wal.rs` and `event_log.rs` write framed records and read them back when the engine is
opened. `Represents` relates the files to the logs of records that the server is
modelled with.

A crash can cut the last frame anywhere. Behind its length the frame is found to be cut
short and is removed. Within its length it is taken for the end of the file: the file
keeps one to three bytes too many, and the next record that is written is lost. The
encodings are parameters, as bincode and JSON are not part of the engine.
-/

namespace CryptoCex.Server

open Frames
open Proto (SequencedEngineEvent)

/-! ## The command log -/

/-- The command log over the bytes of its file. -/
structure WalFile where
  bytes : List UInt8
  sequence : ℕ

namespace WalFile

variable (codec : Codec WalEntry)

/-- The valid entries of a file, and the file without a corrupt tail. -/
def replay (file : List UInt8) : List WalEntry × List UInt8 := Frames.replay .little codec file

/-- Appends a command. It fails when the length of the entry has no four bytes. -/
def append (wal : WalFile) (command : WalCommand) : Except ServerError Unit × WalFile :=
  let sequence := (wal.sequence + 1) % (u64Max + 1)
  let bytes := codec.encode ⟨sequence, command⟩
  if bytes.length < 2 ^ 32 then
    (.ok (), {
      bytes := wal.bytes ++ Endian.put .little bytes.length ++ bytes
      sequence := sequence })
  else (.error .io, { wal with sequence := sequence })

/-- Appends commands, as long as the appends succeed. -/
def appendAll (wal : WalFile) : List WalCommand → Option WalFile
  | [] => some wal
  | command :: commands =>
    match wal.append codec command with
    | (.ok _, wal) => wal.appendAll commands
    | (.error _, _) => none

/-- The file holds the entries of the log. -/
structure Represents (wal : WalFile) (log : Wal) : Prop where
  bytes : wal.bytes = frames .little codec log.entries
  sequence : wal.sequence = log.sequence

end WalFile

/-- Opens the log over an existing file. -/
def WalFile.open (codec : Codec WalEntry) (file : List UInt8) : WalFile where
  bytes := (WalFile.replay codec file).2
  sequence := Wal.findLastSeq (WalFile.replay codec file).1

/-- The entries of commands with consecutive numbers after `seq`. -/
def numberCommands (seq : ℕ) : List WalCommand → List WalEntry
  | [] => []
  | command :: commands => ⟨seq + 1, command⟩ :: numberCommands (seq + 1) commands

/-- Commands that are appended after the file was opened are read back behind the
entries, with consecutive numbers. -/
def WalFile.Recovers (codec : Codec WalEntry) (entries : List WalEntry) (torn : List UInt8) :
    Prop :=
  ∀ commands, Wal.findLastSeq entries + commands.length ≤ u64Max →
    (∀ entry ∈ numberCommands (Wal.findLastSeq entries) commands, codec.Fits entry) →
    ∃ wal, (WalFile.open codec (frames .little codec entries ++ torn)).appendAll codec commands =
        some wal ∧
      (WalFile.replay codec wal.bytes).1 =
        entries ++ numberCommands (Wal.findLastSeq entries) commands

namespace WalFile

variable {codec : Codec WalEntry} {entries : List WalEntry} {torn : List UInt8} {wal : WalFile}
  {log : Wal}

/-- A file without a begun length opens as the log of its entries. -/
theorem represents_open (h : ∀ entry ∈ entries, codec.Fits entry)
    (htorn : torn = [] ∨ readOne .little codec torn = .corrupt) :
    Represents codec (WalFile.open codec (frames .little codec entries ++ torn))
      (Wal.open entries) := by
  have hreplay : replay codec (frames .little codec entries ++ torn) =
      (entries, frames .little codec entries) := by
    rcases htorn with rfl | hcorrupt
    · rw [List.append_nil]
      exact replay_frames h
    · exact replay_frames_corrupt h hcorrupt
  constructor
  · simp only [WalFile.open, hreplay, Wal.open]
  · simp only [WalFile.open, hreplay, Wal.open]

/-- Appending to the file represents appending to the log. -/
theorem Represents.append (h : Represents codec wal log) {command : WalCommand}
    (hfits : codec.Fits ⟨(log.sequence + 1) % (u64Max + 1), command⟩) :
    ∃ wal', wal.append codec command = (.ok (), wal') ∧
      Represents codec wal' (log.append true command).2 := by
  rw [← h.sequence] at hfits
  refine ⟨_, by simp only [WalFile.append, if_pos hfits.short]; rfl, ?_, ?_⟩
  · simp only [Wal.append, if_true, frames_append, h.bytes, h.sequence, List.append_assoc]
    simp only [frames_cons, frames_nil, List.append_nil, frame]
  · simp only [Wal.append, if_true, h.sequence]

/-- Appends keep to the log of entries. -/
theorem Represents.appendAll (h : Represents codec wal log) {commands : List WalCommand}
    (hseq : log.sequence + commands.length ≤ u64Max)
    (hfits : ∀ entry ∈ numberCommands log.sequence commands, codec.Fits entry) :
    ∃ wal', wal.appendAll codec commands = some wal' ∧
      wal'.bytes =
        frames .little codec (log.entries ++ numberCommands log.sequence commands) := by
  induction commands generalizing wal log with
  | nil =>
    refine ⟨wal, rfl, ?_⟩
    rw [numberCommands, List.append_nil]
    exact h.bytes
  | cons command commands ih =>
    -- the counter does not wrap before the last append
    have hnext : (log.sequence + 1) % (u64Max + 1) = log.sequence + 1 := by
      refine Nat.mod_eq_of_lt ?_
      rw [List.length_cons] at hseq
      omega
    have hentry := hfits _ List.mem_cons_self
    rcases h.append (by rw [hnext]; exact hentry) with ⟨wal₁, happend, h₁⟩
    have hlog : (log.append true command).2 =
        ⟨log.entries ++ [⟨log.sequence + 1, command⟩], log.sequence + 1⟩ := by
      simp only [Wal.append, if_true, hnext]
    rw [hlog] at h₁
    rcases ih h₁ (by rw [List.length_cons] at hseq; dsimp only; omega)
      (fun entry hentry => hfits entry (List.mem_cons_of_mem _ hentry)) with ⟨wal', hall, hbytes⟩
    refine ⟨wal', ?_, ?_⟩
    · simp only [WalFile.appendAll, happend]
      exact hall
    · rw [hbytes, List.append_assoc]
      rfl

/-- Without a begun length, commands are recovered. -/
theorem recovers_of_clean (h : ∀ entry ∈ entries, codec.Fits entry)
    (htorn : torn = [] ∨ readOne .little codec torn = .corrupt) :
    Recovers codec entries torn := by
  intro commands hseq hfits
  rcases (represents_open h htorn).appendAll hseq hfits with ⟨wal, hall, hbytes⟩
  refine ⟨wal, hall, ?_⟩
  rw [WalFile.replay, hbytes, replay_frames]
  · rfl
  · intro entry hentry
    exact (List.mem_append.mp hentry).elim (h entry) (hfits entry)

/-- Behind a begun length a short entry is lost. -/
theorem not_recovers_of_begun (h : ∀ entry ∈ entries, codec.Fits entry) (hbegun : torn ≠ [])
    (hlen : torn.length < 4) {command : WalCommand}
    (hseq : Wal.findLastSeq entries + 1 ≤ u64Max)
    (hfits : codec.Fits ⟨Wal.findLastSeq entries + 1, command⟩)
    (hpos : 1 ≤ (codec.encode ⟨Wal.findLastSeq entries + 1, command⟩).length)
    (hshort : (codec.encode ⟨Wal.findLastSeq entries + 1, command⟩).length < 256) :
    ¬ Recovers codec entries torn := by
  intro hrecovers
  rcases hrecovers [command] hseq (by simpa [numberCommands] using hfits) with
    ⟨wal, hall, hreplay⟩
  have hopen : WalFile.open codec (frames .little codec entries ++ torn) =
      ⟨frames .little codec entries ++ torn, Wal.findLastSeq entries⟩ := by
    simp only [WalFile.open, replay, replay_frames_short h hlen]
  have hnext : (Wal.findLastSeq entries + 1) % (u64Max + 1) = Wal.findLastSeq entries + 1 :=
    Nat.mod_eq_of_lt (by omega)
  have hbytes : wal.bytes = frames .little codec entries ++
      (torn ++ frame .little codec ⟨Wal.findLastSeq entries + 1, command⟩) := by
    rw [hopen] at hall
    simp only [appendAll, append, hnext, if_pos hfits.short] at hall
    cases hall
    simp only [frame, List.append_assoc]
  rw [hbytes, replay, replay_frames_corrupt h
    (readOne_little_displaced hbegun hlen hpos hshort)] at hreplay
  exact absurd (List.self_eq_append_right.mp hreplay) (List.cons_ne_nil _ _)

end WalFile

/-! ## The event log -/

/-- The event log over the bytes of its file. -/
structure EventLogFile where
  bytes : List UInt8
  sequence : ℕ

namespace EventLogFile

variable (codec : Codec SequencedEngineEvent)

/-- The valid events of a file, and the file without a corrupt tail. -/
def replay (file : List UInt8) : List SequencedEngineEvent × List UInt8 :=
  Frames.replay .big codec file

/-- Appends an event under the next number, which is used up only when the append
succeeds. -/
def appendNext (log : EventLogFile) (event : Proto.EngineEvent) :
    Except ServerError SequencedEngineEvent × EventLogFile :=
  let sequenced : SequencedEngineEvent := ⟨min u64Max (log.sequence + 1), event⟩
  let payload := codec.encode sequenced
  if payload.length < 2 ^ 32 then
    (.ok sequenced, {
      bytes := log.bytes ++ Endian.put .big payload.length ++ payload
      sequence := sequenced.seq })
  else (.error .io, log)

/-- Appends events, as long as the appends succeed. -/
def appendAll (log : EventLogFile) : List Proto.EngineEvent → Option EventLogFile
  | [] => some log
  | event :: events =>
    match log.appendNext codec event with
    | (.ok _, log) => log.appendAll events
    | (.error _, _) => none

/-- The file holds the events of the log. -/
structure Represents (file : EventLogFile) (log : EventLog) : Prop where
  bytes : file.bytes = frames .big codec log.entries
  sequence : file.sequence = log.sequence

end EventLogFile

/-- Opens the log over an existing file. -/
def EventLogFile.open (codec : Codec SequencedEngineEvent) (file : List UInt8) : EventLogFile where
  bytes := (EventLogFile.replay codec file).2
  sequence := lastSeqOrCurrent (EventLogFile.replay codec file).1 0

/-- Events with consecutive numbers after `seq`. -/
def numberEvents (seq : ℕ) : List Proto.EngineEvent → List SequencedEngineEvent
  | [] => []
  | event :: events => ⟨seq + 1, event⟩ :: numberEvents (seq + 1) events

/-- Events that are appended after the file was opened are read back behind those
before, with consecutive numbers. -/
def EventLogFile.Recovers (codec : Codec SequencedEngineEvent)
    (entries : List SequencedEngineEvent) (torn : List UInt8) : Prop :=
  ∀ events, lastSeqOrCurrent entries 0 + events.length ≤ u64Max →
    (∀ event ∈ numberEvents (lastSeqOrCurrent entries 0) events, codec.Fits event) →
    ∃ log, (EventLogFile.open codec (frames .big codec entries ++ torn)).appendAll codec events =
        some log ∧
      (EventLogFile.replay codec log.bytes).1 =
        entries ++ numberEvents (lastSeqOrCurrent entries 0) events

namespace EventLogFile

variable {codec : Codec SequencedEngineEvent} {entries : List SequencedEngineEvent}
  {torn : List UInt8} {file : EventLogFile} {log : EventLog}

/-- A file without a begun length opens as the log of its events. -/
theorem represents_open (h : ∀ event ∈ entries, codec.Fits event)
    (htorn : torn = [] ∨ readOne .big codec torn = .corrupt) :
    Represents codec (EventLogFile.open codec (frames .big codec entries ++ torn))
      (EventLog.open entries) := by
  have hreplay : replay codec (frames .big codec entries ++ torn) =
      (entries, frames .big codec entries) := by
    rcases htorn with rfl | hcorrupt
    · rw [List.append_nil]
      exact replay_frames h
    · exact replay_frames_corrupt h hcorrupt
  constructor
  · simp only [EventLogFile.open, hreplay, EventLog.open]
  · simp only [EventLogFile.open, hreplay, EventLog.open]

/-- The same for the event log. -/
theorem Represents.appendNext (h : Represents codec file log) {event : Proto.EngineEvent}
    (hfits : codec.Fits ⟨min u64Max (log.sequence + 1), event⟩) :
    ∃ file', file.appendNext codec event =
        (.ok ⟨min u64Max (log.sequence + 1), event⟩, file') ∧
      Represents codec file' (log.appendNext true event).2 := by
  refine ⟨_, by simp only [EventLogFile.appendNext, h.sequence, if_pos hfits.short]; rfl, ?_, ?_⟩
  · simp only [EventLog.appendNext, if_true, frames_append, h.bytes, List.append_assoc]
    simp only [frames_cons, frames_nil, List.append_nil, frame]
  · simp only [EventLog.appendNext, if_true]

/-- Appends keep to the log of events. -/
theorem Represents.appendAll (h : Represents codec file log) {events : List Proto.EngineEvent}
    (hseq : log.sequence + events.length ≤ u64Max)
    (hfits : ∀ event ∈ numberEvents log.sequence events, codec.Fits event) :
    ∃ file', file.appendAll codec events = some file' ∧
      file'.bytes = frames .big codec (log.entries ++ numberEvents log.sequence events) := by
  induction events generalizing file log with
  | nil =>
    refine ⟨file, rfl, ?_⟩
    rw [numberEvents, List.append_nil]
    exact h.bytes
  | cons event events ih =>
    have hnext : min u64Max (log.sequence + 1) = log.sequence + 1 := by
      refine Nat.min_eq_right ?_
      rw [List.length_cons] at hseq
      omega
    have hentry := hfits _ List.mem_cons_self
    rcases h.appendNext (by rw [hnext]; exact hentry) with ⟨file₁, happend, h₁⟩
    have hlog : (log.appendNext true event).2 =
        ⟨log.entries ++ [⟨log.sequence + 1, event⟩], log.sequence + 1⟩ := by
      simp only [EventLog.appendNext, if_true, hnext]
    rw [hlog] at h₁
    rcases ih h₁ (by rw [List.length_cons] at hseq; dsimp only; omega)
      (fun event hevent => hfits event (List.mem_cons_of_mem _ hevent)) with ⟨file', hall, hbytes⟩
    refine ⟨file', ?_, ?_⟩
    · simp only [EventLogFile.appendAll, happend]
      exact hall
    · rw [hbytes, List.append_assoc]
      rfl

/-- Without a begun length, events are recovered. -/
theorem recovers_of_clean (h : ∀ event ∈ entries, codec.Fits event)
    (htorn : torn = [] ∨ readOne .big codec torn = .corrupt) : Recovers codec entries torn := by
  intro events hseq hfits
  rcases (represents_open h htorn).appendAll hseq hfits with ⟨file, hall, hbytes⟩
  refine ⟨file, hall, ?_⟩
  rw [EventLogFile.replay, hbytes, replay_frames]
  · rfl
  · intro event hevent
    exact (List.mem_append.mp hevent).elim (h event) (hfits event)

/-- Behind a begun length a short event is lost. -/
theorem not_recovers_of_begun (h : ∀ event ∈ entries, codec.Fits event) (hbegun : torn ≠ [])
    (hlen : torn.length < 4) {event : Proto.EngineEvent}
    (hseq : lastSeqOrCurrent entries 0 + 1 ≤ u64Max)
    (hfits : codec.Fits ⟨lastSeqOrCurrent entries 0 + 1, event⟩) (hempty : codec.decode [] = none)
    (hshort : (codec.encode ⟨lastSeqOrCurrent entries 0 + 1, event⟩).length < 253) :
    ¬ Recovers codec entries torn := by
  intro hrecovers
  rcases hrecovers [event] hseq (by simpa [numberEvents] using hfits) with ⟨file, hall, hreplay⟩
  have hopen : EventLogFile.open codec (frames .big codec entries ++ torn) =
      ⟨frames .big codec entries ++ torn, lastSeqOrCurrent entries 0⟩ := by
    simp only [EventLogFile.open, replay, replay_frames_short h hlen]
  have hnext : min u64Max (lastSeqOrCurrent entries 0 + 1) = lastSeqOrCurrent entries 0 + 1 :=
    Nat.min_eq_right hseq
  have hbytes : file.bytes = frames .big codec entries ++
      (torn ++ frame .big codec ⟨lastSeqOrCurrent entries 0 + 1, event⟩) := by
    rw [hopen] at hall
    simp only [appendAll, appendNext, hnext, if_pos hfits.short] at hall
    cases hall
    simp only [frame, List.append_assoc]
  rw [hbytes, replay, replay_frames_corrupt h
    (readOne_big_displaced hbegun hlen hempty hshort)] at hreplay
  exact absurd (List.self_eq_append_right.mp hreplay) (List.cons_ne_nil _ _)

end EventLogFile

/-! ## Both logs -/

/-- A write was torn within the length of its frame, and there is a number left for one
more record. -/
def BegunLength (torn : List UInt8) (lastSeq : ℕ) : Prop :=
  torn ≠ [] ∧ torn.length < 4 ∧ lastSeq + 1 ≤ u64Max

instance (torn : List UInt8) (lastSeq : ℕ) : Decidable (BegunLength torn lastSeq) :=
  inferInstanceAs (Decidable (torn ≠ [] ∧ torn.length < 4 ∧ lastSeq + 1 ≤ u64Max))

/-- Unless a length was begun, the tail is empty or corrupt, or no record can follow. -/
theorem clean_of_not_begun {α : Type*} {e : Endian} {codec : Codec α} {last : α}
    {torn : List UInt8} {lastSeq : ℕ} (hlast : codec.Fits last)
    (htorn : torn <+: frame e codec last) (hproper : torn.length < (frame e codec last).length)
    (h : ¬ BegunLength torn lastSeq) :
    (torn = [] ∨ readOne e codec torn = .corrupt) ∨ (torn.length < 4 ∧ u64Max ≤ lastSeq) := by
  by_cases hnil : torn = []
  · exact Or.inl (Or.inl hnil)
  · by_cases hlen : torn.length < 4
    · refine Or.inr ⟨hlen, ?_⟩
      by_contra hseq
      exact h ⟨hnil, hlen, by omega⟩
    · exact Or.inl (Or.inr (readOne_torn hlast htorn hproper (Nat.not_lt.mp hlen)))

/-- A command log that ends in a torn record recovers exactly if the tear is not within a length. -/
theorem WalFile.recovers_iff {codec : Codec WalEntry} {entries : List WalEntry} {last : WalEntry}
    {torn : List UInt8} (h : ∀ entry ∈ entries, codec.Fits entry) (hlast : codec.Fits last)
    (htorn : torn <+: frame .little codec last)
    (hproper : torn.length < (frame .little codec last).length)
    (hshort : ∃ command, codec.Fits ⟨Wal.findLastSeq entries + 1, command⟩ ∧
      1 ≤ (codec.encode ⟨Wal.findLastSeq entries + 1, command⟩).length ∧
      (codec.encode ⟨Wal.findLastSeq entries + 1, command⟩).length < 256) :
    WalFile.Recovers codec entries torn ↔ ¬ BegunLength torn (Wal.findLastSeq entries) := by
  constructor
  · rintro hrecovers ⟨hbegun, hlen, hseq⟩
    rcases hshort with ⟨command, hfits, hpos, hlt⟩
    exact not_recovers_of_begun h hbegun hlen hseq hfits hpos hlt hrecovers
  · intro hnot
    rcases clean_of_not_begun hlast htorn hproper hnot with hclean | ⟨hlen, hfull⟩
    · exact recovers_of_clean h hclean
    · -- no number is left, so nothing is appended behind the begun length
      intro commands hseq _
      have hnone : commands = [] := List.length_eq_zero_iff.mp (by omega)
      subst hnone
      refine ⟨_, rfl, ?_⟩
      rw [numberCommands, List.append_nil]
      simp only [WalFile.open, replay, replay_frames_short h hlen]

/-- The same for the event log. -/
theorem EventLogFile.recovers_iff {codec : Codec SequencedEngineEvent}
    {entries : List SequencedEngineEvent} {last : SequencedEngineEvent} {torn : List UInt8}
    (h : ∀ event ∈ entries, codec.Fits event) (hlast : codec.Fits last)
    (htorn : torn <+: frame .big codec last)
    (hproper : torn.length < (frame .big codec last).length) (hempty : codec.decode [] = none)
    (hshort : ∃ event, codec.Fits ⟨lastSeqOrCurrent entries 0 + 1, event⟩ ∧
      (codec.encode ⟨lastSeqOrCurrent entries 0 + 1, event⟩).length < 253) :
    EventLogFile.Recovers codec entries torn ↔
      ¬ BegunLength torn (lastSeqOrCurrent entries 0) := by
  constructor
  · rintro hrecovers ⟨hbegun, hlen, hseq⟩
    rcases hshort with ⟨event, hfits, hlt⟩
    exact not_recovers_of_begun h hbegun hlen hseq hfits hempty hlt hrecovers
  · intro hnot
    rcases clean_of_not_begun hlast htorn hproper hnot with hclean | ⟨hlen, hfull⟩
    · exact recovers_of_clean h hclean
    · intro events hseq _
      have hnone : events = [] := List.length_eq_zero_iff.mp (by omega)
      subst hnone
      refine ⟨_, rfl, ?_⟩
      rw [numberEvents, List.append_nil]
      simp only [EventLogFile.open, replay, replay_frames_short h hlen]

/-- For every file of whole frames and a torn one, the log recovers if and only if the
write was not torn within a length. Some next entry has an encoding of fewer than 256
bytes (a cancel has 36), some next event one of fewer than 253 (a market status has about
80), and no bytes at all are not an event. -/
theorem logs_recover_iff (walCodec : Codec WalEntry) (eventCodec : Codec SequencedEngineEvent) :
    (∀ (entries : List WalEntry) (last : WalEntry) (torn : List UInt8),
      (∀ entry ∈ entries, walCodec.Fits entry) → walCodec.Fits last →
      torn <+: frame .little walCodec last → torn.length < (frame .little walCodec last).length →
      (∃ command, walCodec.Fits ⟨Wal.findLastSeq entries + 1, command⟩ ∧
        1 ≤ (walCodec.encode ⟨Wal.findLastSeq entries + 1, command⟩).length ∧
        (walCodec.encode ⟨Wal.findLastSeq entries + 1, command⟩).length < 256) →
      (WalFile.Recovers walCodec entries torn ↔
        ¬ BegunLength torn (Wal.findLastSeq entries))) ∧
    (∀ (entries : List SequencedEngineEvent) (last : SequencedEngineEvent) (torn : List UInt8),
      (∀ event ∈ entries, eventCodec.Fits event) → eventCodec.Fits last →
      torn <+: frame .big eventCodec last → torn.length < (frame .big eventCodec last).length →
      eventCodec.decode [] = none →
      (∃ event, eventCodec.Fits ⟨lastSeqOrCurrent entries 0 + 1, event⟩ ∧
        (eventCodec.encode ⟨lastSeqOrCurrent entries 0 + 1, event⟩).length < 253) →
      (EventLogFile.Recovers eventCodec entries torn ↔
        ¬ BegunLength torn (lastSeqOrCurrent entries 0))) := by
  constructor
  · intro entries last torn h hlast htorn hproper hshort
    exact WalFile.recovers_iff h hlast htorn hproper hshort
  · intro entries last torn h hlast htorn hproper hempty hshort
    exact EventLogFile.recovers_iff h hlast htorn hproper hempty hshort

/-! ## Sample encodings -/

/-- The bytes bincode gives for cancels: the number in eight bytes, the variant in four,
then the id as sixteen bytes behind their count. Placed orders are left out. -/
def bincodeCancels : Codec WalEntry where
  encode := fun entry => match entry.command with
    | .cancelOrder orderId =>
      digits 8 entry.seq ++ digits 4 1 ++ digits 8 16 ++ (digits 16 orderId).reverse
    | .placeOrder _ => []
  decode := fun bytes =>
    if bytes.length = 36 ∧ (bytes.drop 8).take 12 = digits 4 1 ++ digits 8 16 then
      some ⟨digitsValue (bytes.take 8), .cancelOrder (digitsValue (bytes.drop 20).reverse)⟩
    else none

/-- The bytes of an ASCII text. -/
def asciiBytes (text : String) : List UInt8 := text.toList.map fun ch => .ofNat ch.toNat

/-- The JSON text of a market status of BTCUSDT, as serde_json writes it. -/
def marketStatusJson (seq status : String) : String :=
  "\x7b\"seq\":" ++ seq ++ ",\"event\":\x7b\"type\":\"marketStatus\",\"symbol\":\"BTCUSDT\"," ++
    "\"status\":\"" ++ status ++ "\"\x7d\x7d"

/-- The halt and the resumption of BTCUSDT as the first two events. -/
def haltThenResume : List SequencedEngineEvent :=
  [⟨1, .marketStatus "BTCUSDT" .halted⟩, ⟨2, .marketStatus "BTCUSDT" .trading⟩]

/-- The JSON texts of `haltThenResume`. -/
def jsonStatuses : Codec SequencedEngineEvent where
  encode := fun event =>
    if event = ⟨1, .marketStatus "BTCUSDT" .halted⟩ then
      asciiBytes (marketStatusJson "1" "halted")
    else if event = ⟨2, .marketStatus "BTCUSDT" .trading⟩ then
      asciiBytes (marketStatusJson "2" "trading")
    else []
  decode := fun bytes =>
    if bytes = asciiBytes (marketStatusJson "1" "halted") then
      some ⟨1, .marketStatus "BTCUSDT" .halted⟩
    else if bytes = asciiBytes (marketStatusJson "2" "trading") then
      some ⟨2, .marketStatus "BTCUSDT" .trading⟩
    else none

theorem fits_bincodeCancels : bincodeCancels.Fits ⟨1, .cancelOrder 7⟩ ∧
    bincodeCancels.Fits ⟨2, .cancelOrder 8⟩ :=
  ⟨⟨by decide +kernel, by decide +kernel⟩, ⟨by decide +kernel, by decide +kernel⟩⟩

theorem fits_jsonStatuses : ∀ event ∈ haltThenResume, jsonStatuses.Fits event := by
  intro event hevent
  rcases List.mem_pair.mp hevent with rfl | rfl
  · exact ⟨by decide +kernel, by decide +kernel⟩
  · exact ⟨by decide +kernel, by decide +kernel⟩

/-- Two bytes of the second cancel's length are left behind the first cancel. The next
cancel is written and not read back. -/
theorem begun_length_loses_append :
    (∀ entry ∈ [(⟨1, .cancelOrder 7⟩ : WalEntry), ⟨2, .cancelOrder 8⟩],
        bincodeCancels.Fits entry) ∧
      ¬ WalFile.Recovers bincodeCancels [⟨1, .cancelOrder 7⟩]
        ((frame .little bincodeCancels ⟨2, .cancelOrder 8⟩).take 2) := by
  constructor
  · intro entry hentry
    rcases List.mem_pair.mp hentry with rfl | rfl
    · exact fits_bincodeCancels.1
    · exact fits_bincodeCancels.2
  · refine WalFile.not_recovers_of_begun ?_ (by decide) (by decide)
      (by decide) fits_bincodeCancels.2 (by decide) (by decide)
    intro entry hentry
    rw [List.mem_singleton.mp hentry]
    exact fits_bincodeCancels.1

/-- Twenty bytes of the second record are left behind the first one: both logs recover. -/
theorem logs_recover_torn_payload :
    WalFile.Recovers bincodeCancels [⟨1, .cancelOrder 7⟩]
        ((frame .little bincodeCancels ⟨2, .cancelOrder 8⟩).take 20) ∧
      EventLogFile.Recovers jsonStatuses [⟨1, .marketStatus "BTCUSDT" .halted⟩]
        ((frame .big jsonStatuses ⟨2, .marketStatus "BTCUSDT" .trading⟩).take 20) := by
  constructor
  · refine ((logs_recover_iff bincodeCancels jsonStatuses).1 [⟨1, .cancelOrder 7⟩]
      ⟨2, .cancelOrder 8⟩ _ ?_
      fits_bincodeCancels.2 (List.take_prefix _ _) (by decide)
      ⟨.cancelOrder 8, fits_bincodeCancels.2, by decide, by decide⟩).mpr (by decide)
    intro entry hentry
    rw [List.mem_singleton.mp hentry]
    exact fits_bincodeCancels.1
  · have hlast := fits_jsonStatuses ⟨2, .marketStatus "BTCUSDT" .trading⟩ (by decide)
    refine ((logs_recover_iff bincodeCancels jsonStatuses).2
      [⟨1, .marketStatus "BTCUSDT" .halted⟩]
      ⟨2, .marketStatus "BTCUSDT" .trading⟩ _ ?_ hlast (List.take_prefix _ _)
      (by decide +kernel) (by decide +kernel)
      ⟨.marketStatus "BTCUSDT" .trading, hlast, by decide +kernel⟩).mpr (by decide +kernel)
    intro event hevent
    rw [List.mem_singleton.mp hevent]
    exact fits_jsonStatuses _ (by decide)

end CryptoCex.Server
