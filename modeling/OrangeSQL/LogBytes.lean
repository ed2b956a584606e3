import OrangeSQL.LogBuffering

/-! The write buffer of the log manager as bytes. Records are serialized behind one another into a
block of memory of fixed size; a flush hands the bytes in front of `bufferPos` to the log file,
which only receives. Room is asked for with one size and used with another. -/
namespace OrangeSQL

open Bytes

/-- The parts of the log manager that an append and a flush touch. Bytes of `writeBuffer` at and
behind `bufferPos` are left over from earlier rounds. -/
structure LogWriter where
  mode : LogMode
  currentLsn : LogSequenceNumber
  logBuffer : Finmap (fun _ : LogSequenceNumber => LogRecord)
  lastTxLsn : Finmap (fun _ : TransactionId => LogSequenceNumber)
  writeBuffer : ℕ → UInt8
  bufferPos : ℕ
  logFile : List UInt8

namespace LogWriter

open LogManager (serializeRecord recordSize writeBufferSize)

def flushBuffer (w : LogWriter) : LogWriter :=
  if 0 < w.bufferPos then
    { w with
      logFile := w.logFile++readMem w.writeBuffer 0 w.bufferPos
      bufferPos := 0 }
  else w

def flush (w : LogWriter) (_lsn : LogSequenceNumber) : LogWriter :=
  if 0 < w.bufferPos then w.flushBuffer else w

def flushAll (w : LogWriter) : LogWriter := w.flush w.currentLsn

def stamp (w : LogWriter) (r : LogRecord) (now : ℤ) : LogRecord :=
  { r with
    lsn := w.currentLsn
    timestamp := now
    prevLsn := (w.lastTxLsn.lookup r.transactionId).getD r.prevLsn }

def appendLogRecord (w : LogWriter) (r : LogRecord) (now : ℤ) : LogSequenceNumber × LogWriter :=
  let lsn := w.currentLsn
  let copy := w.stamp r now
  let w := { w with
    currentLsn := lsn+1
    lastTxLsn := w.lastTxLsn.insert r.transactionId lsn
    logBuffer := w.logBuffer.insert lsn copy }
  if w.mode ≠ .noLog then
    let w := if writeBufferSize < w.bufferPos+(recordSize+r.dataLength.toNat) then w.flushBuffer
      else w
    let bytes := serializeRecord copy
    (lsn,{ w with
      writeBuffer := writeMem w.writeBuffer w.bufferPos bytes
      bufferPos := w.bufferPos+bytes.length })
  else (lsn,w)

def appendFields (w : LogWriter) (type : LogRecordType) (tx : TransactionId) (pid : PageId)
    (data : Option (List UInt8)) (now : ℤ) : LogSequenceNumber × LogWriter :=
  w.appendLogRecord (LogManager.makeRecord type tx pid data) now

def setLogMode (w : LogWriter) (mode : LogMode) : LogWriter := { w with mode := mode }

/-- A call by some client, or by the thread that syncs in the background. -/
inductive Call
  | append (r : LogRecord) (now : ℤ)
  | appendFields (type : LogRecordType) (tx : TransactionId) (pid : PageId)
      (data : Option (List UInt8)) (now : ℤ)
  | flush (lsn : LogSequenceNumber)
  | flushAll
  | setLogMode (mode : LogMode)

namespace Call

def run (w : LogWriter) : Call → LogWriter
  | .append r now => (w.appendLogRecord r now).2
  | .appendFields type tx pid data now => (w.appendFields type tx pid data now).2
  | .flush lsn => w.flush lsn
  | .flushAll => w.flushAll
  | .setLogMode mode => w.setLogMode mode

/-- The record that the call adds to the log. -/
def record (w : LogWriter) : Call → Option LogRecord
  | .append r now => some (w.stamp r now)
  | .appendFields type tx pid data now =>
    some (w.stamp (LogManager.makeRecord type tx pid data) now)
  | .flush _ | .flushAll | .setLogMode _ => none

end Call

def runCalls (w : LogWriter) (calls : List Call) : LogWriter := calls.foldl Call.run w

/-- The records that the calls append, in the order of the calls. -/
def appended (w : LogWriter) : List Call → List LogRecord
  | [] => []
  | c::calls => (c.record w).toList++appended (c.run w) calls

/-- The state in which the record has its number but is not serialized yet. -/
def numbered (w : LogWriter) (r : LogRecord) (now : ℤ) : LogWriter :=
  { w with
    currentLsn := w.currentLsn+1
    lastTxLsn := w.lastTxLsn.insert r.transactionId w.currentLsn
    logBuffer := w.logBuffer.insert w.currentLsn (w.stamp r now) }

def push (w : LogWriter) (r : LogRecord) : LogWriter :=
  { w with
    writeBuffer := writeMem w.writeBuffer w.bufferPos (serializeRecord r)
    bufferPos := w.bufferPos+(serializeRecord r).length }

theorem appendLogRecord_eq (w : LogWriter) (hmode : w.mode ≠ .noLog) (r : LogRecord) (now : ℤ) :
    (w.appendLogRecord r now).2 =
      (if writeBufferSize < w.bufferPos+(recordSize+r.dataLength.toNat)
        then (w.numbered r now).flushBuffer else w.numbered r now).push (w.stamp r now) := by
  unfold appendLogRecord
  rw [if_pos hmode]
  rfl

/-- The same two states of the manager that keeps records. -/
def managerNumbered (m : LogManager) (r : LogRecord) (now : ℤ) : LogManager :=
  { m with
    currentLsn := m.currentLsn+1
    lastTxLsn := m.lastTxLsn.insert r.transactionId m.currentLsn
    logBuffer := m.logBuffer.insert m.currentLsn (m.stamp r now) }

def managerPush (m : LogManager) (r : LogRecord) : LogManager :=
  { m with writeBuffer := m.writeBuffer++[r] }

theorem manager_appendLogRecord_eq (m : LogManager) (hmode : m.mode ≠ .noLog) (r : LogRecord)
    (now : ℤ) :
    (m.appendLogRecord r now).2 =
      managerPush (if writeBufferSize < m.bufferPos+(recordSize+r.dataLength.toNat)
        then (managerNumbered m r now).flushBuffer else managerNumbered m r now)
        (m.stamp r now) := by
  unfold LogManager.appendLogRecord
  rw [if_pos hmode]
  rfl

/-- The call on the manager that keeps records where the writer keeps bytes. -/
def Call.onManager (m : LogManager) : Call → LogManager
  | .append r now => (m.appendLogRecord r now).2
  | .appendFields type tx pid data now => (m.appendFields type tx pid data now).2
  | .flush lsn => m.flush lsn
  | .flushAll => m.flushAll
  | .setLogMode mode => { m with mode := mode }

/-- The bytes in front of `bufferPos` are those of the buffered records, the file has received
those of the flushed ones, and the buffer is not overrun. -/
structure Implements (w : LogWriter) (m : LogManager) : Prop where
  mode : w.mode = m.mode
  currentLsn : w.currentLsn = m.currentLsn
  logBuffer : w.logBuffer = m.logBuffer
  lastTxLsn : w.lastTxLsn = m.lastTxLsn
  pos : w.bufferPos = m.bufferPos
  bytes : readMem w.writeBuffer 0 w.bufferPos = m.writeBuffer.flatMap serializeRecord
  file : w.logFile = m.flushed.flatMap serializeRecord
  room : w.bufferPos ≤ writeBufferSize

theorem flush_eq (w : LogWriter) (lsn : LogSequenceNumber) : w.flush lsn = w.flushBuffer := by
  unfold flush flushBuffer
  split_ifs <;> rfl

theorem length_serializeRecord_le (r : LogRecord) :
    (serializeRecord r).length+14 ≤ recordSize+r.dataLength.toNat := by
  have hpayload : r.payload.length ≤ r.dataLength.toNat := List.length_take_le _ _
  rw [LogManager.serializeRecord_length,recordSize]
  omega

theorem length_serializeRecord_le_size (r : LogRecord) :
    (serializeRecord r).length ≤ writeBufferSize := by
  have hlen := length_serializeRecord_le r
  have hshort : r.dataLength.toNat < 2^16 := r.dataLength.toNat_lt
  rw [recordSize] at hlen
  rw [writeBufferSize]
  omega

namespace Implements

variable {w : LogWriter} {m : LogManager} (h : Implements w m)
include h

theorem stream :
    w.logFile++readMem w.writeBuffer 0 w.bufferPos =
      (m.flushed++m.writeBuffer).flatMap serializeRecord := by
  rw [h.file,h.bytes,List.flatMap_append]

theorem stamp (r : LogRecord) (now : ℤ) : w.stamp r now = m.stamp r now := by
  simp only [LogWriter.stamp,LogManager.stamp,h.currentLsn,h.lastTxLsn]

theorem flushBuffer : Implements w.flushBuffer m.flushBuffer := by
  by_cases hpos : 0 < m.bufferPos
  · have hw : w.flushBuffer = { w with
        logFile := w.logFile++readMem w.writeBuffer 0 w.bufferPos
        bufferPos := 0 } := by
      rw [LogWriter.flushBuffer,h.pos,if_pos hpos]
    have hm : m.flushBuffer = { m with
        logFile := m.logFile.write (m.writeBuffer.flatMap serializeRecord)
        flushed := m.flushed++m.writeBuffer
        writeBuffer := [] } := by
      rw [LogManager.flushBuffer,if_pos hpos]
    rw [hw,hm]
    exact ⟨h.mode,h.currentLsn,h.logBuffer,h.lastTxLsn,rfl,rfl,h.stream,Nat.zero_le _⟩
  · have hw : w.flushBuffer = w := by
      rw [LogWriter.flushBuffer,h.pos,if_neg hpos]
    have hm : m.flushBuffer = m := by
      rw [LogManager.flushBuffer,if_neg hpos]
    rwa [hw,hm]

theorem flush (lsn : LogSequenceNumber) : Implements (w.flush lsn) (m.flush lsn) := by
  rw [LogWriter.flush_eq,LogManager.flush_eq]
  exact h.flushBuffer

theorem numbered (r : LogRecord) (now : ℤ) :
    Implements (w.numbered r now) (managerNumbered m r now) := by
  refine ⟨h.mode,?_,?_,?_,h.pos,h.bytes,h.file,h.room⟩
  · simp only [LogWriter.numbered,managerNumbered,h.currentLsn]
  · simp only [LogWriter.numbered,managerNumbered,h.logBuffer,h.currentLsn,h.stamp]
  · simp only [LogWriter.numbered,managerNumbered,h.lastTxLsn,h.currentLsn]

/-- The record is serialized behind the bytes in the buffer. -/
theorem push {r : LogRecord} (hroom : w.bufferPos+(serializeRecord r).length ≤ writeBufferSize) :
    Implements (w.push r) (managerPush m r) := by
  refine ⟨h.mode,h.currentLsn,h.logBuffer,h.lastTxLsn,?_,?_,h.file,hroom⟩
  · simp [LogWriter.push,managerPush,LogManager.bufferPos,h.pos]
  · simp [LogWriter.push,managerPush,readMem_writeMem_append,h.bytes]

/-- The space check asks for more than the record takes, so the buffer is never overrun; and every
record fits into an empty buffer. -/
theorem append (hmode : w.mode ≠ .noLog) (r : LogRecord) (now : ℤ) :
    Implements (w.appendLogRecord r now).2 (m.appendLogRecord r now).2 := by
  have hmode' : m.mode ≠ .noLog := h.mode ▸ hmode
  have hsize : (serializeRecord (m.stamp r now)).length+14 ≤ recordSize+r.dataLength.toNat :=
    length_serializeRecord_le (m.stamp r now)
  rw [appendLogRecord_eq w hmode,manager_appendLogRecord_eq m hmode',h.pos,h.stamp]
  have hnumbered := h.numbered r now
  split_ifs with hfull
  · have hempty : (w.numbered r now).flushBuffer.bufferPos = 0 := by
      rw [hnumbered.flushBuffer.pos,LogManager.bufferPos_eq_zero]
      exact LogManager.flushBuffer_writeBuffer _
    have hfits := length_serializeRecord_le_size (m.stamp r now)
    exact hnumbered.flushBuffer.push (by omega)
  · have hpos : (w.numbered r now).bufferPos = m.bufferPos := h.pos
    exact hnumbered.push (by omega)

/-- One call at both levels. -/
theorem run (hmode : w.mode ≠ .noLog) (c : Call) : Implements (c.run w) (c.onManager m) := by
  cases c with
  | append r now => exact h.append hmode r now
  | appendFields type tx pid data now => exact h.append hmode _ now
  | flush lsn => exact h.flush lsn
  | flushAll =>
    have hflush := h.flush m.currentLsn
    rw [← h.currentLsn] at hflush
    rw [Call.run,Call.onManager,LogWriter.flushAll,LogManager.flushAll,← h.currentLsn]
    exact hflush
  | setLogMode mode =>
    exact ⟨rfl,h.currentLsn,h.logBuffer,h.lastTxLsn,h.pos,h.bytes,h.file,h.room⟩

/-- No record is lost, doubled or reordered by a call: the flushed records and then the buffered
ones are those of before, with the new one at the end. -/
theorem run_records (hmode : w.mode ≠ .noLog) (c : Call) :
    (c.onManager m).flushed++(c.onManager m).writeBuffer =
      m.flushed++m.writeBuffer++(c.record w).toList := by
  have hmode' : m.mode ≠ .noLog := h.mode ▸ hmode
  have happend : ∀ r now, (m.appendLogRecord r now).2.flushed++
      (m.appendLogRecord r now).2.writeBuffer =
      m.flushed++m.writeBuffer++(some (w.stamp r now)).toList := by
    intro r now
    rw [h.stamp]
    cases hover : m.overflows r with
    | false =>
      obtain ⟨hf,hb⟩ := LogManager.append_of_fits hmode' now hover
      rw [hf,hb,List.append_assoc]
      rfl
    | true =>
      obtain ⟨hf,hb⟩ := LogManager.append_of_overflows hmode' now hover
      rw [hf,hb]
      rfl
  have hflush : ∀ lsn, (m.flush lsn).flushed++(m.flush lsn).writeBuffer =
      m.flushed++m.writeBuffer++(none : Option LogRecord).toList := by
    intro lsn
    rw [LogManager.flush_eq,LogManager.flushBuffer_flushed,LogManager.flushBuffer_writeBuffer]
    rfl
  cases c with
  | append r now => exact happend r now
  | appendFields type tx pid data now => exact happend _ now
  | flush lsn => exact hflush lsn
  | flushAll => exact hflush m.currentLsn
  | setLogMode mode => exact (List.append_nil _).symm

end Implements

/-- The manager that stands for a writer with an empty buffer in front of an empty file. -/
def manager (w : LogWriter) : LogManager :=
  { LogManager.new w.mode with
    currentLsn := w.currentLsn
    logBuffer := w.logBuffer
    lastTxLsn := w.lastTxLsn }

theorem implements_manager {w : LogWriter} (hpos : w.bufferPos = 0) (hfile : w.logFile = []) :
    Implements w w.manager := by
  refine ⟨rfl,rfl,rfl,rfl,hpos,?_,hfile,?_⟩
  · rw [hpos]
    rfl
  · rw [hpos]
    exact Nat.zero_le _

/-- No call of the list turns logging off. -/
def Logging (calls : List Call) : Prop := ∀ mode, Call.setLogMode mode ∈ calls → mode ≠ .noLog

@[simp] theorem flushBuffer_mode (w : LogWriter) : w.flushBuffer.mode = w.mode := by
  unfold flushBuffer; split_ifs <;> rfl
@[simp] theorem flushBuffer_currentLsn (w : LogWriter) :
    w.flushBuffer.currentLsn = w.currentLsn := by unfold flushBuffer; split_ifs <;> rfl
@[simp] theorem flushBuffer_logBuffer (w : LogWriter) :
    w.flushBuffer.logBuffer = w.logBuffer := by unfold flushBuffer; split_ifs <;> rfl

/-- What an append does to the log, apart from the bytes. -/
theorem append_log (w : LogWriter) (r : LogRecord) (now : ℤ) :
    (w.appendLogRecord r now).2.mode = w.mode ∧
    (w.appendLogRecord r now).2.currentLsn = w.currentLsn+1 ∧
    (w.appendLogRecord r now).2.logBuffer = w.logBuffer.insert w.currentLsn (w.stamp r now) := by
  by_cases hmode : w.mode = .noLog
  · simp [appendLogRecord,hmode]
  · rw [appendLogRecord_eq w hmode]
    split_ifs <;> simp [push,numbered]

/-- A call without a record leaves the numbers and the map alone; a record gets the next number and
is put into the map under it. -/
theorem Call.run_log (w : LogWriter) (c : Call) :
    (c.record w = none ∧ (c.run w).currentLsn = w.currentLsn ∧
      (c.run w).logBuffer = w.logBuffer) ∨
    ∃ r, c.record w = some r ∧ r.lsn = w.currentLsn ∧ (c.run w).currentLsn = w.currentLsn+1 ∧
      (c.run w).logBuffer = w.logBuffer.insert w.currentLsn r := by
  cases c with
  | append r now =>
    obtain ⟨_,hlsn,hbuffer⟩ := append_log w r now
    exact Or.inr ⟨_,rfl,rfl,hlsn,hbuffer⟩
  | appendFields type tx pid data now =>
    obtain ⟨_,hlsn,hbuffer⟩ := append_log w (LogManager.makeRecord type tx pid data) now
    exact Or.inr ⟨_,rfl,rfl,hlsn,hbuffer⟩
  | flush lsn => exact Or.inl ⟨rfl,by simp [run,flush_eq],by simp [run,flush_eq]⟩
  | flushAll =>
    exact Or.inl ⟨rfl,by simp [run,LogWriter.flushAll,flush_eq],
      by simp [run,LogWriter.flushAll,flush_eq]⟩
  | setLogMode mode => exact Or.inl ⟨rfl,rfl,rfl⟩

theorem Call.run_mode {w : LogWriter} (hmode : w.mode ≠ .noLog) {c : Call} {calls : List Call}
    (h : Logging (c::calls)) : (c.run w).mode ≠ .noLog := by
  cases c with
  | append r now => rwa [run,(append_log w r now).1]
  | appendFields type tx pid data now => rwa [run,LogWriter.appendFields,(append_log w _ now).1]
  | flush lsn => rwa [run,flush_eq,flushBuffer_mode]
  | flushAll => rwa [run,LogWriter.flushAll,flush_eq,flushBuffer_mode]
  | setLogMode mode => exact h mode List.mem_cons_self

theorem Logging.tail {c : Call} {calls : List Call} (h : Logging (c::calls)) : Logging calls :=
  fun mode hm => h mode (List.mem_cons_of_mem _ hm)

/-- The appended records have consecutive numbers, from the first free one on. -/
theorem appended_lsn (w : LogWriter) (calls : List Call) :
    (appended w calls).map LogRecord.lsn =
      List.range' w.currentLsn (appended w calls).length := by
  induction calls generalizing w with
  | nil => rfl
  | cons c calls ih =>
    have hrest := ih (c.run w)
    rcases Call.run_log w c with ⟨hnone,hlsn,_⟩ | ⟨r,hsome,hr,hlsn,_⟩
    · simpa [appended,hnone,hlsn] using hrest
    · simpa [appended,hsome,hr,hlsn,List.range'_succ] using hrest

theorem runCalls_lookup (w : LogWriter) (calls : List Call) {k : LogSequenceNumber}
    (hk : k < w.currentLsn) : (w.runCalls calls).logBuffer.lookup k = w.logBuffer.lookup k := by
  induction calls generalizing w with
  | nil => rfl
  | cons c calls ih =>
    rw [runCalls,List.foldl_cons,← runCalls]
    rcases Call.run_log w c with ⟨_,hlsn,hbuffer⟩ | ⟨r,_,_,hlsn,hbuffer⟩
    · rw [ih (c.run w) (hlsn ▸ hk),hbuffer]
    · rw [ih (c.run w) (hlsn ▸ Nat.lt_succ_of_lt hk),hbuffer,
        Finmap.lookup_insert_of_ne _ (Nat.ne_of_lt hk)]

/-- The map has every appended record under its number. -/
theorem lookup_of_mem_appended (w : LogWriter) (calls : List Call) {r : LogRecord}
    (hr : r ∈ appended w calls) : (w.runCalls calls).logBuffer.lookup r.lsn = some r := by
  induction calls generalizing w with
  | nil => cases hr
  | cons c calls ih =>
    rw [runCalls,List.foldl_cons,← runCalls]
    rcases List.mem_append.mp hr with hfirst | hrest
    · rcases Call.run_log w c with ⟨hnone,_⟩ | ⟨q,hsome,hq,hlsn,hbuffer⟩
      · simp [hnone] at hfirst
      · obtain rfl : r = q := by simpa [hsome] using hfirst
        have hlt : r.lsn < (c.run w).currentLsn := by
          rw [hq,hlsn]
          exact Nat.lt_succ_self _
        rw [runCalls_lookup _ _ hlt,hbuffer,hq,Finmap.lookup_insert]
    · exact ih (c.run w) hrest

/-- A whole run at both levels, with the records that it adds. -/
theorem Implements.runCalls {w : LogWriter} {m : LogManager} (h : Implements w m)
    (hmode : w.mode ≠ .noLog) {calls : List Call} (hcalls : Logging calls) :
    ∃ m', Implements (w.runCalls calls) m' ∧
      m'.flushed++m'.writeBuffer = m.flushed++m.writeBuffer++appended w calls := by
  induction calls generalizing w m with
  | nil => exact ⟨m,h,(List.append_nil _).symm⟩
  | cons c calls ih =>
    have hmode' := Call.run_mode hmode hcalls
    obtain ⟨m',hm',hrecords⟩ := ih (h.run hmode c) hmode' hcalls.tail
    refine ⟨m',hm',?_⟩
    rw [hrecords,h.run_records hmode c,appended,List.append_assoc]

/-- What the file has received, followed by what is in the buffer, is the log: the bytes of every
appended record, in the order of their numbers. The buffer is never overrun. -/
theorem log_stream_complete (w : LogWriter) (hmode : w.mode ≠ .noLog) (hpos : w.bufferPos = 0)
    (hfile : w.logFile = []) (calls : List Call) (hcalls : Logging calls) :
    let s := w.runCalls calls
    let records := appended w calls
    s.logFile++readMem s.writeBuffer 0 s.bufferPos = records.flatMap serializeRecord ∧
    s.bufferPos ≤ writeBufferSize ∧
    records.map LogRecord.lsn = List.range' w.currentLsn records.length ∧
    ∀ r ∈ records, s.logBuffer.lookup r.lsn = some r := by
  obtain ⟨m,hm,hrecords⟩ := (implements_manager hpos hfile).runCalls hmode hcalls
  refine ⟨?_,hm.room,appended_lsn w calls,fun r hr => lookup_of_mem_appended w calls hr⟩
  rw [hm.stream,hrecords]
  rfl

/-- A log manager with a new file, on which an append, a flush and another append are called. -/
theorem log_stream_complete_two :
    let w : LogWriter := ⟨.normal,1,∅,∅,fun _ => 0,0,[]⟩
    let s := w.runCalls [.appendFields .begin 1 0 none 0,.flush 1,.setLogMode .async,
      .appendFields .checkpoint 0 0 (some [49,0]) 7]
    s.logFile.length = 50 ∧ s.bufferPos = 52 ∧
    s.logFile++readMem s.writeBuffer 0 s.bufferPos =
      (appended w [.appendFields .begin 1 0 none 0,.flush 1,.setLogMode .async,
        .appendFields .checkpoint 0 0 (some [49,0]) 7]).flatMap serializeRecord := by
  refine ⟨by decide +kernel,by decide +kernel,?_⟩
  apply (log_stream_complete ⟨.normal,1,∅,∅,fun _ => 0,0,[]⟩ (by decide) rfl rfl _ ?_).1
  intro mode hmode
  simp at hmode
  simp [hmode]

end LogWriter
end OrangeSQL
