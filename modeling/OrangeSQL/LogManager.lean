import OrangeSQL.Types

/-! The log manager: log records and their byte layout, the write buffer in front of the log file,
and the scan that reads a log file back. The file is one `fstream` with a single position for
reading and writing. -/
namespace OrangeSQL

open Bytes

/-- `unnamed` holds the codes read from a file that stand for no enumerator. -/
inductive LogRecordType
  | begin | commit | abort | checkpoint | savepoint | rollbackSavepoint | insert | update | delete
  | compensation | clr | unnamed (code : ℕ)
  deriving DecidableEq, Repr

namespace LogRecordType

def code : LogRecordType → ℕ
  | .begin => 0 | .commit => 1 | .abort => 2 | .checkpoint => 3 | .savepoint => 4
  | .rollbackSavepoint => 5 | .insert => 6 | .update => 7 | .delete => 8 | .compensation => 9
  | .clr => 10 | .unnamed code => code

def ofCode : ℕ → LogRecordType
  | 0 => .begin | 1 => .commit | 2 => .abort | 3 => .checkpoint | 4 => .savepoint
  | 5 => .rollbackSavepoint | 6 => .insert | 7 => .update | 8 => .delete | 9 => .compensation
  | 10 => .clr | code => .unnamed code

end LogRecordType

/-- A log record. `data` is null or points to at least `dataLength` bytes; `timestamp` counts
nanoseconds. -/
structure LogRecord where
  lsn : LogSequenceNumber
  type : LogRecordType
  transactionId : TransactionId
  pageId : PageId
  pageOffset : UInt32
  dataLength : UInt16
  data : Option (List UInt8)
  timestamp : ℤ
  prevLsn : LogSequenceNumber
  data_ok : ∀ d, data = some d → dataLength.toNat ≤ d.length

namespace LogRecord

/-- The bytes that a reader of the record gets: `dataLength` of them, none if `data` is null. -/
def payload (r : LogRecord) : List UInt8 := (r.data.getD []).take r.dataLength.toNat

/-- `system_clock::to_time_t` cuts a time off to the second. -/
def toTimeT (timestamp : ℤ) : ℤ := timestamp.tdiv 1000000000

/-- A `time_t` is read back from the eight bytes as a signed number. -/
def timeTOfNat (n : ℕ) : ℤ := if n < 2^63 then n else (n : ℤ)-2^64

end LogRecord

inductive LogMode
  | normal | async | noLog
  deriving DecidableEq, Repr

/-- An open log file. -/
structure LogFile where
  content : List UInt8
  pos : ℕ
  deriving DecidableEq, Repr

def LogFile.write (f : LogFile) (bs : List UInt8) : LogFile :=
  ⟨writeAt f.content f.pos bs,f.pos+bs.length⟩

/-- `writeBuffer` lists the records that were serialized into the write buffer since it was last
emptied; `flushed` is the history of the records that were found in the file at the start and
that `flushBuffer` handed to it. -/
structure LogManager where
  mode : LogMode
  currentLsn : LogSequenceNumber
  lastCheckpoint : LogSequenceNumber
  logBuffer : Finmap (fun _ : LogSequenceNumber => LogRecord)
  lastTxLsn : Finmap (fun _ : TransactionId => LogSequenceNumber)
  writeBuffer : List LogRecord
  logFile : LogFile
  flushed : List LogRecord
  syncThread : Bool

namespace LogManager

/-- `sizeof(LogRecord)` and `sizeof(LogFileHeader)`. -/
def recordSize : ℕ := 64
def fileHeaderSize : ℕ := 48
def writeBufferSize : ℕ := 1024*1024

/-- The fixed fields take fifty bytes, the timestamp is cut to seconds, the payload follows. -/
def serializeRecord (r : LogRecord) : List UInt8 :=
  leBytes 8 r.lsn ++ leBytes 4 r.type.code ++ leBytes 8 r.transactionId ++ leBytes 8 r.pageId ++
  leBytes 4 r.pageOffset.toNat ++ leBytes 2 r.dataLength.toNat ++ leBytes 8 r.prevLsn ++
  leBytes 8 (LogRecord.toTimeT r.timestamp % 2^64).toNat ++ r.payload

/-- Nothing is returned when the payload runs past the buffer, where the copy is undefined. -/
def deserializeRecord (buffer : List UInt8) : Option LogRecord :=
  let len := UInt16.ofNat (leNat (slice buffer 32 2))
  if h : 50+len.toNat ≤ buffer.length then
    some {
      lsn := leNat (slice buffer 0 8)
      type := .ofCode (leNat (slice buffer 8 4))
      transactionId := leNat (slice buffer 12 8)
      pageId := leNat (slice buffer 20 8)
      pageOffset := UInt32.ofNat (leNat (slice buffer 28 4))
      dataLength := len
      data := if 0 < len then some (slice buffer 50 len.toNat) else none
      timestamp := LogRecord.timeTOfNat (leNat (slice buffer 42 8))*1000000000
      prevLsn := leNat (slice buffer 34 8)
      data_ok := by
        intro d hd
        split_ifs at hd
        rw [← Option.some.inj hd,slice_length _ _ _ h] }
  else none

/-- The file header. Its checksum and padding, the last eight bytes, are never set. -/
def fileHeader (unset : Fin 8 → UInt8) : List UInt8 :=
  leBytes 4 0x4F524C47 ++ leBytes 4 1 ++ leBytes 8 1 ++ leBytes 8 1 ++ leBytes 8 0 ++
  leBytes 8 pageSize ++ List.ofFn unset

/-- The constructor, after which `setLogMode` may have been called; no file is open yet. -/
def new (mode : LogMode) : LogManager := ⟨mode,1,0,∅,∅,[],⟨[],0⟩,[],false⟩

inductive InitError
  | cannotOpen
  | outOfBounds
  deriving DecidableEq, Repr

/-- The scan keeps a record that has a number. -/
def takeRecord (m : LogManager) (r : LogRecord) : LogManager :=
  if 0 < r.lsn then
    { m with
      currentLsn := r.lsn+1
      logBuffer := m.logBuffer.insert r.lsn r
      flushed := m.flushed++[r] }
  else m

/-- The scan of an existing file: read a record's size in bytes, then skip that and the payload. -/
def scan (m : LogManager) (pos : ℕ) : Except InitError LogManager :=
  if pos+recordSize ≤ m.logFile.content.length then
    match deserializeRecord (slice m.logFile.content pos recordSize) with
    | none => .error .outOfBounds
    | some r =>
      scan { m.takeRecord r with logFile := ⟨m.logFile.content,pos+recordSize⟩ }
        (pos+recordSize+r.dataLength.toNat)
  else .ok m
termination_by m.logFile.content.length-pos
decreasing_by simp only [recordSize] at *; omega

/-- `init` on a log directory: the file, if there is one, and whether one can be created. -/
def init (m : LogManager) (unset : Fin 8 → UInt8) (file : Option (List UInt8)) (creatable : Bool) :
    Except InitError LogManager := do
  let m ← match file with
    | none =>
      if creatable then pure { m with logFile := ⟨fileHeader unset,0⟩ } else throw .cannotOpen
    | some content =>
      let m := { m with logFile := ⟨content,content.length⟩ }
      if fileHeaderSize < content.length then m.scan fileHeaderSize else pure m
  return { m with syncThread := decide (m.mode = .async) }

/-- The number of bytes in the write buffer. -/
def bufferPos (m : LogManager) : ℕ := (m.writeBuffer.map fun r => (serializeRecord r).length).sum

def flushBuffer (m : LogManager) : LogManager :=
  if 0 < m.bufferPos then
    { m with
      logFile := m.logFile.write (m.writeBuffer.flatMap serializeRecord)
      flushed := m.flushed++m.writeBuffer
      writeBuffer := [] }
  else m

/-- Everything in the write buffer is written, whichever number is asked for. -/
def flush (m : LogManager) (_lsn : LogSequenceNumber) : LogManager :=
  if 0 < m.bufferPos then m.flushBuffer else m

def flushAll (m : LogManager) : LogManager := m.flush m.currentLsn

/-- The record as it is stored: with its number, the time and the previous record of its
transaction. -/
def stamp (m : LogManager) (r : LogRecord) (now : ℤ) : LogRecord :=
  { r with
    lsn := m.currentLsn
    timestamp := now
    prevLsn := (m.lastTxLsn.lookup r.transactionId).getD r.prevLsn }

def appendLogRecord (m : LogManager) (r : LogRecord) (now : ℤ) : LogSequenceNumber × LogManager :=
  let lsn := m.currentLsn
  let copy := m.stamp r now
  let m := { m with
    currentLsn := lsn+1
    lastTxLsn := m.lastTxLsn.insert r.transactionId lsn
    logBuffer := m.logBuffer.insert lsn copy }
  if m.mode ≠ .noLog then
    let m := if writeBufferSize < m.bufferPos+(recordSize+r.dataLength.toNat) then m.flushBuffer
      else m
    (lsn,{ m with writeBuffer := m.writeBuffer++[copy] })
  else (lsn,m)

/-- The record that the second form of `appendLogRecord` builds; the length is cut to 16 bits. -/
def makeRecord (type : LogRecordType) (tx : TransactionId) (pid : PageId)
    (data : Option (List UInt8)) : LogRecord where
  lsn := 0
  type := type
  transactionId := tx
  pageId := pid
  pageOffset := 0
  dataLength := UInt16.ofNat (data.getD []).length
  data := data.filter fun d => 0 < d.length
  timestamp := 0
  prevLsn := 0
  data_ok := by
    intro d hd
    obtain ⟨hdata,_⟩ := Option.filter_eq_some_iff.mp hd
    rw [hdata]
    exact Nat.mod_le _ _

def appendFields (m : LogManager) (type : LogRecordType) (tx : TransactionId) (pid : PageId)
    (data : Option (List UInt8)) (now : ℤ) : LogSequenceNumber × LogManager :=
  m.appendLogRecord (makeRecord type tx pid data) now

def setCheckpoint (m : LogManager) (lsn : LogSequenceNumber) : LogManager :=
  { m with lastCheckpoint := lsn }

/-- A call on the log manager by some client or thread. -/
inductive LogCall
  | append (r : LogRecord) (now : ℤ)
  | flush (lsn : LogSequenceNumber)

def LogCall.run (m : LogManager) : LogCall → LogManager
  | .append r now => (m.appendLogRecord r now).2
  | .flush lsn => m.flush lsn

def runCalls (m : LogManager) (calls : List LogCall) : LogManager := calls.foldl LogCall.run m

section Specs

theorem serializeRecord_length (r : LogRecord) :
    (serializeRecord r).length = 50+r.payload.length := by
  simp only [serializeRecord,List.length_append,leBytes_length]

/-- The write buffer is empty exactly when no record is in it. -/
theorem bufferPos_eq_zero (m : LogManager) : m.bufferPos = 0 ↔ m.writeBuffer = [] := by
  unfold bufferPos
  cases m.writeBuffer with
  | nil => simp
  | cons r rs =>
    have hlen := serializeRecord_length r
    simp only [List.map_cons,List.sum_cons,reduceCtorEq,iff_false]
    omega

theorem flushBuffer_of_empty {m : LogManager} (h : m.writeBuffer = []) : m.flushBuffer = m := by
  have hpos : m.bufferPos = 0 := (bufferPos_eq_zero m).mpr h
  simp [flushBuffer,hpos]

theorem flush_eq (m : LogManager) (lsn : LogSequenceNumber) : m.flush lsn = m.flushBuffer := by
  unfold flush
  split_ifs with hpos
  · rfl
  · simp [flushBuffer,hpos]

@[simp] theorem flushBuffer_writeBuffer (m : LogManager) : m.flushBuffer.writeBuffer = [] := by
  unfold flushBuffer
  split_ifs with hpos
  · rfl
  · exact (bufferPos_eq_zero m).mp (by omega)

@[simp] theorem flushBuffer_flushed (m : LogManager) :
    m.flushBuffer.flushed = m.flushed++m.writeBuffer := by
  by_cases hpos : 0 < m.bufferPos
  · simp [flushBuffer,hpos]
  · have hempty : m.writeBuffer = [] := (bufferPos_eq_zero m).mp (by omega)
    rw [flushBuffer_of_empty hempty,hempty,List.append_nil]

@[simp] theorem flushBuffer_logBuffer (m : LogManager) : m.flushBuffer.logBuffer = m.logBuffer := by
  unfold flushBuffer; split <;> rfl
@[simp] theorem flushBuffer_currentLsn (m : LogManager) :
    m.flushBuffer.currentLsn = m.currentLsn := by unfold flushBuffer; split <;> rfl
@[simp] theorem flushBuffer_mode (m : LogManager) : m.flushBuffer.mode = m.mode := by
  unfold flushBuffer; split <;> rfl

theorem flushBuffer_logFile (m : LogManager) (h : m.writeBuffer ≠ []) :
    m.flushBuffer.logFile = m.logFile.write (m.writeBuffer.flatMap serializeRecord) := by
  have hpos : 0 < m.bufferPos := Nat.pos_of_ne_zero (mt (bufferPos_eq_zero m).mp h)
  simp [flushBuffer,hpos]

/-- An append writes the stamped record to the buffer map and, unless logging is off, puts it at
the end of the write buffer, which is emptied first if it has no room. -/
theorem appendLogRecord_cases (m : LogManager) (r : LogRecord) (now : ℤ) :
    ∃ b : LogManager, (m.appendLogRecord r now).2 =
        { b with writeBuffer := if m.mode = .noLog then b.writeBuffer
                                else b.writeBuffer++[m.stamp r now] } ∧
      let s := { m with
        currentLsn := m.currentLsn+1
        lastTxLsn := m.lastTxLsn.insert r.transactionId m.currentLsn
        logBuffer := m.logBuffer.insert m.currentLsn (m.stamp r now) }
      (b = s ∨ b = s.flushBuffer) := by
  by_cases hmode : m.mode = .noLog
  · refine ⟨_,?_,Or.inl rfl⟩
    simp [appendLogRecord,hmode]
  · by_cases hfull : writeBufferSize < m.bufferPos+(recordSize+r.dataLength.toNat)
    · refine ⟨_,?_,Or.inr rfl⟩
      unfold bufferPos at hfull
      simp [appendLogRecord,hmode,bufferPos,hfull]
    · refine ⟨_,?_,Or.inl rfl⟩
      unfold bufferPos at hfull
      simp [appendLogRecord,hmode,bufferPos,hfull]

end Specs

end LogManager
end OrangeSQL
