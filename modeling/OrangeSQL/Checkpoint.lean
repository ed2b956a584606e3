import OrangeSQL.Engine
import OrangeSQL.Lexer

/-! The checkpoint manager: how it writes a CHECKPOINT record, how it looks for the last one, and
how it cuts the log behind a new one. Two components write CHECKPOINT records, this one and the
transaction manager; one reads them. -/
namespace OrangeSQL

def bytesOf (text : Text) : List UInt8 := text.map fun c => c.toNat.toUInt8

def textOf (bytes : List UInt8) : Text := bytes.map fun b => Char.ofNat b.toNat

/-- Why a record is not read: `stoull` throws, or the text of the record has no end. -/
inductive CheckpointError
  | invalidArgument | outOfRange | unterminated
  deriving DecidableEq, Repr

/-- `std::stoull` in base ten: blanks, a sign, digits, and anything behind them. -/
def stoull (text : Text) : Except CheckpointError ℕ :=
  let text := text.dropWhile isspace
  let sign := signAt text
  let digits := (text.drop sign.length).takeWhile Char.isDigit
  let n := Nat.ofDigitChars 10 digits 0
  if digits = [] then .error .invalidArgument
  else if 2^64 ≤ n then .error .outOfRange
  else .ok (if sign = ['-'] then (2^64-n)%2^64 else n)

/-- What stands behind the first occurrence of a word. -/
def afterFirst (word : Text) : Text → Option Text
  | [] => if word = [] then some [] else none
  | c::text =>
    if word <+: c::text then some ((c::text).drop word.length) else afterFirst word text

/-- The loop over the numbers of a list with commas; nothing behind the last comma is no number. -/
def parseIds (txs : Text) : Except CheckpointError (List TransactionId) :=
  if txs = [] then .ok []
  else
    match _h : txs.dropWhile (· ≠ ',') with
    | [] => do return [← stoull txs]
    | _::rest => do
      let id ← stoull (txs.takeWhile (· ≠ ','))
      return id::(← parseIds rest)
termination_by txs.length
decreasing_by
  have hle := (List.dropWhile_suffix (p := (· ≠ ',')) (l := txs)).length_le
  rw [_h,List.length_cons] at hle
  omega

namespace LogManager

/-- The records of the transaction, by their number. -/
def getLogsForTransaction (m : LogManager) (tx : TransactionId) (order : List LogSequenceNumber) :
    List LogRecord :=
  ((order.filterMap m.logBuffer.lookup).filter fun r => r.transactionId = tx).mergeSort
    fun a b => a.lsn ≤ b.lsn

/-- The loop that drops the records below a number from the map, in the order of the map. -/
def truncate (m : LogManager) (lsn : LogSequenceNumber) (order : List LogSequenceNumber) :
    LogManager :=
  let logBuffer := order.foldl (fun logs k => if k < lsn then logs.erase k else logs) m.logBuffer
  { m with logBuffer := logBuffer }

end LogManager

/-- `incremental` is the only part of the configuration that a checkpoint depends on. -/
structure CheckpointManager where
  incremental : Bool
  lastCheckpointLsn : LogSequenceNumber
  deriving DecidableEq, Repr

namespace CheckpointManager

open TransactionManager (joinIds)

def checkpointData (isFull : Bool) (activeTxs : List TransactionId) : List UInt8 :=
  bytesOf (if isFull then "FULL\n" else "INCR\n").toList ++
  bytesOf "ACTIVE:".toList ++ joinIds activeTxs ++ bytesOf "\n".toList ++
  bytesOf "DIRTY:".toList ++ bytesOf "\n".toList

def writeCheckpointRecord (c : CheckpointManager) (m : LogManager) (isFull : Bool)
    (activeTxs : List TransactionId) (now : ℤ) : CheckpointManager × LogManager :=
  let (lsn,m) := m.appendFields .checkpoint 0 invalidPageId
    (some (checkpointData isFull activeTxs++[0])) now
  ({ c with lastCheckpointLsn := lsn },m.setCheckpoint lsn)

def truncateLogs (c : CheckpointManager) (m : LogManager) (order : List LogSequenceNumber) :
    LogManager :=
  m.truncate c.lastCheckpointLsn order

/-- The ids that the text of a record lists. -/
def activeIds (data : Text) : Except CheckpointError (List TransactionId) :=
  match afterFirst "ACTIVE:".toList data with
  | none => .ok []
  | some rest => if '\n' ∈ rest then parseIds (rest.takeWhile (· ≠ '\n')) else .ok []

/-- The text of a record ends at its first zero byte. -/
def readRecord (r : LogRecord) : Except CheckpointError (List TransactionId) :=
  match r.data with
  | none => .ok []
  | some d =>
    if 0 ∈ d then activeIds (textOf (d.takeWhile (· ≠ 0))) else .error .unterminated

/-- A CHECKPOINT record under this number. -/
def checkpointAt (m : LogManager) (lsn : LogSequenceNumber) :
    Option (LogSequenceNumber × LogRecord) :=
  match m.logBuffer.lookup lsn with
  | some r => if r.type = .checkpoint then some (lsn,r) else none
  | none => none

/-- The map of the log is walked through backwards in its own order, up to a CHECKPOINT record. -/
def findLastCheckpoint (m : LogManager) (order : List LogSequenceNumber) :
    Except CheckpointError (Option (LogSequenceNumber × List TransactionId)) :=
  match order.reverse.findSome? (checkpointAt m) with
  | none => .ok none
  | some (lsn,r) => do return some (lsn,← readRecord r)

end CheckpointManager
end OrangeSQL
