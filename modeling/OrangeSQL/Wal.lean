import OrangeSQL.LogManager

/-! The write-ahead logging front end: the payloads of the data records and the rule that the log
is to be flushed before a page is written. -/
namespace OrangeSQL

open Bytes

namespace WalManager

/-- The encoding of a value behind its type byte; the types not named here have none. -/
def serializeValue (v : Value) : List UInt8 :=
  match v.type with
  | .integer => leBytes 4 v.data.toNat
  | .bigint => leBytes 8 v.data.toNat
  | .boolean => leBytes 1 v.data.toNat
  | .varchar => leBytes 4 v.strVal.length++v.strVal.take (v.strVal.length%2^32)
  | _ => []

def valueSize (v : Value) : ℕ :=
  match v.type with
  | .integer => 4
  | .bigint => 8
  | .boolean => 1
  | .varchar => 4+v.strVal.length
  | _ => 0

/-- The buffer is filled with zeros, as long as the sizes add up to, and written from its start. -/
def serializeRecord (record : List Value) : List UInt8 :=
  let fields := leBytes 2 record.length++
    record.flatMap fun v => leBytes 1 v.type.code++serializeValue v
  let size := 2+(record.map fun v => 1+valueSize v).sum
  fields++List.replicate (size-fields.length) 0

variable (m : LogManager) (tx : TransactionId) (pid : PageId)

/-- The common form of INSERT and DELETE records: the record id and the row. -/
def logRow (type : LogRecordType) (record : List Value) (rid : RecordId) (now : ℤ) :
    LogSequenceNumber × LogManager :=
  m.appendFields type tx pid (some (leBytes 8 rid++serializeRecord record)) now

def logInsert (record : List Value) (rid : RecordId) (now : ℤ) : LogSequenceNumber × LogManager :=
  logRow m tx pid .insert record rid now

def logDelete (record : List Value) (rid : RecordId) (now : ℤ) : LogSequenceNumber × LogManager :=
  logRow m tx pid .delete record rid now

def logUpdate (old new : List Value) (rid : RecordId) (now : ℤ) : LogSequenceNumber × LogManager :=
  let oldData := serializeRecord old
  let newData := serializeRecord new
  m.appendFields .update tx pid
    (some (leBytes 8 rid++leBytes 8 oldData.length++oldData++leBytes 8 newData.length++newData)) now

end WalManager

/-- The pages for which `beforePageWrite` has run, with the number it was given. -/
structure WalManager where
  durablePages : Finmap (fun _ : PageId => LogSequenceNumber)

namespace WalManager

def beforePageWrite (w : WalManager) (m : LogManager) (pid : PageId) (lsn : LogSequenceNumber) :
    WalManager × LogManager :=
  (⟨w.durablePages.insert pid lsn⟩,m.flush lsn)

end WalManager
end OrangeSQL
