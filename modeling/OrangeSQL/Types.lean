import OrangeSQL.Library.Bytes

/-! Identifiers, page constants and SQL values shared by all components.
Identifiers and log sequence numbers are natural numbers: the 64-bit counters behind
them start at one and never get near their wrap-around. -/
namespace OrangeSQL

open Bytes

abbrev PageId := ℕ
abbrev TableId := ℕ
abbrev TransactionId := ℕ
abbrev RecordId := ℕ
abbrev LogSequenceNumber := ℕ

def invalidPageId : PageId := 2^64-1
def pageSize : ℕ := 4096

inductive Status
  | ok | error | notFound | alreadyExists
  deriving DecidableEq, Repr

/-- The SQL types. `unnamed` holds the bytes that a cast turns into no enumerator. -/
inductive DataType
  | unknown | integer | bigint | smallint | varchar | char | text | boolean | date | time
  | timestamp | decimal | float | double | blob | json | uuid | nullType | unnamed (code : ℕ)
  deriving DecidableEq, Repr

def DataType.code : DataType → ℕ
  | .unknown => 0 | .integer => 1 | .bigint => 2 | .smallint => 3 | .varchar => 4
  | .char => 5 | .text => 6 | .boolean => 7 | .date => 8 | .time => 9 | .timestamp => 10
  | .decimal => 11 | .float => 12 | .double => 13 | .blob => 14 | .json => 15 | .uuid => 16
  | .nullType => 17 | .unnamed code => code

def DataType.ofCode : ℕ → DataType
  | 0 => .unknown | 1 => .integer | 2 => .bigint | 3 => .smallint | 4 => .varchar
  | 5 => .char | 6 => .text | 7 => .boolean | 8 => .date | 9 => .time | 10 => .timestamp
  | 11 => .decimal | 12 => .float | 13 => .double | 14 => .blob | 15 => .json | 16 => .uuid
  | 17 => .nullType | code => .unnamed code

/-- A value; `data` is the eight bytes of the union of scalar members. -/
structure Value where
  type : DataType
  data : UInt64
  strVal : List UInt8
  blobVal : List UInt8
  deriving DecidableEq, Repr

/-- The default constructor: SQL NULL. -/
def Value.null : Value := ⟨.nullType,0,[],[]⟩

/-- The constructor from `int32_t`: the union's low four bytes. -/
def Value.ofInt (v : Int32) : Value := ⟨.integer,v.toUInt32.toUInt64,[],[]⟩

end OrangeSQL
