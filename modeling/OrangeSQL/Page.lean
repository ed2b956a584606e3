import OrangeSQL.Types

/-! The slotted data page: a 64-byte header, a slot directory growing upwards from it and
record bytes growing downwards from the end. Bytes are addressed from the start of the page,
so `getRecordData(offset)` is address `offset` and slot `i` sits at `64+8*i`. -/
namespace OrangeSQL

open Bytes

/-- `unnamed` holds what a page read from a file can have in place of an enumerator. -/
inductive PageType
  | dataPage | indexPage | overflowPage | systemPage | unnamed (code : ℕ)
  deriving DecidableEq, Repr

def PageType.code : PageType → ℕ
  | .dataPage => 0 | .indexPage => 1 | .overflowPage => 2 | .systemPage => 3
  | .unnamed code => code

structure PageHeader where
  pageId : PageId
  tableId : TableId
  type : PageType
  freeSpaceOffset : UInt16
  freeSpaceEnd : UInt16
  recordCount : UInt16
  slotCount : UInt16
  nextPageId : PageId
  prevPageId : PageId
  parentPageId : PageId
  checksum : UInt32
  lsn : UInt32
  isDirty : Bool
  isLocked : Bool
  deriving DecidableEq, Repr

structure PageSlot where
  offset : UInt16
  length : UInt16
  flags : UInt16
  next : UInt16
  deriving DecidableEq, Repr

structure Page where
  header : PageHeader
  bytes : ℕ → UInt8

namespace Page

def headerSize : ℕ := 64
def slotSize : ℕ := 8
def maxSlots : ℕ := (pageSize-headerSize)/slotSize
def dataSize : ℕ := pageSize-headerSize-maxSlots*slotSize

def getPageId (p : Page) : PageId := p.header.pageId
def getTableId (p : Page) : TableId := p.header.tableId
def getNextPage (p : Page) : PageId := p.header.nextPageId
def getRecordCount (p : Page) : ℕ := p.header.recordCount.toNat
def markDirty (p : Page) : Page := { p with header.isDirty := true }
def clearDirty (p : Page) : Page := { p with header.isDirty := false }
def setType (p : Page) (type : PageType) : Page := markDirty { p with header.type := type }
def setNextPage (p : Page) (pid : PageId) : Page := markDirty { p with header.nextPageId := pid }
def setPrevPage (p : Page) (pid : PageId) : Page := markDirty { p with header.prevPageId := pid }

/-- The in-memory layout of the header, padding included. -/
def headerBytes (h : PageHeader) : List UInt8 :=
  leBytes 8 h.pageId ++ leBytes 4 h.tableId ++ leBytes 4 h.type.code ++
  leBytes 2 h.freeSpaceOffset.toNat ++ leBytes 2 h.freeSpaceEnd.toNat ++
  leBytes 2 h.recordCount.toNat ++ leBytes 2 h.slotCount.toNat ++
  leBytes 8 h.nextPageId ++ leBytes 8 h.prevPageId ++ leBytes 8 h.parentPageId ++
  leBytes 4 h.checksum.toNat ++ leBytes 4 h.lsn.toNat ++
  leBytes 1 h.isDirty.toNat ++ leBytes 1 h.isLocked.toNat ++ leBytes 6 0

/-- The 4096 bytes of the object, as `calculateChecksum` walks over them. -/
def image (p : Page) : ℕ → UInt8 := writeMem p.bytes 0 (headerBytes p.header)

def calculateChecksum (p : Page) : UInt32 :=
  (List.range (pageSize/4)).foldl
    (fun c i => c ^^^ UInt32.ofNat (leNat (readMem p.image (4*i) 4))) 0

/-- The constructor. It reserves room for every possible slot, hence no room for data. -/
def new (id : PageId) (table : TableId) : Page :=
  let p : Page :=
    { header :=
        { pageId := id, tableId := table, type := .dataPage,
          freeSpaceOffset := UInt16.ofNat (headerSize+maxSlots*slotSize),
          freeSpaceEnd := UInt16.ofNat pageSize, recordCount := 0, slotCount := 0,
          nextPageId := invalidPageId, prevPageId := invalidPageId,
          parentPageId := invalidPageId, checksum := 0, lsn := 0,
          isDirty := false, isLocked := false },
      bytes := fun _ => 0 }
  { p with header.checksum := p.calculateChecksum }

def readU16 (p : Page) (pos : ℕ) : UInt16 := UInt16.ofNat (leNat (readMem p.bytes pos 2))

def getSlot (p : Page) (i : ℕ) : PageSlot :=
  let a := headerSize+slotSize*i
  ⟨p.readU16 a,p.readU16 (a+2),p.readU16 (a+4),p.readU16 (a+6)⟩

def setSlot (p : Page) (i : ℕ) (s : PageSlot) : Page :=
  let fields := leBytes 2 s.offset.toNat ++ leBytes 2 s.length.toNat ++
    leBytes 2 s.flags.toNat ++ leBytes 2 s.next.toNat
  { p with bytes := writeMem p.bytes (headerSize+slotSize*i) fields }

def getValueSize (val : Value) : ℕ :=
  1 + match val.type with
    | .integer => 4
    | .bigint => 8
    | .boolean => 1
    | .varchar => 4+val.strVal.length
    | _ => 0

def serializeValue (val : Value) : List UInt8 :=
  leBytes 1 val.type.code ++ match val.type with
    | .integer => leBytes 4 val.data.toNat
    | .bigint => leBytes 8 val.data.toNat
    | .boolean => leBytes 1 val.data.toNat
    | .varchar => leBytes 4 val.strVal.length ++ val.strVal.take (val.strVal.length%2^32)
    | _ => []

/-- Decode one value at an address; the second component is the number of bytes consumed. -/
def deserializeValue (p : Page) (pos : ℕ) : Value × ℕ :=
  let scalar (n : ℕ) : UInt64 := UInt64.ofNat (leNat (readMem p.bytes (pos+1) n))
  let type := DataType.ofCode (p.bytes pos).toNat
  match type with
  | .integer => ({ Value.null with type := type, data := scalar 4 },5)
  | .bigint => ({ Value.null with type := type, data := scalar 8 },9)
  | .boolean => ({ Value.null with type := type, data := scalar 1 },2)
  | .varchar =>
    let len := leNat (readMem p.bytes (pos+1) 4)
    ({ Value.null with type := type, strVal := readMem p.bytes (pos+5) len },5+len)
  | _ => ({ Value.null with type := type },1)

/-- The bytes a record is charged for: a two-byte field length and the value, per field. -/
def recordSize (record : List Value) : ℕ := (record.map fun val => 2+getValueSize val).sum

/-- The subtraction is done in `int` and then converted to `size_t` by the comparison. -/
def hasSpaceFor (p : Page) (size : ℕ) : Bool :=
  decide (size+slotSize ≤
    (((p.header.freeSpaceEnd.toNat : ℤ)-p.header.freeSpaceOffset.toNat)%2^64).toNat)

def makeRecordId (pid : PageId) (slot : ℕ) : RecordId := (pid <<< 32)%2^64 ||| slot

/-- The result is the new page with the record's id, or nothing when the record does not fit. -/
def insertRecord (p : Page) (record : List Value) : Option (Page × RecordId) :=
  let size := recordSize record
  if p.hasSpaceFor size then
    let slotPos := p.header.recordCount
    let offset := p.header.freeSpaceEnd-UInt16.ofNat size
    let q : Page :=
      { p with bytes := writeMem p.bytes offset.toNat (record.flatMap serializeValue) }
    let q := q.setSlot slotPos.toNat ⟨offset,UInt16.ofNat size,0,0⟩
    some ({ q with
      header.recordCount := slotPos+1
      header.freeSpaceEnd := offset
      header.freeSpaceOffset := p.header.freeSpaceOffset+UInt16.ofNat slotSize
      header.isDirty := true
      header.lsn := 0 },makeRecordId p.header.pageId slotPos.toNat)
  else none

/-- Decode values until the end of the record is reached; each one takes at least a byte. -/
def readValues (p : Page) : ℕ → ℕ → ℕ → List Value
  | 0, _, _ => []
  | fuel+1, pos, stop =>
    if pos < stop then
      let r := p.deserializeValue pos
      r.1 :: readValues p fuel (pos+r.2) stop
    else []

def slotOf (rid : RecordId) : ℕ := rid &&& 0xFFFF

def getRecord (p : Page) (rid : RecordId) : Option (List Value) :=
  let slotPos := slotOf rid
  if p.getRecordCount ≤ slotPos then none
  else
    let slot := p.getSlot slotPos
    if slot.length = 0 ∨ slot.flags &&& 1 ≠ 0 then none
    else some (p.readValues slot.length.toNat slot.offset.toNat
      (slot.offset.toNat+slot.length.toNat))

/-- Insert records one after the other, as the caller of `insertRecord` does; the ids of the
records are returned only if every insertion succeeded. -/
def insertAll (p : Page) : List (List Value) → Option (Page × List RecordId)
  | [] => some (p,[])
  | record::records => do
    let (p,rid) ← p.insertRecord record
    let (p,rids) ← insertAll p records
    return (p,rid::rids)

@[simp] theorem new_freeSpaceOffset (id : PageId) (table : TableId) :
    (new id table).header.freeSpaceOffset = 4096 := rfl
@[simp] theorem new_freeSpaceEnd (id : PageId) (table : TableId) :
    (new id table).header.freeSpaceEnd = 4096 := rfl

/-- A fresh page has no free space at all. -/
theorem hasSpaceFor_new (id : PageId) (table : TableId) (size : ℕ) :
    (new id table).hasSpaceFor size = false := by
  simp [hasSpaceFor,slotSize]

theorem insertRecord_new (id : PageId) (table : TableId) (record : List Value) :
    (new id table).insertRecord record = none := by
  simp [insertRecord,hasSpaceFor_new]

/-- What a page promises about a list of records: each is accepted, with an id of its own. -/
def StoresAll (id : PageId) (table : TableId) (records : List (List Value)) : Prop :=
  ∃ p rids, (new id table).insertAll records = some (p,rids) ∧ rids.Nodup

/-- The records' slots and bytes fit between the header and the end of the page. -/
def Fits (records : List (List Value)) : Prop :=
  (records.map fun record => slotSize+recordSize record).sum ≤ pageSize-headerSize

instance (records : List (List Value)) : Decidable (Fits records) :=
  inferInstanceAs (Decidable (_ ≤ _))

/-- A fresh page takes in no record at all, however small. -/
theorem storesAll_iff_nil (id : PageId) (table : TableId) (records : List (List Value)) :
    StoresAll id table records ↔ records = [] := by
  constructor
  · rintro ⟨p,rids,hinsert,_⟩
    cases records with
    | nil => rfl
    | cons record records => simp [insertAll,insertRecord_new] at hinsert
  · rintro rfl
    exact ⟨new id table,[],rfl,List.nodup_nil⟩

/-- One integer fits in 4032 bytes and is refused all the same. -/
theorem one_integer_refused :
    Fits [[Value.ofInt 7]] ∧ ¬ StoresAll 1 1 [[Value.ofInt 7]] := by
  refine ⟨by decide,?_⟩
  rintro ⟨p,rids,hinsert,_⟩
  simp [insertAll,insertRecord_new] at hinsert

end Page
end OrangeSQL
