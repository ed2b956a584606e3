import OrangeSQL.Engine
import OrangeSQL.PoolRules
import OrangeSQL.TableStore

/-! Tables on the buffer pool itself. A pointer to a page is the number under which the pool holds
its frame. There is no result where a loop does not end, or where a pointer is followed that is
null or whose frame is gone; a frame that came back stands for the one that was pointed to. -/
namespace OrangeSQL

open Page

abbrev PoolM := StateT BufferPool Option

namespace PoolM

/-- The pointer that a fetch for reading returns, possibly null. -/
def fetchPage (fuel : ℕ) (table : TableId) (pid : PageId) : PoolM (Option PageId) := fun s =>
  (s.fetchPage fuel table pid .read).map fun (p,s) => (p.map getPageId,s)

/-- The pointer to a new data page, which is never null. -/
def createNewPage (fuel : ℕ) (table : TableId) : PoolM PageId := fun s => do
  let (p,s) ← s.createNewPage fuel table .dataPage
  return ((← p).getPageId,s)

/-- A member function called through a pointer: its result, and the page as it leaves it. -/
def onPage {α : Type} (pid : PageId) (call : Page → α × Page) : PoolM α := fun s => do
  let f ← s.frames.lookup pid
  let (a,p) := call f.page
  return (a,Engine.modifyPage s pid fun _ => p)

/-- A member function that changes nothing. -/
def ask {α : Type} (pid : PageId) (get : Page → α) : PoolM α := onPage pid fun p => (get p,p)

/-- The page was changed, as the pool is told. -/
def unpinChanged (pid : PageId) : PoolM Unit := modify fun s => s.unpinPage pid true

end PoolM

open PoolM

/-- The object of a table with the count of its records that is kept in it. -/
structure PooledTable extends OpenTable where
  cachedRecordCount : UInt64

namespace PooledTable

/-- The loop of the constructor that looks for the last page. -/
def findLastPage (table : TableId) : ℕ → PageId → PoolM PageId
  | 0, _ => failure
  | fuel+1, page => do
    let next ← ask page getNextPage
    if next = invalidPageId then return page
    match ← fetchPage fuel table next with
    | none => failure
    | some page => findLastPage table fuel page

/-- The constructor. -/
def make (fuel : ℕ) (schema : TableSchema) : PoolM PooledTable := do
  match ← fetchPage fuel schema.id.toNat 0 with
  | none =>
    let first ← createNewPage fuel schema.id.toNat
    return ⟨⟨schema,first,first⟩,0⟩
  | some first =>
    let last ← findLastPage schema.id.toNat fuel first
    return ⟨⟨schema,first,last⟩,0⟩

/-- `insertRecord` of a page, through a pointer. -/
def insertInto (page : PageId) (values : List Value) : PoolM (Option RecordId) :=
  onPage page fun p =>
    match p.insertRecord values with
    | some (p,rid) => (some rid,p)
    | none => (none,p)

/-- A new page behind the last one. -/
def appendNewPage (fuel : ℕ) (t : PooledTable) : PoolM PooledTable := do
  let new ← createNewPage fuel t.tableId
  onPage t.lastPage fun p => ((),p.setNextPage new)
  unpinChanged (← ask t.lastPage getPageId)
  let last ← ask t.lastPage getPageId
  onPage new fun p => ((),p.setPrevPage last)
  return { t with lastPage := new }

/-- The id of the record, or nothing where the status is ERROR. -/
def insertRecord (fuel : ℕ) (t : PooledTable) (values : List Value) :
    PoolM (Option RecordId × PooledTable) := do
  if !t.validateRecord values then return (none,t)
  match ← insertInto t.lastPage values with
  | some rid =>
    unpinChanged (← ask t.lastPage getPageId)
    return (some rid,{ t with cachedRecordCount := t.cachedRecordCount+1 })
  | none =>
    let t ← t.appendNewPage fuel
    match ← insertInto t.lastPage values with
    | some rid => return (some rid,{ t with cachedRecordCount := t.cachedRecordCount+1 })
    | none => return (none,t)

def getRecord (fuel : ℕ) (t : PooledTable) (rid : RecordId) : PoolM (Option (List Value)) := do
  match ← fetchPage fuel t.tableId (pageOf rid) with
  | none => return none
  | some page => ask page fun p => p.getRecord rid

def updateRecord (fuel : ℕ) (t : PooledTable) (rid : RecordId) (values : List Value) :
    PoolM Status := do
  if !t.validateRecord values then return .error
  match ← fetchPage fuel t.tableId (pageOf rid) with
  | none => return .notFound
  | some page =>
    let done ← onPage page fun p => p.updateRecord rid values
    return if done then .ok else .notFound

def deleteRecord (fuel : ℕ) (t : PooledTable) (rid : RecordId) : PoolM (Status × PooledTable) := do
  match ← fetchPage fuel t.tableId (pageOf rid) with
  | none => return (.notFound,t)
  | some page =>
    let done ← onPage page fun p =>
      match p.deleteRecord rid with
      | some p => (true,p)
      | none => (false,p)
    if done then return (.ok,{ t with cachedRecordCount := t.cachedRecordCount-1 })
    else return (.notFound,t)

/-- The ids of the records up to the first that is refused. -/
def insertRecords (fuel : ℕ) : PooledTable → List (List Value) → PoolM (List RecordId × PooledTable)
  | t, [] => return ([],t)
  | t, values::records => do
    match ← t.insertRecord fuel values with
    | (some rid,t) =>
      let (rids,t) ← insertRecords fuel t records
      return (rid::rids,t)
    | (none,t) => return ([],t)

/-- The number of records deleted. -/
def deleteRecords (fuel : ℕ) : PooledTable → List RecordId → PoolM (ℕ × PooledTable)
  | t, [] => return (0,t)
  | t, rid::rids => do
    let (status,t) ← t.deleteRecord fuel rid
    let (deleted,t) ← deleteRecords fuel t rids
    return (if status = .ok then deleted+1 else deleted,t)

section Iteration

variable (table : TableId)

def loadCurrentPage (fuel : ℕ) (it : TableCursor) : PoolM TableCursor := do
  if it.pageId ≠ invalidPageId then return { it with page := ← fetchPage fuel table it.pageId }
  else return it

/-- The slot is reset only when a further page is loaded, not when the chain ends. -/
def advanceToNextValid : ℕ → TableCursor → PoolM TableCursor
  | 0, _ => failure
  | fuel+1, it => do
    if it.pageId = invalidPageId then return it
    match it.page with
    | none => advanceToNextValid fuel { it with pageId := invalidPageId }
    | some page =>
      let count ← ask page getRecordCount
      if it.slot < count then return it
      let next ← ask page getNextPage
      if next ≠ invalidPageId then
        let it ← loadCurrentPage table fuel { it with pageId := next }
        advanceToNextValid fuel { it with slot := 0 }
      else advanceToNextValid fuel { it with pageId := next }

/-- The constructor of the iterator. -/
def cursorAt (fuel : ℕ) (pid : PageId) : PoolM TableCursor := do
  let it ← loadCurrentPage table fuel ⟨pid,0,none⟩
  match it.page with
  | none => return it
  | some page =>
    let count ← ask page getRecordCount
    if count ≤ it.slot then advanceToNextValid table fuel it else return it

def increment (fuel : ℕ) (it : TableCursor) : PoolM TableCursor := do
  if it.pageId ≠ invalidPageId then
    advanceToNextValid table fuel { it with slot := (it.slot+1)%2^16 }
  else return it

/-- The row of the dereferenced iterator, empty where none can be read. -/
def row (it : TableCursor) : PoolM (List Value) := do
  match it.page with
  | none => return []
  | some page => return (← ask page fun p => p.getRecord it.recordId).getD []

def scanFrom (limit : ℕ) : ℕ → TableCursor → List (List Value) → PoolM (List (List Value))
  | 0, _, _ => failure
  | fuel+1, it, results => do
    if it.atEnd then return results
    let results := results++[← row it]
    if 0 < limit ∧ limit ≤ results.length then return results
    scanFrom limit fuel (← increment table fuel it) results

/-- The iterator at the first row whose first value is that of the key, as integers, or at the
end. -/
def findFrom (key : List Value) : ℕ → TableCursor → PoolM TableCursor
  | 0, _ => failure
  | fuel+1, it => do
    if it.atEnd then return it
    match ← row it with
    | [] => findFrom key fuel (← increment table fuel it)
    | value::_ =>
      match key with
      | [] => failure
      | wanted::_ =>
        if value.data.toUInt32 = wanted.data.toUInt32 then return it
        findFrom key fuel (← increment table fuel it)

def countFrom : ℕ → TableCursor → UInt64 → PoolM UInt64
  | 0, _, _ => failure
  | fuel+1, it, count => do
    if it.atEnd then return count
    countFrom fuel (← increment table fuel it) (count+1)

def countPages : ℕ → PageId → ℕ → PoolM ℕ
  | 0, _, _ => failure
  | fuel+1, page, count => do
    match ← fetchPage fuel table (← ask page getNextPage) with
    | none => return count+1
    | some next => countPages fuel next (count+1)

end Iteration

def begin (fuel : ℕ) (t : PooledTable) : PoolM TableCursor := do
  cursorAt t.tableId fuel (← ask t.firstPage getPageId)

/-- The rows in the order of the pages; with `order_by` they would be sorted afterwards. -/
def scan (fuel : ℕ) (t : PooledTable) (limit : ℕ) : PoolM (List (List Value)) := do
  scanFrom t.tableId limit fuel (← t.begin fuel) []

def find (fuel : ℕ) (t : PooledTable) (key : List Value) : PoolM TableCursor := do
  findFrom t.tableId key fuel (← t.begin fuel)

/-- The records are counted anew if the last count has expired. -/
def getRecordCount (fuel : ℕ) (t : PooledTable) (expired : Bool) : PoolM (UInt64 × PooledTable) := do
  if expired then
    let count ← countFrom t.tableId fuel (← t.begin fuel) 0
    return (count,{ t with cachedRecordCount := count })
  else return (t.cachedRecordCount,t)

def getPageCount (fuel : ℕ) (t : PooledTable) : PoolM ℕ := countPages t.tableId fuel t.firstPage 0

/-- The public operations that touch pages. -/
inductive TableOp
  | insertRecord (values : List Value)
  | getRecord (rid : RecordId)
  | updateRecord (rid : RecordId) (values : List Value)
  | deleteRecord (rid : RecordId)
  | insertRecords (records : List (List Value))
  | deleteRecords (rids : List RecordId)
  | find (key : List Value)
  | scan (limit : ℕ)
  | getRecordCount (expired : Bool)
  | getPageCount
  | dump

/-- One operation; its result is not looked at. -/
def exec (fuel : ℕ) (t : PooledTable) : TableOp → PoolM PooledTable
  | .insertRecord values => do return (← t.insertRecord fuel values).2
  | .getRecord rid => do
    discard (t.getRecord fuel rid)
    return t
  | .updateRecord rid values => do
    discard (t.updateRecord fuel rid values)
    return t
  | .deleteRecord rid => do return (← t.deleteRecord fuel rid).2
  | .insertRecords records => do return (← t.insertRecords fuel records).2
  | .deleteRecords rids => do return (← t.deleteRecords fuel rids).2
  | .find key => do
    discard (t.find fuel key)
    return t
  | .scan limit => do
    discard (t.scan fuel limit)
    return t
  | .getRecordCount expired => do return (← t.getRecordCount fuel expired).2
  | .getPageCount => do
    discard (t.getPageCount fuel)
    return t
  | .dump => do
    discard (countFrom t.tableId fuel (← t.begin fuel) 0)
    return t

def execAll (fuel : ℕ) : PooledTable → List TableOp → PoolM PooledTable
  | t, [] => return t
  | t, op::ops => do execAll fuel (← t.exec fuel op) ops

end PooledTable
end OrangeSQL
