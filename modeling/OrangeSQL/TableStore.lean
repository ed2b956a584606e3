import OrangeSQL.Catalog
import OrangeSQL.PageRecords

/-! Tables on pages that change. The buffer pool is a store of the pages of every table: a pointer
to a page is the id it was fetched with, what is written through it is in the store, and no page
is evicted. Where the source follows a null pointer, or a loop does not end, there is no result. -/
namespace OrangeSQL

open Page

structure Store where
  pages : TableId → PageId → Option Page
  nextPageId : PageId

namespace Store

def put (s : Store) (table : TableId) (pid : PageId) (p : Page) : Store :=
  { s with pages := Function.update s.pages table (Function.update (s.pages table) pid (some p)) }

/-- The id of the new page is the next one of all tables. -/
def createNewPage (s : Store) (table : TableId) : PageId × Store :=
  let pid := s.nextPageId
  (pid,{ s.put table pid ((Page.new pid table).setType .dataPage) with nextPageId := pid+1 })

end Store

/-- The page number of a record. -/
def pageOf (rid : RecordId) : PageId := rid >>> 32

/-- The object of a table: its schema and the pointers to its first and last page. -/
structure OpenTable where
  schema : TableSchema
  firstPage : PageId
  lastPage : PageId

namespace OpenTable

def tableId (t : OpenTable) : TableId := t.schema.id.toNat

/-- The loop of the constructor that looks for the last page. -/
def findLastPage (s : Store) (table : TableId) : ℕ → PageId → Option PageId
  | 0, _ => none
  | fuel+1, pid => do
    let p ← s.pages table pid
    if p.getNextPage = invalidPageId then return pid
    else findLastPage s table fuel p.getNextPage

/-- The constructor. -/
def make (fuel : ℕ) (s : Store) (schema : TableSchema) : Option (OpenTable × Store) :=
  let table := schema.id.toNat
  match s.pages table 0 with
  | none =>
    let (pid,s) := s.createNewPage table
    some (⟨schema,pid,pid⟩,s)
  | some _ => (findLastPage s table fuel 0).map fun last => (⟨schema,0,last⟩,s)

def validateColumn (t : OpenTable) (i : ℕ) (val : Value) : Bool :=
  match t.schema.columns[i]? with
  | none => false
  | some col =>
    if val.type ≠ col.type then false
    else !(!col.nullable && decide (val.type = .integer) && decide (val.data.toUInt32 = 0) &&
      val.strVal.isEmpty)

def validateRecord (t : OpenTable) (values : List Value) : Bool :=
  decide (values.length = t.schema.columns.length) &&
    values.zipIdx.all fun (val,i) => t.validateColumn i val

/-- A new page behind the last one. -/
def appendNewPage (t : OpenTable) (s : Store) (last : Page) : OpenTable × Store :=
  let (pid,s) := s.createNewPage t.tableId
  let s := s.put t.tableId t.lastPage (last.setNextPage pid)
  let new := ((Page.new pid t.tableId).setType .dataPage).setPrevPage last.getPageId
  ({ t with lastPage := pid },s.put t.tableId pid new)

/-- The id of the record, or nothing where the status is ERROR. -/
def insertRecord (t : OpenTable) (s : Store) (values : List Value) :
    Option (Option RecordId × OpenTable × Store) :=
  if !t.validateRecord values then some (none,t,s)
  else do
    let last ← s.pages t.tableId t.lastPage
    match last.insertRecord values with
    | some (last,rid) => return (some rid,t,s.put t.tableId t.lastPage last)
    | none =>
      let (t,s) := t.appendNewPage s last
      let new ← s.pages t.tableId t.lastPage
      match new.insertRecord values with
      | some (new,rid) => return (some rid,t,s.put t.tableId t.lastPage new)
      | none => return (none,t,s)

def updateRecord (t : OpenTable) (s : Store) (rid : RecordId) (values : List Value) :
    Status × Store :=
  if !t.validateRecord values then (.error,s)
  else
    match s.pages t.tableId (pageOf rid) with
    | none => (.notFound,s)
    | some p =>
      let (done,p) := p.updateRecord rid values
      (if done then .ok else .notFound,s.put t.tableId (pageOf rid) p)

def deleteRecord (t : OpenTable) (s : Store) (rid : RecordId) : Status × Store :=
  match s.pages t.tableId (pageOf rid) with
  | none => (.notFound,s)
  | some p =>
    match p.deleteRecord rid with
    | none => (.notFound,s)
    | some p => (.ok,s.put t.tableId (pageOf rid) p)

end OpenTable

/-- The iterator; `page` is the id behind the pointer to the current page. -/
structure TableCursor where
  pageId : PageId
  slot : ℕ
  page : Option PageId

namespace TableCursor

section Steps

variable (s : Store) (table : TableId)

/-- The page that is pointed to, as it is now. -/
def current (it : TableCursor) : Option Page := it.page.bind (s.pages table)

def loadCurrentPage (it : TableCursor) : TableCursor :=
  if it.pageId ≠ invalidPageId then
    { it with page := (s.pages table it.pageId).map fun _ => it.pageId }
  else it

def onRecord (it : TableCursor) : Bool :=
  (it.current s table).any fun p => decide (it.slot < p.getRecordCount)

def nextPageId (it : TableCursor) : PageId :=
  ((it.current s table).map getNextPage).getD invalidPageId

def advanceToNextValid : ℕ → TableCursor → Option TableCursor
  | 0, _ => none
  | fuel+1, it =>
    if it.pageId = invalidPageId then some it
    else if it.onRecord s table then some it
    else
      let it := { it with pageId := it.nextPageId s table }
      if it.pageId ≠ invalidPageId then
        advanceToNextValid fuel { it.loadCurrentPage s table with slot := 0 }
      else advanceToNextValid fuel it

def make (fuel : ℕ) (pageId : PageId) (slot : ℕ) : Option TableCursor :=
  let it : TableCursor := ⟨pageId,slot,none⟩
  if pageId ≠ invalidPageId then
    let it := it.loadCurrentPage s table
    if (it.current s table).any fun p => decide (p.getRecordCount ≤ it.slot) then
      advanceToNextValid s table fuel it
    else some it
  else some it

def increment (fuel : ℕ) (it : TableCursor) : Option TableCursor :=
  if it.pageId ≠ invalidPageId then
    advanceToNextValid s table fuel { it with slot := (it.slot+1)%2^16 }
  else some it

def atEnd (it : TableCursor) : Bool := decide (it.pageId = invalidPageId ∧ it.slot = 0)

def recordId (it : TableCursor) : RecordId := makeRecordId it.pageId it.slot

/-- The row of the dereferenced iterator, empty where none can be read. -/
def row (it : TableCursor) : List Value :=
  ((it.current s table).bind fun p => p.getRecord it.recordId).getD []

end Steps

end TableCursor

/-- The iterator at the first page, which is asked for its own id. -/
def OpenTable.begin (fuel : ℕ) (t : OpenTable) (s : Store) : Option TableCursor := do
  let first ← s.pages t.tableId t.firstPage
  TableCursor.make s t.tableId fuel first.getPageId 0

end OrangeSQL
