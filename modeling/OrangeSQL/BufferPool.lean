import OrangeSQL.Page
import OrangeSQL.Library.LinkedList

/-! The buffer pool: cached frames, the recency list with its iterators, and the page files.
An operation returns nothing when its eviction loop does not end; a call that does end has a
result for some amount of fuel. Mutexes are taken and released inside one call. -/
namespace OrangeSQL

open Page

inductive FetchMode
  | read | write | pin | unpin
  deriving DecidableEq, Repr

structure BufferFrame where
  page : Page
  pinCount : ℕ
  dirty : Bool
  latched : Bool

namespace BufferFrame

def isPinned (f : BufferFrame) : Bool := decide (0 < f.pinCount)

/-- The effect of a fetch on a cached frame. -/
def touch (f : BufferFrame) (mode : FetchMode) : BufferFrame :=
  { f with
    dirty := f.dirty || decide (mode = .write)
    pinCount := if mode = .pin then f.pinCount+1 else f.pinCount }

/-- The frame built for a page that was just read or created. -/
def make (p : Page) (dirty : Bool) (mode : FetchMode) : BufferFrame :=
  ⟨p,if mode = .pin then 1 else 0,dirty || decide (mode = .write),false⟩

end BufferFrame

/-- The table files as the file manager presents them: `images` are the pages that lie in a file,
`padding` is what a page reads as once its file has grown over it, zeros behind the bytes of an
incomplete last page. `outcomes` says which of the coming file operations succeed, `written` is the
history of the images handed to `writePage`, newest first. -/
structure Disk where
  images : TableId → PageId → Option Page
  padding : TableId → PageId → Page
  outcomes : ℕ → Bool
  written : List Page

namespace Disk

/-- No page in any file; new pages of a file read as zeros. -/
def empty : Disk where
  images := fun _ _ => none
  padding := fun _ _ => ⟨⟨0,0,.dataPage,0,0,0,0,0,0,0,0,0,false,false⟩,fun _ => 0⟩
  outcomes := fun _ => true
  written := []

def readPage (d : Disk) (table : TableId) (pid : PageId) : Option Page × Disk :=
  let next := { d with outcomes := fun n => d.outcomes (n+1) }
  (if d.outcomes 0 then d.images table pid else none,next)

/-- The pages of a file after one of them was written, possibly behind the end of the file. -/
def grown (d : Disk) (table : TableId) (pid : PageId) (p : Page) : PageId → Option Page :=
  fun q =>
    if q = pid then some p
    else if q < pid then some ((d.images table q).getD (d.padding table q))
    else d.images table q

def writePage (d : Disk) (p : Page) : Disk :=
  let table := p.getTableId
  { d with
    images := if d.outcomes 0 then
        Function.update d.images table (d.grown table p.getPageId p)
      else d.images
    outcomes := fun n => d.outcomes (n+1)
    written := p::d.written }

end Disk

structure BufferPool where
  poolSize : ℕ
  frames : Finmap (fun _ : PageId => BufferFrame)
  lruList : LinkedList PageId
  lruIterators : Finmap (fun _ : PageId => ℕ)
  disk : Disk
  nextPageId : PageId

namespace BufferPool

def maxPoolSize : ℕ := 1048576

/-- The constructor. The page counter is a static of the process, so a pool starts with any value
of it. -/
def new (poolSize : ℕ) (disk : Disk) (nextPageId : PageId) : BufferPool :=
  ⟨min poolSize maxPoolSize,∅,LinkedList.empty,∅,disk,nextPageId⟩

def size (s : BufferPool) : ℕ := s.frames.keys.card

/-- The strategy is LRU, set by the constructor and never changed: the last unpinned page of the
recency list. -/
def selectVictim (s : BufferPool) : PageId :=
  (s.lruList.values.reverse.find? fun p =>
    (s.frames.lookup p).any fun f => !f.isPinned).getD invalidPageId

/-- Take a page out of the recency list, the iterator map and the frame map. -/
def dropFrame (s : BufferPool) (pid : PageId) : BufferPool :=
  { s with
    lruList := (s.lruIterators.lookup pid).elim s.lruList s.lruList.erase
    lruIterators := s.lruIterators.erase pid
    frames := s.frames.erase pid }

/-- Store a frame and put its page at the front of the recency list. -/
def addFrame (s : BufferPool) (pid : PageId) (f : BufferFrame) : BufferPool :=
  { s with
    frames := s.frames.insert pid f
    lruList := s.lruList.pushFront pid
    lruIterators := s.lruIterators.insert pid s.lruList.fresh }

def updateLRU (s : BufferPool) (pid : PageId) : BufferPool :=
  let rest := (s.lruIterators.lookup pid).elim s.lruList s.lruList.erase
  { s with
    lruList := rest.pushFront pid
    lruIterators := s.lruIterators.insert pid rest.fresh }

/-- The image is written whether or not the file operation succeeds; its result is ignored. -/
def writeIfDirty (s : BufferPool) (f : BufferFrame) : BufferPool :=
  if f.dirty then { s with disk := s.disk.writePage f.page } else s

def evictPage (s : BufferPool) : BufferPool :=
  let victim := s.selectVictim
  if victim ≠ invalidPageId then
    match s.frames.lookup victim with
    | some f => (s.writeIfDirty f).dropFrame victim
    | none => s
  else s

/-- `while (limit <= frames_.size()) evictPage();` -/
def evictWhile (limit : ℕ) : ℕ → BufferPool → Option BufferPool
  | 0, _ => none
  | fuel+1, s => if limit ≤ s.size then evictWhile limit fuel s.evictPage else some s

/-- The result is the page pointed to, or null. A latched frame would be waited for. -/
def fetchPage (fuel : ℕ) (s : BufferPool) (table : TableId) (pid : PageId) (mode : FetchMode) :
    Option (Option Page × BufferPool) :=
  match s.frames.lookup pid with
  | some f =>
    if f.latched then none
    else
      let f := f.touch mode
      some (some f.page,{ s with frames := s.frames.insert pid f }.updateLRU pid)
  | none => do
    let s ← evictWhile s.poolSize fuel s
    let (image,disk) := s.disk.readPage table pid
    let s := { s with disk := disk }
    match image with
    | none => return (none,s)
    | some image =>
      let p := image.clearDirty
      return (some p,s.addFrame p.getPageId (BufferFrame.make p false mode))

/-- The counter is advanced before the eviction loop, which does not look at it. -/
def createNewPage (fuel : ℕ) (s : BufferPool) (table : TableId) (type : PageType) :
    Option (Option Page × BufferPool) := do
  let pid := s.nextPageId
  let s ← evictWhile s.poolSize fuel s
  let p := (Page.new pid table).setType type
  let s := { s with nextPageId := pid+1 }
  return (some p,s.addFrame pid (BufferFrame.make p true .read))

def unpinPage (s : BufferPool) (pid : PageId) (dirty : Bool) : BufferPool :=
  match s.frames.lookup pid with
  | some f =>
    let f := { f with pinCount := f.pinCount-1, dirty := f.dirty || dirty }
    { s with frames := s.frames.insert pid f }
  | none => s

def flushPage (s : BufferPool) (pid : PageId) : BufferPool :=
  match s.frames.lookup pid with
  | some f =>
    if f.dirty then
      let s := s.writeIfDirty f
      { s with frames := s.frames.insert pid { f with page := f.page.clearDirty, dirty := false } }
    else s
  | none => s

/-- The frames are visited in `order`, the iteration order of the frame map. -/
def flushAll (s : BufferPool) (order : List PageId) : BufferPool := order.foldl flushPage s

def discardPage (s : BufferPool) (pid : PageId) : BufferPool :=
  match s.frames.lookup pid with
  | some f => (s.writeIfDirty f).dropFrame pid
  | none => s

def discardAll (s : BufferPool) (order : List PageId) : BufferPool :=
  { s.flushAll order with frames := ∅, lruList := LinkedList.empty, lruIterators := ∅ }

def setPoolSize (fuel : ℕ) (s : BufferPool) (newSize : ℕ) : Option BufferPool := do
  let newSize := min newSize maxPoolSize
  let s ← evictWhile (newSize+1) fuel s
  return { s with poolSize := newSize }

/-- The public operations. -/
inductive PoolOp
  | fetchPage (table : TableId) (pid : PageId) (mode : FetchMode)
  | createNewPage (table : TableId) (type : PageType)
  | unpinPage (pid : PageId) (dirty : Bool)
  | flushPage (pid : PageId)
  | flushAll (order : List PageId)
  | discardPage (pid : PageId)
  | discardAll (order : List PageId)
  | setPoolSize (newSize : ℕ)

/-- An iteration order of the frame map lists its keys, each once. -/
def Enumerates (s : BufferPool) (order : List PageId) : Prop :=
  order.Nodup ∧ order.toFinset = s.frames.keys

instance (s : BufferPool) (order : List PageId) : Decidable (s.Enumerates order) :=
  inferInstanceAs (Decidable (_ ∧ _))

/-- One call, with the page it returns. There is no call with an order that is none. -/
def exec (fuel : ℕ) (s : BufferPool) : PoolOp → Option (Option Page × BufferPool)
  | .fetchPage table pid mode => s.fetchPage fuel table pid mode
  | .createNewPage table type => s.createNewPage fuel table type
  | .unpinPage pid dirty => some (none,s.unpinPage pid dirty)
  | .flushPage pid => some (none,s.flushPage pid)
  | .flushAll order => if s.Enumerates order then some (none,s.flushAll order) else none
  | .discardPage pid => some (none,s.discardPage pid)
  | .discardAll order => if s.Enumerates order then some (none,s.discardAll order) else none
  | .setPoolSize newSize => (s.setPoolSize fuel newSize).map fun s => (none,s)

end BufferPool
end OrangeSQL
