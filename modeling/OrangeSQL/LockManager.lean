import OrangeSQL.Types
import OrangeSQL.Library.AssocList
import OrangeSQL.Library.DepthFirst

/-! The lock tables: the locks granted on a resource, the queue of those waiting for it, and the
resources each transaction waits for. Maps are kept in an order of iteration. A call holds the
mutex until it returns or sleeps, so that what it does in between is one step. -/
namespace OrangeSQL

open AssocList DepthFirst

inductive LockMode
  | shared | exclusive | intentShared | intentExclusive | sharedIntentExclusive
  deriving DecidableEq, Repr

inductive LockGranularity
  | table | page | row
  deriving DecidableEq, Repr

structure LockEntry where
  mode : LockMode
  holder : TransactionId
  granularity : LockGranularity
  deriving DecidableEq, Repr

structure LockWaitEntry where
  waiter : TransactionId
  requestedMode : LockMode
  deriving DecidableEq, Repr

inductive LockStatus
  | granted | waiting | timeout | deadlock
  deriving DecidableEq, Repr

structure LockManager where
  grantedLocks : AList fun _ : String => List LockEntry
  waitQueues : AList fun _ : String => List LockWaitEntry
  waitingFor : AList fun _ : TransactionId => List String

namespace LockManager

def new : LockManager := ⟨∅,∅,∅⟩

/-- `granted_locks_[r]`: no lock where the map has no entry. -/
def locksOn (m : LockManager) (r : String) : List LockEntry := (m.grantedLocks.lookup r).getD []

def queueOn (m : LockManager) (r : String) : List LockWaitEntry := (m.waitQueues.lookup r).getD []

def setLocks (m : LockManager) (r : String) (locks : List LockEntry) : LockManager :=
  { m with grantedLocks := m.grantedLocks.insert r locks }

def setQueue (m : LockManager) (r : String) (queue : List LockWaitEntry) : LockManager :=
  { m with waitQueues := m.waitQueues.insert r queue }

/-- The compatibility matrix of the modes. -/
def areCompatible (existing requested : LockMode) : Bool :=
  if existing = .exclusive ∨ requested = .exclusive then false
  else if existing = .sharedIntentExclusive then
    decide (requested = .shared ∨ requested = .intentShared)
  else if requested = .sharedIntentExclusive then
    decide (existing = .shared ∨ existing = .intentShared)
  else if existing = .intentExclusive then decide (requested = .intentShared)
  else if requested = .intentExclusive then decide (existing = .intentShared)
  else true

def canGrant (currentLocks : List LockEntry) (requested : LockMode) : Bool :=
  currentLocks.all fun lock => areCompatible lock.mode requested

def hasLock (m : LockManager) (tx : TransactionId) (r : String) (mode : LockMode) : Bool :=
  (m.locksOn r).any fun lock => lock.holder = tx ∧ lock.mode = mode

/-- The transactions that wait for a resource on which `tx` holds a lock, once for each such
resource. -/
def getWaitingTransactions (m : LockManager) (tx : TransactionId) : List TransactionId :=
  m.waitingFor.entries.flatMap fun e =>
    if e.1 = tx then []
    else (e.2.filter fun r => (m.locksOn r).any fun lock => lock.holder = tx).map fun _ => e.1

/-- What the search for a deadlock writes: the marks of the current path, and for each waiter the
transaction it was reached from. -/
structure SearchMarks where
  visited : AList fun _ : TransactionId => Bool
  parent : AList fun _ : TransactionId => TransactionId

def SearchMarks.isVisited (marks : SearchMarks) (tx : TransactionId) : Bool :=
  (marks.visited.lookup tx).getD false

def SearchMarks.setVisited (marks : SearchMarks) (tx : TransactionId) (b : Bool) : SearchMarks :=
  { marks with visited := marks.visited.insert tx b }

def SearchMarks.setParent (marks : SearchMarks) (tx start : TransactionId) : SearchMarks :=
  { marks with parent := marks.parent.insert tx start }

/-- The recursion has no bound of its own; without fuel it does not answer. -/
def checkDeadlock (m : LockManager) :
    ℕ → TransactionId → SearchMarks → Option (Bool × SearchMarks)
  | 0, _, _ => none
  | fuel+1, start, marks =>
    if marks.isVisited start then some (true,marks)
    else
      match loopUntil (fun waiter marks =>
          checkDeadlock m fuel waiter (marks.setParent waiter start))
          (m.getWaitingTransactions start) (marks.setVisited start true) with
      | some (false,marks) => some (false,marks.setVisited start false)
      | answer => answer

def hasDeadlock (m : LockManager) (fuel : ℕ) (tx : TransactionId) : Option Bool :=
  (m.checkDeadlock fuel tx ⟨∅,∅⟩).map Prod.fst

/-- More calls than a search can nest: it enters only the start and those that wait. -/
def searchDepth (m : LockManager) : ℕ := m.waitingFor.keys.length+2

/-- Take a resource off the list of a transaction, and an empty list out of the map. -/
def stopWaiting (m : LockManager) (r : String) (tx : TransactionId) : LockManager :=
  let waiting := ((m.waitingFor.lookup tx).getD []).filter fun x => x ≠ r
  { m with waitingFor :=
      if waiting.isEmpty then m.waitingFor.erase tx else m.waitingFor.insert tx waiting }

def removeFromWaitQueue (m : LockManager) (r : String) (tx : TransactionId) : LockManager :=
  (m.setQueue r ((m.queueOn r).filter fun e => e.waiter ≠ tx)).stopWaiting r tx

/-- The arguments of a call of `acquireLock`. -/
structure LockCall where
  txId : TransactionId
  resource : String
  mode : LockMode
  granularity : LockGranularity
  timeoutMs : ℕ
  deriving DecidableEq, Repr

def LockCall.entry (c : LockCall) : LockEntry := ⟨c.mode,c.txId,c.granularity⟩

def addLock (m : LockManager) (c : LockCall) : LockManager :=
  m.setLocks c.resource (m.locksOn c.resource++[c.entry])

def enqueue (m : LockManager) (c : LockCall) : LockManager :=
  let m := m.setQueue c.resource (m.queueOn c.resource++[⟨c.txId,c.mode⟩])
  let waiting := (m.waitingFor.lookup c.txId).getD []
  { m with waitingFor := m.waitingFor.insert c.txId (waiting++[c.resource]) }

/-- One turn of the wait loop, `elapsed` milliseconds after its start. Without a status the call
goes to sleep. A grant takes the front of the queue out, whoever that is. -/
def poll (m : LockManager) (c : LockCall) (elapsed : ℕ) : Option LockStatus × LockManager :=
  if c.timeoutMs < elapsed then (some .timeout,m.removeFromWaitQueue c.resource c.txId)
  else if elapsed%100 = 0 ∧ m.hasDeadlock m.searchDepth c.txId = some true then
    (some .deadlock,m.removeFromWaitQueue c.resource c.txId)
  else if canGrant (m.locksOn c.resource) c.mode then
    let m := m.setQueue c.resource (m.queueOn c.resource).tail
    (some .granted,(m.stopWaiting c.resource c.txId).addLock c)
  else (none,m)

/-- The call up to its return or its first sleep. -/
def acquireLock (m : LockManager) (c : LockCall) (elapsed : ℕ) : Option LockStatus × LockManager :=
  if canGrant (m.locksOn c.resource) c.mode then
    (some .granted,(m.setQueue c.resource (m.queueOn c.resource)).addLock c)
  else (m.enqueue c).poll c elapsed

def releaseLock (m : LockManager) (tx : TransactionId) (r : String) : Bool × LockManager :=
  match m.grantedLocks.lookup r with
  | none => (false,m)
  | some locks =>
    let rest := locks.filter fun e => e.holder ≠ tx
    (true,{ m with grantedLocks :=
      if rest.isEmpty then m.grantedLocks.erase r else m.grantedLocks.insert r rest })

/-- Resources without a lock left are taken out of the map, empty queues stay. -/
def releaseAllLocks (m : LockManager) (tx : TransactionId) : LockManager where
  grantedLocks := filterMapValues (fun _ locks =>
    let rest := locks.filter fun e => e.holder ≠ tx
    if rest.isEmpty then none else some rest) m.grantedLocks
  waitQueues := filterMapValues (fun _ queue =>
    some (queue.filter fun e => e.waiter ≠ tx)) m.waitQueues
  waitingFor := m.waitingFor.erase tx

/-- The granularity is read through the iterator of the lock just erased, where now the next lock
is, or still the erased one if it was the last. -/
def upgradeLock (m : LockManager) (tx : TransactionId) (r : String) (newMode : LockMode) :
    LockStatus × LockManager :=
  let locks := m.locksOn r
  match locks.dropWhile fun e => e.holder ≠ tx with
  | [] => (.timeout,m.setLocks r locks)
  | old::behind =>
    let rest := (locks.takeWhile fun e => e.holder ≠ tx)++behind
    let granularity := (behind.headD old).granularity
    if canGrant rest newMode then (.granted,m.setLocks r (rest++[⟨newMode,tx,granularity⟩]))
    else (.waiting,m.setLocks r (rest++[⟨old.mode,tx,granularity⟩]))

end LockManager
end OrangeSQL
