import OrangeSQL.DeadlockVictims
import OrangeSQL.Recovery
import OrangeSQL.Library.Threads

/-! The transaction layer with its mutexes: the calls of the transaction manager and of the lock
manager as a thread runs them that takes a mutex wherever the source does. -/
namespace OrangeSQL

open Threads

/-- The mutexes that the calls reach; each open file has one of its own. -/
inductive Mutex
  | transactionManager | lockManager | logManager | bufferPool | fileManager
  | fileHandle (table : TableId)
  deriving DecidableEq, Repr

namespace Guarded

section Storage

/-- `FileManager::writePage` on the file of a table: the file is looked up, then written if it could
be opened. -/
def writePage (opens : TableId → Bool) (table : TableId) : Thread Mutex Unit := do
  withLock .fileManager (return ())
  if opens table then withLock (.fileHandle table) (return ())

/-- What `flushPage` and `flushAll` do with one page while they hold the mutex of the pool. -/
def flushFrame (opens : TableId → Bool) (s : BufferPool) (pid : PageId) :
    Thread Mutex BufferPool := do
  if (s.frames.lookup pid).any (·.dirty) then
    writePage opens ((s.frames.lookup pid).elim 0 fun f => f.page.getTableId)
  return s.flushPage pid

def flushPage (opens : TableId → Bool) (s : BufferPool) (pid : PageId) : Thread Mutex BufferPool :=
  withLock .bufferPool (flushFrame opens s pid)

def flushAll (opens : TableId → Bool) (s : BufferPool) (order : List PageId) :
    Thread Mutex BufferPool :=
  withLock .bufferPool (order.foldlM (flushFrame opens) s)

def appendLogRecord (m : LogManager) (r : LogRecord) (now : ℤ) :
    Thread Mutex (LogSequenceNumber × LogManager) :=
  withLock .logManager (return m.appendLogRecord r now)

/-- `LogManager::flushAll` only calls `flush`. -/
def flushLog (m : LogManager) : Thread Mutex LogManager :=
  withLock .logManager (return m.flush m.currentLsn)

end Storage

section Locks

def releaseAllLocks (m : LockManager) (tx : TransactionId) : Thread Mutex LockManager :=
  withLock .lockManager (return m.releaseAllLocks tx)

def getWaitingTransactions (m : LockManager) (tx : TransactionId) :
    Thread Mutex (List TransactionId) :=
  withLock .lockManager (return m.getWaitingTransactions tx)

def checkDeadlock (m : LockManager) :
    ℕ → TransactionId → LockManager.SearchMarks → Thread Mutex (Bool × LockManager.SearchMarks)
  | 0, _, _ => throw .undefined
  | fuel+1, start, marks =>
    if marks.isVisited start then return (true,marks)
    else do
      let waiting ← getWaitingTransactions m start
      let (found,marks) ← loopUntil (fun waiter marks =>
        checkDeadlock m fuel waiter (marks.setParent waiter start)) waiting
        (marks.setVisited start true)
      return if found then (true,marks) else (false,marks.setVisited start false)

/-- The search takes the mutex once for each transaction that it enters. -/
def hasDeadlock (m : LockManager) (tx : TransactionId) : Thread Mutex Bool := do
  let (found,_) ← checkDeadlock m m.searchDepth tx ⟨∅,∅⟩
  return found

/-- A turn looks for a deadlock every hundred milliseconds, unless the time is up. -/
def Looks (c : LockManager.LockCall) (elapsed : ℕ) : Prop :=
  elapsed ≤ c.timeoutMs ∧ elapsed%100 = 0

instance (c : LockManager.LockCall) (elapsed : ℕ) : Decidable (Looks c elapsed) :=
  inferInstanceAs (Decidable (_ ∧ _))

/-- One turn of the wait loop, with the mutex held. -/
def poll (m : LockManager) (c : LockManager.LockCall) (elapsed : ℕ) :
    Thread Mutex (Option LockStatus × LockManager) := do
  if Looks c elapsed then
    let _ ← hasDeadlock m c.txId
  return m.poll c elapsed

/-- The wait loop after the thread has slept, when it holds no mutex; `turns` has the tables and the
time that it finds at each further turn. Without a status the call is still waiting. -/
def waitLoop (c : LockManager.LockCall) :
    List (LockManager × ℕ) → Thread Mutex (Option LockStatus)
  | [] => return none
  | (m,elapsed)::turns => do
    let (status,_) ← withLock .lockManager (poll m c elapsed)
    match status with
    | some status => return some status
    | none => waitLoop c turns

/-- The mutex is given back for the first time before the first sleep. -/
def acquireLock (m : LockManager) (c : LockManager.LockCall) (elapsed : ℕ)
    (turns : List (LockManager × ℕ)) : Thread Mutex (Option LockStatus) := do
  let (status,_) ← withLock .lockManager do
    if LockManager.canGrant (m.locksOn c.resource) c.mode then return m.acquireLock c elapsed
    else poll (m.enqueue c) c elapsed
  match status with
  | some status => return some status
  | none => waitLoop c turns

/-- The other calls of the lock manager read or change its tables in one scope. -/
def inScope {α : Type} (result : α) : Thread Mutex α := withLock .lockManager (return result)

def hasLock (m : LockManager) (tx : TransactionId) (r : String) (mode : LockMode) : Bool :=
  (m.locksOn r).any fun e => e.holder = tx ∧ e.mode = mode

def isLocked (m : LockManager) (r : String) : Bool := (m.grantedLocks.lookup r).isSome

/-- The most restrictive mode among the locks, starting from one. -/
def lockModeOf : LockMode → List LockEntry → LockMode
  | mode, [] => mode
  | mode, e::locks =>
    if e.mode = .exclusive then .exclusive
    else if e.mode = .sharedIntentExclusive then lockModeOf .sharedIntentExclusive locks
    else if e.mode = .intentExclusive ∧ mode ≠ .sharedIntentExclusive then
      lockModeOf .intentExclusive locks
    else if e.mode = .intentShared ∧ mode = .shared then lockModeOf .intentShared locks
    else lockModeOf mode locks

def getLockMode (m : LockManager) (r : String) : LockMode := lockModeOf .shared (m.locksOn r)

end Locks

section Transactions

open LogManager (makeRecord)

def appendRecord (m : TransactionManager) (type : LogRecordType) (tx : TransactionId)
    (data : Option (List UInt8)) (now : ℤ) :
    Thread Mutex (LogSequenceNumber × TransactionManager) := do
  let (lsn,log) ← appendLogRecord m.logManager (makeRecord type tx invalidPageId data) now
  return (lsn,{ m with logManager := log })

def begin (m : TransactionManager) (isolation : IsolationLevel) (mode : AccessMode) (now : ℤ) :
    Thread Mutex (Option TransactionId × TransactionManager) :=
  withLock .transactionManager do
    if m.maxTransactions ≤ m.activeTransactions.keys.card then return (none,m)
    let id := m.nextTxId
    let (lsn,m) ← appendRecord m .begin id none now
    let tx := { Transaction.new id isolation mode now with lastLsn := lsn }
    return (some id,{ m with
      activeTransactions := m.activeTransactions.insert id tx
      nextTxId := id+1 })

def finish (m : TransactionManager) (tx : Transaction) (type : LogRecordType)
    (state : TransactionState) (order : List TransactionId) (now : ℤ) :
    Thread Mutex TransactionManager := do
  let (lsn,m) ← appendRecord m type tx.id none now
  let tx := { tx with lastLsn := lsn, state := state }
  let locks ← releaseAllLocks m.lockManager tx.id
  let m := { m with lockManager := locks }
  let m := m.archiveCompletedTransaction tx order
  return { m with activeTransactions := m.activeTransactions.erase tx.id }

def commit (opens : TableId → Bool) (m : TransactionManager) (id : TransactionId)
    (pages : List PageId) (order : List TransactionId) (now : ℤ) :
    Thread Mutex (Status × TransactionManager) :=
  match m.activeTransactions.lookup id with
  | none => return (.error,m)
  | some tx =>
    if tx.state ≠ .active then return (.error,m)
    else withLock .transactionManager do
      let pool ← pages.foldlM (flushPage opens) m.bufferPool
      let m ← finish { m with bufferPool := pool } tx .commit .committed order now
      return (.ok,m)

/-- The access time that is set here is not kept in the model. -/
def getTransaction (m : TransactionManager) (id : TransactionId) :
    Thread Mutex (Option Transaction) :=
  withLock .transactionManager (return m.activeTransactions.lookup id)

def undoTransaction (m : TransactionManager) (id : TransactionId) : Thread Mutex Bool := do
  let tx ← getTransaction m id
  return tx.isSome

def abort (m : TransactionManager) (id : TransactionId) (order : List TransactionId) (now : ℤ) :
    Thread Mutex (Status × TransactionManager) :=
  match m.activeTransactions.lookup id with
  | none => return (.error,m)
  | some tx =>
    if tx.state ≠ .active then return (.error,m)
    else withLock .transactionManager do
      let undone ← undoTransaction m id
      if !undone then return (.error,m)
      let m ← finish m tx .abort .aborted order now
      return (.ok,m)

/-- `savepoint` and `rollbackToSavepoint` log a record, `releaseSavepoint` does not. -/
def update (m : TransactionManager) (id : TransactionId) (change : Transaction → Transaction)
    (type : Option LogRecordType) (name : List UInt8) (now : ℤ) :
    Thread Mutex (Status × TransactionManager) :=
  match m.activeTransactions.lookup id with
  | none => return (.error,m)
  | some tx =>
    if tx.state ≠ .active then return (.error,m)
    else do
      let m := { m with activeTransactions := m.activeTransactions.insert id (change tx) }
      match type with
      | none => return (.ok,m)
      | some type =>
        let (_,m) ← appendRecord m type id (some (name++[0])) now
        return (.ok,m)

def getActiveTransactions (m : TransactionManager) (order : List TransactionId) :
    Thread Mutex (List Transaction) :=
  withLock .transactionManager (return order.filterMap m.activeTransactions.lookup)

def checkpoint (opens : TableId → Bool) (m : TransactionManager) (pages : List PageId)
    (txs : List TransactionId) (now : ℤ) : Thread Mutex (Status × TransactionManager) :=
  withLock .transactionManager do
    let pool ← flushAll opens m.bufferPool pages
    let (_,m) ← appendRecord { m with bufferPool := pool } .checkpoint 0
      (some (TransactionManager.joinIds txs++[0])) now
    let log ← flushLog m.logManager
    return (.ok,{ m with logManager := log })

/-- Each pass reads the copy of the log; `redoTransaction` does nothing. -/
def recover (m : TransactionManager) (logs : Log) : Thread Mutex Status :=
  withLock .transactionManager do
    (Recovery.recover logs).undoTransaction.foldlM (fun _ tx => do
      let _ ← undoTransaction m tx
      return ()) ()
    return .ok

def detectorSearch (m : TransactionManager) :
    ℕ → TransactionId → List TransactionId → Thread Mutex (Bool × List TransactionId)
  | 0, _, _ => throw .undefined
  | fuel+1, start, visited =>
    if start ∈ visited then return (true,visited)
    else do
      let waitingFor ← getWaitingTransactions m.lockManager start
      let (found,visited) ← loopUntil (fun waiter visited => detectorSearch m fuel waiter visited)
        waitingFor (visited++[start])
      return if found then (true,visited) else (false,visited.dropLast)

/-- One turn of the loop over the active transactions. -/
def detectFrom (order : List TransactionId) (now : ℤ) (m : TransactionManager)
    (start : TransactionId) : Thread Mutex TransactionManager := do
  let (found,visited) ← detectorSearch m m.lockManager.searchDepth start []
  if found then
    if ∀ tx ∈ visited, tx ∈ m.activeTransactions then
      match TransactionManager.minElement m.priorityOf visited with
      | some victim =>
        let (_,m) ← abort m victim order now
        return m
      | none => return m
    else throw .undefined
  else return m

/-- A transaction that was aborted is erased once more. -/
def cleanupFrom (expired : TransactionId → Bool) (order : List TransactionId) (now : ℤ)
    (m : TransactionManager) (id : TransactionId) : Thread Mutex TransactionManager := do
  if expired id then
    let (_,m) ← abort m id order now
    return { m with activeTransactions := m.activeTransactions.erase id }
  else return m

/-- The body of the detector's loop after its sleep. The active transactions are walked through in
the order `txs`; `expired` says which of them were not accessed for longer than the timeout. -/
def detectDeadlocks (m : TransactionManager) (txs order : List TransactionId)
    (expired : TransactionId → Bool) (now : ℤ) : Thread Mutex TransactionManager :=
  withLock .transactionManager do
    let m ← txs.foldlM (detectFrom order now) m
    txs.foldlM (cleanupFrom expired order now) m

/-- The destructor aborts what is active, holding nothing. -/
def destroy (m : TransactionManager) (txs order : List TransactionId) (now : ℤ) :
    Thread Mutex TransactionManager :=
  txs.foldlM (fun m id => do
    let (_,m) ← abort m id order now
    return m) m

end Transactions

end Guarded

/-- The calls of the transaction manager that take a mutex, with one turn of the detector's thread
and the destructor. Where a hash map is walked through, the order is an argument. -/
inductive TransactionCall
  | begin (isolation : IsolationLevel) (mode : AccessMode) (now : ℤ)
  | commit (opens : TableId → Bool) (id : TransactionId) (pages : List PageId)
      (order : List TransactionId) (now : ℤ)
  | abort (id : TransactionId) (order : List TransactionId) (now : ℤ)
  | rollback (id : TransactionId) (order : List TransactionId) (now : ℤ)
  | savepoint (id : TransactionId) (name : List UInt8) (now : ℤ)
  | rollbackToSavepoint (id : TransactionId) (name : List UInt8) (now : ℤ)
  | releaseSavepoint (id : TransactionId) (name : List UInt8)
  | getTransaction (id : TransactionId)
  | getActiveTransactions (order : List TransactionId)
  | checkpoint (opens : TableId → Bool) (pages : List PageId) (txs : List TransactionId) (now : ℤ)
  | recover (logs : Log)
  | detectDeadlocks (txs order : List TransactionId) (expired : TransactionId → Bool) (now : ℤ)
  | destroy (txs order : List TransactionId) (now : ℤ)

namespace TransactionCall

/-- The orders that decide what the call does are orders of the manager's maps. -/
def Ordered (m : TransactionManager) : TransactionCall → Prop
  | .recover logs => ∀ lsn, logs.lookup lsn = m.logManager.logBuffer.lookup lsn
  | .detectDeadlocks txs _ _ _ => ∀ id, id ∈ txs ↔ id ∈ m.activeTransactions
  | .destroy txs _ _ => ∀ id, id ∈ txs ↔ id ∈ m.activeTransactions
  | _ => True

/-- The call, made by a thread that holds no mutex, asks for a mutex that it already holds. -/
def SelfDeadlocks (m : TransactionManager) : TransactionCall → Prop
  | .begin isolation mode now => Blocks [] (Guarded.begin m isolation mode now)
  | .commit opens id pages order now => Blocks [] (Guarded.commit opens m id pages order now)
  | .abort id order now => Blocks [] (Guarded.abort m id order now)
  | .rollback id order now => Blocks [] (Guarded.abort m id order now)
  | .savepoint id name now =>
    Blocks [] (Guarded.update m id (fun tx => tx.createSavepoint name) (some .savepoint) name now)
  | .rollbackToSavepoint id name now =>
    Blocks [] (Guarded.update m id (fun tx => tx.rollbackToSavepoint name) (some .rollbackSavepoint)
      name now)
  | .releaseSavepoint id name =>
    Blocks [] (Guarded.update m id (fun tx => tx.releaseSavepoint name) none name 0)
  | .getTransaction id => Blocks [] (Guarded.getTransaction m id)
  | .getActiveTransactions order => Blocks [] (Guarded.getActiveTransactions m order)
  | .checkpoint opens pages txs now => Blocks [] (Guarded.checkpoint opens m pages txs now)
  | .recover logs => Blocks [] (Guarded.recover m logs)
  | .detectDeadlocks txs order expired now =>
    Blocks [] (Guarded.detectDeadlocks m txs order expired now)
  | .destroy txs order now => Blocks [] (Guarded.destroy m txs order now)

end TransactionCall

/-- The calls of the lock manager. `turns` is what a call that has to wait finds each time it has
slept: the tables and the milliseconds since its start. -/
inductive LockManagerCall
  | acquireLock (c : LockManager.LockCall) (elapsed : ℕ) (turns : List (LockManager × ℕ))
  | releaseLock (tx : TransactionId) (resource : String)
  | releaseAllLocks (tx : TransactionId)
  | upgradeLock (tx : TransactionId) (resource : String) (newMode : LockMode)
  | hasLock (tx : TransactionId) (resource : String) (mode : LockMode)
  | isLocked (resource : String)
  | getLockMode (resource : String)
  | getWaitingTransactions (tx : TransactionId)
  | hasDeadlock (tx : TransactionId)
  | dumpLocks
  | dumpWaitGraph

def LockManagerCall.SelfDeadlocks (m : LockManager) : LockManagerCall → Prop
  | .acquireLock c elapsed turns => Blocks [] (Guarded.acquireLock m c elapsed turns)
  | .releaseLock tx resource => Blocks [] (Guarded.inScope (m.releaseLock tx resource))
  | .releaseAllLocks tx => Blocks [] (Guarded.releaseAllLocks m tx)
  | .upgradeLock tx resource newMode =>
    Blocks [] (Guarded.inScope (m.upgradeLock tx resource newMode))
  | .hasLock tx resource mode => Blocks [] (Guarded.inScope (Guarded.hasLock m tx resource mode))
  | .isLocked resource => Blocks [] (Guarded.inScope (Guarded.isLocked m resource))
  | .getLockMode resource => Blocks [] (Guarded.inScope (Guarded.getLockMode m resource))
  | .getWaitingTransactions tx => Blocks [] (Guarded.getWaitingTransactions m tx)
  | .hasDeadlock tx => Blocks [] (Guarded.hasDeadlock m tx)
  | .dumpLocks => Blocks [] (Guarded.inScope m.grantedLocks.entries)
  | .dumpWaitGraph => Blocks [] (Guarded.inScope m.waitingFor.entries)

end OrangeSQL
