import OrangeSQL.BufferPool
import OrangeSQL.LockManager
import OrangeSQL.Wal

/-! Transactions and their manager, which works on the buffer pool and the log. A transaction is
named by its id, mutexes are no-ops, and where the source walks through a hash map the order is
an argument. -/
namespace OrangeSQL

inductive TransactionState
  | active | prepared | committed | aborted | rollback
  deriving DecidableEq, Repr

inductive AccessMode
  | readOnly | readWrite
  deriving DecidableEq, Repr

inductive IsolationLevel
  | readUncommitted | readCommitted | repeatableRead | serializable
  deriving DecidableEq, Repr

inductive TransactionPriority
  | low | normal | high | critical
  deriving DecidableEq, Repr

/-- The before images of a savepoint are never filled. -/
structure Savepoint where
  name : List UInt8
  logPosition : LogSequenceNumber
  deriving DecidableEq, Repr

structure Transaction where
  id : TransactionId
  state : TransactionState
  isolation : IsolationLevel
  mode : AccessMode
  priority : TransactionPriority
  startTime : ℤ
  lastLsn : LogSequenceNumber
  modifiedPages : Finmap (fun _ : PageId => UInt32)
  savepoints : List Savepoint

namespace Transaction

def new (id : TransactionId) (isolation : IsolationLevel) (mode : AccessMode) (now : ℤ) :
    Transaction :=
  ⟨id,.active,isolation,mode,.normal,now,0,∅,[]⟩

def addModifiedPage (t : Transaction) (pid : PageId) (lsn : UInt32) : Transaction :=
  { t with modifiedPages := t.modifiedPages.insert pid lsn }

def createSavepoint (t : Transaction) (name : List UInt8) : Transaction :=
  { t with savepoints := t.savepoints++[⟨name,t.lastLsn⟩] }

/-- The first savepoint of the name goes, with all that follow it. -/
def rollbackToSavepoint (t : Transaction) (name : List UInt8) : Transaction :=
  { t with savepoints := t.savepoints.takeWhile fun s => s.name ≠ name }

def releaseSavepoint (t : Transaction) (name : List UInt8) : Transaction :=
  { t with savepoints := t.savepoints.eraseP fun s => s.name = name }

end Transaction

structure TransactionManager where
  bufferPool : BufferPool
  logManager : LogManager
  lockManager : LockManager
  activeTransactions : Finmap (fun _ : TransactionId => Transaction)
  completedTransactions : Finmap (fun _ : TransactionId => Transaction)
  nextTxId : TransactionId
  maxTransactions : ℕ

namespace TransactionManager

open LogManager (makeRecord LogCall runCalls)

def new (pool : BufferPool) (log : LogManager) : TransactionManager :=
  ⟨pool,log,.new,∅,∅,1,1000⟩

/-- Append a record that names no page, as all records of the manager do. -/
def appendRecord (m : TransactionManager) (type : LogRecordType) (tx : TransactionId)
    (data : Option (List UInt8)) (now : ℤ) : LogSequenceNumber × TransactionManager :=
  let (lsn,log) := m.logManager.appendLogRecord (makeRecord type tx invalidPageId data) now
  (lsn,{ m with logManager := log })

def begin (m : TransactionManager) (isolation : IsolationLevel) (mode : AccessMode) (now : ℤ) :
    Option TransactionId × TransactionManager :=
  if m.maxTransactions ≤ m.activeTransactions.keys.card then (none,m)
  else
    let id := m.nextTxId
    let (lsn,m) := m.appendRecord .begin id none now
    let tx := { Transaction.new id isolation mode now with lastLsn := lsn }
    (some id,{ m with
      activeTransactions := m.activeTransactions.insert id tx
      nextTxId := id+1 })

def maxCompleted : ℕ := 10000

/-- `std::min_element`: the first of the smallest elements. -/
def minElement (f : TransactionId → ℤ) : List TransactionId → Option TransactionId
  | [] => none
  | x::xs => some (xs.foldl (fun best y => if f y < f best then y else best) x)

/-- All before it are larger, none behind it is smaller. -/
theorem minElement_split {f : TransactionId → ℤ} {l : List TransactionId} {x : TransactionId}
    (h : minElement f l = some x) :
    ∃ front back, l = front++x::back ∧ (∀ y ∈ front, f x < f y) ∧ ∀ y ∈ back, f x ≤ f y := by
  cases l with
  | nil => cases h
  | cons a ys =>
    rw [← Option.some.inj h]
    clear h
    induction ys using List.reverseRecOn with
    | nil => exact ⟨[],[],rfl,by simp,by simp⟩
    | append_singleton ys y ih =>
      obtain ⟨front,back,hsplit,hfront,hback⟩ := ih
      rw [List.foldl_append,List.foldl_cons,List.foldl_nil,← List.cons_append,hsplit]
      set best := ys.foldl (fun best y => if f y < f best then y else best) a
      split
      · next hlt =>
        refine ⟨front++best::back,[],rfl,?_,by simp⟩
        intro z hz
        rcases List.mem_append.mp hz with hz | hz
        · exact hlt.trans (hfront z hz)
        · rcases List.mem_cons.mp hz with rfl | hz
          · exact hlt
          · exact hlt.trans_le (hback z hz)
      · next hle =>
        refine ⟨front,back++[y],by simp,hfront,?_⟩
        intro z hz
        rcases List.mem_append.mp hz with hz | hz
        · exact hback z hz
        · rw [List.mem_singleton.mp hz]
          exact not_lt.mp hle

/-- One transaction too many makes the oldest go, the first such in the order of the map. -/
def archiveCompletedTransaction (m : TransactionManager) (tx : Transaction)
    (order : List TransactionId) : TransactionManager :=
  let completed := m.completedTransactions.insert tx.id tx
  let startTime (id : TransactionId) : ℤ := (completed.lookup id).elim 0 Transaction.startTime
  { m with completedTransactions :=
      if maxCompleted < completed.keys.card then
        (minElement startTime order).elim completed completed.erase
      else completed }

/-- The common end of a commit and of an abort. -/
def finish (m : TransactionManager) (tx : Transaction) (type : LogRecordType)
    (state : TransactionState) (order : List TransactionId) (now : ℤ) : TransactionManager :=
  let (lsn,m) := m.appendRecord type tx.id none now
  let tx := { tx with lastLsn := lsn, state := state }
  let m := { m with lockManager := m.lockManager.releaseAllLocks tx.id }
  let m := m.archiveCompletedTransaction tx order
  { m with activeTransactions := m.activeTransactions.erase tx.id }

/-- The modified pages are written in the order `pages`; `others` are the calls on the log that
other threads make before the commit returns. -/
def commit (m : TransactionManager) (id : TransactionId) (pages : List PageId)
    (order : List TransactionId) (now : ℤ) (others : List LogCall) : Status × TransactionManager :=
  match m.activeTransactions.lookup id with
  | none => (.error,m)
  | some tx =>
    if tx.state ≠ .active then (.error,m)
    else
      let m := { m with bufferPool := m.bufferPool.flushAll pages }
      let m := m.finish tx .commit .committed order now
      (.ok,{ m with logManager := runCalls m.logManager others })

/-- The undo pass reads the records of the transaction and does nothing with them; it fails for
a transaction that is not in the map of the active ones. -/
def undoTransaction (m : TransactionManager) (id : TransactionId) : Bool :=
  (m.activeTransactions.lookup id).isSome

def abort (m : TransactionManager) (id : TransactionId) (order : List TransactionId) (now : ℤ) :
    Status × TransactionManager :=
  match m.activeTransactions.lookup id with
  | none => (.error,m)
  | some tx =>
    if tx.state ≠ .active then (.error,m)
    else if !m.undoTransaction id then (.error,m)
    else (.ok,m.finish tx .abort .aborted order now)

def rollback (m : TransactionManager) (id : TransactionId) (order : List TransactionId) (now : ℤ) :
    Status × TransactionManager :=
  m.abort id order now

/-- A call on an active transaction: change it and log a record, if there is one to log. -/
def update (m : TransactionManager) (id : TransactionId) (change : Transaction → Transaction)
    (type : Option LogRecordType) (name : List UInt8) (now : ℤ) : Status × TransactionManager :=
  match m.activeTransactions.lookup id with
  | none => (.error,m)
  | some tx =>
    if tx.state ≠ .active then (.error,m)
    else
      let m := { m with activeTransactions := m.activeTransactions.insert id (change tx) }
      (.ok,type.elim m fun type => (m.appendRecord type id (some (name++[0])) now).2)

def savepoint (m : TransactionManager) (id : TransactionId) (name : List UInt8) (now : ℤ) :
    Status × TransactionManager :=
  m.update id (fun tx => tx.createSavepoint name) (some .savepoint) name now

def rollbackToSavepoint (m : TransactionManager) (id : TransactionId) (name : List UInt8)
    (now : ℤ) : Status × TransactionManager :=
  m.update id (fun tx => tx.rollbackToSavepoint name) (some .rollbackSavepoint) name now

def releaseSavepoint (m : TransactionManager) (id : TransactionId) (name : List UInt8) :
    Status × TransactionManager :=
  m.update id (fun tx => tx.releaseSavepoint name) none name 0

def decimal (n : ℕ) : List UInt8 := (Nat.toDigits 10 n).map fun c => UInt8.ofNat c.toNat

/-- The ids as decimal numbers with commas between them. -/
def joinIds (ids : List TransactionId) : List UInt8 := List.intercalate [44] (ids.map decimal)

/-- All dirty pages are written, then the record with the ids in the order `txs`, then the log. -/
def checkpoint (m : TransactionManager) (pages : List PageId) (txs : List TransactionId)
    (now : ℤ) : Status × TransactionManager :=
  let m := { m with bufferPool := m.bufferPool.flushAll pages }
  let (_,m) := m.appendRecord .checkpoint 0 (some (joinIds txs++[0])) now
  (.ok,{ m with logManager := m.logManager.flushAll })

/-- The detector's own search, with the current path in a vector. -/
def checkDeadlock (m : TransactionManager) :
    ℕ → TransactionId → List TransactionId → Option (Bool × List TransactionId)
  | 0, _, _ => none
  | fuel+1, start, visited =>
    if start ∈ visited then some (true,visited)
    else
      match DepthFirst.loopUntil (fun waiter visited => checkDeadlock m fuel waiter visited)
          (m.lockManager.getWaitingTransactions start) (visited++[start]) with
      | some (false,visited) => some (false,visited.dropLast)
      | answer => answer

end TransactionManager
end OrangeSQL
