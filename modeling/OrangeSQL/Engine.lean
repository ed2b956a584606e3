import OrangeSQL.TransactionManager

/-! The storage engine in operation: transactions, the log, the lock tables and the buffer pool,
driven call by call by any number of clients. -/
namespace OrangeSQL

open LogManager (LogCall)

structure Engine where
  manager : TransactionManager
  wal : WalManager

/-- The calls of the clients. `modifyPage` is a write through the pointer to a cached page, `log` a
direct call on the log manager, such as the flush of its synchronisation thread. -/
inductive EngineOp
  | begin (isolation : IsolationLevel) (mode : AccessMode) (now : ℤ)
  | logInsert (tx : TransactionId) (pid : PageId) (record : List Value) (rid : RecordId) (now : ℤ)
  | logUpdate (tx : TransactionId) (pid : PageId) (old new : List Value) (rid : RecordId) (now : ℤ)
  | logDelete (tx : TransactionId) (pid : PageId) (record : List Value) (rid : RecordId) (now : ℤ)
  | beforePageWrite (pid : PageId) (lsn : LogSequenceNumber)
  | modifyPage (pid : PageId) (change : Page → Page)
  | addModifiedPage (tx : TransactionId) (pid : PageId) (lsn : UInt32)
  | commit (tx : TransactionId) (pages : List PageId) (order : List TransactionId) (now : ℤ)
      (others : List LogCall)
  | abort (tx : TransactionId) (order : List TransactionId) (now : ℤ)
  | savepoint (tx : TransactionId) (name : List UInt8) (now : ℤ)
  | rollbackToSavepoint (tx : TransactionId) (name : List UInt8) (now : ℤ)
  | releaseSavepoint (tx : TransactionId) (name : List UInt8)
  | checkpoint (pages : List PageId) (txs : List TransactionId) (now : ℤ)
  | pool (op : BufferPool.PoolOp)
  | log (call : LogCall)

namespace Engine

def pool (e : Engine) : BufferPool := e.manager.bufferPool
def log (e : Engine) : LogManager := e.manager.logManager

def withPool (e : Engine) (pool : BufferPool) : Engine :=
  { e with manager := { e.manager with bufferPool := pool } }

def withLog (e : Engine) (log : LogManager) : Engine :=
  { e with manager := { e.manager with logManager := log } }

def withManager (e : Engine) (m : TransactionManager) : Engine := { e with manager := m }

/-- An order in which a hash map with these keys can be walked through. -/
def Lists {α : Type} [DecidableEq α] (order : List α) (keys : Finset α) : Prop :=
  order.Nodup ∧ order.toFinset = keys

instance {α : Type} [DecidableEq α] (order : List α) (keys : Finset α) :
    Decidable (Lists order keys) := inferInstanceAs (Decidable (_ ∧ _))

/-- The modified pages of an active transaction. -/
def modifiedPages (e : Engine) (id : TransactionId) : Finset PageId :=
  (e.manager.activeTransactions.lookup id).elim ∅ fun tx => tx.modifiedPages.keys

def modifyPage (s : BufferPool) (pid : PageId) (change : Page → Page) : BufferPool :=
  match s.frames.lookup pid with
  | some f => { s with frames := s.frames.insert pid { f with page := change f.page } }
  | none => s

def addModifiedPage (m : TransactionManager) (id : TransactionId) (pid : PageId) (lsn : UInt32) :
    TransactionManager :=
  match m.activeTransactions.lookup id with
  | some tx => { m with
      activeTransactions := m.activeTransactions.insert id (tx.addModifiedPage pid lsn) }
  | none => m

/-- One call that returns. There is no call with an order that is none. -/
def exec (fuel : ℕ) (e : Engine) : EngineOp → Option Engine
  | .begin isolation mode now => some (e.withManager (e.manager.begin isolation mode now).2)
  | .logInsert tx pid record rid now =>
    some (e.withLog (WalManager.logInsert e.log tx pid record rid now).2)
  | .logUpdate tx pid old new rid now =>
    some (e.withLog (WalManager.logUpdate e.log tx pid old new rid now).2)
  | .logDelete tx pid record rid now =>
    some (e.withLog (WalManager.logDelete e.log tx pid record rid now).2)
  | .beforePageWrite pid lsn =>
    let (wal,log) := e.wal.beforePageWrite e.log pid lsn
    some { e.withLog log with wal := wal }
  | .modifyPage pid change => some (e.withPool (modifyPage e.pool pid change))
  | .addModifiedPage tx pid lsn => some (e.withManager (addModifiedPage e.manager tx pid lsn))
  | .commit tx pages order now others =>
    if Lists pages (e.modifiedPages tx) ∧
        Lists order (insert tx e.manager.completedTransactions.keys) then
      some (e.withManager (e.manager.commit tx pages order now others).2)
    else none
  | .abort tx order now =>
    if Lists order (insert tx e.manager.completedTransactions.keys) then
      some (e.withManager (e.manager.abort tx order now).2)
    else none
  | .savepoint tx name now => some (e.withManager (e.manager.savepoint tx name now).2)
  | .rollbackToSavepoint tx name now =>
    some (e.withManager (e.manager.rollbackToSavepoint tx name now).2)
  | .releaseSavepoint tx name => some (e.withManager (e.manager.releaseSavepoint tx name).2)
  | .checkpoint pages txs now =>
    if Lists pages e.pool.frames.keys ∧ Lists txs e.manager.activeTransactions.keys then
      some (e.withManager (e.manager.checkpoint pages txs now).2)
    else none
  | .pool op => (e.pool.exec fuel op).map fun x => e.withPool x.2
  | .log call => some (e.withLog (call.run e.log))

section Calls

variable {fuel : ℕ} {e e' : Engine}

theorem exec_commit {id : TransactionId} {pages : List PageId} {order : List TransactionId} {now : ℤ}
    {others : List LogCall} (h : e.exec fuel (.commit id pages order now others) = some e') :
    Lists pages (e.modifiedPages id) ∧
      e' = e.withManager (e.manager.commit id pages order now others).2 := by
  obtain ⟨horders,hsome⟩ := Option.ite_none_right_eq_some.mp h
  exact ⟨horders.1,(Option.some.inj hsome).symm⟩

theorem exec_abort {id : TransactionId} {order : List TransactionId} {now : ℤ}
    (h : e.exec fuel (.abort id order now) = some e') :
    e' = e.withManager (e.manager.abort id order now).2 := by
  obtain ⟨_,hsome⟩ := Option.ite_none_right_eq_some.mp h
  exact (Option.some.inj hsome).symm

theorem exec_checkpoint {pages : List PageId} {txs : List TransactionId} {now : ℤ}
    (h : e.exec fuel (.checkpoint pages txs now) = some e') :
    e.pool.Enumerates pages ∧ e' = e.withManager (e.manager.checkpoint pages txs now).2 := by
  obtain ⟨horders,hsome⟩ := Option.ite_none_right_eq_some.mp h
  exact ⟨horders.1,(Option.some.inj hsome).symm⟩

theorem exec_pool {op : BufferPool.PoolOp} (h : e.exec fuel (.pool op) = some e') :
    ∃ r s, e.pool.exec fuel op = some (r,s) ∧ e' = e.withPool s := by
  obtain ⟨⟨r,s⟩,hexec,rfl⟩ := Option.map_eq_some_iff.mp h
  exact ⟨r,s,hexec,rfl⟩

end Calls

/-- The engine after start-up: an empty pool over any disk, and a log manager that `init` has
opened in this mode on any log file. -/
def Started (mode : LogMode) (e : Engine) : Prop :=
  ∃ n disk next unset file creatable log,
    (LogManager.new mode).init unset file creatable = .ok log ∧
    e = ⟨TransactionManager.new (BufferPool.new n disk next) log,⟨∅⟩⟩

/-- The states that any sequence of calls reaches. -/
inductive Reaches (start : Engine) : Engine → Prop
  | start : Reaches start start
  | call {e e' : Engine} {fuel : ℕ} {op : EngineOp} :
      Reaches start e → e.exec fuel op = some e' → Reaches start e'

/-- What the start has and each call keeps holds in every state reached. -/
theorem Reaches.inv {P : Engine → Prop} {start e : Engine} (h : Reaches start e) (hstart : P start)
    (hstep : ∀ e e' fuel op, P e → e.exec fuel op = some e' → P e') : P e := by
  induction h with
  | start => exact hstart
  | call _ hexec ih => exact hstep _ _ _ _ ih hexec

end Engine
end OrangeSQL
