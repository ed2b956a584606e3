import OrangeSQL.MutexScopes
import OrangeSQL.RecoveryAnalysis
import OrangeSQL.CommitDurability

/-! Calls that wait for themselves. Every public call of the transaction manager and of the lock
manager is run by a thread that holds nothing at first; a call that asks for a mutex which it
already holds never returns. All other calls return what they return without mutexes. -/
namespace OrangeSQL

open Threads

namespace Recovery

/-- From the checkpoint on there is a BEGIN record of the transaction, and behind it in the order of
the log no COMMIT or ABORT record. -/
def LeftOpen (logs : Log) (tx : TransactionId) : Prop :=
  ∃ pre e post, logs.entries = pre++e::post ∧ Begins (checkpointLsn logs) tx e ∧
    ∀ e' ∈ post, Ends tx e' → ¬checkpointLsn logs ≤ e'.1

theorem mem_undo_iff_leftOpen (logs : Log) (tx : TransactionId) :
    tx ∈ (recover logs).undoTransaction ↔ LeftOpen logs tx := by
  constructor
  · intro h
    obtain ⟨e,⟨pre,post,hsplit,hpost⟩,he⟩ := (mem_undo_iff_last logs tx).mp h
    refine ⟨pre,e,post,hsplit,he,?_⟩
    intro e' he' hend hckpt
    obtain ⟨s,hs⟩ := stateWrite_of_ends hend hckpt
    exact hpost e' he' s hs
  · rintro ⟨pre,e,post,hsplit,he,hnone⟩
    exact mem_undo_of_no_end hsplit he hnone

end Recovery

namespace Guarded

section Storage

variable {held : List Mutex} (opens : TableId → Bool)
  (hfile : .fileManager ∉ held) (hhandle : ∀ table, .fileHandle table ∉ held)

section Pages

include hfile hhandle

theorem returns_writePage (table : TableId) : Returns held (writePage opens table) () := by
  unfold writePage
  refine ((returns_pure ()).withLock hfile).bind ?_
  split_ifs
  · exact (returns_pure ()).withLock (hhandle table)
  · exact returns_pure ()

theorem returns_flushFrame (s : BufferPool) (pid : PageId) :
    Returns held (flushFrame opens s pid) (s.flushPage pid) := by
  unfold flushFrame
  split_ifs
  · exact (returns_writePage opens hfile hhandle _).bind (returns_pure _)
  · exact returns_pure _

theorem returns_flushPage (hpool : .bufferPool ∉ held) (s : BufferPool) (pid : PageId) :
    Returns held (flushPage opens s pid) (s.flushPage pid) := by
  refine (returns_flushFrame opens ?_ ?_ s pid).withLock hpool
  · simpa using hfile
  · simpa using hhandle

theorem returns_flushAll (hpool : .bufferPool ∉ held) (s : BufferPool) (order : List PageId) :
    Returns held (flushAll opens s order) (s.flushAll order) := by
  refine Returns.withLock hpool (returns_foldlM s ?_)
  intro s pid _
  apply returns_flushFrame opens
  · simpa using hfile
  · simpa using hhandle

end Pages

theorem returns_appendLogRecord (hlog : .logManager ∉ held) (m : LogManager) (r : LogRecord)
    (now : ℤ) : Returns held (appendLogRecord m r now) (m.appendLogRecord r now) :=
  (returns_pure _).withLock hlog

end Storage

section Locks

variable {held : List Mutex}

theorem returns_getWaitingTransactions (hlock : .lockManager ∉ held) (m : LockManager)
    (tx : TransactionId) :
    Returns held (getWaitingTransactions m tx) (m.getWaitingTransactions tx) :=
  (returns_pure _).withLock hlock

/-- A thread that does not hold the mutex of the tables gets the answer of the search. -/
theorem returns_checkDeadlock (hlock : .lockManager ∉ held) (m : LockManager) {fuel : ℕ}
    {start : TransactionId} {marks : LockManager.SearchMarks} {r : Bool × LockManager.SearchMarks}
    (h : m.checkDeadlock fuel start marks = some r) :
    Returns held (checkDeadlock m fuel start marks) r := by
  induction fuel generalizing start marks r with
  | zero => simp [LockManager.checkDeadlock] at h
  | succ fuel ih =>
    rw [LockManager.checkDeadlock] at h
    rw [checkDeadlock]
    split_ifs at h ⊢ with hvisited
    · obtain rfl := Option.some.inj h
      exact returns_pure _
    · refine (returns_getWaitingTransactions hlock m start).bind ?_
      have hloop : ∀ x, DepthFirst.loopUntil (fun waiter marks =>
          m.checkDeadlock fuel waiter (marks.setParent waiter start))
          (m.getWaitingTransactions start) (marks.setVisited start true) = some x →
          Returns held (loopUntil (fun waiter marks =>
            checkDeadlock m fuel waiter (marks.setParent waiter start))
            (m.getWaitingTransactions start) (marks.setVisited start true)) x := fun x hx =>
        returns_loopUntil (fun waiter marks r hr => ih hr) hx
      split at h
      · next marks' hanswer =>
        obtain rfl := Option.some.inj h
        exact (hloop _ hanswer).bind (returns_pure _)
      · next answer hne =>
        obtain ⟨found,marks'⟩ := r
        cases found with
        | true => exact (hloop _ h).bind (returns_pure _)
        | false => exact absurd h (hne marks')

theorem returns_hasDeadlock (hlock : .lockManager ∉ held) (m : LockManager) (tx : TransactionId) :
    ∃ b, Returns held (hasDeadlock m tx) b := by
  obtain ⟨b,marks,hsearch,_⟩ := m.exists_search tx le_rfl
  exact ⟨b,(returns_checkDeadlock hlock m hsearch).bind (returns_pure _)⟩

/-- The first transaction that a search enters is its start. -/
theorem blocks_hasDeadlock (hlock : .lockManager ∈ held) (m : LockManager) (tx : TransactionId) :
    Blocks held (hasDeadlock m tx) := by
  apply Blocks.bind
  have hfuel : m.searchDepth = m.waitingFor.keys.length+1+1 := rfl
  have hmarks : LockManager.SearchMarks.isVisited ⟨∅,∅⟩ tx = false := by
    simp [LockManager.SearchMarks.isVisited]
  rw [hfuel,checkDeadlock,hmarks]
  exact (withLock_held hlock _).bind _

theorem returns_poll {m : LockManager} {c : LockManager.LockCall} {elapsed : ℕ}
    (h : ¬Looks c elapsed) : Returns held (poll m c elapsed) (m.poll c elapsed) := by
  unfold poll
  dsimp only
  rw [if_neg h]
  exact returns_pure _

theorem blocks_poll (hlock : .lockManager ∈ held) (m : LockManager) {c : LockManager.LockCall}
    {elapsed : ℕ} (h : Looks c elapsed) : Blocks held (poll m c elapsed) := by
  unfold poll
  dsimp only
  rw [if_pos h]
  exact (blocks_hasDeadlock hlock m c.txId).bind _

/-- Some turn that the wait loop comes to looks for a deadlock: no turn before it found the time up
or the lock free. -/
def ReachesLook (c : LockManager.LockCall) : List (LockManager × ℕ) → Prop
  | [] => False
  | (m,elapsed)::turns => Looks c elapsed ∨
      elapsed ≤ c.timeoutMs ∧ LockManager.canGrant (m.locksOn c.resource) c.mode = false ∧
        ReachesLook c turns

theorem poll_none_iff {m : LockManager} {c : LockManager.LockCall} {elapsed : ℕ}
    (h : ¬Looks c elapsed) : (m.poll c elapsed).1 = none ↔
      elapsed ≤ c.timeoutMs ∧ LockManager.canGrant (m.locksOn c.resource) c.mode = false := by
  unfold LockManager.poll
  by_cases htimeout : c.timeoutMs < elapsed
  · simp [htimeout]
  · have hle : elapsed ≤ c.timeoutMs := Nat.not_lt.mp htimeout
    have hmod : ¬elapsed%100 = 0 := fun hmod => h ⟨hle,hmod⟩
    by_cases hgrant : LockManager.canGrant (m.locksOn c.resource) c.mode = true
    · simp [htimeout,hmod,hgrant]
    · simp [htimeout,hmod,hgrant,hle]

theorem waitLoop_blocks_iff (c : LockManager.LockCall) (turns : List (LockManager × ℕ)) :
    Blocks [] (waitLoop c turns) ↔ ReachesLook c turns := by
  induction turns with
  | nil => exact iff_of_false (returns_pure none).not_blocks id
  | cons turn turns ih =>
    obtain ⟨m,elapsed⟩ := turn
    rw [waitLoop,ReachesLook]
    by_cases hlook : Looks c elapsed
    · have hblocks : Blocks [] (withLock .lockManager (poll m c elapsed)) :=
        (blocks_poll List.mem_cons_self m hlook).withLock List.not_mem_nil
      exact iff_of_true (hblocks.bind _) (Or.inl hlook)
    · have hreturns : Returns [] (withLock .lockManager (poll m c elapsed)) (m.poll c elapsed) :=
        (returns_poll hlook).withLock List.not_mem_nil
      rw [hreturns.bind_blocks_iff,or_iff_right hlook,← and_assoc,← poll_none_iff hlook,← ih]
      generalize m.poll c elapsed = answer
      obtain ⟨status,m'⟩ := answer
      cases status with
      | none => simp
      | some status => exact iff_of_false (returns_pure _).not_blocks (by simp)

theorem acquireLock_blocks_iff (m : LockManager) (c : LockManager.LockCall) (elapsed : ℕ)
    (turns : List (LockManager × ℕ)) :
    Blocks [] (acquireLock m c elapsed turns) ↔
      LockManager.canGrant (m.locksOn c.resource) c.mode = false ∧
        ReachesLook c ((m.enqueue c,elapsed)::turns) := by
  unfold acquireLock
  by_cases hgrant : LockManager.canGrant (m.locksOn c.resource) c.mode = true
  · have hreturns : Returns [] (withLock .lockManager
        (if LockManager.canGrant (m.locksOn c.resource) c.mode then pure (m.acquireLock c elapsed)
          else poll (m.enqueue c) c elapsed)) (m.acquireLock c elapsed) := by
      rw [if_pos hgrant]
      exact (returns_pure _).withLock List.not_mem_nil
    rw [hreturns.bind_blocks_iff,LockManager.acquireLock,if_pos hgrant]
    exact iff_of_false (returns_pure _).not_blocks (by simp [hgrant])
  · rw [if_neg hgrant,← waitLoop_blocks_iff]
    simp [hgrant,waitLoop]

end Locks

section Transactions

open LogManager (makeRecord)

variable {held : List Mutex}

theorem returns_appendRecord (hlog : .logManager ∉ held) (m : TransactionManager)
    (type : LogRecordType) (tx : TransactionId) (data : Option (List UInt8)) (now : ℤ) :
    Returns held (appendRecord m type tx data now) (m.appendRecord type tx data now) :=
  (returns_appendLogRecord hlog _ _ _).bind (returns_pure _)

theorem returns_finish (hlog : .logManager ∉ held) (hlock : .lockManager ∉ held)
    (m : TransactionManager) (tx : Transaction) (type : LogRecordType) (state : TransactionState)
    (order : List TransactionId) (now : ℤ) :
    Returns held (finish m tx type state order now) (m.finish tx type state order now) := by
  refine (returns_appendRecord hlog m type tx.id none now).bind ?_
  exact ((returns_pure _).withLock hlock).bind (returns_pure _)

theorem returns_begin (m : TransactionManager) (isolation : IsolationLevel) (mode : AccessMode)
    (now : ℤ) : Returns [] (begin m isolation mode now) (m.begin isolation mode now) := by
  apply Returns.withLock List.not_mem_nil
  unfold TransactionManager.begin
  split_ifs
  · exact returns_pure _
  · exact (returns_appendRecord (by simp) m .begin m.nextTxId none now).bind (returns_pure _)

theorem returns_commit (opens : TableId → Bool) (m : TransactionManager) (id : TransactionId)
    (pages : List PageId) (order : List TransactionId) (now : ℤ) :
    Returns [] (commit opens m id pages order now) (m.commit id pages order now []) := by
  unfold commit TransactionManager.commit
  cases m.activeTransactions.lookup id with
  | none => exact returns_pure _
  | some tx =>
    dsimp only
    split_ifs
    · exact returns_pure _
    · apply Returns.withLock List.not_mem_nil
      have hpages : Returns [.transactionManager] (pages.foldlM (flushPage opens) m.bufferPool)
          (m.bufferPool.flushAll pages) :=
        returns_foldlM _ fun s pid _ =>
          returns_flushPage opens (by simp) (by simp) (by simp) s pid
      refine hpages.bind ?_
      exact (returns_finish (by simp) (by simp) _ tx .commit .committed order now).bind
        (returns_pure _)

theorem returns_update (m : TransactionManager) (id : TransactionId)
    (change : Transaction → Transaction) (type : Option LogRecordType) (name : List UInt8)
    (now : ℤ) :
    Returns [] (update m id change type name now) (m.update id change type name now) := by
  unfold update TransactionManager.update
  cases m.activeTransactions.lookup id with
  | none => exact returns_pure _
  | some tx =>
    dsimp only
    split_ifs
    · exact returns_pure _
    · cases type with
      | none => exact returns_pure _
      | some type => exact (returns_appendRecord (by simp) _ type id _ now).bind (returns_pure _)

theorem returns_checkpoint (opens : TableId → Bool) (m : TransactionManager) (pages : List PageId)
    (txs : List TransactionId) (now : ℤ) :
    Returns [] (checkpoint opens m pages txs now) (m.checkpoint pages txs now) := by
  apply Returns.withLock List.not_mem_nil
  refine (returns_flushAll opens (by simp) (by simp) (by simp) _ pages).bind ?_
  refine (returns_appendRecord (by simp) _ .checkpoint 0 _ now).bind ?_
  exact ((returns_pure _).withLock (by simp)).bind (returns_pure _)

/-- Under the manager's own mutex the transaction cannot be looked up. -/
theorem blocks_undoTransaction (hheld : .transactionManager ∈ held) (m : TransactionManager)
    (id : TransactionId) : Blocks held (undoTransaction m id) :=
  (withLock_held hheld _).bind _

/-- Aborting an active transaction asks for the mutex of the manager a second time, whoever calls. -/
theorem blocks_abort {m : TransactionManager} {id : TransactionId} {tx : Transaction}
    (hlook : m.activeTransactions.lookup id = some tx) (hstate : tx.state = .active)
    (order : List TransactionId) (now : ℤ) : Blocks held (abort m id order now) := by
  have hskip : ¬tx.state ≠ .active := not_not.mpr hstate
  rw [abort,hlook]
  dsimp only
  rw [if_neg hskip]
  by_cases hheld : .transactionManager ∈ held
  · exact withLock_held hheld _
  · apply Blocks.withLock hheld
    exact (blocks_undoTransaction List.mem_cons_self m id).bind _

theorem returns_abort_none {m : TransactionManager} {id : TransactionId}
    (hlook : m.activeTransactions.lookup id = none) (order : List TransactionId) (now : ℤ) :
    Returns held (abort m id order now) (.error,m) := by
  rw [abort,hlook]
  exact returns_pure _

theorem recover_blocks_iff (m : TransactionManager) (logs : Log) :
    Blocks [] (recover m logs) ↔ ∃ tx, Recovery.LeftOpen logs tx := by
  simp only [← Recovery.mem_undo_iff_leftOpen]
  unfold recover
  cases (Recovery.recover logs).undoTransaction with
  | nil =>
    have hreturns : Returns [] (withLock Mutex.transactionManager do
        ([] : List TransactionId).foldlM (fun _ tx => do
          let _ ← undoTransaction m tx
          return ()) ()
        return Status.ok) .ok :=
      Returns.withLock List.not_mem_nil ((returns_pure ()).bind (returns_pure _))
    exact iff_of_false hreturns.not_blocks (by simp)
  | cons tx txs =>
    refine iff_of_true (Blocks.withLock List.not_mem_nil (Blocks.bind ?_ _)) ⟨tx,List.mem_cons_self⟩
    rw [List.foldlM_cons]
    exact ((blocks_undoTransaction List.mem_cons_self m tx).bind _).bind _

theorem returns_detectorSearch (hlock : .lockManager ∉ held) (m : TransactionManager) {fuel : ℕ}
    {start : TransactionId} {path : List TransactionId} {r : Bool × List TransactionId}
    (h : m.checkDeadlock fuel start path = some r) :
    Returns held (detectorSearch m fuel start path) r := by
  induction fuel generalizing start path r with
  | zero => simp [TransactionManager.checkDeadlock] at h
  | succ fuel ih =>
    rw [TransactionManager.checkDeadlock] at h
    rw [detectorSearch]
    split_ifs at h ⊢ with hvisited
    · obtain rfl := Option.some.inj h
      exact returns_pure _
    · refine (returns_getWaitingTransactions hlock m.lockManager start).bind ?_
      have hloop : ∀ x, DepthFirst.loopUntil (fun waiter visited =>
          m.checkDeadlock fuel waiter visited) (m.lockManager.getWaitingTransactions start)
          (path++[start]) = some x →
          Returns held (loopUntil (fun waiter visited => detectorSearch m fuel waiter visited)
            (m.lockManager.getWaitingTransactions start) (path++[start])) x := fun x hx =>
        returns_loopUntil (fun waiter visited r hr => ih hr) hx
      split at h
      · next visited hanswer =>
        obtain rfl := Option.some.inj h
        exact (hloop _ hanswer).bind (returns_pure _)
      · next answer hne =>
        obtain ⟨found,visited⟩ := r
        cases found with
        | true => exact (hloop _ h).bind (returns_pure _)
        | false => exact absurd h (hne visited)

/-- What the calls keep of the manager: active transactions are in the state of one, and who waits
for a lock is active. -/
structure Sound (m : TransactionManager) : Prop where
  running : ∀ id tx, m.activeTransactions.lookup id = some tx → tx.state = .active
  waiters : ∀ tx ∈ m.lockManager.waitingFor.keys, tx ∈ m.activeTransactions

theorem Sound.exists_active {m : TransactionManager} (h : Sound m) {id : TransactionId}
    (hid : id ∈ m.activeTransactions) :
    ∃ tx, m.activeTransactions.lookup id = some tx ∧ tx.state = .active := by
  obtain ⟨tx,htx⟩ := Finmap.mem_iff.mp hid
  exact ⟨tx,htx,h.running id tx htx⟩

theorem returns_detectFrom (hlock : .lockManager ∉ held) (m : TransactionManager)
    (order : List TransactionId) (now : ℤ) {start : TransactionId}
    (h : ¬m.lockManager.CycleBehind start) : Returns held (detectFrom order now m start) m := by
  obtain ⟨b,visited,hsearch,hcycle,_⟩ := m.exists_search start le_rfl
  obtain rfl : b = false := by
    rw [← Bool.not_eq_true,hcycle]
    exact h
  exact (returns_detectorSearch hlock m hsearch).bind (returns_pure _)

/-- A cycle makes the detector abort somebody, all of the path being active. -/
theorem blocks_detectFrom (hlock : .lockManager ∉ held) {m : TransactionManager} (hm : Sound m)
    (order : List TransactionId) (now : ℤ) {start : TransactionId}
    (hstart : start ∈ m.activeTransactions) (h : m.lockManager.CycleBehind start) :
    Blocks held (detectFrom order now m start) := by
  obtain ⟨b,visited,hsearch,hcycle,_⟩ := m.exists_search start le_rfl
  obtain rfl : b = true := hcycle.mpr h
  obtain ⟨⟨rest,hrest⟩,hwaiting,_⟩ := m.checkDeadlock_start hsearch
  have hactive : ∀ tx ∈ visited, tx ∈ m.activeTransactions := by
    intro tx htx
    rcases hwaiting tx htx with rfl | hwaits
    · exact hstart
    · exact hm.waiters tx hwaits
  obtain ⟨victim,hvictim⟩ : ∃ victim, TransactionManager.minElement m.priorityOf visited =
      some victim := by
    rw [hrest]
    exact ⟨_,rfl⟩
  obtain ⟨tx,htx,hstate⟩ := hm.exists_active
    (hactive victim (TransactionManager.minElement_mem hvictim))
  unfold detectFrom
  rw [(returns_detectorSearch hlock m hsearch).bind_blocks_iff]
  dsimp only
  rw [if_pos rfl,if_pos hactive,hvictim]
  exact (blocks_abort htx hstate order now).bind _

theorem returns_cleanupFrom (m : TransactionManager) {expired : TransactionId → Bool}
    (order : List TransactionId) (now : ℤ) {id : TransactionId} (h : ¬expired id = true) :
    Returns held (cleanupFrom expired order now m id) m := by
  unfold cleanupFrom
  rw [if_neg h]
  exact returns_pure _

theorem blocks_cleanupFrom {m : TransactionManager} (hm : Sound m)
    {expired : TransactionId → Bool} (order : List TransactionId) (now : ℤ) {id : TransactionId}
    (hid : id ∈ m.activeTransactions) (h : expired id = true) :
    Blocks held (cleanupFrom expired order now m id) := by
  obtain ⟨tx,htx,hstate⟩ := hm.exists_active hid
  unfold cleanupFrom
  rw [if_pos h]
  exact (blocks_abort htx hstate order now).bind _

theorem detectDeadlocks_blocks_iff {m : TransactionManager} (hm : Sound m)
    {txs : List TransactionId} (htxs : ∀ id, id ∈ txs ↔ id ∈ m.activeTransactions)
    (order : List TransactionId) (expired : TransactionId → Bool) (now : ℤ) :
    Blocks [] (detectDeadlocks m txs order expired now) ↔
      ∃ id ∈ m.activeTransactions, m.lockManager.CycleBehind id ∨ expired id = true := by
  unfold detectDeadlocks
  by_cases hcycle : ∃ id ∈ txs, m.lockManager.CycleBehind id
  · refine iff_of_true (Blocks.withLock List.not_mem_nil (Blocks.bind ?_ _)) ?_
    · refine blocks_foldlM (fun id _ hid => returns_detectFrom (by simp) m order now hid)
        (fun id hmem hid => ?_) hcycle
      exact blocks_detectFrom (by simp) hm order now ((htxs id).mp hmem) hid
    · obtain ⟨id,hmem,hid⟩ := hcycle
      exact ⟨id,(htxs id).mp hmem,Or.inl hid⟩
  · have hpass : Returns [.transactionManager] (txs.foldlM (detectFrom order now) m) m :=
      returns_foldlM_keep fun id hmem =>
        returns_detectFrom (by simp) m order now fun hid => hcycle ⟨id,hmem,hid⟩
    by_cases hexpired : ∃ id ∈ txs, expired id = true
    · refine iff_of_true (Blocks.withLock List.not_mem_nil (hpass.bind_blocks_iff.mpr ?_)) ?_
      · refine blocks_foldlM (fun id _ hid => returns_cleanupFrom m order now hid)
          (fun id hmem hid => ?_) hexpired
        exact blocks_cleanupFrom hm order now ((htxs id).mp hmem) hid
      · obtain ⟨id,hmem,hid⟩ := hexpired
        exact ⟨id,(htxs id).mp hmem,Or.inr hid⟩
    · have hcleanup : Returns [.transactionManager]
          (txs.foldlM (cleanupFrom expired order now) m) m :=
        returns_foldlM_keep fun id hmem =>
          returns_cleanupFrom m order now fun hid => hexpired ⟨id,hmem,hid⟩
      refine iff_of_false ((hpass.bind hcleanup).withLock List.not_mem_nil).not_blocks ?_
      rintro ⟨id,hmem,hid | hid⟩
      · exact hcycle ⟨id,(htxs id).mpr hmem,hid⟩
      · exact hexpired ⟨id,(htxs id).mpr hmem,hid⟩

theorem destroy_blocks_iff {m : TransactionManager} (hm : Sound m) {txs : List TransactionId}
    (htxs : ∀ id, id ∈ txs ↔ id ∈ m.activeTransactions) (order : List TransactionId) (now : ℤ) :
    Blocks [] (destroy m txs order now) ↔ ∃ id, id ∈ m.activeTransactions := by
  cases txs with
  | nil =>
    have hreturns : Returns [] (destroy m [] order now) m := returns_pure m
    refine iff_of_false hreturns.not_blocks ?_
    rintro ⟨id,hid⟩
    exact List.not_mem_nil ((htxs id).mpr hid)
  | cons id txs =>
    have hid : id ∈ m.activeTransactions := (htxs id).mp List.mem_cons_self
    obtain ⟨tx,htx,hstate⟩ := hm.exists_active hid
    refine iff_of_true ?_ ⟨id,hid⟩
    rw [destroy,List.foldlM_cons]
    exact ((blocks_abort htx hstate order now).bind _).bind _

end Transactions

end Guarded

open Guarded

/-- The calls that lead back to a mutex they hold: those that undo a transaction. -/
def TransactionCall.Relocks (m : TransactionManager) : TransactionCall → Prop
  | .abort id _ _ => id ∈ m.activeTransactions
  | .rollback id _ _ => id ∈ m.activeTransactions
  | .recover logs => ∃ tx, Recovery.LeftOpen logs tx
  | .detectDeadlocks _ _ expired _ =>
    ∃ id ∈ m.activeTransactions, m.lockManager.CycleBehind id ∨ expired id = true
  | .destroy _ _ _ => ∃ id, id ∈ m.activeTransactions
  | _ => False

/-- A request that conflicts with a granted lock and comes to a turn that looks for a deadlock. -/
def LockManagerCall.Relocks (m : LockManager) : LockManagerCall → Prop
  | .acquireLock c elapsed turns =>
    LockManager.canGrant (m.locksOn c.resource) c.mode = false ∧
      ReachesLook c ((m.enqueue c,elapsed)::turns)
  | _ => False

theorem abort_blocks_iff {m : TransactionManager} (hm : Sound m) (id : TransactionId)
    (order : List TransactionId) (now : ℤ) :
    Blocks [] (abort m id order now) ↔ id ∈ m.activeTransactions := by
  by_cases hid : id ∈ m.activeTransactions
  · obtain ⟨tx,htx,hstate⟩ := hm.exists_active hid
    exact iff_of_true (blocks_abort htx hstate order now) hid
  · have hnone := Finmap.lookup_eq_none.mpr hid
    exact iff_of_false (returns_abort_none hnone order now).not_blocks hid

theorem transactionCall_iff {m : TransactionManager} (hm : Sound m) {c : TransactionCall}
    (hc : c.Ordered m) : c.SelfDeadlocks m ↔ c.Relocks m := by
  cases c with
  | begin isolation mode now => exact iff_of_false (returns_begin m isolation mode now).not_blocks id
  | commit opens tx pages order now =>
    exact iff_of_false (returns_commit opens m tx pages order now).not_blocks id
  | abort id order now => exact abort_blocks_iff hm id order now
  | rollback id order now => exact abort_blocks_iff hm id order now
  | savepoint tx name now =>
    exact iff_of_false (returns_update m tx _ _ name now).not_blocks id
  | rollbackToSavepoint tx name now =>
    exact iff_of_false (returns_update m tx _ _ name now).not_blocks id
  | releaseSavepoint tx name => exact iff_of_false (returns_update m tx _ _ name 0).not_blocks id
  | getTransaction tx =>
    exact iff_of_false ((returns_pure _).withLock List.not_mem_nil).not_blocks id
  | getActiveTransactions order =>
    exact iff_of_false ((returns_pure _).withLock List.not_mem_nil).not_blocks id
  | checkpoint opens pages txs now =>
    exact iff_of_false (returns_checkpoint opens m pages txs now).not_blocks id
  | recover logs => exact recover_blocks_iff m logs
  | detectDeadlocks txs order expired now =>
    exact detectDeadlocks_blocks_iff hm hc order expired now
  | destroy txs order now => exact destroy_blocks_iff hm hc order now

theorem lockManagerCall_iff (m : LockManager) (c : LockManagerCall) :
    c.SelfDeadlocks m ↔ c.Relocks m := by
  have hscope : ∀ {α : Type} (result : α), ¬Blocks [] (inScope result) := fun result =>
    ((returns_pure result).withLock List.not_mem_nil).not_blocks
  cases c with
  | acquireLock c elapsed turns => exact acquireLock_blocks_iff m c elapsed turns
  | hasDeadlock tx =>
    obtain ⟨b,hb⟩ := returns_hasDeadlock List.not_mem_nil m tx
    exact iff_of_false hb.not_blocks id
  | releaseAllLocks tx => exact iff_of_false (hscope _) id
  | getWaitingTransactions tx => exact iff_of_false (hscope _) id
  | releaseLock tx resource => exact iff_of_false (hscope _) id
  | upgradeLock tx resource newMode => exact iff_of_false (hscope _) id
  | hasLock tx resource mode => exact iff_of_false (hscope _) id
  | isLocked resource => exact iff_of_false (hscope _) id
  | getLockMode resource => exact iff_of_false (hscope _) id
  | dumpLocks => exact iff_of_false (hscope _) id
  | dumpWaitGraph => exact iff_of_false (hscope _) id

/-- Nobody waits for a lock of the manager, whose lock tables no client can reach, and all of its
active transactions are in the state of one. -/
structure Quiet (m : TransactionManager) : Prop where
  running : ∀ id tx, m.activeTransactions.lookup id = some tx → tx.state = .active
  waiting : m.lockManager.waitingFor = ∅

namespace Quiet

variable {m m' : TransactionManager}

theorem sound (h : Quiet m) : Sound m := by
  refine ⟨h.running,?_⟩
  rw [h.waiting]
  intro tx htx
  cases htx

theorem congr (h : Quiet m) (hactive : m'.activeTransactions = m.activeTransactions)
    (hlocks : m'.lockManager = m.lockManager) : Quiet m' := by
  constructor
  · rw [hactive]
    exact h.running
  · rw [hlocks]
    exact h.waiting

theorem insert (h : Quiet m) {id : TransactionId} {tx : Transaction} (htx : tx.state = .active)
    (hactive : m'.activeTransactions = m.activeTransactions.insert id tx)
    (hlocks : m'.lockManager = m.lockManager) : Quiet m' := by
  constructor
  · intro k t ht
    rw [hactive] at ht
    rcases FiniteMap.lookup_insert_cases ht with ⟨rfl,rfl⟩ | hold
    · exact htx
    · exact h.running k t hold
  · rw [hlocks]
    exact h.waiting

theorem finish (h : Quiet m) (tx : Transaction) (type : LogRecordType) (state : TransactionState)
    (order : List TransactionId) (now : ℤ) : Quiet (m.finish tx type state order now) := by
  constructor
  · intro k t ht
    exact h.running k t (FiniteMap.lookup_erase_cases ht).2
  · change (m.lockManager.waitingFor.erase tx.id) = ∅
    rw [h.waiting]
    rfl

theorem begin (h : Quiet m) (isolation : IsolationLevel) (mode : AccessMode) (now : ℤ) :
    Quiet (m.begin isolation mode now).2 := by
  unfold TransactionManager.begin
  split_ifs
  · exact h
  · exact h.insert rfl rfl rfl

theorem commit (h : Quiet m) (id : TransactionId) (pages : List PageId)
    (order : List TransactionId) (now : ℤ) (others : List LogManager.LogCall) :
    Quiet (m.commit id pages order now others).2 := by
  unfold TransactionManager.commit
  cases m.activeTransactions.lookup id with
  | none => exact h
  | some tx =>
    have hpool : Quiet { m with bufferPool := m.bufferPool.flushAll pages } := h.congr rfl rfl
    dsimp only
    split_ifs
    · exact h
    · exact (hpool.finish tx .commit .committed order now).congr rfl rfl

theorem abort (h : Quiet m) (id : TransactionId) (order : List TransactionId) (now : ℤ) :
    Quiet (m.abort id order now).2 := by
  unfold TransactionManager.abort
  cases m.activeTransactions.lookup id with
  | none => exact h
  | some tx =>
    dsimp only
    split_ifs
    · exact h
    · exact h
    · exact h.finish tx .abort .aborted order now

theorem update (h : Quiet m) (id : TransactionId) (change : Transaction → Transaction)
    (hchange : ∀ tx, (change tx).state = tx.state) (type : Option LogRecordType)
    (name : List UInt8) (now : ℤ) : Quiet (m.update id change type name now).2 := by
  unfold TransactionManager.update
  cases hlook : m.activeTransactions.lookup id with
  | none => exact h
  | some tx =>
    have hstate : (change tx).state = .active := (hchange tx).trans (h.running id tx hlook)
    dsimp only
    split_ifs
    · exact h
    · cases type with
      | none => exact h.insert hstate rfl rfl
      | some type => exact h.insert hstate rfl rfl

theorem exec {fuel : ℕ} {e e' : Engine} {op : EngineOp} (h : Quiet e.manager)
    (hexec : e.exec fuel op = some e') : Quiet e'.manager := by
  cases op with
  | begin isolation mode now =>
    obtain rfl := Option.some.inj hexec
    exact h.begin isolation mode now
  | addModifiedPage tx pid lsn =>
    obtain rfl := Option.some.inj hexec
    simp only [Engine.withManager,Engine.addModifiedPage]
    cases hlook : e.manager.activeTransactions.lookup tx with
    | none => exact h
    | some t =>
      have hstate : (t.addModifiedPage pid lsn).state = .active := h.running tx t hlook
      exact h.insert hstate rfl rfl
  | commit tx pages order now others =>
    obtain ⟨_,rfl⟩ := Engine.exec_commit hexec
    exact h.commit tx pages order now others
  | abort tx order now =>
    obtain rfl := Engine.exec_abort hexec
    exact h.abort tx order now
  | savepoint tx name now =>
    obtain rfl := Option.some.inj hexec
    exact h.update tx (fun t => t.createSavepoint name) (fun _ => rfl) _ _ _
  | rollbackToSavepoint tx name now =>
    obtain rfl := Option.some.inj hexec
    exact h.update tx (fun t => t.rollbackToSavepoint name) (fun _ => rfl) _ _ _
  | releaseSavepoint tx name =>
    obtain rfl := Option.some.inj hexec
    exact h.update tx (fun t => t.releaseSavepoint name) (fun _ => rfl) _ _ _
  | checkpoint pages txs now =>
    obtain ⟨_,rfl⟩ := Engine.exec_checkpoint hexec
    exact h.congr rfl rfl
  | pool op =>
    obtain ⟨_,_,_,rfl⟩ := Engine.exec_pool hexec
    exact h.congr rfl rfl
  | logInsert tx pid record rid now => exact (Option.some.inj hexec) ▸ h.congr rfl rfl
  | logUpdate tx pid old new rid now => exact (Option.some.inj hexec) ▸ h.congr rfl rfl
  | logDelete tx pid record rid now => exact (Option.some.inj hexec) ▸ h.congr rfl rfl
  | beforePageWrite pid lsn => exact (Option.some.inj hexec) ▸ h.congr rfl rfl
  | modifyPage pid change => exact (Option.some.inj hexec) ▸ h.congr rfl rfl
  | log call => exact (Option.some.inj hexec) ▸ h.congr rfl rfl

end Quiet

theorem reaches_sound {mode : LogMode} {start e : Engine} (hstart : Engine.Started mode start)
    (h : Engine.Reaches start e) : Sound e.manager := by
  have hquiet : Quiet e.manager := by
    refine h.inv (P := fun e => Quiet e.manager) ?_ fun e e' fuel op hq hexec => hq.exec hexec
    obtain ⟨n,disk,next,unset,file,creatable,log,_,rfl⟩ := hstart
    refine ⟨?_,rfl⟩
    intro id tx htx
    simp [TransactionManager.new] at htx
  exact hquiet.sound

/-- A public call made by a thread that holds no mutex asks for none that it holds, exactly if it is
not one of those that lead back: in every state that the engine reaches, in every state of the
manager of the same kind with any lock tables, and in every state of a lock manager. -/
theorem no_self_deadlock_iff {m : TransactionManager}
    (hm : (∃ mode start e, Engine.Started mode start ∧ Engine.Reaches start e ∧ m = e.manager) ∨
      Sound m) {c : TransactionCall} (hc : c.Ordered m) (locks : LockManager)
    (c' : LockManagerCall) :
    (¬c.SelfDeadlocks m ↔ ¬c.Relocks m) ∧ (¬c'.SelfDeadlocks locks ↔ ¬c'.Relocks locks) := by
  have hsound : Sound m := by
    rcases hm with ⟨mode,start,e,hstart,hreach,rfl⟩ | hm
    · exact reaches_sound hstart hreach
    · exact hm
  exact ⟨not_congr (transactionCall_iff hsound hc),not_congr (lockManagerCall_iff locks c')⟩

theorem no_self_deadlock_iff_commit :
    ¬(TransactionCall.commit (fun _ => true) 1 [] [1] 0).SelfDeadlocks
      (Engine.begun .normal).manager := by
  have hreached : ∃ mode start e, Engine.Started mode start ∧ Engine.Reaches start e ∧
      (Engine.begun .normal).manager = e.manager :=
    ⟨.normal,_,_,Engine.started_fresh .normal,Engine.reaches_begun .normal,rfl⟩
  have hcommit := no_self_deadlock_iff (c := .commit (fun _ => true) 1 [] [1] 0)
    (Or.inl hreached) trivial .new .dumpLocks
  exact hcommit.1.mpr id

/-- The first transaction of a new engine cannot be aborted. -/
theorem abort_self_deadlocks :
    Engine.Started .normal (Engine.fresh .normal) ∧
    Engine.Reaches (Engine.fresh .normal) (Engine.begun .normal) ∧
    (TransactionCall.abort 1 [1] 0).SelfDeadlocks (Engine.begun .normal).manager := by
  refine ⟨Engine.started_fresh .normal,Engine.reaches_begun .normal,?_⟩
  have hsound := reaches_sound (Engine.started_fresh .normal) (Engine.reaches_begun .normal)
  exact (abort_blocks_iff hsound 1 [1] 0).mpr (by decide)

end OrangeSQL
