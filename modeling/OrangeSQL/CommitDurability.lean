import OrangeSQL.Engine
import OrangeSQL.LogBuffering

/-! Durability of commits. A call changes the log by some calls on the log manager; a commit puts
its COMMIT record into the write buffer as the last thing it does to the log, so the record is
flushed at the return only if another thread has emptied the write buffer by then. -/
namespace OrangeSQL

open LogManager

namespace TransactionManager

@[simp] theorem finish_logManager (m : TransactionManager) (tx : Transaction) (type : LogRecordType)
    (state : TransactionState) (order : List TransactionId) (now : ℤ) :
    (m.finish tx type state order now).logManager =
      (m.logManager.appendLogRecord (makeRecord type tx.id invalidPageId none) now).2 := rfl

theorem begin_log (m : TransactionManager) (isolation : IsolationLevel) (mode : AccessMode)
    (now : ℤ) : ∃ calls, (m.begin isolation mode now).2.logManager =
      m.logManager.runCalls calls := by
  by_cases hfull : m.maxTransactions ≤ m.activeTransactions.keys.card
  · exact ⟨[],by simp [begin,hfull,runCalls]⟩
  · refine ⟨[.append (makeRecord .begin m.nextTxId invalidPageId none) now],?_⟩
    simp [begin,hfull,appendRecord,runCalls,LogCall.run]

/-- A commit that returns OK is one of an active transaction: COMMIT is appended, then the other
threads go on. -/
theorem commit_ok {m m' : TransactionManager} {id : TransactionId} {pages : List PageId}
    {order : List TransactionId} {now : ℤ} {others : List LogCall}
    (h : m.commit id pages order now others = (.ok,m')) :
    ∃ tx, m.activeTransactions.lookup id = some tx ∧ m'.logManager =
      (m.logManager.appendLogRecord (makeRecord .commit tx.id invalidPageId none) now).2.runCalls
        others := by
  unfold commit at h
  cases hlook : m.activeTransactions.lookup id with
  | none => simp [hlook] at h
  | some tx =>
    by_cases hstate : tx.state = .active
    · simp only [hlook,hstate,ne_eq,not_true_eq_false,if_false] at h
      obtain rfl := (Prod.mk.inj h).2
      exact ⟨tx,rfl,rfl⟩
    · simp [hlook,hstate] at h

theorem commit_log (m : TransactionManager) (id : TransactionId) (pages : List PageId)
    (order : List TransactionId) (now : ℤ) (others : List LogCall) :
    ∃ calls, (m.commit id pages order now others).2.logManager = m.logManager.runCalls calls := by
  unfold commit
  cases hlook : m.activeTransactions.lookup id with
  | none => exact ⟨[],rfl⟩
  | some tx =>
    by_cases hstate : tx.state = .active
    · refine ⟨.append (makeRecord .commit tx.id invalidPageId none) now::others,?_⟩
      simp [hstate,runCalls,LogCall.run]
    · exact ⟨[],by simp [hstate,runCalls]⟩

theorem abort_log (m : TransactionManager) (id : TransactionId) (order : List TransactionId)
    (now : ℤ) :
    ∃ calls, (m.abort id order now).2.logManager = m.logManager.runCalls calls := by
  unfold abort
  cases hlook : m.activeTransactions.lookup id with
  | none => exact ⟨[],rfl⟩
  | some tx =>
    by_cases hstate : tx.state = .active
    · refine ⟨[.append (makeRecord .abort tx.id invalidPageId none) now],?_⟩
      simp [hstate,undoTransaction,hlook,runCalls,LogCall.run]
    · exact ⟨[],by simp [hstate,runCalls]⟩

theorem update_log (m : TransactionManager) (id : TransactionId)
    (change : Transaction → Transaction) (type : Option LogRecordType) (name : List UInt8)
    (now : ℤ) :
    ∃ calls, (m.update id change type name now).2.logManager = m.logManager.runCalls calls := by
  unfold update
  cases hlook : m.activeTransactions.lookup id with
  | none => exact ⟨[],rfl⟩
  | some tx =>
    by_cases hstate : tx.state = .active
    · cases type with
      | none => exact ⟨[],by simp [hstate,runCalls]⟩
      | some type =>
        refine ⟨[.append (makeRecord type id invalidPageId (some (name++[0]))) now],?_⟩
        simp [hstate,appendRecord,runCalls,LogCall.run]
    · exact ⟨[],by simp [hstate,runCalls]⟩

/-- Transactions are filed under their own ids. -/
def Filed (m : TransactionManager) : Prop :=
  ∀ id tx, m.activeTransactions.lookup id = some tx → tx.id = id

theorem Filed.insert {m m' : TransactionManager} (h : Filed m) {id : TransactionId}
    {tx : Transaction} (hm' : m'.activeTransactions = m.activeTransactions.insert id tx)
    (hid : tx.id = id) : Filed m' := by
  intro k t ht
  rw [hm'] at ht
  rcases FiniteMap.lookup_insert_cases ht with ⟨rfl,rfl⟩ | hold
  · exact hid
  · exact h k t hold

theorem Filed.finish {m : TransactionManager} (h : Filed m) (tx : Transaction)
    (type : LogRecordType) (state : TransactionState) (order : List TransactionId) (now : ℤ) :
    Filed (m.finish tx type state order now) := by
  intro k t ht
  have herase : (m.activeTransactions.erase tx.id).lookup k = some t := ht
  by_cases hk : k = tx.id
  · subst hk
    rw [Finmap.lookup_erase] at herase
    cases herase
  · rw [Finmap.lookup_erase_ne hk] at herase
    exact h k t herase

theorem Filed.begin {m : TransactionManager} (h : Filed m) (isolation : IsolationLevel)
    (mode : AccessMode) (now : ℤ) : Filed (m.begin isolation mode now).2 := by
  by_cases hfull : m.maxTransactions ≤ m.activeTransactions.keys.card
  · simpa [TransactionManager.begin,hfull] using h
  · simp only [TransactionManager.begin,hfull,if_false]
    exact h.insert rfl rfl

theorem Filed.commit {m : TransactionManager} (h : Filed m) (id : TransactionId)
    (pages : List PageId) (order : List TransactionId) (now : ℤ) (others : List LogCall) :
    Filed (m.commit id pages order now others).2 := by
  unfold TransactionManager.commit
  cases hlook : m.activeTransactions.lookup id with
  | none => exact h
  | some tx =>
    by_cases hstate : tx.state = .active
    · simp only [hstate,ne_eq,not_true_eq_false,if_false]
      exact Filed.finish (m := { m with bufferPool := m.bufferPool.flushAll pages }) h tx _ _ _ _
    · simpa [hstate] using h

theorem Filed.abort {m : TransactionManager} (h : Filed m) (id : TransactionId)
    (order : List TransactionId) (now : ℤ) : Filed (m.abort id order now).2 := by
  unfold TransactionManager.abort
  cases hlook : m.activeTransactions.lookup id with
  | none => exact h
  | some tx =>
    by_cases hstate : tx.state = .active
    · simpa [hstate,undoTransaction,hlook] using h.finish tx .abort .aborted order now
    · simpa [hstate] using h

theorem Filed.update {m : TransactionManager} (h : Filed m) (id : TransactionId)
    (change : Transaction → Transaction) (hid : ∀ tx, (change tx).id = tx.id)
    (type : Option LogRecordType) (name : List UInt8) (now : ℤ) :
    Filed (m.update id change type name now).2 := by
  unfold TransactionManager.update
  cases hlook : m.activeTransactions.lookup id with
  | none => exact h
  | some tx =>
    have hchanged : (change tx).id = id := by rw [hid,h id tx hlook]
    by_cases hstate : tx.state = .active
    · cases type with
      | none =>
        simp only [hstate,ne_eq,not_true_eq_false,if_false]
        exact h.insert rfl hchanged
      | some type =>
        simp only [hstate,ne_eq,not_true_eq_false,if_false]
        exact h.insert rfl hchanged
    · simpa [hstate] using h

end TransactionManager

namespace Engine

/-- Whatever a call does to the log, it does by calls on the log manager. -/
theorem exec_log {fuel : ℕ} {e e' : Engine} {op : EngineOp} (h : e.exec fuel op = some e') :
    ∃ calls, e'.log = e.log.runCalls calls := by
  cases op with
  | begin isolation mode now =>
    obtain rfl := Option.some.inj h
    exact e.manager.begin_log isolation mode now
  | logInsert tx pid record rid now =>
    obtain rfl := Option.some.inj h
    exact ⟨[.append _ now],rfl⟩
  | logUpdate tx pid old new rid now =>
    obtain rfl := Option.some.inj h
    exact ⟨[.append _ now],rfl⟩
  | logDelete tx pid record rid now =>
    obtain rfl := Option.some.inj h
    exact ⟨[.append _ now],rfl⟩
  | beforePageWrite pid lsn =>
    obtain rfl := Option.some.inj h
    exact ⟨[.flush lsn],rfl⟩
  | modifyPage pid change =>
    obtain rfl := Option.some.inj h
    exact ⟨[],rfl⟩
  | addModifiedPage tx pid lsn =>
    obtain rfl := Option.some.inj h
    refine ⟨[],?_⟩
    simp only [log,withManager,addModifiedPage]
    split <;> rfl
  | commit tx pages order now others =>
    obtain ⟨_,rfl⟩ := exec_commit h
    exact e.manager.commit_log tx pages order now others
  | abort tx order now =>
    obtain rfl := exec_abort h
    exact e.manager.abort_log tx order now
  | savepoint tx name now =>
    obtain rfl := Option.some.inj h
    exact e.manager.update_log tx _ _ name now
  | rollbackToSavepoint tx name now =>
    obtain rfl := Option.some.inj h
    exact e.manager.update_log tx _ _ name now
  | releaseSavepoint tx name =>
    obtain rfl := Option.some.inj h
    exact e.manager.update_log tx _ _ name 0
  | checkpoint pages txs now =>
    obtain ⟨_,rfl⟩ := exec_checkpoint h
    exact ⟨[.append _ now,.flush 0],rfl⟩
  | pool op =>
    obtain ⟨_,_,_,rfl⟩ := exec_pool h
    exact ⟨[],rfl⟩
  | log call =>
    obtain rfl := Option.some.inj h
    exact ⟨[call],rfl⟩

theorem exec_filed {fuel : ℕ} {e e' : Engine} {op : EngineOp} (h : e.exec fuel op = some e')
    (hfiled : e.manager.Filed) : e'.manager.Filed := by
  cases op with
  | begin isolation mode now =>
    obtain rfl := Option.some.inj h
    exact hfiled.begin isolation mode now
  | addModifiedPage tx pid lsn =>
    obtain rfl := Option.some.inj h
    simp only [withManager,addModifiedPage]
    cases hlook : e.manager.activeTransactions.lookup tx with
    | none => exact hfiled
    | some t => exact hfiled.insert rfl (hfiled tx t hlook)
  | commit tx pages order now others =>
    obtain ⟨_,rfl⟩ := exec_commit h
    exact hfiled.commit tx pages order now others
  | abort tx order now =>
    obtain rfl := exec_abort h
    exact hfiled.abort tx order now
  | savepoint tx name now =>
    obtain rfl := Option.some.inj h
    exact hfiled.update tx (fun t => t.createSavepoint name) (fun _ => rfl) _ _ _
  | rollbackToSavepoint tx name now =>
    obtain rfl := Option.some.inj h
    exact hfiled.update tx (fun t => t.rollbackToSavepoint name) (fun _ => rfl) _ _ _
  | releaseSavepoint tx name =>
    obtain rfl := Option.some.inj h
    exact hfiled.update tx (fun t => t.releaseSavepoint name) (fun _ => rfl) _ _ _
  | checkpoint pages txs now =>
    obtain ⟨_,rfl⟩ := exec_checkpoint h
    exact hfiled
  | pool op =>
    obtain ⟨_,_,_,rfl⟩ := exec_pool h
    exact hfiled
  | _ =>
    obtain rfl := Option.some.inj h
    exact hfiled

/-- Along a run the mode stays, every record is flushed or in the write buffer if logging is on,
and the transactions are filed under their ids. -/
theorem Reaches.logged {mode : LogMode} {start e : Engine} (h : Reaches start e)
    (hstart : Started mode start) :
    (e.log.mode = mode ∧ (mode ≠ .noLog → Stored e.log)) ∧ e.manager.Filed := by
  obtain ⟨n,disk,next,unset,file,creatable,log,hinit,rfl⟩ := hstart
  obtain ⟨⟨hstored,_⟩,hopen⟩ := init_opened hinit
  refine h.inv
    (P := fun e => (e.log.mode = mode ∧ (mode ≠ .noLog → Stored e.log)) ∧ e.manager.Filed) ?_ ?_
  · refine ⟨⟨hopen,fun _ => hstored⟩,?_⟩
    intro id tx htx
    simp [TransactionManager.new] at htx
  · intro e e' fuel op he hexec
    obtain ⟨⟨hmode,hkept⟩,hfiled⟩ := he
    obtain ⟨calls,hcalls⟩ := exec_log hexec
    rw [hcalls,runCalls_mode]
    refine ⟨⟨hmode,?_⟩,exec_filed hexec hfiled⟩
    intro hlogging
    exact (hkept hlogging).runCalls (by rwa [hmode]) calls

/-- The COMMIT record with number `lsn` and all records of the transaction up to it are flushed,
none of them is left in the write buffer. -/
structure Durable (m : LogManager) (tx : TransactionId) (lsn : LogSequenceNumber) : Prop where
  commit : ∃ r ∈ m.flushed, r.type = .commit ∧ r.transactionId = tx ∧ r.lsn = lsn
  records : ∀ k r, m.logBuffer.lookup k = some r → r.transactionId = tx → k ≤ lsn → r ∈ m.flushed
  buffer : ∀ r ∈ m.writeBuffer, r.transactionId = tx → lsn < r.lsn

theorem Durable.keeps {m m' : LogManager} {tx : TransactionId} {lsn : LogSequenceNumber}
    (h : Durable m tx lsn) (hlsn : lsn < m.currentLsn) (hkeeps : Keeps m m') :
    Durable m' tx lsn := by
  constructor
  · obtain ⟨r,hr,hcommit⟩ := h.commit
    exact ⟨r,hkeeps.flushed r hr,hcommit⟩
  · intro k r hr htx hk
    rw [hkeeps.old k (lt_of_le_of_lt hk hlsn)] at hr
    exact hkeeps.flushed r (h.records k r hr htx hk)
  · intro r hr htx
    rcases hkeeps.fresh r hr with hb | hnew
    · exact h.buffer r hb htx
    · exact lt_of_lt_of_le hlsn hnew

/-- Along any run from here on the log keeps its records. -/
theorem Reaches.keeps {start e : Engine} (h : Reaches start e) (hmode : start.log.mode ≠ .noLog) :
    Keeps start.log e.log := by
  have hall : e.log.mode ≠ .noLog ∧ Keeps start.log e.log := by
    refine h.inv (P := fun x => x.log.mode ≠ .noLog ∧ Keeps start.log x.log)
      ⟨hmode,Keeps.refl _⟩ ?_
    intro x x' fuel op hx hexec
    obtain ⟨calls,hcalls⟩ := exec_log hexec
    rw [hcalls,runCalls_mode]
    exact ⟨hx.1,hx.2.trans (runCalls_keeps hx.1 calls)⟩
  exact hall.2

/-- A COMMIT record that was appended is durable after the calls that follow exactly if one of them
empties the write buffer. -/
theorem durable_append_iff {m : LogManager} (hmode : m.mode ≠ .noLog) (hstored : Stored m)
    {r : LogRecord} (hcommit : r.type = .commit) (now : ℤ) (others : List LogCall) :
    Durable ((m.appendLogRecord r now).2.runCalls others) r.transactionId m.currentLsn ↔
      (m.appendLogRecord r now).2.drains others = true := by
  have hrecord := stamp_mem_append hmode r now
  have hafter := hstored.run hmode (.append r now)
  have hlsn := append_currentLsn m r now
  have hmode' : (m.appendLogRecord r now).2.mode ≠ .noLog := by rwa [append_mode]
  constructor
  · intro hdurable
    by_contra hnot
    have hkept := mem_writeBuffer_of_not_drains hmode' (Bool.eq_false_iff.mpr hnot) hrecord
    exact lt_irrefl _ (hdurable.buffer _ hkept rfl)
  · intro hdrains
    obtain ⟨hflushed,hfresh⟩ := flushed_of_drains hmode' hdrains
    constructor
    · exact ⟨_,hflushed _ (Or.inr hrecord),hcommit,rfl,rfl⟩
    · intro k q hq _ hk
      have hold : k < m.currentLsn+1 := Nat.lt_succ_of_le hk
      rw [← hlsn] at hold
      rw [(runCalls_keeps hmode' others).old k hold] at hq
      exact hflushed q (hafter k q hq)
    · intro q hq _
      have hnew := hfresh q hq
      rw [hlsn] at hnew
      exact hnew

/-- Whenever a commit returns OK, the COMMIT record and the earlier records of the transaction are
flushed exactly if another thread has emptied the write buffer between the append of the COMMIT
record and the return; and then they stay flushed whatever happens later. -/
theorem commit_durable_iff {mode : LogMode} {start e : Engine} (hstart : Started mode start)
    (hmode : mode ≠ .noLog) (h : Reaches start e) {id : TransactionId} {pages : List PageId}
    {order : List TransactionId} {now : ℤ} {others : List LogCall} {m' : TransactionManager}
    (hcommit : e.manager.commit id pages order now others = (.ok,m')) :
    (Durable m'.logManager id e.log.currentLsn ↔
      (e.log.appendLogRecord (makeRecord .commit id invalidPageId none) now).2.drains others =
        true) ∧
    (Durable m'.logManager id e.log.currentLsn →
      ∀ e', Reaches (e.withManager m') e' → Durable e'.log id e.log.currentLsn) := by
  obtain ⟨⟨hsame,hkept⟩,hfiled⟩ := h.logged hstart
  have hlogging : e.log.mode ≠ .noLog := by rwa [hsame]
  obtain ⟨tx,hlook,hlog⟩ := TransactionManager.commit_ok hcommit
  rw [hfiled id tx hlook] at hlog
  constructor
  · rw [hlog]
    exact durable_append_iff hlogging (hkept hmode)
      (r := makeRecord .commit id invalidPageId none) rfl now others
  · intro hdurable e' hreach
    have hafter : m'.logManager = e.log.runCalls
        (.append (makeRecord .commit id invalidPageId none) now::others) := hlog
    have hon : (e.withManager m').log.mode ≠ .noLog := by
      change m'.logManager.mode ≠ .noLog
      rwa [hafter,runCalls_mode]
    have hnext : e.log.currentLsn < m'.logManager.currentLsn := by
      have hle := (runCalls_keeps (m := (e.log.appendLogRecord
        (makeRecord .commit id invalidPageId none) now).2) (by rwa [append_mode]) others).next
      rw [append_currentLsn] at hle
      rw [hlog]
      exact hle
    exact hdurable.keeps hnext (hreach.keeps hon)

/-- The engine after start-up on an empty disk and without a log file. -/
def fresh (mode : LogMode) : Engine :=
  ⟨TransactionManager.new (BufferPool.new 8 Disk.empty 1)
    { LogManager.new mode with
      logFile := ⟨fileHeader fun _ => 0,0⟩, syncThread := decide (mode = .async) },⟨∅⟩⟩

theorem started_fresh (mode : LogMode) : Started mode (fresh mode) :=
  ⟨8,_,1,fun _ => 0,none,true,_,rfl,rfl⟩

/-- One transaction has begun. -/
def begun (mode : LogMode) : Engine :=
  (fresh mode).withManager ((fresh mode).manager.begin .repeatableRead .readWrite 0).2

theorem reaches_begun (mode : LogMode) : Reaches (fresh mode) (begun mode) := by
  have hbegin : (fresh mode).exec 0 (.begin .repeatableRead .readWrite 0) = some (begun mode) := rfl
  exact Reaches.call .start hbegin

/-- It commits while the synchronisation thread flushes the log. -/
theorem commit_durable_iff_synced :
    ∃ m', (begun .async).manager.commit 1 [] [1] 0 [.flush 0] = (.ok,m') ∧
      Durable m'.logManager 1 (begun .async).log.currentLsn := by
  have hcommit : (begun .async).manager.commit 1 [] [1] 0 [.flush 0] = (.ok,_) := rfl
  have hiff := commit_durable_iff (started_fresh .async) (by decide) (reaches_begun .async) hcommit
  exact ⟨_,hcommit,hiff.1.mpr rfl⟩

/-- In the normal mode the commit returns OK with its record in the write buffer only. -/
theorem commit_not_durable :
    Started .normal (fresh .normal) ∧ Reaches (fresh .normal) (begun .normal) ∧
    ∃ m', (begun .normal).manager.commit 1 [] [1] 0 [] = (.ok,m') ∧
      ¬ Durable m'.logManager 1 (begun .normal).log.currentLsn := by
  have hcommit : (begun .normal).manager.commit 1 [] [1] 0 [] = (.ok,_) := rfl
  refine ⟨started_fresh .normal,reaches_begun .normal,_,hcommit,?_⟩
  intro hdurable
  have hrecord := stamp_mem_append (m := (begun .normal).log) (by decide)
    (makeRecord .commit 1 invalidPageId none) 0
  exact lt_irrefl _ (hdurable.buffer _ hrecord rfl)

end Engine
end OrangeSQL
