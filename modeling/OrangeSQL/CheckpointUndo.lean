import OrangeSQL.Checkpoint
import OrangeSQL.CommitDurability

/-! What a checkpoint leaves of the log. A call of `createCheckpoint` cuts the log at its own record,
while the records of a transaction reach back to its BEGIN. The call holds no lock that stops
the transactions, so their calls may fall between any two of its parts. -/
namespace OrangeSQL

open LogManager

namespace LogManager

/-- Every number that a sequence of calls gives away is that of a record in the map. -/
theorem runCalls_numbered (m : LogManager) (calls : List LogCall) {k : LogSequenceNumber}
    (hlow : m.currentLsn ≤ k) (hhigh : k < (m.runCalls calls).currentLsn) :
    ∃ r, (m.runCalls calls).logBuffer.lookup k = some r ∧ r.lsn = k := by
  induction calls using List.reverseRecOn with
  | nil => exact absurd hhigh (Nat.not_lt.mpr hlow)
  | append_singleton calls c ih =>
    have hrun : m.runCalls (calls++[c]) = c.run (m.runCalls calls) := by
      rw [runCalls,List.foldl_append]
      rfl
    rw [hrun] at hhigh ⊢
    by_cases hk : k < (m.runCalls calls).currentLsn
    · rw [LogCall.run_lookup _ c hk]
      exact ih hk
    · cases c with
      | append r now =>
        rw [LogCall.run,append_currentLsn] at hhigh
        obtain rfl : k = (m.runCalls calls).currentLsn := by
          have := Nat.le_of_lt_succ hhigh
          exact Nat.le_antisymm this (Nat.not_lt.mp hk)
        refine ⟨(m.runCalls calls).stamp r now,?_,rfl⟩
        rw [LogCall.run,append_logBuffer,Finmap.lookup_insert]
      | flush lsn =>
        rw [LogCall.run,flush_eq,flushBuffer_currentLsn] at hhigh
        exact absurd hhigh hk

theorem runCalls_currentLsn (m : LogManager) (calls : List LogCall) :
    m.currentLsn ≤ (m.runCalls calls).currentLsn := by
  induction calls generalizing m with
  | nil => exact le_rfl
  | cons c calls ih => exact (c.run_currentLsn m).trans (ih (c.run m))

theorem runCalls_old (m : LogManager) (calls : List LogCall) {k : LogSequenceNumber}
    (hk : k < m.currentLsn) : (m.runCalls calls).logBuffer.lookup k = m.logBuffer.lookup k := by
  induction calls generalizing m with
  | nil => rfl
  | cons c calls ih =>
    have hrest := ih (c.run m) (lt_of_lt_of_le hk (c.run_currentLsn m))
    rw [runCalls,List.foldl_cons,← runCalls,hrest,c.run_lookup m hk]

/-- The records that were appended between two states of a log. -/
def appendedSince (m m' : LogManager) : List LogRecord :=
  (List.range' m.currentLsn (m'.currentLsn-m.currentLsn)).filterMap m'.logBuffer.lookup

theorem mem_appendedSince {m : LogManager} {calls : List LogCall} {r : LogRecord}
    (h : r ∈ appendedSince m (m.runCalls calls)) :
    m.currentLsn ≤ r.lsn ∧ r.lsn < (m.runCalls calls).currentLsn ∧
    (m.runCalls calls).logBuffer.lookup r.lsn = some r := by
  obtain ⟨k,hk,hlook⟩ := List.mem_filterMap.mp h
  obtain ⟨hlow,hhigh⟩ := List.mem_range'_1.mp hk
  have hle := runCalls_currentLsn m calls
  have hbelow : k < (m.runCalls calls).currentLsn := by
    rwa [Nat.add_sub_cancel' hle] at hhigh
  obtain ⟨q,hq,hqlsn⟩ := runCalls_numbered m calls hlow hbelow
  obtain rfl := Option.some.inj (hlook.symm.trans hq)
  rw [hqlsn]
  exact ⟨hlow,hbelow,hlook⟩

theorem appendedSince_append (m : LogManager) (r : LogRecord) (now : ℤ) :
    appendedSince m (m.appendLogRecord r now).2 = [m.stamp r now] := by
  simp only [appendedSince,append_currentLsn,append_logBuffer,Nat.add_sub_cancel_left]
  simp [Finmap.lookup_insert]

theorem append_lsn (m : LogManager) (r : LogRecord) (now : ℤ) :
    (m.appendLogRecord r now).1 = m.currentLsn := by
  unfold appendLogRecord
  dsimp only
  split_ifs <;> rfl

theorem lookup_truncate_fold (order : List LogSequenceNumber)
    (logs : Finmap fun _ : LogSequenceNumber => LogRecord) (lsn k : LogSequenceNumber) :
    (order.foldl (fun logs k => if k < lsn then logs.erase k else logs) logs).lookup k =
      if k ∈ order ∧ k < lsn then none else logs.lookup k := by
  induction order generalizing logs with
  | nil => simp
  | cons a order ih =>
    rw [List.foldl_cons,ih]
    by_cases hk : k = a
    · subst hk
      by_cases hlt : k < lsn <;> simp [hlt]
    · by_cases hlt : a < lsn <;> simp [hlt,hk,Finmap.lookup_erase_ne hk]

/-- A truncation drops just the records below the number. -/
theorem lookup_truncate (m : LogManager) (lsn : LogSequenceNumber)
    {order : List LogSequenceNumber} (h : Engine.Lists order m.logBuffer.keys)
    (k : LogSequenceNumber) :
    (m.truncate lsn order).logBuffer.lookup k =
      if k < lsn then none else m.logBuffer.lookup k := by
  have hfold := lookup_truncate_fold order m.logBuffer lsn k
  rw [truncate]
  simp only [hfold]
  by_cases hlt : k < lsn
  · by_cases hk : k ∈ order
    · simp [hk,hlt]
    · have hnone : m.logBuffer.lookup k = none := by
        rw [Finmap.lookup_eq_none,← Finmap.mem_keys,← h.2,List.mem_toFinset]
        exact hk
      simp [hk,hnone]
  · simp [hlt]

theorem mem_getLogsForTransaction {m : LogManager} {order : List LogSequenceNumber}
    (h : Engine.Lists order m.logBuffer.keys) {tx : TransactionId} {r : LogRecord} :
    r ∈ m.getLogsForTransaction tx order ↔
      (∃ k, m.logBuffer.lookup k = some r) ∧ r.transactionId = tx := by
  rw [getLogsForTransaction,List.mem_mergeSort,List.mem_filter,List.mem_filterMap,
    decide_eq_true_eq]
  constructor
  · rintro ⟨⟨k,_,hlook⟩,htx⟩
    exact ⟨⟨k,hlook⟩,htx⟩
  · rintro ⟨⟨k,hlook⟩,htx⟩
    refine ⟨⟨k,?_,hlook⟩,htx⟩
    rw [← List.mem_toFinset,h.2,Finmap.mem_keys]
    exact Finmap.mem_of_lookup_eq_some hlook

/-- The map has each record under its own number. -/
def OwnNumbers (m : LogManager) : Prop := ∀ k r, m.logBuffer.lookup k = some r → r.lsn = k

theorem OwnNumbers.run {m : LogManager} (h : OwnNumbers m) (c : LogCall) : OwnNumbers (c.run m) := by
  intro k r hr
  cases c with
  | append q now =>
    rw [LogCall.run,append_logBuffer] at hr
    rcases FiniteMap.lookup_insert_cases hr with ⟨rfl,rfl⟩ | hold
    · rfl
    · exact h k r hold
  | flush lsn =>
    rw [LogCall.run,flush_eq,flushBuffer_logBuffer] at hr
    exact h k r hr

theorem OwnNumbers.runCalls {m : LogManager} (h : OwnNumbers m) (calls : List LogCall) :
    OwnNumbers (m.runCalls calls) := by
  induction calls generalizing m with
  | nil => exact h
  | cons c calls ih => exact ih (h.run c)

theorem OwnNumbers.takeRecord {m : LogManager} (h : OwnNumbers m) (r : LogRecord) :
    OwnNumbers (m.takeRecord r) := by
  unfold LogManager.takeRecord
  split_ifs
  · intro k q hq
    rcases FiniteMap.lookup_insert_cases hq with ⟨rfl,rfl⟩ | hold
    · rfl
    · exact h k q hold
  · exact h

theorem OwnNumbers.scan {m m' : LogManager} {pos : ℕ} (h : OwnNumbers m)
    (hscan : m.scan pos = .ok m') : OwnNumbers m' := by
  induction m, pos using scan.induct with
  | case1 m pos hroom hnone =>
    rw [LogManager.scan,if_pos hroom,hnone] at hscan
    cases hscan
  | case2 m pos hroom r hr ih =>
    rw [LogManager.scan,if_pos hroom,hr] at hscan
    exact ih (h.takeRecord r) hscan
  | case3 m pos hroom =>
    rw [LogManager.scan,if_neg hroom] at hscan
    obtain rfl := Except.ok.inj hscan
    exact h

theorem init_ownNumbers {mode : LogMode} {unset : Fin 8 → UInt8} {file : Option (List UInt8)}
    {creatable : Bool} {m : LogManager} (h : (new mode).init unset file creatable = .ok m) :
    OwnNumbers m := by
  obtain ⟨w,w',⟨hbuffer,_,_⟩,hscan,rfl⟩ := init_cases h
  have hnew : OwnNumbers w := by
    intro k r hr
    simp [hbuffer] at hr
  rcases hscan with rfl | hscan
  · exact hnew
  · have hown := hnew.scan hscan
    exact hown

end LogManager

namespace TransactionManager

/-- No transaction begins: the active ones were active before, and no id is given away. -/
def BeginsNone (m m' : TransactionManager) : Prop :=
  m'.nextTxId = m.nextTxId ∧ ∀ tx ∈ m'.activeTransactions, tx ∈ m.activeTransactions

theorem BeginsNone.refl (m : TransactionManager) : BeginsNone m m := ⟨rfl,fun _ h => h⟩

theorem beginsNone_finish (m : TransactionManager) (tx : Transaction) (type : LogRecordType)
    (state : TransactionState) (order : List TransactionId) (now : ℤ) :
    BeginsNone m (m.finish tx type state order now) :=
  ⟨rfl,fun _ h => (Finmap.mem_erase.mp h).2⟩

theorem beginsNone_commit (m : TransactionManager) (id : TransactionId) (pages : List PageId)
    (order : List TransactionId) (now : ℤ) (others : List LogCall) :
    BeginsNone m (m.commit id pages order now others).2 := by
  unfold commit
  cases m.activeTransactions.lookup id with
  | none => exact .refl m
  | some tx =>
    dsimp only
    split_ifs
    · exact .refl m
    · exact beginsNone_finish { m with bufferPool := m.bufferPool.flushAll pages } tx _ _ _ _

theorem beginsNone_abort (m : TransactionManager) (id : TransactionId)
    (order : List TransactionId) (now : ℤ) : BeginsNone m (m.abort id order now).2 := by
  unfold abort
  cases m.activeTransactions.lookup id with
  | none => exact .refl m
  | some tx =>
    dsimp only
    split_ifs
    · exact .refl m
    · exact .refl m
    · exact beginsNone_finish m tx _ _ _ _

theorem mem_of_mem_insert_lookup {m : TransactionManager} {id tx : TransactionId}
    {t t' : Transaction} (hlook : m.activeTransactions.lookup id = some t)
    (h : tx ∈ m.activeTransactions.insert id t') : tx ∈ m.activeTransactions := by
  rcases Finmap.mem_insert.mp h with rfl | h
  · exact Finmap.mem_of_lookup_eq_some hlook
  · exact h

theorem beginsNone_update (m : TransactionManager) (id : TransactionId)
    (change : Transaction → Transaction) (type : Option LogRecordType) (name : List UInt8)
    (now : ℤ) : BeginsNone m (m.update id change type name now).2 := by
  unfold update
  cases hlook : m.activeTransactions.lookup id with
  | none => exact .refl m
  | some t =>
    dsimp only
    split_ifs
    · exact .refl m
    · cases type with
      | none => exact ⟨rfl,fun _ h => mem_of_mem_insert_lookup hlook h⟩
      | some type => exact ⟨rfl,fun _ h => mem_of_mem_insert_lookup hlook h⟩

end TransactionManager

namespace Engine

open TransactionManager (BeginsNone)

theorem beginsNone_addModifiedPage (m : TransactionManager) (id : TransactionId) (pid : PageId)
    (lsn : UInt32) : BeginsNone m (addModifiedPage m id pid lsn) := by
  unfold addModifiedPage
  cases hlook : m.activeTransactions.lookup id with
  | none => exact .refl m
  | some t => exact ⟨rfl,fun _ h => TransactionManager.mem_of_mem_insert_lookup hlook h⟩

/-- A transaction becomes active with the next id, and with a record of its own in the log. -/
def Begins (e e' : Engine) : Prop :=
  e'.manager.nextTxId = e.manager.nextTxId+1 ∧
  (∀ tx ∈ e'.manager.activeTransactions,
    tx ∈ e.manager.activeTransactions ∨ tx = e.manager.nextTxId) ∧
  ∃ r ∈ appendedSince e.log e'.log, r.transactionId = e.manager.nextTxId

theorem begin_cases (e : Engine) (isolation : IsolationLevel) (mode : AccessMode) (now : ℤ) :
    BeginsNone e.manager (e.manager.begin isolation mode now).2 ∨
    Begins e (e.withManager (e.manager.begin isolation mode now).2) := by
  by_cases hfull : e.manager.maxTransactions ≤ e.manager.activeTransactions.keys.card
  · left
    simp only [TransactionManager.begin,hfull,if_true]
    exact .refl _
  · right
    have happ := appendedSince_append e.log
      (makeRecord .begin e.manager.nextTxId invalidPageId none) now
    simp only [TransactionManager.begin,hfull,if_false]
    refine ⟨rfl,?_,e.log.stamp (makeRecord .begin e.manager.nextTxId invalidPageId none) now,?_,rfl⟩
    · intro tx htx
      rcases Finmap.mem_insert.mp htx with rfl | htx
      · exact Or.inr rfl
      · exact Or.inl htx
    · exact happ.symm ▸ List.mem_singleton_self _

/-- A call begins one transaction or none. -/
theorem exec_begins {fuel : ℕ} {e e' : Engine} {op : EngineOp} (h : e.exec fuel op = some e') :
    BeginsNone e.manager e'.manager ∨ Begins e e' := by
  cases op with
  | begin isolation mode now =>
    obtain rfl := Option.some.inj h
    exact begin_cases e isolation mode now
  | addModifiedPage tx pid lsn =>
    obtain rfl := Option.some.inj h
    exact Or.inl (beginsNone_addModifiedPage _ tx pid lsn)
  | commit tx pages order now others =>
    obtain ⟨_,rfl⟩ := exec_commit h
    exact Or.inl (TransactionManager.beginsNone_commit _ _ _ _ _ _)
  | abort tx order now =>
    obtain rfl := exec_abort h
    exact Or.inl (TransactionManager.beginsNone_abort _ _ _ _)
  | savepoint tx name now =>
    obtain rfl := Option.some.inj h
    exact Or.inl (TransactionManager.beginsNone_update _ _ _ _ _ _)
  | rollbackToSavepoint tx name now =>
    obtain rfl := Option.some.inj h
    exact Or.inl (TransactionManager.beginsNone_update _ _ _ _ _ _)
  | releaseSavepoint tx name =>
    obtain rfl := Option.some.inj h
    exact Or.inl (TransactionManager.beginsNone_update _ _ _ _ _ _)
  | checkpoint pages txs now =>
    obtain ⟨_,rfl⟩ := exec_checkpoint h
    exact Or.inl ⟨rfl,fun _ h => h⟩
  | pool op =>
    obtain ⟨_,_,_,rfl⟩ := exec_pool h
    exact Or.inl ⟨rfl,fun _ h => h⟩
  | _ =>
    obtain rfl := Option.some.inj h
    exact Or.inl ⟨rfl,fun _ h => h⟩

end Engine

/-- Where a call of `createCheckpoint` stands: it has listed the active transactions, flushed the
pool, or written its record; `active` are the transactions that were active at that moment. -/
inductive CheckpointPhase
  | idle
  | listed (isFull : Bool) (txs : List TransactionId)
  | flushed (isFull : Bool) (txs : List TransactionId)
  | recorded (active : Finset TransactionId)

/-- The engine with its checkpoint manager; `history` lists the records that were appended since
the start. -/
structure CheckpointSystem where
  engine : Engine
  checkpoints : CheckpointManager
  phase : CheckpointPhase
  history : List LogRecord

namespace CheckpointSystem

open Engine (Lists)

def active (s : CheckpointSystem) : Finset TransactionId := s.engine.manager.activeTransactions.keys

/-- `writeDirtyPages`, the pages in the order of the pool. -/
def writeDirtyPages (s : CheckpointSystem) (pages : List PageId) : Engine :=
  s.engine.withPool (s.engine.pool.flushAll pages)

def writeCheckpointRecord (s : CheckpointSystem) (isFull : Bool) (txs : List TransactionId)
    (now : ℤ) : CheckpointSystem :=
  let (c,log) := s.checkpoints.writeCheckpointRecord s.engine.log isFull txs now
  { engine := s.engine.withLog log
    checkpoints := c
    phase := .recorded s.active
    history := s.history++appendedSince s.engine.log log }

/-- The last part of the call; it returns OK. -/
def truncateLogs (s : CheckpointSystem) (order : List LogSequenceNumber) : CheckpointSystem :=
  { s with
    engine := s.engine.withLog (s.checkpoints.truncateLogs s.engine.log order)
    phase := .idle }

/-- A call of a client, or the next part of a call of `createCheckpoint`, of which one runs at a
time. A record names a transaction by an id that `begin` has given away, or none by zero. -/
inductive Step (s : CheckpointSystem) : CheckpointSystem → Prop
  | call {fuel : ℕ} {op : EngineOp} {e' : Engine} : s.engine.exec fuel op = some e' →
      (∀ r ∈ appendedSince s.engine.log e'.log, r.transactionId < e'.manager.nextTxId) →
      Step s { s with engine := e', history := s.history++appendedSince s.engine.log e'.log }
  | list {forceFull : Bool} {txs : List TransactionId} : s.phase = .idle → Lists txs s.active →
      Step s { s with phase := .listed (forceFull || !s.checkpoints.incremental) txs }
  | flush {isFull : Bool} {txs : List TransactionId} {pages : List PageId} :
      s.phase = .listed isFull txs → Lists pages s.engine.pool.frames.keys →
      Step s { s with engine := s.writeDirtyPages pages, phase := .flushed isFull txs }
  | record {isFull : Bool} {txs : List TransactionId} {now : ℤ} : s.phase = .flushed isFull txs →
      Step s (s.writeCheckpointRecord isFull txs now)
  | truncate {active : Finset TransactionId} {order : List LogSequenceNumber} :
      s.phase = .recorded active → Lists order s.engine.log.logBuffer.keys →
      Step s (s.truncateLogs order)

inductive Runs (start : CheckpointSystem) : CheckpointSystem → Prop
  | start : Runs start start
  | step {s s' : CheckpointSystem} : Runs start s → Step s s' → Runs start s'

/-- A system that has just started, on any disk and any log file. -/
def Starts (mode : LogMode) (s : CheckpointSystem) : Prop :=
  Engine.Started mode s.engine ∧ s.phase = .idle ∧ s.history = []

/-- Each active transaction finds all records that it has ever logged. -/
def KeepsUndo (s : CheckpointSystem) : Prop :=
  ∀ tx ∈ s.active, ∀ r ∈ s.history, r.transactionId = tx →
    ∀ order, Lists order s.engine.log.logBuffer.keys →
      r ∈ s.engine.log.getLogsForTransaction tx order

/-- Between the record and the truncation: the transactions of that moment have older records, the
other active ones began later, and the younger records are all in the map. -/
structure Cut (s : CheckpointSystem) (active : Finset TransactionId) (next : TransactionId) :
    Prop where
  older : ∀ tx ∈ active, ∃ r ∈ s.history, r.transactionId = tx ∧
    r.lsn < s.checkpoints.lastCheckpointLsn
  begun : ∀ r ∈ s.history, r.lsn < s.checkpoints.lastCheckpointLsn → r.transactionId < next
  later : ∀ tx ∈ s.active, tx ∈ active ∨ next ≤ tx
  kept : ∀ r ∈ s.history, s.checkpoints.lastCheckpointLsn ≤ r.lsn →
    s.engine.log.logBuffer.lookup r.lsn = some r
  lsn : s.checkpoints.lastCheckpointLsn < s.engine.log.currentLsn
  next : next ≤ s.engine.manager.nextTxId

structure Inv (s : CheckpointSystem) : Prop where
  own : OwnNumbers s.engine.log
  positive : 0 < s.engine.manager.nextTxId
  numbered : ∀ r ∈ s.history, r.lsn < s.engine.log.currentLsn
  begun : ∀ r ∈ s.history, r.transactionId < s.engine.manager.nextTxId
  logged : ∀ tx ∈ s.active, ∃ r ∈ s.history, r.transactionId = tx
  cut : ∀ active, s.phase = .recorded active → ∃ next, Cut s active next

variable {s : CheckpointSystem}

theorem Inv.start {mode : LogMode} (h : Starts mode s) : Inv s := by
  obtain ⟨⟨n,disk,next,unset,file,creatable,log,hinit,hengine⟩,hphase,hhistory⟩ := h
  constructor
  · rw [hengine]
    exact init_ownNumbers hinit
  · rw [hengine]
    exact Nat.one_pos
  · simp [hhistory]
  · simp [hhistory]
  · intro tx htx
    simp [active,hengine,TransactionManager.new] at htx
  · intro active hrecorded
    rw [hphase] at hrecorded
    cases hrecorded

/-- What a client's call does, as far as the invariant speaks of it. -/
structure CallEffect (e e' : Engine) : Prop where
  own : OwnNumbers e.log → OwnNumbers e'.log
  lsn : e.log.currentLsn ≤ e'.log.currentLsn
  old : ∀ k < e.log.currentLsn, e'.log.logBuffer.lookup k = e.log.logBuffer.lookup k
  new : ∀ r ∈ appendedSince e.log e'.log, e.log.currentLsn ≤ r.lsn ∧
    r.lsn < e'.log.currentLsn ∧ e'.log.logBuffer.lookup r.lsn = some r
  next : e.manager.nextTxId ≤ e'.manager.nextTxId
  begins : ∀ tx ∈ e'.manager.activeTransactions, tx ∈ e.manager.activeTransactions ∨
    tx = e.manager.nextTxId ∧ ∃ r ∈ appendedSince e.log e'.log, r.transactionId = tx

theorem callEffect {fuel : ℕ} {op : EngineOp} {e e' : Engine} (h : e.exec fuel op = some e') :
    CallEffect e e' := by
  obtain ⟨calls,hcalls⟩ := Engine.exec_log h
  have hnext : e.manager.nextTxId ≤ e'.manager.nextTxId ∧
      ∀ tx ∈ e'.manager.activeTransactions, tx ∈ e.manager.activeTransactions ∨
        tx = e.manager.nextTxId ∧ ∃ r ∈ appendedSince e.log e'.log, r.transactionId = tx := by
    rcases Engine.exec_begins h with ⟨hsame,hactive⟩ | ⟨hmore,hactive,r,hr,hrtx⟩
    · exact ⟨hsame.ge,fun tx htx => Or.inl (hactive tx htx)⟩
    · refine ⟨hmore ▸ Nat.le_succ _,?_⟩
      intro tx htx
      rcases hactive tx htx with hold | rfl
      · exact Or.inl hold
      · exact Or.inr ⟨rfl,r,hr,hrtx⟩
  constructor
  · intro hown
    rw [hcalls]
    exact hown.runCalls calls
  · rw [hcalls]
    exact runCalls_currentLsn _ _
  · intro k hk
    rw [hcalls,runCalls_old _ _ hk]
  · intro r hr
    rw [hcalls] at hr ⊢
    exact mem_appendedSince hr
  · exact hnext.1
  · exact hnext.2

theorem Cut.call {e' : Engine} {active : Finset TransactionId} {next : TransactionId}
    (h : Cut s active next) (hnumbered : ∀ r ∈ s.history, r.lsn < s.engine.log.currentLsn)
    (he : CallEffect s.engine e') :
    Cut { s with engine := e', history := s.history++appendedSince s.engine.log e'.log }
      active next := by
  constructor
  · intro tx htx
    obtain ⟨r,hr,hrtx,hlsn⟩ := h.older tx htx
    exact ⟨r,List.mem_append_left _ hr,hrtx,hlsn⟩
  · intro r hr hlsn
    rcases List.mem_append.mp hr with hold | hnew
    · exact h.begun r hold hlsn
    · have hlow := (he.new r hnew).1
      exact absurd (lt_trans hlsn h.lsn) (Nat.not_lt.mpr hlow)
  · intro tx htx
    rcases he.begins tx (Finmap.mem_keys.mp htx) with hold | ⟨rfl,_⟩
    · exact h.later tx (Finmap.mem_keys.mpr hold)
    · exact Or.inr h.next
  · intro r hr hlsn
    rcases List.mem_append.mp hr with hold | hnew
    · exact (he.old r.lsn (hnumbered r hold)).trans (h.kept r hold hlsn)
    · exact (he.new r hnew).2.2
  · exact lt_of_lt_of_le h.lsn he.lsn
  · exact h.next.trans he.next

theorem Inv.call {e' : Engine} (h : Inv s) (he : CallEffect s.engine e')
    (hids : ∀ r ∈ appendedSince s.engine.log e'.log, r.transactionId < e'.manager.nextTxId) :
    Inv { s with engine := e', history := s.history++appendedSince s.engine.log e'.log } := by
  constructor
  · exact he.own h.own
  · exact lt_of_lt_of_le h.positive he.next
  · intro r hr
    rcases List.mem_append.mp hr with hold | hnew
    · exact lt_of_lt_of_le (h.numbered r hold) he.lsn
    · exact (he.new r hnew).2.1
  · intro r hr
    rcases List.mem_append.mp hr with hold | hnew
    · exact lt_of_lt_of_le (h.begun r hold) he.next
    · exact hids r hnew
  · intro tx htx
    rcases he.begins tx (Finmap.mem_keys.mp htx) with hold | ⟨_,r,hr,hrtx⟩
    · obtain ⟨r,hr,hrtx⟩ := h.logged tx (Finmap.mem_keys.mpr hold)
      exact ⟨r,List.mem_append_left _ hr,hrtx⟩
    · exact ⟨r,List.mem_append_right _ hr,hrtx⟩
  · intro active hphase
    obtain ⟨next,hcut⟩ := h.cut active hphase
    exact ⟨next,hcut.call h.numbered he⟩

theorem Inv.record (h : Inv s) (isFull : Bool) (txs : List TransactionId) (now : ℤ) :
    Inv (s.writeCheckpointRecord isFull txs now) := by
  have hnew : ∃ r : LogRecord, r.transactionId = 0 ∧ r.lsn = s.engine.log.currentLsn ∧
      (s.writeCheckpointRecord isFull txs now).history = s.history++[r] ∧
      (s.writeCheckpointRecord isFull txs now).engine.log.logBuffer =
        s.engine.log.logBuffer.insert s.engine.log.currentLsn r :=
    ⟨_,rfl,rfl,congrArg (s.history++·) (appendedSince_append _ _ _),append_logBuffer _ _ _⟩
  have hlsn : (s.writeCheckpointRecord isFull txs now).engine.log.currentLsn =
      s.engine.log.currentLsn+1 := append_currentLsn _ _ _
  have hckpt : (s.writeCheckpointRecord isFull txs now).checkpoints.lastCheckpointLsn =
      s.engine.log.currentLsn := append_lsn _ _ _
  have hown : OwnNumbers (s.writeCheckpointRecord isFull txs now).engine.log :=
    h.own.run (.append _ now)
  obtain ⟨r,hrtx,hrlsn,hhistory,hbuffer⟩ := hnew
  have hmem : ∀ q ∈ (s.writeCheckpointRecord isFull txs now).history, q ∈ s.history ∨ q = r := by
    intro q hq
    rw [hhistory] at hq
    simpa using hq
  constructor
  · exact hown
  · exact h.positive
  · intro q hq
    rw [hlsn]
    rcases hmem q hq with hold | rfl
    · exact Nat.lt_succ_of_lt (h.numbered q hold)
    · exact hrlsn ▸ Nat.lt_succ_self _
  · intro q hq
    rcases hmem q hq with hold | rfl
    · exact h.begun q hold
    · exact hrtx ▸ h.positive
  · intro tx htx
    obtain ⟨q,hq,hqtx⟩ := h.logged tx htx
    exact ⟨q,hhistory ▸ List.mem_append_left _ hq,hqtx⟩
  · intro active hphase
    obtain rfl := CheckpointPhase.recorded.inj hphase
    refine ⟨s.engine.manager.nextTxId,?_,?_,?_,?_,?_,le_rfl⟩
    · intro tx htx
      obtain ⟨q,hq,hqtx⟩ := h.logged tx htx
      exact ⟨q,hhistory ▸ List.mem_append_left _ hq,hqtx,hckpt ▸ h.numbered q hq⟩
    · intro q hq hqlsn
      rw [hckpt] at hqlsn
      rcases hmem q hq with hold | rfl
      · exact h.begun q hold
      · exact absurd hrlsn (Nat.ne_of_lt hqlsn)
    · exact fun tx htx => Or.inl htx
    · intro q hq hqlsn
      rw [hckpt] at hqlsn
      rcases hmem q hq with hold | rfl
      · exact absurd (h.numbered q hold) (Nat.not_lt.mpr hqlsn)
      · rw [hbuffer,hrlsn,Finmap.lookup_insert]
    · rw [hlsn,hckpt]
      exact Nat.lt_succ_self _

theorem Inv.truncate (h : Inv s) {order : List LogSequenceNumber}
    (horder : Lists order s.engine.log.logBuffer.keys) : Inv (s.truncateLogs order) := by
  refine ⟨?_,h.positive,h.numbered,h.begun,h.logged,?_⟩
  · intro k r hr
    have hlook := lookup_truncate s.engine.log s.checkpoints.lastCheckpointLsn horder k
    have hr' := hlook.symm.trans hr
    split_ifs at hr'
    exact h.own k r hr'
  · intro active hphase
    cases hphase

theorem Inv.step {s' : CheckpointSystem} (h : Inv s) (hstep : Step s s') : Inv s' := by
  cases hstep with
  | call hexec hids => exact h.call (callEffect hexec) hids
  | list _ _ => exact ⟨h.own,h.positive,h.numbered,h.begun,h.logged,nofun⟩
  | flush _ _ => exact ⟨h.own,h.positive,h.numbered,h.begun,h.logged,nofun⟩
  | record _ => exact h.record _ _ _
  | truncate _ horder => exact h.truncate horder

theorem Runs.inv {mode : LogMode} {start : CheckpointSystem} (hrun : Runs start s)
    (hstart : Starts mode start) : Inv s := by
  induction hrun with
  | start => exact Inv.start hstart
  | step _ hstep ih => exact ih.step hstep

/-- A record is returned after the truncation just when it is not below the CHECKPOINT record. -/
theorem mem_logs_truncate (h : Inv s) {active : Finset TransactionId} {next : TransactionId}
    (hcut : Cut s active next) {order order' : List LogSequenceNumber}
    (horder : Lists order s.engine.log.logBuffer.keys)
    (horder' : Lists order' (s.truncateLogs order).engine.log.logBuffer.keys) {r : LogRecord}
    (hr : r ∈ s.history) :
    r ∈ (s.truncateLogs order).engine.log.getLogsForTransaction r.transactionId order' ↔
      s.checkpoints.lastCheckpointLsn ≤ r.lsn := by
  have hlook := lookup_truncate s.engine.log s.checkpoints.lastCheckpointLsn horder
  rw [mem_getLogsForTransaction horder']
  constructor
  · rintro ⟨⟨k,hk⟩,_⟩
    have hk' := (hlook k).symm.trans hk
    split_ifs at hk' with hbelow
    rw [h.own k r hk']
    exact Nat.not_lt.mp hbelow
  · intro hlsn
    refine ⟨⟨r.lsn,?_⟩,rfl⟩
    have hkept := hcut.kept r hr hlsn
    exact (hlook r.lsn).trans ((if_neg (Nat.not_lt.mpr hlsn)).trans hkept)

/-- An active transaction of the moment of the CHECKPOINT record has lost its oldest records. -/
theorem not_keepsUndo (h : Inv s) {active : Finset TransactionId} {next : TransactionId}
    (hcut : Cut s active next) {order : List LogSequenceNumber}
    (horder : Lists order s.engine.log.logBuffer.keys) {tx : TransactionId} (htx : tx ∈ active)
    (hactive : tx ∈ s.active) : ¬KeepsUndo (s.truncateLogs order) := by
  intro hkeeps
  obtain ⟨r,hr,rfl,hlsn⟩ := hcut.older tx htx
  have horder' : Lists (s.truncateLogs order).engine.log.logBuffer.keys.toList
      (s.truncateLogs order).engine.log.logBuffer.keys :=
    ⟨Finset.nodup_toList _,Finset.toList_toFinset _⟩
  have hmem := hkeeps _ hactive r hr rfl _ horder'
  exact absurd ((mem_logs_truncate h hcut horder horder' hr).mp hmem) (Nat.not_le.mpr hlsn)

/-- At the return of the call, the active transactions have all their records just when none of
them was active at the moment of the CHECKPOINT record. -/
theorem keepsUndo_iff {mode : LogMode} {start : CheckpointSystem} (hstart : Starts mode start)
    (hrun : Runs start s) {active : Finset TransactionId} (hphase : s.phase = .recorded active)
    {order : List LogSequenceNumber} (horder : Lists order s.engine.log.logBuffer.keys) :
    KeepsUndo (s.truncateLogs order) ↔ ∀ tx ∈ active, tx ∉ s.active := by
  have hinv := hrun.inv hstart
  obtain ⟨next,hcut⟩ := hinv.cut active hphase
  constructor
  · intro hkeeps tx htx hactive
    exact not_keepsUndo hinv hcut horder htx hactive hkeeps
  · intro hnone tx htx r hr hrtx order' horder'
    subst hrtx
    apply (mem_logs_truncate hinv hcut horder horder' hr).mpr
    by_contra hbelow
    have hbegun := hcut.begun r hr (Nat.not_le.mp hbelow)
    rcases hcut.later _ htx with hold | hlater
    · exact hnone _ hold htx
    · exact absurd hbegun (Nat.not_lt.mpr hlater)

/-- The parts of a call up to its record, with nothing between them, on an empty pool. -/
def recorded (s : CheckpointSystem) (txs : List TransactionId) (now : ℤ) : CheckpointSystem :=
  writeCheckpointRecord { s with engine := s.writeDirtyPages [], phase := .flushed true txs }
    true txs now

theorem runs_recorded {start : CheckpointSystem} (h : Runs start s) (hphase : s.phase = .idle)
    {txs : List TransactionId} (htxs : Lists txs s.active)
    (hpages : Lists [] s.engine.pool.frames.keys) (now : ℤ) :
    Runs start (s.recorded txs now) := by
  have hlist := Runs.step h (@Step.list s true txs hphase htxs)
  have hflush := Runs.step hlist (Step.flush rfl hpages)
  exact Runs.step hflush (Step.record rfl)

def fresh : CheckpointSystem := ⟨Engine.fresh .normal,⟨false,0⟩,.idle,[]⟩

theorem starts_fresh : Starts .normal fresh := ⟨Engine.started_fresh .normal,rfl,rfl⟩

/-- A client's call of `begin`. -/
def afterBegin (s : CheckpointSystem) : CheckpointSystem :=
  let e := s.engine.withManager (s.engine.manager.begin .repeatableRead .readWrite 0).2
  { s with engine := e, history := s.history++appendedSince s.engine.log e.log }

theorem runs_afterBegin {start : CheckpointSystem} (h : Runs start s)
    (hids : ∀ r ∈ appendedSince s.engine.log s.afterBegin.engine.log,
      r.transactionId < s.afterBegin.engine.manager.nextTxId) : Runs start s.afterBegin :=
  .step h (@Step.call s 0 (.begin .repeatableRead .readWrite 0) s.afterBegin.engine rfl hids)

/-- A transaction that begins before the call and is still active at its return has lost its
BEGIN record. -/
theorem checkpoint_drops_begin :
    Starts .normal fresh ∧ Runs fresh (fresh.afterBegin.recorded [1] 0) ∧
    (fresh.afterBegin.recorded [1] 0).phase = .recorded {1} ∧
    Lists [1,2] (fresh.afterBegin.recorded [1] 0).engine.log.logBuffer.keys ∧
    ¬KeepsUndo ((fresh.afterBegin.recorded [1] 0).truncateLogs [1,2]) := by
  have hbegin : Runs fresh fresh.afterBegin := runs_afterBegin .start (by decide)
  have hrun : Runs fresh (fresh.afterBegin.recorded [1] 0) :=
    runs_recorded hbegin rfl (by decide) (by decide) 0
  have hphase : (fresh.afterBegin.recorded [1] 0).phase = .recorded {1} := by rfl
  have horder : Lists [1,2] (fresh.afterBegin.recorded [1] 0).engine.log.logBuffer.keys := by
    decide
  refine ⟨starts_fresh,hrun,hphase,horder,?_⟩
  have hinv := hrun.inv starts_fresh
  obtain ⟨next,hcut⟩ := hinv.cut _ hphase
  exact not_keepsUndo hinv hcut horder (Finset.mem_singleton_self 1) (by decide)

/-- A transaction that begins after the record and before the truncation keeps all its records. -/
theorem keepsUndo_iff_begin_inside :
    (fresh.recorded [] 0).afterBegin.active = {1} ∧
    KeepsUndo ((fresh.recorded [] 0).afterBegin.truncateLogs [1,2]) := by
  have hrecord : Runs fresh (fresh.recorded [] 0) :=
    runs_recorded .start rfl (by decide) (by decide) 0
  have hrun : Runs fresh (fresh.recorded [] 0).afterBegin := runs_afterBegin hrecord (by decide)
  have hphase : (fresh.recorded [] 0).afterBegin.phase = .recorded ∅ := by rfl
  exact ⟨by decide,(keepsUndo_iff starts_fresh hrun hphase (by decide)).mpr (by decide)⟩

end CheckpointSystem
end OrangeSQL
