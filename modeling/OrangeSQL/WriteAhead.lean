import OrangeSQL.CommitDurability
import OrangeSQL.PageWrites

/-! The write-ahead rule. Pages reach the disk through commits, checkpoints and the calls of the
buffer pool, none of which flushes the log first, so the rule rests on the write buffer holding
no record of the pages that are written. -/
namespace OrangeSQL

open LogManager

namespace TransactionManager

/-- A commit does with the pool what the flushes of the modified pages do, if it does anything. -/
theorem commit_bufferPool (m : TransactionManager) (id : TransactionId) (pages : List PageId)
    (order : List TransactionId) (now : ℤ) (others : List LogCall) :
    (∃ tx, m.activeTransactions.lookup id = some tx ∧ tx.state = .active ∧
      (m.commit id pages order now others).2.bufferPool = m.bufferPool.flushAll pages) ∨
    (∀ tx, m.activeTransactions.lookup id = some tx → tx.state ≠ .active) ∧
      (m.commit id pages order now others).2.bufferPool = m.bufferPool := by
  unfold commit
  cases hlook : m.activeTransactions.lookup id with
  | none => exact Or.inr ⟨by simp,rfl⟩
  | some tx =>
    by_cases hstate : tx.state = .active
    · refine Or.inl ⟨tx,rfl,hstate,?_⟩
      simp only [hstate,ne_eq,not_true_eq_false,if_false]
      rfl
    · refine Or.inr ⟨?_,by simp [hstate]⟩
      intro t ht
      rwa [← Option.some.inj ht]

theorem begin_bufferPool (m : TransactionManager) (isolation : IsolationLevel) (mode : AccessMode)
    (now : ℤ) : (m.begin isolation mode now).2.bufferPool = m.bufferPool := by
  unfold begin
  split <;> rfl

theorem abort_bufferPool (m : TransactionManager) (id : TransactionId)
    (order : List TransactionId) (now : ℤ) :
    (m.abort id order now).2.bufferPool = m.bufferPool := by
  unfold abort
  cases m.activeTransactions.lookup id with
  | none => rfl
  | some tx => dsimp only; split_ifs <;> rfl

theorem update_bufferPool (m : TransactionManager) (id : TransactionId)
    (change : Transaction → Transaction) (type : Option LogRecordType) (name : List UInt8)
    (now : ℤ) : (m.update id change type name now).2.bufferPool = m.bufferPool := by
  unfold update
  cases m.activeTransactions.lookup id with
  | none => rfl
  | some tx =>
    dsimp only
    split_ifs
    · rfl
    · cases type <;> rfl

end TransactionManager

namespace Engine

/-- The page images that a call writes. -/
def Writes (e : Engine) : EngineOp → Page → Prop
  | .commit id _ _ _ _, i => ∃ tx, e.manager.activeTransactions.lookup id = some tx ∧
      tx.state = .active ∧ ∃ p ∈ tx.modifiedPages, e.pool.dirtyImage p = some i
  | .checkpoint _ _ _, i => ∃ p, e.pool.dirtyImage p = some i
  | .pool op, i => e.pool.Writes op i
  | _, _ => False

/-- A commit writes the dirty ones of the modified pages, whatever the order of its walk. -/
theorem commit_written {fuel : ℕ} {e e' : Engine} {id : TransactionId} {pages : List PageId}
    {order : List TransactionId} {now : ℤ} {others : List LogCall}
    (h : e.exec fuel (.commit id pages order now others) = some e') :
    ∃ ws, e'.pool.disk.written = ws++e.pool.disk.written ∧
      ∀ i, i ∈ ws ↔ e.Writes (.commit id pages order now others) i := by
  obtain ⟨horder,rfl⟩ := exec_commit h
  rcases e.manager.commit_bufferPool id pages order now others with
    ⟨tx,hlook,hstate,hpool⟩ | ⟨hnot,hpool⟩
  · obtain ⟨ws,hws,hmem⟩ := BufferPool.flushAll_written (s := e.pool) horder.1
    refine ⟨ws,?_,?_⟩
    · simp only [pool,withManager,hpool]
      exact hws
    · intro i
      have hpages : ∀ p, p ∈ pages ↔ p ∈ tx.modifiedPages := by
        intro p
        rw [← List.mem_toFinset,horder.2,modifiedPages,hlook,Option.elim_some,Finmap.mem_keys]
      rw [hmem]
      constructor
      · rintro ⟨p,hp,hi⟩
        exact ⟨tx,hlook,hstate,p,(hpages p).mp hp,hi⟩
      · rintro ⟨t,ht,_,p,hp,hi⟩
        obtain rfl := Option.some.inj (hlook.symm.trans ht)
        exact ⟨p,(hpages p).mpr hp,hi⟩
  · refine ⟨[],by simp [pool,withManager,hpool],?_⟩
    intro i
    refine iff_of_false (by simp) ?_
    rintro ⟨tx,htx,hactive,_⟩
    exact hnot tx htx hactive

theorem exec_written {fuel : ℕ} {e e' : Engine} {op : EngineOp} (h : e.exec fuel op = some e') :
    ∃ ws, e'.pool.disk.written = ws++e.pool.disk.written ∧ ∀ i, i ∈ ws ↔ e.Writes op i := by
  cases op with
  | begin isolation mode now =>
    obtain rfl := Option.some.inj h
    refine ⟨[],?_,by simp [Writes]⟩
    simp [pool,withManager,TransactionManager.begin_bufferPool]
  | modifyPage pid change =>
    obtain rfl := Option.some.inj h
    refine ⟨[],?_,by simp [Writes]⟩
    simp only [pool,withPool,modifyPage]
    split <;> rfl
  | addModifiedPage tx pid lsn =>
    obtain rfl := Option.some.inj h
    refine ⟨[],?_,by simp [Writes]⟩
    simp only [pool,withManager,addModifiedPage]
    split <;> rfl
  | commit id pages order now others => exact commit_written h
  | abort id order now =>
    obtain rfl := exec_abort h
    refine ⟨[],?_,by simp [Writes]⟩
    simp [pool,withManager,TransactionManager.abort_bufferPool]
  | savepoint id name now =>
    obtain rfl := Option.some.inj h
    refine ⟨[],?_,by simp [Writes]⟩
    simp [pool,withManager,TransactionManager.savepoint,TransactionManager.update_bufferPool]
  | rollbackToSavepoint id name now =>
    obtain rfl := Option.some.inj h
    refine ⟨[],?_,by simp [Writes]⟩
    simp [pool,withManager,TransactionManager.rollbackToSavepoint,
      TransactionManager.update_bufferPool]
  | releaseSavepoint id name =>
    obtain rfl := Option.some.inj h
    refine ⟨[],?_,by simp [Writes]⟩
    simp [pool,withManager,TransactionManager.releaseSavepoint,
      TransactionManager.update_bufferPool]
  | checkpoint pages txs now =>
    obtain ⟨horder,rfl⟩ := exec_checkpoint h
    exact BufferPool.flushAll_written_all horder
  | pool op =>
    obtain ⟨r,s,hexec,rfl⟩ := exec_pool h
    exact BufferPool.exec_written hexec
  | _ =>
    obtain rfl := Option.some.inj h
    exact ⟨[],rfl,by simp [Writes]⟩

/-- At this state of the log the image may be written: all records of its page are flushed and
none is left in the write buffer. -/
def Ahead (m : LogManager) (i : Page) : Prop :=
  (∀ lsn r, m.logBuffer.lookup lsn = some r → r.pageId = i.getPageId → r ∈ m.flushed) ∧
  ∀ r ∈ m.writeBuffer, r.pageId ≠ i.getPageId

/-- The record waits in the write buffer, or will never be written because logging is off. -/
def Pending (m : LogManager) (r : LogRecord) : Prop :=
  r ∈ m.writeBuffer ∨
  m.mode = .noLog ∧ (∃ lsn, m.logBuffer.lookup lsn = some r) ∧ r ∉ m.flushed

/-- None of the pages that the call is going to write has a pending record. -/
def Meets (e : Engine) (op : EngineOp) : Prop :=
  ∀ i, e.Writes op i → ∀ r, Pending e.log r → r.pageId ≠ i.getPageId

/-- Runs whose calls all meet the condition. The events are the images written, each with the log
at that time: a commit and a checkpoint write their pages before they touch the log. -/
inductive MeetingRun (start : Engine) : Engine → List (Page × LogManager) → Prop
  | start : MeetingRun start start []
  | call {e e' : Engine} {events : List (Page × LogManager)} {fuel : ℕ} {op : EngineOp}
      {ws : List Page} :
      MeetingRun start e events → Meets e op → e.exec fuel op = some e' →
      e'.pool.disk.written = ws++e.pool.disk.written →
      MeetingRun start e' (ws.map (fun i => (i,e.log))++events)

theorem MeetingRun.reaches {start e : Engine} {events : List (Page × LogManager)}
    (h : MeetingRun start e events) : Reaches start e := by
  induction h with
  | start => exact .start
  | call _ _ hexec _ ih => exact ih.call hexec

theorem ahead_iff {m : LogManager} (h : m.mode ≠ .noLog → Stored m) (i : Page) :
    Ahead m i ↔ ∀ r, Pending m r → r.pageId ≠ i.getPageId := by
  constructor
  · intro hahead r hr hpage
    rcases hr with hb | ⟨_,⟨lsn,hlook⟩,hnot⟩
    · exact hahead.2 r hb hpage
    · exact hnot (hahead.1 lsn r hlook hpage)
  · intro hnone
    refine ⟨?_,fun r hb => hnone r (Or.inl hb)⟩
    intro lsn r hr hpage
    by_contra hnot
    by_cases hmode : m.mode = .noLog
    · exact hnone r (Or.inr ⟨hmode,⟨lsn,hr⟩,hnot⟩) hpage
    · rcases h hmode lsn r hr with hf | hb
      · exact hnot hf
      · exact hnone r (Or.inl hb) hpage

/-- The images that a call writes are ahead exactly if the call meets the condition. -/
theorem exec_ahead_iff {mode : LogMode} {start e e' : Engine} (hstart : Started mode start)
    (h : Reaches start e) {fuel : ℕ} {op : EngineOp} {ws : List Page}
    (hexec : e.exec fuel op = some e')
    (hws : e'.pool.disk.written = ws++e.pool.disk.written) :
    (∀ i ∈ ws, Ahead e.log i) ↔ Meets e op := by
  obtain ⟨vs,hvs,hmem⟩ := exec_written hexec
  obtain rfl : ws = vs := List.append_cancel_right (hws.symm.trans hvs)
  obtain ⟨⟨hmode,hstored⟩,_⟩ := h.logged hstart
  rw [← hmode] at hstored
  refine forall_congr' fun i => ?_
  rw [hmem i,ahead_iff hstored]

/-- In a run whose calls all meet the condition every page image written is preceded by the log
records of its page; and the next call keeps the rule exactly if it meets the condition. -/
theorem meetingRun_write_ahead {mode : LogMode} {start e : Engine} (hstart : Started mode start)
    {events : List (Page × LogManager)} (h : MeetingRun start e events) :
    (∀ i m, (i,m) ∈ events → Ahead m i) ∧
    ∀ fuel op e' ws, e.exec fuel op = some e' →
      e'.pool.disk.written = ws++e.pool.disk.written →
      ((∀ i ∈ ws, Ahead e.log i) ↔ Meets e op) := by
  constructor
  · induction h with
    | start => simp
    | @call e e' events fuel op ws hrun hmeets hexec hws ih =>
      have hahead := (exec_ahead_iff hstart hrun.reaches hexec hws).mpr hmeets
      intro i m hmem
      rcases List.mem_append.mp hmem with hnew | hold
      · obtain ⟨j,hj,heq⟩ := List.mem_map.mp hnew
        obtain ⟨rfl,rfl⟩ := Prod.mk.inj heq
        exact hahead j hj
      · exact ih i m hold
  · intro fuel op e' ws hexec hws
    exact exec_ahead_iff hstart h.reaches hexec hws

theorem meets_of_empty {e : Engine} (hbuffer : e.log.writeBuffer = [])
    (hmode : e.log.mode ≠ .noLog) (op : EngineOp) : Meets e op := by
  intro i _ r hr
  rcases hr with hb | ⟨hno,_⟩
  · rw [hbuffer] at hb
    cases hb
  · exact absurd hno hmode

/-- A transaction has created page 1, logged the insertion of a row and noted the page. -/
def inserted : Engine :=
  let created := (begun .normal).pool.createNewPage 1 1 .dataPage
  let e := (begun .normal).withPool (created.elim (begun .normal).pool Prod.snd)
  let e := e.withLog (WalManager.logInsert e.log 1 1 [] 0 0).2
  e.withManager (addModifiedPage e.manager 1 1 2)

theorem meetingRun_inserted : MeetingRun (fresh .normal) inserted [] := by
  have hbegin := MeetingRun.call .start (fun _ hw => absurd hw id)
    (show (fresh .normal).exec 0 (.begin .repeatableRead .readWrite 0) = some (begun .normal)
      from rfl) (List.nil_append _).symm
  have hroom : (begun .normal).pool.size < (begun .normal).pool.poolSize := by decide
  have hnone : Meets (begun .normal) (.pool (.createNewPage 1 .dataPage)) :=
    fun i hw => absurd hw (BufferPool.evicted_of_lt hroom i)
  have hcreate := MeetingRun.call hbegin hnone
    (show (begun .normal).exec 1 (.pool (.createNewPage 1 .dataPage)) = some _ from rfl)
    (List.nil_append _).symm
  have hlog := MeetingRun.call hcreate (fun _ hw => absurd hw id)
    (show exec 0 _ (.logInsert 1 1 [] 0 0) = some _ from rfl) (List.nil_append _).symm
  exact MeetingRun.call hlog (fun _ hw => absurd hw id)
    (show exec 0 _ (.addModifiedPage 1 1 2) = some inserted from rfl) (List.nil_append _).symm

/-- The log is flushed and the transaction commits. -/
theorem meetingRun_write_ahead_flushed :
    ∃ e i m, MeetingRun (fresh .normal) e [(i,m)] ∧ i.getPageId = 1 ∧ Ahead m i := by
  have hflush := MeetingRun.call meetingRun_inserted (fun _ hw => absurd hw id)
    (show inserted.exec 0 (.log (.flush 0)) = some _ from rfl) (List.nil_append _).symm
  have hcommit := MeetingRun.call hflush (meets_of_empty rfl (by decide) _)
    (show exec 0 _ (.commit 1 [1] [1] 0 []) = some _ from rfl) (show _ = [_]++_ from rfl)
  have hahead := (meetingRun_write_ahead (started_fresh .normal) hcommit).1
  exact ⟨_,_,_,hcommit,rfl,hahead _ _ List.mem_cons_self⟩

/-- Without the flush the commit writes the page while the record of the row is only in the write
buffer. -/
theorem commit_writes_page_first :
    Started .normal (fresh .normal) ∧ Reaches (fresh .normal) inserted ∧
    ∃ e' i, inserted.exec 0 (.commit 1 [1] [1] 0 []) = some e' ∧
      e'.pool.disk.written = [i]++inserted.pool.disk.written ∧ ¬ Ahead inserted.log i := by
  have hcommit : inserted.exec 0 (.commit 1 [1] [1] 0 []) = some _ := rfl
  refine ⟨started_fresh .normal,meetingRun_inserted.reaches,_,_,hcommit,rfl,?_⟩
  intro hahead
  have hrecord : ∃ r ∈ inserted.log.writeBuffer, r.pageId = 1 :=
    ⟨_,List.mem_cons_of_mem _ List.mem_cons_self,rfl⟩
  obtain ⟨r,hr,hpage⟩ := hrecord
  exact hahead.2 r hr hpage

end Engine
end OrangeSQL
