import OrangeSQL.LogManager
import OrangeSQL.Library.FiniteMap

/-! When a record leaves the write buffer. Every appended record is in the write buffer or
flushed; a record in the write buffer stays there until a flush, or an append for which the buffer
has no room. -/
namespace OrangeSQL
namespace LogManager

open FiniteMap

/-- The record does not fit behind what is in the write buffer. -/
def overflows (m : LogManager) (r : LogRecord) : Bool :=
  decide (writeBufferSize < m.bufferPos+(recordSize+r.dataLength.toNat))

theorem append_logBuffer (m : LogManager) (r : LogRecord) (now : ℤ) :
    (m.appendLogRecord r now).2.logBuffer = m.logBuffer.insert m.currentLsn (m.stamp r now) := by
  obtain ⟨b,happend,hb⟩ := appendLogRecord_cases m r now
  rcases hb with rfl | rfl <;> simp [happend]

theorem append_currentLsn (m : LogManager) (r : LogRecord) (now : ℤ) :
    (m.appendLogRecord r now).2.currentLsn = m.currentLsn+1 := by
  obtain ⟨b,happend,hb⟩ := appendLogRecord_cases m r now
  rcases hb with rfl | rfl <;> simp [happend]

theorem append_mode (m : LogManager) (r : LogRecord) (now : ℤ) :
    (m.appendLogRecord r now).2.mode = m.mode := by
  obtain ⟨b,happend,hb⟩ := appendLogRecord_cases m r now
  rcases hb with rfl | rfl <;> simp [happend]

section Logging

variable {m : LogManager} (hmode : m.mode ≠ .noLog)
include hmode

theorem append_of_fits {r : LogRecord} (now : ℤ) (h : m.overflows r = false) :
    (m.appendLogRecord r now).2.flushed = m.flushed ∧
    (m.appendLogRecord r now).2.writeBuffer = m.writeBuffer++[m.stamp r now] := by
  have hfits := of_decide_eq_false h
  unfold bufferPos at hfits
  simp [appendLogRecord,hmode,bufferPos,hfits]

theorem append_of_overflows {r : LogRecord} (now : ℤ) (h : m.overflows r = true) :
    (m.appendLogRecord r now).2.flushed = m.flushed++m.writeBuffer ∧
    (m.appendLogRecord r now).2.writeBuffer = [m.stamp r now] := by
  have hfull := of_decide_eq_true h
  unfold bufferPos at hfull
  simp [appendLogRecord,hmode,bufferPos,hfull]

end Logging

theorem LogCall.run_mode (m : LogManager) (c : LogCall) : (c.run m).mode = m.mode := by
  cases c with
  | append r now => exact append_mode m r now
  | flush lsn => rw [run,flush_eq,flushBuffer_mode]

/-- Every record in the map is in the flushed part or in the write buffer. -/
def Stored (m : LogManager) : Prop :=
  ∀ lsn r, m.logBuffer.lookup lsn = some r → r ∈ m.flushed ∨ r ∈ m.writeBuffer

/-- What a call keeps: flushed records stay flushed, records in the write buffer stay there or are
flushed, and the write buffer and the map get only records with new numbers. -/
structure Keeps (m m' : LogManager) : Prop where
  flushed : ∀ r ∈ m.flushed, r ∈ m'.flushed
  buffered : ∀ r ∈ m.writeBuffer, r ∈ m'.flushed ∨ r ∈ m'.writeBuffer
  fresh : ∀ r ∈ m'.writeBuffer, r ∈ m.writeBuffer ∨ m.currentLsn ≤ r.lsn
  next : m.currentLsn ≤ m'.currentLsn
  old : ∀ k < m.currentLsn, m'.logBuffer.lookup k = m.logBuffer.lookup k

theorem Keeps.refl (m : LogManager) : Keeps m m :=
  ⟨fun _ hr => hr,fun _ hr => Or.inr hr,fun _ hr => Or.inl hr,le_rfl,fun _ _ => rfl⟩

theorem Keeps.trans {m m' m'' : LogManager} (h : Keeps m m') (h' : Keeps m' m'') :
    Keeps m m'' := by
  constructor
  · intro r hr
    exact h'.flushed r (h.flushed r hr)
  · intro r hr
    rcases h.buffered r hr with hf | hb
    · exact Or.inl (h'.flushed r hf)
    · exact h'.buffered r hb
  · intro r hr
    rcases h'.fresh r hr with hb | hlsn
    · exact h.fresh r hb
    · exact Or.inr (h.next.trans hlsn)
  · exact h.next.trans h'.next
  · intro k hk
    rw [h'.old k (lt_of_lt_of_le hk h.next),h.old k hk]

/-- The call empties the write buffer. -/
def LogCall.empties (m : LogManager) : LogCall → Bool
  | .append r _ => m.overflows r
  | .flush _ => true

theorem LogCall.run_currentLsn (m : LogManager) (c : LogCall) :
    m.currentLsn ≤ (c.run m).currentLsn := by
  cases c with
  | append r now =>
    rw [run,append_currentLsn]
    exact Nat.le_succ _
  | flush lsn => rw [run,flush_eq,flushBuffer_currentLsn]

theorem LogCall.run_lookup (m : LogManager) (c : LogCall) {k : LogSequenceNumber}
    (hk : k < m.currentLsn) : (c.run m).logBuffer.lookup k = m.logBuffer.lookup k := by
  cases c with
  | append r now => rw [run,append_logBuffer,Finmap.lookup_insert_of_ne _ (Nat.ne_of_lt hk)]
  | flush lsn => rw [run,flush_eq,flushBuffer_logBuffer]

section Calls

variable {m : LogManager} (hmode : m.mode ≠ .noLog)
include hmode

theorem LogCall.run_of_empties {c : LogCall} (h : c.empties m = true) :
    (c.run m).flushed = m.flushed++m.writeBuffer ∧
    ∀ r ∈ (c.run m).writeBuffer, m.currentLsn ≤ r.lsn := by
  cases c with
  | append r now =>
    obtain ⟨hf,hb⟩ := append_of_overflows hmode now h
    refine ⟨hf,?_⟩
    intro q hq
    rw [run,hb] at hq
    obtain rfl := List.mem_singleton.mp hq
    exact le_rfl
  | flush lsn =>
    rw [run,flush_eq]
    exact ⟨flushBuffer_flushed m,by simp⟩

theorem LogCall.run_of_not_empties {c : LogCall} (h : c.empties m = false) :
    (c.run m).flushed = m.flushed ∧
    ∃ r, (c.run m).writeBuffer = m.writeBuffer++[r] ∧ m.currentLsn ≤ r.lsn := by
  cases c with
  | append r now =>
    obtain ⟨hf,hb⟩ := append_of_fits hmode now h
    exact ⟨hf,m.stamp r now,hb,le_rfl⟩
  | flush lsn => cases h

theorem LogCall.run_keeps (c : LogCall) : Keeps m (c.run m) := by
  have hnext := c.run_currentLsn m
  have hold : ∀ k < m.currentLsn, (c.run m).logBuffer.lookup k = m.logBuffer.lookup k :=
    fun k hk => c.run_lookup m hk
  cases hempties : c.empties m with
  | false =>
    obtain ⟨hf,r,hb,hr⟩ := LogCall.run_of_not_empties hmode hempties
    refine ⟨?_,?_,?_,hnext,hold⟩
    · intro q hq
      rwa [hf]
    · intro q hq
      rw [hb]
      exact Or.inr (List.mem_append_left _ hq)
    · intro q hq
      rw [hb] at hq
      rcases List.mem_append.mp hq with hbefore | hnew
      · exact Or.inl hbefore
      · obtain rfl := List.mem_singleton.mp hnew
        exact Or.inr hr
  | true =>
    obtain ⟨hf,hb⟩ := LogCall.run_of_empties hmode hempties
    refine ⟨?_,?_,fun q hq => Or.inr (hb q hq),hnext,hold⟩
    · intro q hq
      rw [hf]
      exact List.mem_append_left _ hq
    · intro q hq
      rw [hf]
      exact Or.inl (List.mem_append_right _ hq)

/-- The record that the append puts at the end of the write buffer. -/
theorem stamp_mem_append (r : LogRecord) (now : ℤ) :
    m.stamp r now ∈ (m.appendLogRecord r now).2.writeBuffer := by
  cases hover : m.overflows r with
  | false =>
    rw [(append_of_fits hmode now hover).2]
    exact List.mem_append_right _ (List.mem_singleton_self _)
  | true =>
    rw [(append_of_overflows hmode now hover).2]
    exact List.mem_singleton_self _

end Calls

theorem Stored.run {m : LogManager} (h : Stored m) (hmode : m.mode ≠ .noLog) (c : LogCall) :
    Stored (c.run m) := by
  have hkeeps := LogCall.run_keeps hmode c
  have hold : ∀ r, r ∈ m.flushed ∨ r ∈ m.writeBuffer →
      r ∈ (c.run m).flushed ∨ r ∈ (c.run m).writeBuffer := by
    intro r hr
    rcases hr with hf | hb
    · exact Or.inl (hkeeps.flushed r hf)
    · exact hkeeps.buffered r hb
  cases c with
  | append r now =>
    intro lsn q hq
    simp only [LogCall.run,append_logBuffer] at hq
    rcases lookup_insert_cases hq with ⟨rfl,rfl⟩ | hq
    · exact Or.inr (stamp_mem_append hmode r now)
    · exact hold q (h lsn q hq)
  | flush lsn =>
    intro k q hq
    simp only [LogCall.run,flush_eq,flushBuffer_logBuffer] at hq
    exact hold q (h k q hq)

theorem runCalls_mode (m : LogManager) (calls : List LogCall) :
    (m.runCalls calls).mode = m.mode := by
  induction calls generalizing m with
  | nil => rfl
  | cons c calls ih =>
    rw [runCalls,List.foldl_cons,← runCalls,ih,LogCall.run_mode]

theorem runCalls_keeps {m : LogManager} (hmode : m.mode ≠ .noLog) (calls : List LogCall) :
    Keeps m (m.runCalls calls) := by
  induction calls generalizing m with
  | nil => exact Keeps.refl m
  | cons c calls ih =>
    have hmode' : (c.run m).mode ≠ .noLog := by rwa [LogCall.run_mode]
    exact (LogCall.run_keeps hmode c).trans (ih hmode')

theorem Stored.runCalls {m : LogManager} (h : Stored m) (hmode : m.mode ≠ .noLog)
    (calls : List LogCall) : Stored (m.runCalls calls) := by
  induction calls generalizing m with
  | nil => exact h
  | cons c calls ih =>
    have hmode' : (c.run m).mode ≠ .noLog := by rwa [LogCall.run_mode]
    exact ih (h.run hmode c) hmode'

/-- Among the calls is a flush, or an append that finds no room in the write buffer. -/
def drains (m : LogManager) : List LogCall → Bool
  | [] => false
  | .flush _::_ => true
  | .append r now::calls => m.overflows r || drains (m.appendLogRecord r now).2 calls

theorem drains_cons (m : LogManager) (c : LogCall) (calls : List LogCall) :
    m.drains (c::calls) = (c.empties m || (c.run m).drains calls) := by
  cases c <;> rfl

theorem mem_writeBuffer_of_not_drains {m : LogManager} (hmode : m.mode ≠ .noLog)
    {calls : List LogCall} (h : m.drains calls = false) {r : LogRecord} (hr : r ∈ m.writeBuffer) :
    r ∈ (m.runCalls calls).writeBuffer := by
  induction calls generalizing m with
  | nil => exact hr
  | cons c calls ih =>
    rw [drains_cons] at h
    obtain ⟨hempties,hrest⟩ := Bool.or_eq_false_iff.mp h
    have hmode' : (c.run m).mode ≠ .noLog := by rwa [LogCall.run_mode]
    obtain ⟨_,q,hb,_⟩ := LogCall.run_of_not_empties hmode hempties
    have hkept : r ∈ (c.run m).writeBuffer := by
      rw [hb]
      exact List.mem_append_left _ hr
    exact ih hmode' hrest hkept

/-- After such a call all records of before are flushed, and the write buffer has new ones only. -/
theorem flushed_of_drains {m : LogManager} (hmode : m.mode ≠ .noLog) {calls : List LogCall}
    (h : m.drains calls = true) :
    (∀ r, r ∈ m.flushed ∨ r ∈ m.writeBuffer → r ∈ (m.runCalls calls).flushed) ∧
    ∀ r ∈ (m.runCalls calls).writeBuffer, m.currentLsn ≤ r.lsn := by
  induction calls generalizing m with
  | nil => cases h
  | cons c calls ih =>
    have hmode' : (c.run m).mode ≠ .noLog := by rwa [LogCall.run_mode]
    have hfirst := LogCall.run_keeps hmode c
    have hrest := runCalls_keeps hmode' calls
    rw [drains_cons] at h
    cases hempties : c.empties m with
    | true =>
      obtain ⟨hf,hb⟩ := LogCall.run_of_empties hmode hempties
      constructor
      · intro r hr
        apply hrest.flushed
        rw [hf]
        exact List.mem_append.mpr hr
      · intro r hr
        rcases hrest.fresh r hr with hbefore | hlsn
        · exact hb r hbefore
        · exact hfirst.next.trans hlsn
    | false =>
      rw [hempties,Bool.false_or] at h
      obtain ⟨hflushed,hfresh⟩ := ih hmode' h
      constructor
      · intro r hr
        apply hflushed
        rcases hr with hf | hb
        · exact Or.inl (hfirst.flushed r hf)
        · exact hfirst.buffered r hb
      · intro r hr
        exact hfirst.next.trans (hfresh r hr)

/-- The records that a restart finds in the file count as flushed, and nothing is buffered. -/
def Opened (m : LogManager) : Prop := Stored m ∧ m.writeBuffer = []

theorem Opened.takeRecord {m : LogManager} (h : Opened m) (r : LogRecord) :
    Opened (m.takeRecord r) ∧ (m.takeRecord r).mode = m.mode := by
  by_cases hlsn : 0 < r.lsn
  · rw [LogManager.takeRecord,if_pos hlsn]
    refine ⟨⟨?_,h.2⟩,rfl⟩
    intro lsn q hq
    left
    rcases lookup_insert_cases hq with ⟨_,rfl⟩ | hq
    · exact List.mem_append_right _ (List.mem_singleton_self q)
    · have hold := h.1 lsn q hq
      rw [h.2] at hold
      rcases hold with hf | hb
      · exact List.mem_append_left _ hf
      · cases hb
  · rw [LogManager.takeRecord,if_neg hlsn]
    exact ⟨h,rfl⟩

theorem Opened.scan {m m' : LogManager} {pos : ℕ} (h : Opened m) (hscan : m.scan pos = .ok m') :
    Opened m' ∧ m'.mode = m.mode := by
  induction m, pos using scan.induct with
  | case1 m pos hroom hnone =>
    rw [LogManager.scan,if_pos hroom,hnone] at hscan
    cases hscan
  | case2 m pos hroom r hr ih =>
    rw [LogManager.scan,if_pos hroom,hr] at hscan
    obtain ⟨hopened,hmode⟩ := h.takeRecord r
    obtain ⟨hs,hmode'⟩ := ih hopened hscan
    exact ⟨hs,hmode'.trans hmode⟩
  | case3 m pos hroom =>
    rw [LogManager.scan,if_neg hroom] at hscan
    obtain rfl := Except.ok.inj hscan
    exact ⟨h,rfl⟩

/-- `init` opens an empty log and then scans the file, or has nothing to scan. -/
theorem init_cases {mode : LogMode} {unset : Fin 8 → UInt8} {file : Option (List UInt8)}
    {creatable : Bool} {m : LogManager} (h : (new mode).init unset file creatable = .ok m) :
    ∃ w w' : LogManager, (w.logBuffer = ∅ ∧ w.writeBuffer = [] ∧ w.mode = mode) ∧
      (w' = w ∨ w.scan fileHeaderSize = .ok w') ∧
      m = { w' with syncThread := decide (w'.mode = .async) } := by
  cases file with
  | none =>
    cases creatable with
    | false => cases h
    | true => exact ⟨_,_,⟨rfl,rfl,rfl⟩,Or.inl rfl,(Except.ok.inj h).symm⟩
  | some content =>
    by_cases hsize : fileHeaderSize < content.length
    · cases hscan : { new mode with logFile := ⟨content,content.length⟩ }.scan fileHeaderSize with
      | error e =>
        simp only [init,if_pos hsize,hscan] at h
        cases h
      | ok w =>
        simp only [init,if_pos hsize,hscan] at h
        exact ⟨_,w,⟨rfl,rfl,rfl⟩,Or.inr hscan,(Except.ok.inj h).symm⟩
    · simp only [init,if_neg hsize] at h
      exact ⟨_,_,⟨rfl,rfl,rfl⟩,Or.inl rfl,(Except.ok.inj h).symm⟩

theorem init_opened {mode : LogMode} {unset : Fin 8 → UInt8} {file : Option (List UInt8)}
    {creatable : Bool} {m : LogManager} (h : (new mode).init unset file creatable = .ok m) :
    Opened m ∧ m.mode = mode := by
  obtain ⟨w,w',⟨hbuffer,hempty,rfl⟩,hscan,rfl⟩ := init_cases h
  have hnew : Opened w := by
    refine ⟨?_,hempty⟩
    intro lsn r hr
    simp [hbuffer] at hr
  rcases hscan with rfl | hscan
  · exact ⟨hnew,rfl⟩
  · have hopened := hnew.scan hscan
    exact hopened

end LogManager
end OrangeSQL
