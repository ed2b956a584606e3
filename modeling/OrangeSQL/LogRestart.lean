import OrangeSQL.LogBuffering
import OrangeSQL.Library.ByteReader

/-! Restarting over a log file. The writer packs a record into fifty bytes and its payload and
starts at the beginning of the file, over the header; the scan starts behind the header, takes 64
bytes for a record and skips the payload once more. A scan therefore never finds as many records
as were written. -/
namespace OrangeSQL
namespace LogManager

open Bytes

/-- A call of one of the two forms of `appendLogRecord`. -/
inductive AppendCall
  | record (r : LogRecord)
  | fields (type : LogRecordType) (tx : TransactionId) (pid : PageId) (data : Option (List UInt8))

/-- The record that a call hands on. -/
def AppendCall.toRecord : AppendCall → LogRecord
  | .record r => r
  | .fields type tx pid data => makeRecord type tx pid data

def AppendCall.run (m : LogManager) : AppendCall → ℤ → LogManager
  | .record r, now => (m.appendLogRecord r now).2
  | .fields type tx pid data, now => (m.appendFields type tx pid data now).2

theorem AppendCall.run_eq (m : LogManager) (c : AppendCall) (now : ℤ) :
    c.run m now = (m.appendLogRecord c.toRecord now).2 := by
  cases c <;> rfl

/-- A sequence of calls, each with the time of the clock when it is made. -/
def appendAll (m : LogManager) (calls : List (AppendCall × ℤ)) : LogManager :=
  calls.foldl (fun m c => c.1.run m c.2) m

/-- What a restart has to keep of a record. -/
structure Agrees (r r' : LogRecord) : Prop where
  type : r'.type = r.type
  transactionId : r'.transactionId = r.transactionId
  pageId : r'.pageId = r.pageId
  pageOffset : r'.pageOffset = r.pageOffset
  payload : r'.payload = r.payload
  prevLsn : r'.prevLsn = r.prevLsn
  second : LogRecord.toTimeT r'.timestamp = LogRecord.toTimeT r.timestamp

/-- The log starts on an absent file, takes the calls and is flushed; a new manager that is
initialised on the file has the same records under the same numbers and goes on from there. -/
def RestartsExactly (unset unset' : Fin 8 → UInt8) (calls : List (AppendCall × ℤ)) : Prop :=
  ∃ m m', (new .normal).init unset none true = .ok m ∧
    (new .normal).init unset' (some (appendAll m calls).flushAll.logFile.content) true = .ok m' ∧
    (∀ lsn, Option.Rel Agrees ((appendAll m calls).flushAll.logBuffer.lookup lsn)
      (m'.logBuffer.lookup lsn)) ∧
    m'.currentLsn = calls.length+1

section Reader

theorem payload_length_le (r : LogRecord) : r.payload.length ≤ r.dataLength.toNat :=
  List.length_take_le _ _

/-- A record that was read has its payload in the bytes that were read. -/
theorem deserializeRecord_payload {buffer : List UInt8} {r : LogRecord}
    (h : deserializeRecord buffer = some r) : 50+r.payload.length ≤ buffer.length := by
  by_cases hlen : 50+(UInt16.ofNat (leNat (slice buffer 32 2))).toNat ≤ buffer.length
  · rw [deserializeRecord,dif_pos hlen] at h
    have hpay := payload_length_le r
    rw [← Option.some.inj h] at hpay ⊢
    exact (Nat.add_le_add_left hpay 50).trans hlen
  · rw [deserializeRecord,dif_neg hlen] at h
    cases h

/-- Every record in the map has at most 14 bytes of payload. -/
def Short (m : LogManager) : Prop :=
  ∀ lsn r, m.logBuffer.lookup lsn = some r → 50+r.payload.length ≤ recordSize

theorem Short.takeRecord {m : LogManager} (h : Short m) {r : LogRecord}
    (hr : 50+r.payload.length ≤ recordSize) : Short (m.takeRecord r) := by
  by_cases hlsn : 0 < r.lsn
  · rw [LogManager.takeRecord,if_pos hlsn]
    intro k q hq
    rcases FiniteMap.lookup_insert_cases hq with ⟨_,rfl⟩ | hold
    · exact hr
    · exact h k q hold
  · rwa [LogManager.takeRecord,if_neg hlsn]

theorem card_takeRecord_le (m : LogManager) (r : LogRecord) :
    (m.takeRecord r).logBuffer.keys.card ≤ m.logBuffer.keys.card+1 := by
  by_cases hlsn : 0 < r.lsn
  · rw [takeRecord,if_pos hlsn]
    rw [FiniteMap.keys_insert]
    exact Finset.card_insert_le _ _
  · rw [takeRecord,if_neg hlsn]
    exact Nat.le_succ _

/-- The scan takes at least 64 bytes of the file for each record it finds. -/
theorem scan_count {m m' : LogManager} {pos : ℕ} (h : m.scan pos = .ok m') (hshort : Short m) :
    Short m' ∧ pos+64*m'.logBuffer.keys.card ≤
      max pos m.logFile.content.length+64*m.logBuffer.keys.card := by
  induction m, pos using scan.induct with
  | case1 m pos hroom hnone =>
    rw [scan,if_pos hroom,hnone] at h
    cases h
  | case2 m pos hroom r hr ih =>
    rw [scan,if_pos hroom,hr] at h
    have hpay : 50+r.payload.length ≤ recordSize :=
      (deserializeRecord_payload hr).trans (slice_length_le _ _ _)
    obtain ⟨hs,hcount⟩ := ih h (hshort.takeRecord hpay)
    refine ⟨hs,?_⟩
    have hcard := card_takeRecord_le m r
    simp only [recordSize] at hroom hcount
    omega
  | case3 m pos hroom =>
    rw [scan,if_neg hroom] at h
    obtain rfl := Except.ok.inj h
    exact ⟨hshort,by omega⟩

end Reader

section Writer

/-- The bytes that a list of records takes. -/
def byteCount (rs : List LogRecord) : ℕ := (rs.map fun r => (serializeRecord r).length).sum

theorem byteCount_append (rs qs : List LogRecord) :
    byteCount (rs++qs) = byteCount rs+byteCount qs := by
  simp [byteCount]

/-- The records that were flushed fill the file from its beginning. -/
def FileHolds (m : LogManager) : Prop :=
  m.logFile.pos = byteCount m.flushed ∧
  m.logFile.content.length = max fileHeaderSize (byteCount m.flushed)

theorem FileHolds.flushBuffer {m : LogManager} (h : FileHolds m) : FileHolds m.flushBuffer := by
  by_cases hempty : m.writeBuffer = []
  · rwa [flushBuffer_of_empty hempty]
  · have hfile := flushBuffer_logFile m hempty
    have hbytes : (m.writeBuffer.flatMap serializeRecord).length = byteCount m.writeBuffer := by
      rw [List.length_flatMap,byteCount]
    have hcount : byteCount m.flushBuffer.flushed =
        byteCount m.flushed+byteCount m.writeBuffer := by
      rw [flushBuffer_flushed,byteCount_append]
    obtain ⟨hpos,hlen⟩ := h
    constructor
    · rw [hfile,hcount,LogFile.write,hbytes,hpos]
    · rw [hfile,hcount,LogFile.write,writeAt_length _ _ _ (by omega),hbytes]
      omega

/-- An append hands on the records that it finds, and its own unless logging is off. -/
theorem append_records (m : LogManager) (r : LogRecord) (now : ℤ) :
    (m.appendLogRecord r now).2.flushed++(m.appendLogRecord r now).2.writeBuffer =
      m.flushed++m.writeBuffer++if m.mode = .noLog then [] else [m.stamp r now] := by
  obtain ⟨b,happend,hb⟩ := appendLogRecord_cases m r now
  have hrecords : b.flushed++b.writeBuffer = m.flushed++m.writeBuffer := by
    rcases hb with rfl | rfl
    · rfl
    · simp
  rw [happend,← hrecords]
  dsimp only
  split
  · rw [List.append_nil]
  · rw [List.append_assoc]

theorem FileHolds.append {m : LogManager} (h : FileHolds m) (r : LogRecord) (now : ℤ) :
    FileHolds (m.appendLogRecord r now).2 := by
  obtain ⟨b,happend,hb⟩ := appendLogRecord_cases m r now
  have hfile : FileHolds b := by
    rcases hb with rfl | rfl
    · exact h
    · exact FileHolds.flushBuffer h
  rw [happend]
  exact hfile

/-- The records appended so far are flushed or in the write buffer, and the map has them under
the numbers from one on. -/
structure Written (m : LogManager) (rs : List LogRecord) : Prop where
  mode : m.mode = .normal
  next : m.currentLsn = rs.length+1
  records : m.flushed++m.writeBuffer = rs
  stored : ∀ r ∈ rs, m.logBuffer.lookup r.lsn = some r
  keys : m.logBuffer.keys = Finset.Icc 1 rs.length
  file : FileHolds m

theorem Written.flushBuffer {m : LogManager} {rs : List LogRecord} (h : Written m rs) :
    Written m.flushBuffer rs :=
  ⟨by simpa using h.mode,by simpa using h.next,by simpa using h.records,
    by simpa using h.stored,by simpa using h.keys,h.file.flushBuffer⟩

theorem Written.lsn_le {m : LogManager} {rs : List LogRecord} (h : Written m rs) {r : LogRecord}
    (hr : r ∈ rs) : r.lsn ≤ rs.length := by
  have hmem : r.lsn ∈ m.logBuffer.keys :=
    Finmap.mem_keys.mpr (Finmap.mem_of_lookup_eq_some (h.stored r hr))
  rw [h.keys] at hmem
  exact (Finset.mem_Icc.mp hmem).2

theorem Written.append {m : LogManager} {rs : List LogRecord} (h : Written m rs) (r : LogRecord)
    (now : ℤ) : Written (m.appendLogRecord r now).2 (rs++[m.stamp r now]) := by
  have hnext := h.next
  have hlog : m.mode ≠ .noLog := by rw [h.mode]; decide
  refine ⟨(append_mode m r now).trans h.mode,by simp [append_currentLsn,hnext],?_,?_,?_,
    h.file.append r now⟩
  · rw [append_records,h.records,if_neg hlog]
  · intro q hq
    rw [append_logBuffer]
    rcases List.mem_append.mp hq with hold | hnew
    · have hlt : q.lsn < m.currentLsn := by
        rw [hnext]
        exact Nat.lt_succ_of_le (h.lsn_le hold)
      rw [Finmap.lookup_insert_of_ne _ (Nat.ne_of_lt hlt)]
      exact h.stored q hold
    · obtain rfl := List.mem_singleton.mp hnew
      exact Finmap.lookup_insert _
  · have hgrow : ∀ k : ℕ, k = rs.length+1 ∨ 1 ≤ k ∧ k ≤ rs.length ↔
        1 ≤ k ∧ k ≤ rs.length+1 := by
      intro k
      omega
    ext k
    simp only [append_logBuffer,FiniteMap.keys_insert,h.keys,Finset.mem_insert,Finset.mem_Icc,
      hnext,List.length_append,List.length_singleton]
    exact hgrow k

/-- However many calls are made, the log has one record for each. -/
theorem Written.appendAll {m : LogManager} {rs : List LogRecord} (h : Written m rs)
    (calls : List (AppendCall × ℤ)) :
    ∃ qs, qs.length = rs.length+calls.length ∧ Written (m.appendAll calls) qs := by
  induction calls generalizing m rs with
  | nil => exact ⟨rs,rfl,h⟩
  | cons c calls ih =>
    have hstep : Written (c.1.run m c.2) (rs++[m.stamp c.1.toRecord c.2]) := by
      rw [AppendCall.run_eq]
      exact h.append _ _
    obtain ⟨qs,hlen,hqs⟩ := ih hstep
    refine ⟨qs,?_,hqs⟩
    rw [hlen,List.length_append,List.length_singleton,List.length_cons]
    omega

end Writer

theorem fileHeader_length (unset : Fin 8 → UInt8) : (fileHeader unset).length = fileHeaderSize := by
  simp [fileHeader,fileHeaderSize]

/-- The manager right after `init` has created the file. -/
theorem init_absent (unset : Fin 8 → UInt8) :
    ∃ m, (new .normal).init unset none true = .ok m ∧ Written m [] := by
  refine ⟨_,rfl,rfl,rfl,rfl,by simp,?_,rfl,?_⟩
  · simp [new]
  · simp [fileHeader_length,byteCount,new]

theorem byteCount_le {rs : List LogRecord} (h : ∀ r ∈ rs, 50+r.payload.length ≤ recordSize) :
    byteCount rs ≤ 64*rs.length := by
  have hall : ∀ x ∈ rs.map (fun r => (serializeRecord r).length), x ≤ 64 := by
    intro x hx
    obtain ⟨r,hr,rfl⟩ := List.mem_map.mp hx
    rw [serializeRecord_length]
    exact h r hr
  have hsum := List.sum_le_card_nsmul _ 64 hall
  rw [List.length_map,smul_eq_mul] at hsum
  rw [byteCount,Nat.mul_comm]
  exact hsum

/-- A restart finds at most one record for every 64 bytes behind the header. -/
theorem init_present_count {unset : Fin 8 → UInt8} {content : List UInt8} {m' : LogManager}
    (h : (new .normal).init unset (some content) true = .ok m') :
    Short m' ∧ 48+64*m'.logBuffer.keys.card ≤ max 48 content.length := by
  have hempty : Short { new .normal with logFile := ⟨content,content.length⟩ } := by
    intro lsn r hr
    simp [new] at hr
  have hcard : (new .normal).logBuffer.keys.card = 0 := by simp [new]
  by_cases hsize : fileHeaderSize < content.length
  · cases hscan : scan { new .normal with logFile := ⟨content,content.length⟩ } fileHeaderSize with
    | error e =>
      simp only [init,if_pos hsize,hscan] at h
      cases h
    | ok m =>
      simp only [init,if_pos hsize,hscan] at h
      obtain rfl := Except.ok.inj h
      obtain ⟨hshort,hcount⟩ := scan_count hscan hempty
      refine ⟨hshort,?_⟩
      simp only [hcard,fileHeaderSize] at hcount
      exact hcount
  · simp only [init,if_neg hsize] at h
    obtain rfl := Except.ok.inj h
    refine ⟨hempty,?_⟩
    simp only [hcard]
    omega

theorem keys_eq_of_rel {b b' : Finmap (fun _ : LogSequenceNumber => LogRecord)}
    (h : ∀ lsn, Option.Rel Agrees (b.lookup lsn) (b'.lookup lsn)) : b'.keys = b.keys := by
  ext lsn
  have hlsn := h lsn
  rw [Finmap.mem_keys,Finmap.mem_keys,← Finmap.lookup_isSome,← Finmap.lookup_isSome]
  generalize b.lookup lsn = x at hlsn
  generalize b'.lookup lsn = y at hlsn
  cases hlsn with
  | some _ => rfl
  | none => rfl

/-- Of a log that is not empty, no restart brings all records back. -/
theorem not_restartsExactly_of_ne_nil (unset unset' : Fin 8 → UInt8)
    {calls : List (AppendCall × ℤ)} (hne : calls ≠ []) :
    ¬ RestartsExactly unset unset' calls := by
  rintro ⟨m,m',hinit,hrestart,hsame,-⟩
  obtain ⟨m0,hm0,hwritten⟩ := init_absent unset
  obtain rfl := Except.ok.inj (hm0.symm.trans hinit)
  obtain ⟨rs,hlen,hrs⟩ := hwritten.appendAll calls
  have hw := hrs.flushBuffer
  have hempty := flushBuffer_writeBuffer (m0.appendAll calls)
  rw [flushAll,flush_eq] at hrestart hsame
  generalize (m0.appendAll calls).flushBuffer = w at hrestart hsame hw hempty
  obtain ⟨hshort,hcount⟩ := init_present_count hrestart
  have hflushed : w.flushed = rs := by
    have hrecords := hw.records
    rwa [hempty,List.append_nil] at hrecords
  have hpayload : ∀ r ∈ rs, 50+r.payload.length ≤ recordSize := by
    intro r hr
    have hrel := hsame r.lsn
    rw [hw.stored r hr] at hrel
    cases hfound : m'.logBuffer.lookup r.lsn with
    | none =>
      rw [hfound] at hrel
      cases hrel
    | some r' =>
      rw [hfound] at hrel
      cases hrel with
      | some hagrees =>
        rw [← hagrees.payload]
        exact hshort _ _ hfound
  have hbytes := byteCount_le hpayload
  have hsize := hw.file.2
  have hcard : m'.logBuffer.keys.card = rs.length := by
    rw [keys_eq_of_rel hsame,hw.keys,Nat.card_Icc]
    omega
  have hpos := List.length_pos_of_ne_nil hne
  rw [hflushed,fileHeaderSize] at hsize
  rw [List.length_nil] at hlen
  omega

/-- The round trip holds for the empty log only. -/
theorem restartsExactly_iff_nil (unset unset' : Fin 8 → UInt8) (calls : List (AppendCall × ℤ)) :
    RestartsExactly unset unset' calls ↔ calls = [] := by
  constructor
  · intro h
    by_contra hne
    exact not_restartsExactly_of_ne_nil unset unset' hne h
  · rintro rfl
    obtain ⟨m,hinit,hwritten⟩ := init_absent unset
    have hw := hwritten.flushBuffer
    have hflushed : m.flushBuffer.flushed = [] := (List.append_eq_nil_iff.mp hw.records).1
    have hsize : ¬ fileHeaderSize < m.flushBuffer.logFile.content.length := by
      rw [hw.file.2,hflushed]
      decide
    have hflush : (appendAll m []).flushAll = m.flushBuffer := by
      rw [appendAll,List.foldl_nil,flushAll,flush_eq]
    have hrestart : (new .normal).init unset' (some m.flushBuffer.logFile.content) true =
        .ok { new .normal with
          logFile := ⟨m.flushBuffer.logFile.content,m.flushBuffer.logFile.content.length⟩ } := by
      simp only [init,if_neg hsize]
      rfl
    have hnone : ∀ lsn, m.flushBuffer.logBuffer.lookup lsn = none := by
      intro lsn
      rw [Finmap.lookup_eq_none,← Finmap.mem_keys,hw.keys]
      simp
    refine ⟨m,_,hinit,by rw [hflush]; exact hrestart,?_,rfl⟩
    intro lsn
    rw [hflush,hnone]
    exact Option.Rel.none

/-- One BEGIN record without payload is not found again. -/
theorem one_begin_lost :
    ¬ RestartsExactly (fun _ => 0) (fun _ => 0) [(.fields .begin 1 invalidPageId none,0)] :=
  not_restartsExactly_of_ne_nil _ _ (List.cons_ne_nil _ _)

end LogManager
end OrangeSQL
