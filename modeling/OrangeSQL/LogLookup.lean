import OrangeSQL.CheckpointUndo
import OrangeSQL.LogCodec
import OrangeSQL.WalRecords

/-! Looking a log record up by its number: in the map of the manager, and for a number that is not
there in the log file. The file position is computed as if all records took the same number of
bytes and the first one stood one record behind the header. -/
namespace OrangeSQL

open Bytes

/-- The default constructor. -/
def LogRecord.new : LogRecord :=
  ⟨0,.begin,0,invalidPageId,0,0,none,0,0,fun _ h => nomatch h⟩

/-- A new array of `dataLength` zeros that some bytes were read into. -/
def LogRecord.withData (r : LogRecord) (bytes : List UInt8) : LogRecord :=
  { r with
    data := some (bytes++List.replicate (r.dataLength.toNat-bytes.length) 0)
    data_ok := by
      intro d hd
      rw [← Option.some.inj hd,List.length_append,List.length_replicate]
      omega }

namespace LogManager

/-- `char buffer[sizeof(LogRecord)]` on the stack, with whatever stands there. -/
abbrev StackBuffer := { bytes : List UInt8 // bytes.length = recordSize }

/-- A read at the end of the file fails and leaves the rest of the buffer, and then the payload is
not read either. Nothing is returned when the copy of the payload leaves the buffer. -/
def getFromFile (content : List UInt8) (stack : StackBuffer) (lsn : LogSequenceNumber) :
    Option LogRecord :=
  let pos := fileHeaderSize+lsn*recordSize
  let bytes := slice content pos recordSize
  let buffer := bytes++stack.val.drop bytes.length
  (deserializeRecord buffer).map fun r =>
    if 0 < r.dataLength then
      r.withData (if bytes.length = recordSize then
        slice content (pos+recordSize) r.dataLength.toNat else [])
    else r

/-- All numbers have the same file; `file` is what it holds, if it opens. -/
def getLogRecord (m : LogManager) (file : Option (List UInt8)) (stack : StackBuffer)
    (lsn : LogSequenceNumber) : Option LogRecord :=
  match m.logBuffer.lookup lsn with
  | some r => some r
  | none =>
    match file with
    | some content => getFromFile content stack lsn
    | none => some LogRecord.new

theorem getLogRecord_buffered {m : LogManager} {lsn : LogSequenceNumber} {r : LogRecord}
    (h : m.logBuffer.lookup lsn = some r) (file : Option (List UInt8)) (stack : StackBuffer) :
    m.getLogRecord file stack lsn = some r := by
  simp only [getLogRecord,h]

section Payloads

variable (m : LogManager) (type : LogRecordType) (tx : TransactionId) (pid : PageId)
  (data : List UInt8) (now : ℤ)

/-- The record that an append returned the number of has the whole payload. -/
def StoresWhole : Prop :=
  let (lsn,m') := m.appendFields type tx pid (some data) now
  ∀ file stack, ∃ r, m'.getLogRecord file stack lsn = some r ∧ r.payload = data

/-- The length is cut to 16 bits, and no more bytes than that belong to the record. -/
theorem payload_stamp_makeRecord :
    (m.stamp (makeRecord type tx pid (some data)) now).payload = data.take (data.length%2^16) := by
  have hlen : (UInt16.ofNat data.length).toNat = data.length%2^16 := UInt16.toNat_ofNat'
  by_cases hdata : 0 < data.length
  · simp [LogRecord.payload,stamp,makeRecord,Option.filter,hdata]
  · obtain rfl : data = [] := List.eq_nil_of_length_eq_zero (by omega)
    rfl

theorem getLogRecord_appendFields (file : Option (List UInt8)) (stack : StackBuffer) :
    (m.appendFields type tx pid (some data) now).2.getLogRecord file stack
        (m.appendFields type tx pid (some data) now).1 =
      some (m.stamp (makeRecord type tx pid (some data)) now) := by
  apply getLogRecord_buffered
  rw [appendFields,append_lsn,append_logBuffer]
  exact Finmap.lookup_insert _

variable {m type tx pid data now}

theorem storesWhole_of_lt (h : data.length < 2^16) : StoresWhole m type tx pid data now := by
  intro file stack
  refine ⟨_,getLogRecord_appendFields m type tx pid data now file stack,?_⟩
  rw [payload_stamp_makeRecord,Nat.mod_eq_of_lt h,List.take_length]

theorem StoresWhole.lt (h : StoresWhole m type tx pid data now) : data.length < 2^16 := by
  obtain ⟨r,hr,hpayload⟩ := h none ⟨List.replicate recordSize 0,List.length_replicate⟩
  obtain rfl := Option.some.inj
    ((getLogRecord_appendFields m type tx pid data now none _).symm.trans hr)
  rw [payload_stamp_makeRecord] at hpayload
  have hlen := congrArg List.length hpayload
  rw [List.length_take,min_eq_left (Nat.mod_le _ _)] at hlen
  rw [← hlen]
  exact Nat.mod_lt _ (Nat.two_pow_pos 16)

variable (m type tx pid data now)

/-- Payloads are stored whole as long as their length fits 16 bits. -/
theorem storesWhole_iff : StoresWhole m type tx pid data now ↔ data.length < 2^16 :=
  ⟨StoresWhole.lt,storesWhole_of_lt⟩

/-- The payload of an UPDATE record: the record id and both images with their lengths. -/
def updateImages (old new : List Value) (rid : RecordId) : List UInt8 :=
  leBytes 8 rid++leBytes 8 (WalManager.serializeRecord old).length++
    WalManager.serializeRecord old++leBytes 8 (WalManager.serializeRecord new).length++
    WalManager.serializeRecord new

theorem logUpdate_eq (old new : List Value) (rid : RecordId) :
    WalManager.logUpdate m tx pid old new rid now =
      m.appendFields .update tx pid (some (updateImages old new rid)) now := rfl

theorem length_updateImages (old new : List Value) (rid : RecordId) :
    (updateImages old new rid).length =
      24+(WalManager.serializeRecord old).length+(WalManager.serializeRecord new).length := by
  simp only [updateImages,List.length_append,leBytes_length]
  omega

/-- The two images of an update are there if they fit one record together. -/
theorem logUpdate_stored_iff (old new : List Value) (rid : RecordId) :
    (∀ file stack, ∃ r,
      (WalManager.logUpdate m tx pid old new rid now).2.getLogRecord file stack
          (WalManager.logUpdate m tx pid old new rid now).1 = some r ∧
        r.payload = updateImages old new rid) ↔
      24+(WalManager.serializeRecord old).length+(WalManager.serializeRecord new).length < 2^16 := by
  rw [← length_updateImages old new rid,logUpdate_eq]
  exact ⟨fun h => StoresWhole.lt h,storesWhole_of_lt⟩

/-- An update of a row with one string of 65535 bytes. -/
theorem not_storesWhole_update :
    ¬StoresWhole (new .normal) .update 1 0
      (updateImages [⟨.varchar,0,List.replicate 65535 65,[]⟩]
        [⟨.varchar,0,List.replicate 65535 66,[]⟩] 0) 0 := by
  intro h
  have hlen := h.lt
  have hshort : ∀ b : UInt8, (WalManager.serializeRecord
      [⟨.varchar,0,List.replicate 65535 b,[]⟩]).length = 65542 := by
    intro b
    have hs : ∀ v ∈ [(⟨.varchar,0,List.replicate 65535 b,[]⟩ : Value)], v.ShortString := by
      intro v hv _
      rw [List.mem_singleton.mp hv,List.length_replicate]
      norm_num
    rw [WalManager.serializeRecord_eq_written hs,WalManager.length_written hs]
    simp only [WalManager.totalSize,WalManager.valueSize,List.map_cons,List.map_nil,
      List.sum_cons,List.sum_nil,List.length_replicate]
    norm_num
  rw [length_updateImages,hshort,hshort] at hlen
  exact absurd hlen (by decide)

end Payloads

section Disk

/-- Records of the map are found as they were in the log file, once they are dropped from the
map. -/
def LookupsAgree (m : LogManager) : Prop :=
  ∀ (stack : StackBuffer) (k : LogSequenceNumber) (order : List LogSequenceNumber),
    Engine.Lists order m.logBuffer.keys → ∀ lsn ∈ m.logBuffer, ∃ r r',
      m.getLogRecord (some m.logFile.content) stack lsn = some r ∧
      (m.truncate k order).getLogRecord (some m.logFile.content) stack lsn = some r' ∧
      Restores r r'

theorem getFromFile_length {content : List UInt8} {stack : StackBuffer} {lsn : LogSequenceNumber}
    {r : LogRecord} (h : getFromFile content stack lsn = some r) :
    50+r.dataLength.toNat ≤ recordSize := by
  obtain ⟨q,hq,rfl⟩ := Option.map_eq_some_iff.mp h
  have hlen : q.dataLength.toNat+50 ≤ recordSize := by
    rw [deserializeRecord] at hq
    split at hq
    · next hroom =>
      rw [← Option.some.inj hq]
      dsimp only
      rw [List.length_append,List.length_drop,stack.property] at hroom
      have hle := slice_length_le content (fileHeaderSize+lsn*recordSize) recordSize
      omega
    · cases hq
  split
  · exact (Nat.add_comm _ _).trans_le hlen
  · exact (Nat.add_comm _ _).trans_le hlen

/-- Behind the end of the file there is nothing but what stood on the stack. -/
theorem getFromFile_behind {content : List UInt8} {lsn : LogSequenceNumber} {r : LogRecord}
    (hend : content.length ≤ fileHeaderSize+lsn*recordSize)
    (h : getFromFile content ⟨List.replicate recordSize 0,List.length_replicate⟩ lsn = some r) :
    r.lsn = 0 := by
  have hnothing : slice content (fileHeaderSize+lsn*recordSize) recordSize = [] := by
    rw [slice,List.drop_eq_nil_of_le hend,List.take_nil]
  obtain ⟨q,hq,rfl⟩ := Option.map_eq_some_iff.mp h
  rw [hnothing,List.nil_append,List.length_nil,List.drop_zero] at hq
  have hlsn : q.lsn = 0 := by
    apply Option.some.inj
    rw [← Option.map_some,← hq]
    rfl
  split
  · exact hlsn
  · exact hlsn

/-- The records appended to a new log: they are in the map under the numbers from one on, and what
was flushed of them fills the file from its beginning. -/
structure Appended (m : LogManager) (rs : List LogRecord) : Prop where
  next : m.currentLsn = rs.length+1
  stored : ∀ i r, rs[i]? = some r → r.lsn = i+1 ∧ m.logBuffer.lookup (i+1) = some r
  written : (m.flushed++m.writeBuffer).Sublist rs
  file : FileHolds m

theorem Appended.flushBuffer {m : LogManager} {rs : List LogRecord} (h : Appended m rs) :
    Appended m.flushBuffer rs :=
  ⟨by simpa using h.next,by simpa using h.stored,by simpa using h.written,h.file.flushBuffer⟩

theorem Appended.append {m : LogManager} {rs : List LogRecord} (h : Appended m rs)
    (r : LogRecord) (now : ℤ) : Appended (m.appendLogRecord r now).2 (rs++[m.stamp r now]) := by
  have hnext := h.next
  refine ⟨by rw [append_currentLsn,hnext,List.length_append,List.length_singleton],?_,?_,
    h.file.append r now⟩
  · intro i q hq
    rw [append_logBuffer]
    rcases Nat.lt_trichotomy i rs.length with hlt | rfl | hgt
    · rw [List.getElem?_append_left hlt] at hq
      obtain ⟨hlsn,hlook⟩ := h.stored i q hq
      have hne : i+1 ≠ m.currentLsn := by
        rw [hnext]
        exact Nat.ne_of_lt (Nat.succ_lt_succ hlt)
      exact ⟨hlsn,by rwa [Finmap.lookup_insert_of_ne _ hne]⟩
    · rw [List.getElem?_append_right le_rfl,Nat.sub_self] at hq
      obtain rfl := Option.some.inj hq
      rw [← hnext]
      exact ⟨rfl,Finmap.lookup_insert _⟩
    · rw [List.getElem?_eq_none (by simpa using hgt)] at hq
      cases hq
  · rw [append_records]
    apply h.written.append
    split
    · exact List.nil_sublist _
    · exact List.Sublist.refl _

theorem Appended.appendAll {m : LogManager} {rs : List LogRecord} (h : Appended m rs)
    (calls : List (AppendCall × ℤ)) :
    ∃ qs, qs.length = rs.length+calls.length ∧ Appended (m.appendAll calls) qs := by
  induction calls generalizing m rs with
  | nil => exact ⟨rs,rfl,h⟩
  | cons c calls ih =>
    have hstep : Appended (c.1.run m c.2) (rs++[m.stamp c.1.toRecord c.2]) := by
      rw [AppendCall.run_eq]
      exact h.append _ _
    obtain ⟨qs,hlen,hqs⟩ := ih hstep
    refine ⟨qs,?_,hqs⟩
    rw [hlen,List.length_append,List.length_singleton,List.length_cons]
    omega

/-- Short records do not fill the places that the lookup assumes for them. -/
theorem Appended.length_le {m : LogManager} {rs : List LogRecord} (h : Appended m rs)
    (hshort : ∀ r ∈ rs, 50+r.payload.length ≤ recordSize) :
    m.logFile.content.length ≤ fileHeaderSize+rs.length*recordSize := by
  have hflushed : m.flushed.Sublist rs := (List.sublist_append_left _ _).trans h.written
  have hbytes := byteCount_le fun r hr => hshort r (hflushed.subset hr)
  have hcount := hflushed.length_le
  rw [h.file.2,fileHeaderSize,recordSize]
  omega

theorem init_mode (mode : LogMode) (unset : Fin 8 → UInt8) :
    ∃ m, (new mode).init unset none true = .ok m ∧ Appended m [] ∧ m.logBuffer = ∅ := by
  refine ⟨_,rfl,⟨rfl,by simp,List.Sublist.refl [],?_⟩,rfl⟩
  simp [FileHolds,fileHeader_length,byteCount,new]

/-- A dropped record is looked for in the file. -/
theorem getLogRecord_truncate {m : LogManager} {k lsn : LogSequenceNumber}
    {order : List LogSequenceNumber} (h : Engine.Lists order m.logBuffer.keys) (hlt : lsn < k)
    (content : List UInt8) (stack : StackBuffer) :
    (m.truncate k order).getLogRecord (some content) stack lsn = getFromFile content stack lsn := by
  simp only [getLogRecord,lookup_truncate m k h,if_pos hlt]

/-- The record with the highest number is not found: if all records are short enough to be read at
all, its place is behind the end of the file. -/
theorem Appended.not_lookupsAgree {m : LogManager} {rs : List LogRecord} (h : Appended m rs)
    (hne : rs ≠ []) : ¬LookupsAgree m := by
  intro hagree
  have hlists : Engine.Lists m.logBuffer.keys.toList m.logBuffer.keys :=
    ⟨Finset.nodup_toList _,Finset.toList_toFinset _⟩
  have hfile : ∀ i r, rs[i]? = some r → ∃ r',
      getFromFile m.logFile.content ⟨List.replicate recordSize 0,List.length_replicate⟩ (i+1) =
        some r' ∧ Restores r r' := by
    intro i r hr
    obtain ⟨-,hlook⟩ := h.stored i r hr
    obtain ⟨q,r',hq,hr',hsame⟩ := hagree ⟨List.replicate recordSize 0,List.length_replicate⟩
      (i+2) _ hlists (i+1) (Finmap.mem_of_lookup_eq_some hlook)
    obtain rfl := Option.some.inj ((getLogRecord_buffered hlook _ _).symm.trans hq)
    rw [getLogRecord_truncate hlists (Nat.lt_succ_self _)] at hr'
    exact ⟨r',hr',hsame⟩
  have hshort : ∀ r ∈ rs, 50+r.payload.length ≤ recordSize := by
    intro r hr
    obtain ⟨i,hi⟩ := List.mem_iff_getElem?.mp hr
    obtain ⟨r',hr',hsame⟩ := hfile i r hi
    have hlen := getFromFile_length hr'
    rw [hsame.dataLength] at hlen
    exact (Nat.add_le_add_left (payload_length_le r) 50).trans hlen
  have hpos := List.length_pos_iff.mpr hne
  have hlast : rs[rs.length-1]? = some rs[rs.length-1] := List.getElem?_eq_getElem _
  obtain ⟨r',hr',hsame⟩ := hfile _ _ hlast
  rw [Nat.sub_add_cancel hpos] at hr'
  have hzero := getFromFile_behind (h.length_le hshort) hr'
  rw [hsame.lsn,(h.stored _ _ hlast).1] at hzero
  exact Nat.succ_ne_zero _ hzero

/-- On a new log only the empty sequence of appends is looked up the same. -/
theorem lookupsAgree_iff (mode : LogMode) (unset : Fin 8 → UInt8)
    (calls : List (AppendCall × ℤ)) :
    (∃ m, (new mode).init unset none true = .ok m ∧ LookupsAgree (appendAll m calls).flushAll) ↔
      calls = [] := by
  obtain ⟨m,hinit,hstart,hempty⟩ := init_mode mode unset
  constructor
  · rintro ⟨m',hinit',hagree⟩
    obtain rfl := Except.ok.inj (hinit.symm.trans hinit')
    by_contra hne
    obtain ⟨rs,hlen,hrs⟩ := hstart.appendAll calls
    rw [flushAll,flush_eq] at hagree
    refine hrs.flushBuffer.not_lookupsAgree ?_ hagree
    rintro rfl
    exact hne (List.eq_nil_of_length_eq_zero (by simpa using hlen.symm))
  · rintro rfl
    refine ⟨m,hinit,?_⟩
    intro stack k order horder lsn hlsn
    rw [appendAll,List.foldl_nil,flushAll,flush_eq,flushBuffer_logBuffer,hempty] at hlsn
    exact absurd hlsn (Finmap.notMem_empty)

/-- A log with one BEGIN record. -/
theorem not_lookupsAgree_begin :
    ¬∃ m, (new .normal).init (fun _ => 0) none true = .ok m ∧
      LookupsAgree (appendAll m [(.fields .begin 1 invalidPageId none,0)]).flushAll := by
  rintro ⟨m',hinit',hagree⟩
  obtain ⟨m,hinit,hstart,-⟩ := init_mode .normal fun _ => 0
  obtain rfl := Except.ok.inj (hinit.symm.trans hinit')
  rw [flushAll,flush_eq] at hagree
  exact (hstart.append _ _).flushBuffer.not_lookupsAgree (by simp) hagree

end Disk

end LogManager
end OrangeSQL
