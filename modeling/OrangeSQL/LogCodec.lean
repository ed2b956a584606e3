import OrangeSQL.LogRestart

/-! The codec of log records in memory: what is written for a record is read back from the front
of any bytes that begin with it, and as many bytes are consumed as were written. -/
namespace OrangeSQL

open Bytes

/-- The fields hold what their machine types can hold. -/
structure LogRecord.Representable (r : LogRecord) : Prop where
  lsn : r.lsn < 2^64
  code : r.type.code < 2^32
  type : LogRecordType.ofCode r.type.code = r.type
  transactionId : r.transactionId < 2^64
  pageId : r.pageId < 2^64
  prevLsn : r.prevLsn < 2^64
  earliest : -2^63 ≤ r.timestamp
  latest : r.timestamp < 2^63

/-- There is a payload where the length says so. -/
def LogRecord.HasData (r : LogRecord) : Prop := 0 < r.dataLength → r.data.isSome

namespace LogManager

/-- `deserializeRecord` with the number of bytes that it returns. -/
def readRecord (buffer : List UInt8) : Option (LogRecord × ℕ) :=
  (deserializeRecord buffer).map fun r => (r,50+r.dataLength.toNat)

/-- Records that stand behind one another, to the end of the bytes. -/
def readRecords (buffer : List UInt8) : Option (List LogRecord) :=
  if buffer = [] then some []
  else
    match _h : readRecord buffer with
    | none => none
    | some (r,n) => (readRecords (buffer.drop n)).map fun rs => r::rs
termination_by buffer.length
decreasing_by
  obtain ⟨q,-,hq⟩ := Option.map_eq_some_iff.mp _h
  obtain ⟨-,rfl⟩ := Prod.mk.inj hq
  have hpos : 0 < buffer.length := List.length_pos_iff.mpr ‹_›
  rw [List.length_drop]
  omega

/-- Every field is the same, the time to the second. -/
structure Restores (r r' : LogRecord) : Prop where
  lsn : r'.lsn = r.lsn
  dataLength : r'.dataLength = r.dataLength
  agrees : Agrees r r'

section Fields

theorem length_payload {r : LogRecord} (h : r.HasData) : r.payload.length = r.dataLength.toNat := by
  rw [LogRecord.payload,List.length_take]
  cases hdata : r.data with
  | some d => exact min_eq_left (r.data_ok d hdata)
  | none =>
    have hzero : r.dataLength = 0 := by
      by_contra hne
      have hsome := h (UInt16.pos_iff_ne_zero.mpr hne)
      rw [hdata] at hsome
      cases hsome
    rw [hzero]
    rfl

/-- The nine fields at their places, and the payload behind them. -/
theorem slices (r : LogRecord) (rest : List UInt8) (k : ℕ) :
    slice (serializeRecord r++rest) 0 8 = leBytes 8 r.lsn ∧
    slice (serializeRecord r++rest) 8 4 = leBytes 4 r.type.code ∧
    slice (serializeRecord r++rest) 12 8 = leBytes 8 r.transactionId ∧
    slice (serializeRecord r++rest) 20 8 = leBytes 8 r.pageId ∧
    slice (serializeRecord r++rest) 28 4 = leBytes 4 r.pageOffset.toNat ∧
    slice (serializeRecord r++rest) 32 2 = leBytes 2 r.dataLength.toNat ∧
    slice (serializeRecord r++rest) 34 8 = leBytes 8 r.prevLsn ∧
    slice (serializeRecord r++rest) 42 8 =
      leBytes 8 (LogRecord.toTimeT r.timestamp%2^64).toNat ∧
    slice (serializeRecord r++rest) 50 k = slice (r.payload++rest) 0 k := by
  simp [serializeRecord,slice_here,slice_behind]

/-- The seconds of a time that the clock can have come back. -/
theorem timeTOfNat_toTimeT {t : ℤ} (hlow : -2^63 ≤ t) (hhigh : t < 2^63) :
    LogRecord.timeTOfNat (leNat (leBytes 8 (LogRecord.toTimeT t%2^64).toNat)) =
      LogRecord.toTimeT t := by
  have hsec : -2^63 ≤ LogRecord.toTimeT t ∧ LogRecord.toTimeT t < 2^63 := by
    rw [LogRecord.toTimeT,Int.tdiv_eq_ediv]
    split
    · omega
    · rw [show Int.sign 1000000000 = 1 from rfl]
      omega
  generalize LogRecord.toTimeT t = s at hsec
  rw [leNat_leBytes,LogRecord.timeTOfNat]
  omega

theorem toTimeT_seconds (s : ℤ) : LogRecord.toTimeT (s*1000000000) = s :=
  Int.mul_tdiv_cancel s (by decide)

end Fields

section RoundTrip

/-- What `deserializeRecord` gives, field by field. -/
theorem deserializeRecord_fields {buffer : List UInt8} {len : UInt16}
    (hlen : UInt16.ofNat (leNat (slice buffer 32 2)) = len) (h : 50+len.toNat ≤ buffer.length) :
    ∃ r, deserializeRecord buffer = some r ∧ r.lsn = leNat (slice buffer 0 8) ∧
      r.type = .ofCode (leNat (slice buffer 8 4)) ∧
      r.transactionId = leNat (slice buffer 12 8) ∧ r.pageId = leNat (slice buffer 20 8) ∧
      r.pageOffset = UInt32.ofNat (leNat (slice buffer 28 4)) ∧ r.dataLength = len ∧
      r.payload = slice buffer 50 len.toNat ∧
      r.timestamp = LogRecord.timeTOfNat (leNat (slice buffer 42 8))*1000000000 ∧
      r.prevLsn = leNat (slice buffer 34 8) := by
  subst hlen
  rw [deserializeRecord,dif_pos h]
  refine ⟨_,rfl,rfl,rfl,rfl,rfl,rfl,rfl,?_,rfl,rfl⟩
  rw [LogRecord.payload]
  dsimp only
  split
  · rw [Option.getD_some]
    exact List.take_of_length_le (slice_length_le _ _ _)
  · next hzero =>
    have hnone : UInt16.ofNat (leNat (slice buffer 32 2)) = 0 := by
      by_contra hne
      exact hzero (UInt16.pos_iff_ne_zero.mpr hne)
    rw [hnone]
    rfl

/-- A record is read from the front of the bytes that were written for it. -/
theorem readRecord_serializeRecord {r : LogRecord} (hr : r.Representable) (hdata : r.HasData)
    (rest : List UInt8) : ∃ r', readRecord (serializeRecord r++rest) =
      some (r',(serializeRecord r).length) ∧ Restores r r' := by
  have hpayload := length_payload hdata
  obtain ⟨hlsn,htype,htx,hpage,hoffset,hlength,hprev,htime,hbytes⟩ :=
    slices r rest r.dataLength.toNat
  have hlen : UInt16.ofNat (leNat (slice (serializeRecord r++rest) 32 2)) = r.dataLength := by
    rw [hlength,leNat_leBytes,Nat.mod_eq_of_lt (by exact r.dataLength.toNat_lt),UInt16.ofNat_toNat]
  have hroom : 50+r.dataLength.toNat ≤ (serializeRecord r++rest).length := by
    rw [List.length_append,serializeRecord_length,hpayload]
    exact Nat.le_add_right _ _
  obtain ⟨r',hread,hlsn',htype',htx',hpage',hoffset',hlength',hbytes',htime',hprev'⟩ :=
    deserializeRecord_fields hlen hroom
  refine ⟨r',?_,?_,hlength',?_⟩
  · rw [readRecord,hread,Option.map_some,hlength',serializeRecord_length,hpayload]
  · rw [hlsn',hlsn,leNat_leBytes]
    exact Nat.mod_eq_of_lt hr.lsn
  · constructor
    · rw [htype',htype,leNat_leBytes,Nat.mod_eq_of_lt (by exact hr.code)]
      exact hr.type
    · rw [htx',htx,leNat_leBytes]
      exact Nat.mod_eq_of_lt hr.transactionId
    · rw [hpage',hpage,leNat_leBytes]
      exact Nat.mod_eq_of_lt hr.pageId
    · rw [hoffset',hoffset,leNat_leBytes,Nat.mod_eq_of_lt (by exact r.pageOffset.toNat_lt),
        UInt32.ofNat_toNat]
    · rw [hbytes',hbytes,slice,List.drop_zero]
      exact List.take_left' hpayload
    · rw [hprev',hprev,leNat_leBytes]
      exact Nat.mod_eq_of_lt hr.prevLsn
    · rw [htime',htime,timeTOfNat_toTimeT hr.earliest hr.latest,toTimeT_seconds]

/-- Records that were written one behind the other are read back, each from where the one before
it ends. -/
theorem readRecords_flatMap {rs : List LogRecord}
    (hrs : ∀ r ∈ rs, r.Representable ∧ r.HasData) :
    ∃ rs', readRecords (rs.flatMap serializeRecord) = some rs' ∧ List.Forall₂ Restores rs rs' := by
  induction rs with
  | nil => exact ⟨[],by rw [List.flatMap_nil,readRecords,if_pos rfl],.nil⟩
  | cons r rs ih =>
    obtain ⟨hr,hdata⟩ := hrs r List.mem_cons_self
    obtain ⟨r',hread,hrestores⟩ := readRecord_serializeRecord hr hdata (rs.flatMap serializeRecord)
    obtain ⟨rs',hrest,hall⟩ := ih fun q hq => hrs q (List.mem_cons_of_mem r hq)
    have hne : (r::rs).flatMap serializeRecord ≠ [] := by
      rw [List.flatMap_cons,Ne,← List.length_eq_zero_iff,List.length_append,serializeRecord_length]
      omega
    refine ⟨r'::rs',?_,.cons hrestores hall⟩
    rw [readRecords,if_neg hne]
    split
    · next hnone =>
      rw [List.flatMap_cons,hread] at hnone
      cases hnone
    · next q n hsome =>
      rw [List.flatMap_cons,hread] at hsome
      obtain ⟨rfl,rfl⟩ := Prod.mk.inj (Option.some.inj hsome)
      rw [List.flatMap_cons,List.drop_left,hrest]
      rfl

/-- One record with anything behind it, and a list of records. -/
theorem serializeRecord_restored :
    (∀ r : LogRecord, r.Representable → r.HasData → ∀ rest, ∃ r',
      readRecord (serializeRecord r++rest) = some (r',(serializeRecord r).length) ∧
        Restores r r') ∧
    (∀ rs : List LogRecord, (∀ r ∈ rs, r.Representable ∧ r.HasData) → ∃ rs',
      readRecords (rs.flatMap serializeRecord) = some rs' ∧ List.Forall₂ Restores rs rs') :=
  ⟨fun _ hr hdata rest => readRecord_serializeRecord hr hdata rest,
    fun _ hrs => readRecords_flatMap hrs⟩

/-- A record with three bytes, alone and twice. -/
theorem serializeRecord_restored_insert :
    let r := makeRecord .insert 7 3 (some [1,2,3])
    (∃ r', readRecord (serializeRecord r++[9]) = some (r',(serializeRecord r).length) ∧
      Restores r r') ∧
    ∃ rs', readRecords ([r,r].flatMap serializeRecord) = some rs' ∧
      List.Forall₂ Restores [r,r] rs' := by
  have hr : (makeRecord .insert 7 3 (some [1,2,3])).Representable := by constructor <;> decide
  have hdata : (makeRecord .insert 7 3 (some [1,2,3])).HasData := fun _ => rfl
  exact ⟨serializeRecord_restored.1 _ hr hdata [9],
    serializeRecord_restored.2 _ (by simp [hr,hdata])⟩

end RoundTrip

end LogManager
end OrangeSQL
