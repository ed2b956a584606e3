import OrangeSQL.ValueBytes
import OrangeSQL.Library.FixedWidth

/-! The record codec of the storage layer: a field count, a table of offsets and the fields. No types
are written; the reader takes the distance to the next offset for the type. The switches over the
type are the ones of the log's rows, here without a type byte. -/
namespace OrangeSQL
namespace RecordCodec

open Bytes
open Value (ShortString Same)
open WalManager (serializeValue valueSize)

/-- The count is a `uint16_t`, and so many fields are written. -/
def fieldCount (record : List Value) : ℕ := record.length%2^16

/-- `current_offset` in the round of field `i`. -/
def currentOffset (record : List Value) (i : ℕ) : ℕ :=
  2*(fieldCount record+1)+((record.take i).map valueSize).sum

def offsetTable (record : List Value) : List UInt8 :=
  (FixedWidth.nat 2).encodeArray (currentOffset record) (fieldCount record)

def serializeRecord (record : List Value) : List UInt8 :=
  leBytes 2 (fieldCount record)++offsetTable record++
    (record.take (fieldCount record)).flatMap serializeValue

def getRecordSize (record : List Value) : ℕ := 2+(record.map fun v => 2+valueSize v).sum

section Reader

variable (buffer : ℕ → UInt8)

def offsetAt (i : ℕ) : ℕ := leNat (readMem buffer (2+2*i) 2)

/-- The distance to the next offset in `size_t`; behind the last field the reader takes the place
where it stands itself, the end of the offset table. -/
def fieldSize (count i : ℕ) : ℕ :=
  let nextOffset := if i+1 < count then offsetAt buffer (i+1) else 2+2*count
  (nextOffset+2^64-offsetAt buffer i)%2^64

def readField (count i : ℕ) (val : Value) : Value :=
  let fieldStart := offsetAt buffer i
  let size := fieldSize buffer count i
  if size = 4 then { val with type := .integer }.withBytes (readMem buffer fieldStart 4)
  else if size = 8 then { val with type := .bigint }.withBytes (readMem buffer fieldStart 8)
  else if size = 1 then { val with type := .boolean }.withBytes (readMem buffer fieldStart 1)
  else
    let len := leNat (readMem buffer fieldStart 4)
    { val with type := .varchar, strVal := readMem buffer (fieldStart+4) len }

/-- `record.resize` -/
def resize (record : List Value) (n : ℕ) : List Value :=
  record.take n++List.replicate (n-record.length) Value.null

/-- The number of bytes that is reported, and the record; `record` is what the caller passed in. -/
def deserializeRecord (record : List Value) : ℕ × List Value :=
  let count := leNat (readMem buffer 0 2)
  (2+2*count,(resize record count).mapIdx fun i val => readField buffer count i val)

end Reader

section Sizes

/-- The place of the first byte of field `i`. -/
def fieldStart (record : List Value) (i : ℕ) : ℕ :=
  2*(fieldCount record+1)+((record.take i).flatMap serializeValue).length

/-- The size that is foretold is the size that is written, and the table has the places of the
fields, as far as two bytes can hold them. -/
def SizePredicted (record : List Value) : Prop :=
  (serializeRecord record).length = getRecordSize record ∧
    ∀ i < record.length,
      leNat (slice (serializeRecord record) (2+2*i) 2) = fieldStart record i%65536

theorem length_offsetTable (record : List Value) :
    (offsetTable record).length = 2*fieldCount record := by
  rw [offsetTable,FixedWidth.length_encodeArray,Nat.mul_comm]
  rfl

theorem length_serializeRecord (record : List Value) : (serializeRecord record).length =
    2*(fieldCount record+1)+
      ((record.take (fieldCount record)).flatMap serializeValue).length := by
  rw [serializeRecord,List.length_append,List.length_append,leBytes_length,length_offsetTable]
  omega

theorem fieldCount_eq {record : List Value} (h : record.length ≤ 65535) :
    fieldCount record = record.length := Nat.mod_eq_of_lt (by omega)

theorem getRecordSize_eq (record : List Value) :
    getRecordSize record = 2*(record.length+1)+(record.map valueSize).sum := by
  rw [getRecordSize]
  induction record with
  | nil => rfl
  | cons v record ih =>
    simp only [List.map_cons,List.sum_cons,List.length_cons] at ih ⊢
    omega

theorem length_fields_le (record : List Value) :
    (record.flatMap serializeValue).length ≤ (record.map valueSize).sum := by
  induction record with
  | nil => exact le_rfl
  | cons v record ih =>
    rw [List.flatMap_cons,List.length_append,List.map_cons,List.sum_cons]
    exact Nat.add_le_add (length_serializeValue_le v) ih

theorem length_fields_iff (record : List Value) :
    (record.flatMap serializeValue).length = (record.map valueSize).sum ↔
      ∀ v ∈ record, v.ShortString := by
  induction record with
  | nil => simp
  | cons v record ih =>
    have hv := length_serializeValue_le v
    have hle := length_fields_le record
    rw [List.forall_mem_cons,← ih,← length_serializeValue_iff,List.flatMap_cons,
      List.length_append,List.map_cons,List.sum_cons]
    omega

/-- What a string is cut by is a multiple of 2^32. -/
theorem length_fields_mod (record : List Value) :
    (record.map valueSize).sum%65536 = (record.flatMap serializeValue).length%65536 := by
  induction record with
  | nil => rfl
  | cons v record ih =>
    have hv : valueSize v%65536 = (serializeValue v).length%65536 := by
      rw [length_serializeValue]
      split
      · next htype =>
        rw [(serializeValue_varchar htype).2]
        omega
      · rfl
    rw [List.flatMap_cons,List.length_append,List.map_cons,List.sum_cons]
    omega

theorem slice_offsetTable (record : List Value) {i : ℕ} (hi : i < fieldCount record) :
    slice (serializeRecord record) (2+2*i) 2 = leBytes 2 (currentOffset record i) := by
  have hentry := (FixedWidth.nat 2).slice_encodeArray (currentOffset record)
    ((record.take (fieldCount record)).flatMap serializeValue) hi
  have hskip : ∀ bs : List UInt8, slice (leBytes 2 (fieldCount record)++bs) (2+2*i) 2 =
      slice bs (i*2) 2 := by
    intro bs
    rw [slice,slice,← List.drop_drop,List.drop_left' (leBytes_length 2 _),Nat.mul_comm]
  rw [serializeRecord,List.append_assoc,hskip]
  exact hentry

/-- The table of offsets is right, whatever the strings are. -/
theorem offset_entry (record : List Value) {i : ℕ} (hi : i < fieldCount record) :
    leNat (slice (serializeRecord record) (2+2*i) 2) = fieldStart record i%65536 := by
  have hmod := length_fields_mod (record.take i)
  rw [slice_offsetTable record hi,leNat_leBytes,currentOffset,fieldStart]
  omega

theorem length_eq_iff {record : List Value} (h : record.length ≤ 65535) :
    (serializeRecord record).length = getRecordSize record ↔ ∀ v ∈ record, v.ShortString := by
  rw [length_serializeRecord,getRecordSize_eq,fieldCount_eq h,List.take_length,
    Nat.add_left_cancel_iff]
  exact length_fields_iff record

/-- Only strings whose length does not fit its four bytes come out shorter than foretold. -/
theorem sizePredicted_iff (record : List Value) (h : record.length ≤ 65535) :
    SizePredicted record ↔ ∀ v ∈ record, v.ShortString := by
  rw [SizePredicted,length_eq_iff h]
  exact and_iff_left fun i hi => offset_entry record (by rwa [fieldCount_eq h])

theorem sizePredicted_iff_integer : SizePredicted [Value.ofInt 7] :=
  (sizePredicted_iff [Value.ofInt 7] (by decide)).mpr (by decide)

theorem not_sizePredicted_of_long {v : Value} (hv : v.type = .varchar)
    (h : 2^32 ≤ v.strVal.length) : ¬SizePredicted [v] := by
  rintro ⟨hsize,-⟩
  have hone : [v].length ≤ 65535 := by
    rw [List.length_singleton]
    omega
  have hshort := (length_eq_iff hone).mp hsize v List.mem_cons_self hv
  exact absurd hshort (Nat.not_lt.mpr h)

/-- A string of four gigabytes is written with length zero and without its bytes. -/
theorem not_sizePredicted_four_gigabytes :
    ¬SizePredicted [⟨.varchar,0,List.replicate (2^32) 0,[]⟩] :=
  not_sizePredicted_of_long rfl List.length_replicate.ge

end Sizes

section RoundTrip

/-- The types of the fields that the codec is used with. -/
def fieldTypes : List DataType := [.integer,.bigint,.boolean,.varchar]

/-- The record that is read where `record` was written, with what the caller passed in. -/
def readBack (buffer : ℕ → UInt8) (record into : List Value) : ℕ × List Value :=
  deserializeRecord (writeMem buffer 0 (serializeRecord record)) into

/-- The same values come back, and as many bytes are reported as were written. -/
def RoundTrips (buffer : ℕ → UInt8) (record into : List Value) : Prop :=
  List.Forall₂ Same record (readBack buffer record into).2 ∧
    (readBack buffer record into).1 = (serializeRecord record).length

/-- The distance to the next offset tells the type of every field: the last one is a string, and no
other string is taken for an INTEGER or a BIGINT. -/
def Recognizable (record : List Value) : Prop :=
  record.length < 2^16 ∧ ∀ i v, record[i]? = some v → v.ShortString ∧
    if i+1 < record.length then v.type = .varchar → v.strVal.length ≠ 0 ∧ v.strVal.length ≠ 4
    else v.type = .varchar

variable (buffer : ℕ → UInt8) (record into : List Value)

theorem readBack_eq : readBack buffer record into = (2*(fieldCount record+1),
    (resize into (fieldCount record)).mapIdx fun i val =>
      readField (writeMem buffer 0 (serializeRecord record)) (fieldCount record) i val) := by
  have hcount : leNat (readMem (writeMem buffer 0 (serializeRecord record)) 0 2) =
      fieldCount record := by
    have hlen := length_serializeRecord record
    have hslice := slice_between [] (leBytes 2 (fieldCount record)) (offsetTable record++
      (record.take (fieldCount record)).flatMap serializeValue)
    rw [leBytes_length,List.nil_append,← List.append_assoc,List.length_nil] at hslice
    rw [readMem_writeMem_slice _ _ (by omega),serializeRecord,hslice,leNat_leBytes]
    exact Nat.mod_eq_of_lt (Nat.mod_lt _ (by decide))
  rw [readBack,deserializeRecord]
  simp only [hcount]
  congr 1
  omega

theorem length_readBack : (readBack buffer record into).2.length = fieldCount record := by
  rw [readBack_eq,List.length_mapIdx,resize,List.length_append,List.length_take,
    List.length_replicate]
  omega

theorem valueSize_pos {v : Value} (h : v.type ∈ fieldTypes) : 0 < (serializeValue v).length := by
  rw [length_serializeValue]
  simp only [fieldTypes,List.mem_cons,List.not_mem_nil,or_false] at h
  rcases h with h | h | h | h <;> simp [valueSize,h]

/-- The reader reports the end of the offset table, and never gets a record back that way. -/
theorem roundTrips_iff (htypes : ∀ v ∈ record, v.type ∈ fieldTypes) :
    RoundTrips buffer record into ↔ record = [] := by
  constructor
  · rintro ⟨hsame,hbytes⟩
    by_contra hne
    have hlength := hsame.length_eq
    rw [length_readBack] at hlength
    rw [readBack_eq,length_serializeRecord,← hlength,List.take_length] at hbytes
    obtain ⟨v,rest,rfl⟩ := List.exists_cons_of_ne_nil hne
    have hpos := valueSize_pos (htypes v List.mem_cons_self)
    rw [List.flatMap_cons,List.length_append] at hbytes
    omega
  · rintro rfl
    refine ⟨?_,?_⟩
    · have hlength := length_readBack buffer [] into
      rw [List.length_eq_zero_iff.mp hlength]
      exact .nil
    · rw [readBack_eq]
      rfl

theorem roundTrips_iff_empty : RoundTrips (fun _ => 0) [] [] :=
  (roundTrips_iff (fun _ => 0) [] [] (by simp)).mpr rfl

/-- Eight bytes are written for a record of one INTEGER, and four are reported. -/
theorem not_roundTrips_integer : ¬RoundTrips (fun _ => 0) [Value.ofInt 7] [] := by
  rintro ⟨-,hbytes⟩
  rw [readBack_eq] at hbytes
  exact absurd hbytes (by decide)

section Fields

variable {record} {i : ℕ} {v : Value}

theorem fieldStart_succ (hv : record[i]? = some v) :
    fieldStart record (i+1) = fieldStart record i+(serializeValue v).length := by
  rw [fieldStart,fieldStart,List.take_add_one,hv,List.flatMap_append,List.length_append]
  simp only [Option.toList_some,List.flatMap_singleton,Nat.add_assoc]

/-- A field that is written stands in the image at its place. -/
theorem slice_field (hv : record[i]? = some v) (hi : i < fieldCount record) :
    slice (serializeRecord record) (fieldStart record i) (serializeValue v).length =
        serializeValue v ∧
      fieldStart record i+(serializeValue v).length ≤ (serializeRecord record).length := by
  obtain ⟨rest,hrest⟩ : ∃ rest, record.take (fieldCount record) = record.take i++v::rest := by
    refine ⟨(record.take (fieldCount record)).drop (i+1),?_⟩
    have hget : (record.take (fieldCount record))[i]? = some v := by
      rw [List.getElem?_take_of_lt hi,hv]
    have hsplit := (List.take_append_drop i (record.take (fieldCount record))).symm
    rw [List.take_take,min_eq_left (by omega),List.drop_eq_getElem?_toList_append,hget] at hsplit
    exact hsplit
  have himage : serializeRecord record = (leBytes 2 (fieldCount record)++offsetTable record++
      (record.take i).flatMap serializeValue)++serializeValue v++rest.flatMap serializeValue := by
    rw [serializeRecord,hrest]
    simp only [List.flatMap_append,List.flatMap_cons,List.append_assoc]
  have hfront : (leBytes 2 (fieldCount record)++offsetTable record++
      (record.take i).flatMap serializeValue).length = fieldStart record i := by
    rw [List.length_append,List.length_append,leBytes_length,length_offsetTable,fieldStart]
    omega
  constructor
  · rw [himage,← hfront]
    exact slice_between _ _ _
  · rw [himage,List.length_append,List.length_append,hfront]
    exact Nat.le_add_right _ _

/-- What the reader finds where a field was written. -/
theorem readMem_field (hv : record[i]? = some v) (hi : i < fieldCount record) :
    readMem (writeMem buffer 0 (serializeRecord record)) (fieldStart record i)
      (serializeValue v).length = serializeValue v := by
  obtain ⟨hslice,hend⟩ := slice_field hv hi
  rw [readMem_writeMem_slice _ _ hend,hslice]

theorem offsetAt_eq (hlong : (serializeRecord record).length < 65536)
    (hv : record[i]? = some v) (hi : i < fieldCount record) :
    offsetAt (writeMem buffer 0 (serializeRecord record)) i = fieldStart record i := by
  have hlen := length_serializeRecord record
  have hend := (slice_field hv hi).2
  rw [offsetAt,readMem_writeMem_slice _ _ (by omega),offset_entry record hi]
  exact Nat.mod_eq_of_lt (by omega)

/-- Only in front of another field the distance is the size of the field. -/
theorem fieldSize_eq (hlong : (serializeRecord record).length < 65536)
    (hv : record[i]? = some v) (hi : i < fieldCount record) :
    fieldSize (writeMem buffer 0 (serializeRecord record)) (fieldCount record) i =
      if i+1 < fieldCount record then (serializeValue v).length
      else (2^64-((record.take i).flatMap serializeValue).length)%2^64 := by
  have hend := (slice_field hv hi).2
  have hstart : fieldStart record i =
      2*(fieldCount record+1)+((record.take i).flatMap serializeValue).length := rfl
  rw [fieldSize,offsetAt_eq buffer hlong hv hi]
  split
  · next hnext =>
    have hsome : i+1 < record.length := hnext.trans_le (Nat.mod_le _ _)
    rw [offsetAt_eq buffer hlong (List.getElem?_eq_getElem hsome) hnext,fieldStart_succ hv]
    omega
  · rw [show 2+2*fieldCount record+2^64-fieldStart record i =
      2^64-((record.take i).flatMap serializeValue).length by omega]

end Fields

section Restored

variable {record} {i : ℕ} {v : Value}

/-- A scalar comes back if its size is measured right. -/
theorem same_readField_scalar {w : ℕ} (hw : v.type.scalarWidth = some w)
    {mem : ℕ → UInt8} {count : ℕ} (hsize : fieldSize mem count i = w)
    (hbytes : readMem mem (offsetAt mem i) w = leBytes w v.data.toNat) (val : Value) :
    v.Same (readField mem count i val) := by
  unfold readField
  cases htype : v.type <;> rw [htype] at hw <;> cases hw
  · simp only [hsize,hbytes,if_true]
    exact Value.same_withBytes (by rw [htype]; rfl) htype
  · simp only [hsize,hbytes]
    exact Value.same_withBytes (by rw [htype]; rfl) htype
  · simp only [hsize,hbytes]
    exact Value.same_withBytes (by rw [htype]; rfl) htype

theorem readField_varchar {mem : ℕ → UInt8} {count : ℕ} (h4 : fieldSize mem count i ≠ 4)
    (h8 : fieldSize mem count i ≠ 8) (h1 : fieldSize mem count i ≠ 1) (val : Value) :
    readField mem count i val = { val with
      type := .varchar
      strVal := readMem mem (offsetAt mem i+4) (leNat (readMem mem (offsetAt mem i) 4)) } := by
  unfold readField
  simp only [h4,h8,h1,if_false]

theorem readField_type (mem : ℕ → UInt8) (count i : ℕ) (val : Value) :
    (readField mem count i val).type =
      if fieldSize mem count i = 4 then .integer else if fieldSize mem count i = 8 then .bigint
      else if fieldSize mem count i = 1 then .boolean else .varchar := by
  rw [readField]
  split
  · rfl
  · split
    · rfl
    · split
      · rfl
      · rfl

/-- A string that is taken for one is read as far as its four bytes say. -/
theorem same_readField_varchar (htype : v.type = .varchar) {mem : ℕ → UInt8} {count : ℕ}
    (h4 : fieldSize mem count i ≠ 4) (h8 : fieldSize mem count i ≠ 8)
    (h1 : fieldSize mem count i ≠ 1)
    (hbytes : readMem mem (offsetAt mem i) (serializeValue v).length = serializeValue v)
    (val : Value) : v.Same (readField mem count i val) ↔ v.ShortString := by
  rw [(serializeValue_varchar htype).1] at hbytes
  obtain ⟨hlen,hstr⟩ := readMem_append_eq hbytes
  rw [leBytes_length] at hlen hstr
  rw [List.length_take,min_eq_left (Nat.mod_le _ _)] at hstr
  rw [Value.same_varchar_iff htype,readField_varchar h4 h8 h1,hlen,leNat_leBytes,
    show (256 : ℕ)^4 = 2^32 by norm_num,hstr]
  constructor
  · rintro ⟨-,hsame⟩ -
    have hmod := congrArg List.length hsame
    rw [List.length_take,min_eq_left (Nat.mod_le _ _)] at hmod
    rw [hmod]
    exact Nat.mod_lt _ (Nat.two_pow_pos 32)
  · intro hshort
    rw [Nat.mod_eq_of_lt (hshort htype),List.take_length]
    exact ⟨htype,rfl⟩

/-- The last field is measured against a place in front of it. -/
theorem last_size {d : ℕ} (h : d < 65536) :
    (2^64-d)%2^64 ≠ 4 ∧ (2^64-d)%2^64 ≠ 8 ∧ (2^64-d)%2^64 ≠ 1 := by
  omega

theorem same_readField_iff (hlong : (serializeRecord record).length < 65536)
    (hv : record[i]? = some v) (hi : i < fieldCount record) (htype : v.type ∈ fieldTypes)
    (val : Value) :
    v.Same (readField (writeMem buffer 0 (serializeRecord record)) (fieldCount record) i val) ↔
      v.ShortString ∧ if i+1 < fieldCount record
        then v.type = .varchar → v.strVal.length ≠ 0 ∧ v.strVal.length ≠ 4
        else v.type = .varchar := by
  have hbytes := readMem_field buffer hv hi
  have hsize := fieldSize_eq buffer hlong hv hi
  have hstart := offsetAt_eq buffer hlong hv hi
  have hend := (slice_field hv hi).2
  have hd : ((record.take i).flatMap serializeValue).length < 65536 := by
    rw [fieldStart] at hend
    omega
  obtain ⟨h4,h8,h1⟩ := last_size hd
  rw [← hstart] at hbytes
  generalize writeMem buffer 0 (serializeRecord record) = mem at *
  by_cases hvarchar : v.type = .varchar
  · have hlength : (serializeValue v).length = 4+v.strVal.length%2^32 := by
      rw [length_serializeValue,if_pos hvarchar]
    by_cases hnext : i+1 < fieldCount record
    · rw [if_pos hnext] at hsize ⊢
      by_cases hwrong : v.strVal.length%2^32 = 0 ∨ v.strVal.length%2^32 = 4
      · refine iff_of_false ?_ ?_
        · rintro ⟨hsame,-⟩
          rw [hvarchar,readField_type,hsize,hlength] at hsame
          rcases hwrong with hzero | hfour
          · rw [hzero] at hsame
            exact absurd hsame (by decide)
          · rw [hfour] at hsame
            exact absurd hsame (by decide)
        · rintro ⟨hshort,hlen⟩
          have hmod := Nat.mod_eq_of_lt (hshort hvarchar)
          have hne := hlen hvarchar
          omega
      · rw [same_readField_varchar hvarchar (by omega) (by omega) (by omega) hbytes]
        refine ⟨fun hshort => ⟨hshort,fun _ => ?_⟩,fun h => h.1⟩
        have hmod := Nat.mod_eq_of_lt (hshort hvarchar)
        omega
    · rw [if_neg hnext] at hsize ⊢
      rw [same_readField_varchar hvarchar (by rwa [hsize]) (by rwa [hsize]) (by rwa [hsize]) hbytes]
      exact (and_iff_left hvarchar).symm
  · obtain ⟨w,hw⟩ : ∃ w, v.type.scalarWidth = some w := by
      simp only [fieldTypes,List.mem_cons,List.not_mem_nil,or_false,hvarchar] at htype
      rcases htype with h | h | h <;> rw [h] <;> exact ⟨_,rfl⟩
    by_cases hnext : i+1 < fieldCount record
    · rw [if_pos hnext] at hsize ⊢
      rw [(serializeValue_scalar hw).1,leBytes_length] at hsize hbytes
      exact iff_of_true (same_readField_scalar hw hsize hbytes val)
        ⟨fun h => absurd h hvarchar,fun h => absurd h hvarchar⟩
    · rw [if_neg hnext] at hsize ⊢
      refine iff_of_false ?_ fun h => hvarchar h.2
      rintro ⟨hsame,-⟩
      rw [readField_varchar (by rwa [hsize]) (by rwa [hsize]) (by rwa [hsize])] at hsame
      exact hvarchar hsame

end Restored

theorem readBack_getElem {i : ℕ} (hi : i < fieldCount record) :
    ∃ val, (readBack buffer record into).2[i]? = some
      (readField (writeMem buffer 0 (serializeRecord record)) (fieldCount record) i val) := by
  have hlen : i < (resize into (fieldCount record)).length := by
    rw [resize,List.length_append,List.length_take,List.length_replicate]
    omega
  rw [readBack_eq,List.getElem?_mapIdx,List.getElem?_eq_getElem hlen]
  exact ⟨_,rfl⟩

/-- The values of an encoding of fewer than 65536 bytes come back exactly when the types of all
fields can be told from the distances. -/
theorem restored_iff (htypes : ∀ v ∈ record, v.type ∈ fieldTypes)
    (hlong : (serializeRecord record).length < 65536) :
    List.Forall₂ Same record (readBack buffer record into).2 ↔ Recognizable record := by
  rw [List.forall₂_iff_get,Recognizable]
  have hlen := length_readBack buffer record into
  by_cases hsize : record.length < 2^16
  · have hcount := fieldCount_eq (Nat.le_of_lt_succ hsize)
    rw [hcount] at hlen
    simp only [hlen,hsize,true_and]
    apply forall_congr'
    intro i
    by_cases hi : i < record.length
    · have hv : record[i]? = some record[i] := List.getElem?_eq_getElem hi
      obtain ⟨val,hval⟩ := readBack_getElem buffer record into (hcount.symm ▸ hi)
      obtain ⟨hi',hget⟩ := List.getElem?_eq_some_iff.mp hval
      have hiff := same_readField_iff buffer hlong hv (hcount.symm ▸ hi)
        (htypes _ (List.getElem_mem hi)) val
      rw [hcount] at hiff
      simp only [hi,hv,List.get_eq_getElem,hget,hcount,hiff,Option.some.injEq,forall_eq',
        forall_const]
    · simp [hi]
  · refine iff_of_false ?_ fun h => hsize h.1
    rintro ⟨hcount,-⟩
    rw [hcount,hlen] at hsize
    exact hsize (Nat.mod_lt _ (Nat.two_pow_pos 16))

end RoundTrip

end RecordCodec
end OrangeSQL
