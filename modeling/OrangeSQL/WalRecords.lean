import OrangeSQL.ValueBytes

/-! Reading the rows of the data records back. The reader asks before each copy whether the bytes
are still inside the buffer; where they are not, it keeps the value without them, and its loop
goes on. -/
namespace OrangeSQL
namespace WalManager

open Bytes
open Value (ShortString Same blank)

section Reader

variable (unset : UInt32) (data : List UInt8)

/-- A member of `w` bytes; the cursor stays where it is if they are not all there. -/
def readScalar (val : Value) (pos w : ℕ) : Option (Value × ℕ) :=
  if pos+w ≤ data.length then do
    let bytes ← readBytes data pos w
    return (val.withBytes bytes,pos+w)
  else some (val,pos)

/-- The cursor goes behind the length also when the string is not all there. -/
def readString (val : Value) (pos : ℕ) : Option (Value × ℕ) :=
  if data.length < pos+4 then some (val,pos)
  else do
    let strLen := leNat (← readBytes data pos 4)
    let pos := pos+4
    if pos+strLen ≤ data.length then
      let bytes ← readBytes data pos strLen
      return ({ val with strVal := bytes },pos+strLen)
    else return (val,pos)

/-- The switch over the type. -/
def readMember (val : Value) (pos : ℕ) : Option (Value × ℕ) :=
  match val.type with
  | .integer => readScalar data val pos 4
  | .bigint => readScalar data val pos 8
  | .boolean => readScalar data val pos 1
  | .varchar => readString data val pos
  | _ => some (val,pos)

/-- One round of the loop: the value that is pushed and the cursor behind it. -/
def readValue (pos : ℕ) : Option (Value × ℕ) := do
  let typeByte ← readBytes data pos 1
  readMember data (blank unset (.ofCode (leNat typeByte))) (pos+1)

/-- The loop over the values that the count still allows. Its second test for the type byte is the
test of its head again. -/
def readValues : ℕ → ℕ → Option (List Value)
  | 0, _ => some []
  | count+1, pos =>
    if pos < data.length then do
      let (val,pos) ← readValue unset data pos
      let rest ← readValues count pos
      return val::rest
    else some []

/-- `none` would be a copy from outside of the buffer; `unset` is what the constructor of a value
leaves as it is. -/
def deserializeRecord : Option (List Value) :=
  if data.length < 2 then some []
  else do
    let count := leNat (← readBytes data 0 2)
    readValues unset data count 2

end Reader

section Safety

variable {unset : UInt32} {data : List UInt8}

theorem readScalar_inside {val : Value} {pos w : ℕ} (h : pos+w ≤ data.length) :
    readScalar data val pos w = some (val.withBytes (slice data pos w),pos+w) := by
  rw [readScalar,if_pos h,readBytes_of_le h]
  rfl

theorem readScalar_cut {val : Value} {pos w : ℕ} (h : data.length < pos+w) :
    readScalar data val pos w = some (val,pos) := if_neg (Nat.not_le.mpr h)

theorem readString_cut {val : Value} {pos : ℕ} (h : data.length < pos+4) :
    readString data val pos = some (val,pos) := if_pos h

theorem readString_inside {val : Value} {pos strLen : ℕ} (h : pos+4 ≤ data.length)
    (hlen : leNat (slice data pos 4) = strLen) : readString data val pos =
      some (if pos+4+strLen ≤ data.length then
          ({ val with strVal := slice data (pos+4) strLen },pos+4+strLen)
        else (val,pos+4)) := by
  rw [readString,if_neg (Nat.not_lt.mpr h),readBytes_of_le h]
  simp only [Option.bind_eq_bind,Option.bind_some,hlen]
  split
  · next hstr =>
    rw [readBytes_of_le hstr]
    rfl
  · rfl

theorem readMember_scalar {val : Value} {w : ℕ} (h : val.type.scalarWidth = some w) (pos : ℕ) :
    readMember data val pos = readScalar data val pos w := by
  unfold readMember
  cases htype : val.type <;> rw [htype] at h <;> cases h <;> rfl

theorem readMember_varchar {val : Value} (h : val.type = .varchar) (pos : ℕ) :
    readMember data val pos = readString data val pos := by
  rw [readMember,h]

theorem readMember_other {val : Value} (h : val.type.scalarWidth = none) (hv : val.type ≠ .varchar)
    (pos : ℕ) : readMember data val pos = some (val,pos) := by
  unfold readMember
  cases htype : val.type <;> simp_all [DataType.scalarWidth]

/-- Whatever is left of the buffer, the switch copies from inside only. -/
theorem readMember_returns (data : List UInt8) (val : Value) (pos : ℕ) : ∃ val' next,
    readMember data val pos = some (val',next) ∧ val'.type = val.type := by
  cases hw : val.type.scalarWidth with
  | some w =>
    rw [readMember_scalar hw]
    by_cases hin : pos+w ≤ data.length
    · exact ⟨_,_,readScalar_inside hin,rfl⟩
    · exact ⟨_,_,readScalar_cut (Nat.not_le.mp hin),rfl⟩
  | none =>
    by_cases hv : val.type = .varchar
    · rw [readMember_varchar hv]
      by_cases hin : pos+4 ≤ data.length
      · rw [readString_inside hin rfl]
        split <;> exact ⟨_,_,rfl,rfl⟩
      · exact ⟨_,_,readString_cut (Nat.not_le.mp hin),rfl⟩
    · exact ⟨_,_,readMember_other hw hv pos,rfl⟩

theorem readValue_eq {pos : ℕ} (h : pos < data.length) : readValue unset data pos =
    readMember data (blank unset (.ofCode (leNat (slice data pos 1)))) (pos+1) := by
  rw [readValue,readBytes_of_le h]
  rfl

/-- A round of the loop that finds a value. -/
theorem readValues_step {count pos next : ℕ} {val : Value} (h : pos < data.length)
    (hval : readValue unset data pos = some (val,next)) :
    readValues unset data (count+1) pos = (readValues unset data count next).map fun vals => val::vals := by
  rw [readValues,if_pos h,hval]
  simp only [Option.bind_eq_bind,Option.bind_some]
  cases readValues unset data count next <;> rfl

theorem readValues_end {count pos : ℕ} (h : data.length ≤ pos) :
    readValues unset data count pos = some [] := by
  cases count with
  | zero => rfl
  | succ count => exact if_neg (Nat.not_lt.mpr h)

theorem readValues_returns (unset : UInt32) (data : List UInt8) (count pos : ℕ) :
    ∃ vals, readValues unset data count pos = some vals ∧ vals.length ≤ count := by
  induction count generalizing pos with
  | zero => exact ⟨[],rfl,le_rfl⟩
  | succ count ih =>
    by_cases hpos : pos < data.length
    · obtain ⟨val,next,hval,-⟩ :=
        readMember_returns data (blank unset (.ofCode (leNat (slice data pos 1)))) (pos+1)
      rw [← readValue_eq hpos] at hval
      obtain ⟨rest,hrest,hlen⟩ := ih next
      refine ⟨val::rest,?_,Nat.succ_le_succ hlen⟩
      rw [readValues_step hpos hval,hrest]
      rfl
    · exact ⟨[],readValues_end (Nat.not_lt.mp hpos),Nat.zero_le _⟩

/-- Whatever the bytes are, nothing outside of them is read, and there are no more values than the
count in the first two bytes says. -/
theorem deserializeRecord_safe (unset : UInt32) (data : List UInt8) :
    ∃ vals, deserializeRecord unset data = some vals ∧
      vals.length ≤ if data.length < 2 then 0 else leNat (slice data 0 2) := by
  unfold deserializeRecord
  split
  · exact ⟨[],rfl,le_rfl⟩
  · next h =>
    rw [readBytes_of_le (Nat.not_lt.mp h)]
    exact readValues_returns unset data (leNat (slice data 0 2)) 2

end Safety

section RoundTrip

/-- The types whose values the log can hold. -/
def loggedTypes : List DataType := [.integer,.bigint,.boolean,.varchar,.nullType]

/-- What is written for a value: a type byte and the value. -/
def fieldBytes (v : Value) : List UInt8 := leBytes 1 v.type.code++serializeValue v

/-- What is written into the buffer, and how long the buffer was made for it. -/
def written (record : List Value) : List UInt8 :=
  leBytes 2 record.length++record.flatMap fieldBytes

def totalSize (record : List Value) : ℕ := 2+(record.map fun v => 1+valueSize v).sum

theorem serializeRecord_eq (record : List Value) : serializeRecord record =
    written record++List.replicate (totalSize record-(written record).length) 0 := rfl

theorem ofCode_typeByte {type : DataType} (h : type ∈ loggedTypes) :
    DataType.ofCode (leNat (leBytes 1 type.code)) = type := by
  rw [leNat_leBytes]
  simp only [loggedTypes,List.mem_cons,List.not_mem_nil,or_false] at h
  rcases h with rfl | rfl | rfl | rfl | rfl <;> rfl

theorem scalar_or_varchar_or_null {type : DataType} (h : type ∈ loggedTypes) :
    (∃ w, type.scalarWidth = some w) ∨ type = .varchar ∨ type = .nullType := by
  simp only [loggedTypes,List.mem_cons,List.not_mem_nil,or_false] at h
  rcases h with rfl | rfl | rfl | rfl | rfl
  · exact Or.inl ⟨4,rfl⟩
  · exact Or.inl ⟨8,rfl⟩
  · exact Or.inl ⟨1,rfl⟩
  · exact Or.inr (Or.inl rfl)
  · exact Or.inr (Or.inr rfl)

theorem length_fieldBytes {v : Value} (h : v.ShortString) :
    (fieldBytes v).length = 1+valueSize v := by
  rw [fieldBytes,List.length_append,leBytes_length,(length_serializeValue_iff v).mpr h]

/-- The loop meets the type byte of a value. -/
theorem readValue_typeByte (unset : UInt32) {type : DataType} (h : type ∈ loggedTypes)
    (front rest : List UInt8) : readValue unset (front++leBytes 1 type.code++rest) front.length =
      readMember (front++leBytes 1 type.code++rest) (blank unset type) (front.length+1) := by
  have hslice := slice_between front (leBytes 1 type.code) rest
  rw [leBytes_length] at hslice
  rw [readValue_eq (by simp),hslice,ofCode_typeByte h]

/-- All the bytes of a value are there. -/
theorem readMember_serializeValue (unset : UInt32) {v : Value} (h : v.type ∈ loggedTypes)
    (hs : v.ShortString) (front rest : List UInt8) :
    ∃ v', readMember (front++serializeValue v++rest) (blank unset v.type) front.length =
      some (v',front.length+valueSize v) ∧ v.Same v' := by
  rcases scalar_or_varchar_or_null h with ⟨w,hw⟩ | hv | hnull
  · obtain ⟨hbytes,hsize⟩ := serializeValue_scalar hw
    have hslice := slice_between front (leBytes w v.data.toNat) rest
    rw [leBytes_length] at hslice
    rw [readMember_scalar (by exact hw),hbytes,hsize,readScalar_inside (by simp),hslice]
    exact ⟨_,rfl,Value.same_withBytes hw rfl⟩
  · obtain ⟨hbytes,hsize⟩ := serializeValue_varchar hv
    have hmod := Nat.mod_eq_of_lt (hs hv)
    rw [hmod,List.take_length] at hbytes
    have hlen : leNat (slice (front++(leBytes 4 v.strVal.length++v.strVal)++rest) front.length 4) =
        v.strVal.length := by
      have hslice := slice_between front (leBytes 4 v.strVal.length) (v.strVal++rest)
      rw [leBytes_length] at hslice
      rw [← List.append_assoc front,List.append_assoc _ v.strVal,hslice,leNat_leBytes]
      exact hmod
    have hstr := slice_between (front++leBytes 4 v.strVal.length) v.strVal rest
    rw [List.length_append,leBytes_length] at hstr
    rw [readMember_varchar (by exact hv),hbytes,hsize,readString_inside (by simp) hlen,
      if_pos (by simp; omega),← List.append_assoc front,hstr]
    exact ⟨{ blank unset v.type with strVal := v.strVal },by rw [Nat.add_assoc],
      (Value.same_varchar_iff hv).mpr ⟨rfl,rfl⟩⟩
  · have hw : v.type.scalarWidth = none := by rw [hnull]; rfl
    have hv : v.type ≠ .varchar := by rw [hnull]; decide
    rw [readMember_other (by exact hw) (by exact hv),(serializeValue_other hw hv).2]
    exact ⟨_,rfl,Value.same_null hnull hnull⟩

theorem readValue_fieldBytes (unset : UInt32) {v : Value} (h : v.type ∈ loggedTypes)
    (hs : v.ShortString) (front rest : List UInt8) :
    ∃ v', readValue unset (front++fieldBytes v++rest) front.length =
      some (v',(front++fieldBytes v).length) ∧ v.Same v' := by
  obtain ⟨v',hread,hsame⟩ :=
    readMember_serializeValue unset h hs (front++leBytes 1 v.type.code) rest
  refine ⟨v',?_,hsame⟩
  have htype := readValue_typeByte unset h front (serializeValue v++rest)
  rw [List.length_append,leBytes_length] at hread
  rw [fieldBytes,List.length_append,List.length_append,leBytes_length,
    (length_serializeValue_iff v).mpr hs,← Nat.add_assoc,← hread,← List.append_assoc front,
    List.append_assoc _ (serializeValue v) rest]
  exact htype

/-- The loop reads the values that the bytes in front of it hold, whatever comes behind. -/
theorem readValues_fields (unset : UInt32) {record : List Value}
    (htypes : ∀ v ∈ record, v.type ∈ loggedTypes) (hs : ∀ v ∈ record, v.ShortString)
    (front rest : List UInt8) :
    ∃ vals, readValues unset (front++record.flatMap fieldBytes++rest) record.length front.length =
      some vals ∧ List.Forall₂ Same record vals := by
  induction record generalizing front with
  | nil => exact ⟨[],rfl,.nil⟩
  | cons v record ih =>
    obtain ⟨v',hread,hsame⟩ := readValue_fieldBytes unset (htypes v List.mem_cons_self)
      (hs v List.mem_cons_self) front (record.flatMap fieldBytes++rest)
    obtain ⟨vals,hvals,hall⟩ := ih (fun u hu => htypes u (List.mem_cons_of_mem v hu))
      (fun u hu => hs u (List.mem_cons_of_mem v hu)) (front++fieldBytes v)
    refine ⟨v'::vals,?_,.cons hsame hall⟩
    have hdata : front++(v::record).flatMap fieldBytes++rest =
        front++fieldBytes v++(record.flatMap fieldBytes++rest) := by
      simp only [List.flatMap_cons,List.append_assoc]
    rw [List.append_assoc] at hvals
    have hpos : front.length < (front++fieldBytes v++(record.flatMap fieldBytes++rest)).length := by
      simp [fieldBytes]
    rw [hdata,List.length_cons,readValues_step hpos hread,hvals]
    rfl

theorem length_written {record : List Value} (hs : ∀ v ∈ record, v.ShortString) :
    (written record).length = totalSize record := by
  rw [written,totalSize,List.length_append,leBytes_length,List.length_flatMap]
  congr 2
  exact List.map_congr_left fun v hv => length_fieldBytes (hs v hv)

theorem serializeRecord_eq_written {record : List Value} (hs : ∀ v ∈ record, v.ShortString) :
    serializeRecord record = written record := by
  rw [serializeRecord_eq,length_written hs,Nat.sub_self,List.replicate_zero,List.append_nil]

/-- The buffer is filled to its end, and reading it gives the same values. -/
theorem deserializeRecord_serializeRecord (unset : UInt32) (record : List Value)
    (hcount : record.length ≤ 65535) (htypes : ∀ v ∈ record, v.type ∈ loggedTypes)
    (hs : ∀ v ∈ record, v.ShortString) :
    (written record).length = totalSize record ∧ serializeRecord record = written record ∧
      ∃ vals, deserializeRecord unset (serializeRecord record) = some vals ∧
        List.Forall₂ Same record vals := by
  refine ⟨length_written hs,serializeRecord_eq_written hs,?_⟩
  obtain ⟨vals,hvals,hall⟩ := readValues_fields unset htypes hs (leBytes 2 record.length) []
  refine ⟨vals,?_,hall⟩
  rw [List.append_nil,leBytes_length] at hvals
  have hlong : ¬(written record).length < 2 := by
    rw [written,List.length_append,leBytes_length]
    omega
  have hcountBytes : readBytes (written record) 0 2 = some (leBytes 2 record.length) := by
    have hread := readBytes_between [] (leBytes 2 record.length) (record.flatMap fieldBytes)
    rwa [leBytes_length] at hread
  have hmod : record.length%256^2 = record.length := Nat.mod_eq_of_lt (by omega)
  rw [serializeRecord_eq_written hs,deserializeRecord,if_neg hlong,hcountBytes]
  simp only [Option.bind_eq_bind,Option.bind_some,leNat_leBytes,hmod]
  exact hvals

/-- An empty string, a NULL behind it, and a NULL at the end. -/
theorem deserializeRecord_serializeRecord_sample :
    let record := [Value.ofInt (-7),⟨.varchar,0,[],[]⟩,.null,⟨.boolean,1,[],[]⟩,.null]
    (written record).length = totalSize record ∧ serializeRecord record = written record ∧
      ∃ vals, deserializeRecord 0 (serializeRecord record) = some vals ∧
        List.Forall₂ Same record vals :=
  deserializeRecord_serializeRecord 0 _ (by decide) (by decide) (by decide)

end RoundTrip

end WalManager
end OrangeSQL
