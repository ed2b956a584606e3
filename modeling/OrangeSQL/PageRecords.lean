import OrangeSQL.TableScan

/-! The records of a slotted page under insertions, deletions and updates. On a page whose slots
and records lie where the header says, each of them touches one slot; the record that is read
back from a new slot is longer than the one that was written there. -/
namespace OrangeSQL

open Bytes

namespace Page

/-- The result is nothing where there is no such slot. -/
def deleteRecord (p : Page) (rid : RecordId) : Option Page :=
  let slotPos := slotOf rid
  if p.getRecordCount ≤ slotPos then none
  else
    let slot := p.getSlot slotPos
    some (markDirty (p.setSlot slotPos { slot with flags := slot.flags ||| 1, next := 0 }))

/-- Delete and insert; the deletion stays when there is no space for the new record. -/
def updateRecord (p : Page) (rid : RecordId) (record : List Value) : Bool × Page :=
  match p.getRecord rid with
  | none => (false,p)
  | some _ =>
    match p.deleteRecord rid with
    | none => (false,p)
    | some q =>
      match q.insertRecord record with
      | none => (false,q)
      | some (q,_) => (true,q)

/-- The row in a slot, if there is one that can be read. -/
def rowAt (p : Page) (i : ℕ) : Option (List Value) := if i < p.getRecordCount then p.getRecord i else none

/-- The slots end below the free space and the records that can be read begin above it. -/
structure WellFormed (p : Page) : Prop where
  directory : headerSize+slotSize*p.getRecordCount ≤ p.header.freeSpaceOffset.toNat
  space : p.header.freeSpaceOffset.toNat ≤ p.header.freeSpaceEnd.toNat
  size : p.header.freeSpaceEnd.toNat ≤ pageSize
  records : ∀ i < p.getRecordCount, p.SlotReadable i →
    p.header.freeSpaceEnd.toNat ≤ (p.getSlot i).offset.toNat

section Slots

variable {p : Page}

theorem getSlot_congr {p q : Page} {i : ℕ}
    (h : ∀ a, headerSize+slotSize*i ≤ a → a < headerSize+slotSize*i+slotSize → q.bytes a = p.bytes a) :
    q.getSlot i = p.getSlot i := by
  have hpart : ∀ d ≤ 6, q.readU16 (headerSize+slotSize*i+d) = p.readU16 (headerSize+slotSize*i+d) := by
    intro d hd
    unfold readU16
    rw [readMem_congr fun a ha ha' => h a (by omega) (by unfold slotSize at *; omega)]
  have hzero := hpart 0 (by omega)
  rw [Nat.add_zero] at hzero
  simp only [getSlot,hzero,hpart 2 (by omega),hpart 4 (by omega),hpart 6 (by omega)]

theorem readU16_writeMem (p : Page) (pos : ℕ) (front rest : List UInt8) (n : UInt16) :
    Page.readU16 { p with bytes := writeMem p.bytes pos (front++leBytes 2 n.toNat++rest) }
      (pos+front.length) = n := by
  have hread := readMem_writeMem_part p.bytes pos front (leBytes 2 n.toNat) rest
  rw [leBytes_length] at hread
  have hlt : n.toNat < 256^2 := n.toNat_lt
  unfold readU16
  rw [hread,leNat_leBytes,Nat.mod_eq_of_lt hlt,UInt16.ofNat_toNat]

@[simp] theorem getSlot_setSlot (p : Page) (i : ℕ) (s : PageSlot) : (p.setSlot i s).getSlot i = s := by
  have hoffset := readU16_writeMem p (headerSize+slotSize*i) [] (leBytes 2 s.length.toNat ++
    leBytes 2 s.flags.toNat ++ leBytes 2 s.next.toNat) s.offset
  have hlength := readU16_writeMem p (headerSize+slotSize*i) (leBytes 2 s.offset.toNat)
    (leBytes 2 s.flags.toNat ++ leBytes 2 s.next.toNat) s.length
  have hflags := readU16_writeMem p (headerSize+slotSize*i) (leBytes 2 s.offset.toNat ++
    leBytes 2 s.length.toNat) (leBytes 2 s.next.toNat) s.flags
  have hnext := readU16_writeMem p (headerSize+slotSize*i) (leBytes 2 s.offset.toNat ++
    leBytes 2 s.length.toNat ++ leBytes 2 s.flags.toNat) [] s.next
  simp only [List.nil_append,List.length_nil,List.append_nil,List.append_assoc,List.length_append,
    leBytes_length,Nat.add_zero] at hoffset hlength hflags hnext
  simp only [getSlot,setSlot,List.append_assoc,hoffset,hlength,hflags,hnext]

theorem setSlot_bytes_of_lt (p : Page) {i a : ℕ} (s : PageSlot) (h : a < headerSize+slotSize*i) :
    (p.setSlot i s).bytes a = p.bytes a :=
  writeMem_of_lt _ _ h

theorem setSlot_bytes_of_le (p : Page) {i a : ℕ} (s : PageSlot)
    (h : headerSize+slotSize*i+slotSize ≤ a) : (p.setSlot i s).bytes a = p.bytes a := by
  apply writeMem_of_le
  simp only [List.length_append,leBytes_length]
  exact h

theorem getSlot_setSlot_of_ne (p : Page) {i j : ℕ} (s : PageSlot) (h : j ≠ i) :
    (p.setSlot i s).getSlot j = p.getSlot j := by
  apply getSlot_congr
  intro a ha ha'
  unfold slotSize at *
  rcases Nat.lt_or_gt_of_ne h with hlt | hgt
  · exact setSlot_bytes_of_lt p s (by unfold slotSize; omega)
  · exact setSlot_bytes_of_le p s (by unfold slotSize; omega)

end Slots

section Rows

/-- What is read at an address does not depend on the bytes below it. -/
theorem deserializeValue_congr {p q : Page} {pos : ℕ} (h : ∀ a, pos ≤ a → q.bytes a = p.bytes a) :
    q.deserializeValue pos = p.deserializeValue pos := by
  have hread : ∀ a n, pos ≤ a → readMem q.bytes a n = readMem p.bytes a n :=
    fun a n ha => readMem_congr fun i hi _ => h i (by omega)
  unfold deserializeValue
  simp only [h pos le_rfl,hread (pos+1) _ (by omega),hread (pos+5) _ (by omega)]

theorem readValues_congr {p q : Page} (fuel : ℕ) {pos : ℕ} (stop : ℕ)
    (h : ∀ a, pos ≤ a → q.bytes a = p.bytes a) :
    q.readValues fuel pos stop = p.readValues fuel pos stop := by
  induction fuel generalizing pos with
  | zero => rfl
  | succ fuel ih =>
    have hrest : q.readValues fuel (pos+(p.deserializeValue pos).2) stop =
        p.readValues fuel (pos+(p.deserializeValue pos).2) stop := ih fun a ha => h a (by omega)
    simp only [readValues,deserializeValue_congr h,hrest]

theorem getRecordCount_lt (p : Page) : p.getRecordCount < 2^16 := p.header.recordCount.toNat_lt

theorem slotOf_eq_self {i : ℕ} (h : i < 2^16) : slotOf i = i := by
  have hmask : (0xFFFF : ℕ) = 2^16-1 := by decide
  rw [slotOf,hmask,Nat.and_two_pow_sub_one_eq_mod,Nat.mod_eq_of_lt h]

theorem rowAt_eq_some_iff {p : Page} {i : ℕ} {row : List Value} :
    p.rowAt i = some row ↔ i < p.getRecordCount ∧ p.SlotReadable i ∧
      row = p.readValues (p.getSlot i).length.toNat (p.getSlot i).offset.toNat
        ((p.getSlot i).offset.toNat+(p.getSlot i).length.toNat) := by
  unfold rowAt
  split_ifs with hi
  · have hlt := p.getRecordCount_lt
    simp only [getRecord,slotOf_eq_self (Nat.lt_trans hi hlt),Nat.not_le.mpr hi,if_false,hi,true_and]
    by_cases hdead : (p.getSlot i).length = 0 ∨ (p.getSlot i).flags &&& 1 ≠ 0
    · rw [if_pos hdead]
      simp only [reduceCtorEq,false_iff,SlotReadable]
      tauto
    · rw [if_neg hdead]
      simp only [Option.some.injEq,SlotReadable]
      tauto
  · simp [hi]

theorem rowAt_eq_none_iff {p : Page} {i : ℕ} :
    p.rowAt i = none ↔ (i < p.getRecordCount → ¬ p.SlotReadable i) := by
  rw [Option.eq_none_iff_forall_ne_some]
  constructor
  · intro h hi hread
    exact h _ (rowAt_eq_some_iff.mpr ⟨hi,hread,rfl⟩)
  · intro h row hrow
    obtain ⟨hi,hread,_⟩ := rowAt_eq_some_iff.mp hrow
    exact h hi hread

theorem rowAt_of_le {p : Page} {i : ℕ} (h : p.getRecordCount ≤ i) : p.rowAt i = none :=
  rowAt_eq_none_iff.mpr fun hlt => absurd hlt (Nat.not_lt.mpr h)

theorem slotOf_lt (rid : RecordId) : slotOf rid < 2^16 :=
  Nat.lt_of_le_of_lt Nat.and_le_right (by decide)

/-- Two ids with the same slot are the same to a page. -/
theorem getRecord_eq_rowAt (p : Page) (rid : RecordId) : p.getRecord rid = p.rowAt (slotOf rid) := by
  unfold rowAt
  split_ifs with hlt
  · simp only [getRecord,slotOf_eq_self (slotOf_lt rid)]
  · simp only [getRecord,Nat.not_lt.mp hlt,if_true]

theorem getRecord_makeRecordId (p : Page) (pid : PageId) {i : ℕ} (hi : i < 2^16) :
    p.getRecord (makeRecordId pid i) = p.rowAt i := by
  rw [getRecord_eq_rowAt,slotOf_makeRecordId pid i hi]

/-- A row depends on its slot and on the bytes from its offset on. -/
theorem rowAt_congr {p q : Page} {i : ℕ} (hcount : i < q.getRecordCount ↔ i < p.getRecordCount)
    (hslot : q.getSlot i = p.getSlot i)
    (hbytes : i < p.getRecordCount → p.SlotReadable i →
      ∀ a, (p.getSlot i).offset.toNat ≤ a → q.bytes a = p.bytes a) :
    q.rowAt i = p.rowAt i := by
  apply Option.ext
  intro row
  rw [rowAt_eq_some_iff,rowAt_eq_some_iff,hcount]
  refine and_congr_right fun hi => ?_
  have hread : q.SlotReadable i ↔ p.SlotReadable i := by unfold SlotReadable; rw [hslot]
  rw [hread]
  refine and_congr_right fun hr => ?_
  rw [hslot,readValues_congr _ _ (hbytes hi hr)]

/-- A row that can be read is not empty. -/
theorem ne_nil_of_rowAt {p : Page} {i : ℕ} {row : List Value} (h : p.rowAt i = some row) :
    row ≠ [] := by
  obtain ⟨_,hread,rfl⟩ := rowAt_eq_some_iff.mp h
  have hpos : 0 < (p.getSlot i).length.toNat := by
    refine Nat.pos_of_ne_zero fun hzero => hread.1 ?_
    exact UInt16.toNat_inj.mp hzero
  obtain ⟨n,hn⟩ := Nat.exists_eq_add_of_lt hpos
  rw [hn]
  simp [readValues]

end Rows

section Delete

variable {p q : Page} {i : ℕ}

/-- The page with a slot marked as deleted. -/
def withDeleted (p : Page) (i : ℕ) : Page :=
  markDirty (p.setSlot i { p.getSlot i with flags := (p.getSlot i).flags ||| 1, next := 0 })

theorem deleteRecord_eq (p : Page) (rid : RecordId) :
    p.deleteRecord rid =
      if p.getRecordCount ≤ slotOf rid then none else some (p.withDeleted (slotOf rid)) := rfl

theorem deleteRecord_makeRecordId (p : Page) (pid : PageId) (hi : i < 2^16) :
    p.deleteRecord (makeRecordId pid i) =
      if p.getRecordCount ≤ i then none else some (p.withDeleted i) := by
  rw [deleteRecord_eq,slotOf_makeRecordId pid i hi]

@[simp] theorem withDeleted_getRecordCount (p : Page) (i : ℕ) :
    (p.withDeleted i).getRecordCount = p.getRecordCount := rfl

theorem getSlot_withDeleted (p : Page) (i : ℕ) :
    (p.withDeleted i).getSlot i = { p.getSlot i with flags := (p.getSlot i).flags ||| 1, next := 0 } :=
  getSlot_setSlot p i _

theorem getSlot_withDeleted_of_ne (p : Page) {j : ℕ} (h : j ≠ i) :
    (p.withDeleted i).getSlot j = p.getSlot j :=
  getSlot_setSlot_of_ne p _ h

theorem not_slotReadable_withDeleted (p : Page) (i : ℕ) : ¬ (p.withDeleted i).SlotReadable i := by
  rintro ⟨_,hflags⟩
  rw [getSlot_withDeleted] at hflags
  have hone : ((p.getSlot i).flags ||| 1) &&& 1 = 1 := by
    generalize (p.getSlot i).flags = f
    apply UInt16.toNat_inj.mp
    simp [UInt16.toNat_and,UInt16.toNat_or,Nat.and_one_is_mod,Nat.or_mod_two_eq_one]
  rw [hone] at hflags
  exact absurd hflags (by decide)

theorem rowAt_withDeleted (p : Page) (i : ℕ) : (p.withDeleted i).rowAt i = none :=
  rowAt_eq_none_iff.mpr fun _ => not_slotReadable_withDeleted p i

theorem rowAt_withDeleted_of_ne (hp : p.WellFormed) (hi : i < p.getRecordCount) {j : ℕ} (h : j ≠ i) :
    (p.withDeleted i).rowAt j = p.rowAt j := by
  refine rowAt_congr Iff.rfl (getSlot_withDeleted_of_ne p h) ?_
  intro hj hread a ha
  apply setSlot_bytes_of_le
  have hdir := hp.directory
  have hspace := hp.space
  have hrec := hp.records j hj hread
  unfold slotSize at *
  omega

theorem WellFormed.withDeleted (hp : p.WellFormed) (i : ℕ) : (p.withDeleted i).WellFormed := by
  refine ⟨hp.directory,hp.space,hp.size,?_⟩
  intro j hj hread
  have hne : j ≠ i := by
    rintro rfl
    exact not_slotReadable_withDeleted p j hread
  have hread' : p.SlotReadable j := by
    unfold SlotReadable at hread ⊢
    rwa [getSlot_withDeleted_of_ne p hne] at hread
  rw [getSlot_withDeleted_of_ne p hne]
  exact hp.records j hj hread'

end Delete

section Insert

variable {p q : Page} {rid : RecordId} {record : List Value}

theorem hasSpaceFor_iff (hp : p.WellFormed) (size : ℕ) :
    p.hasSpaceFor size = true ↔
      p.header.freeSpaceOffset.toNat+size+slotSize ≤ p.header.freeSpaceEnd.toNat := by
  have hspace := hp.space
  have hend := p.header.freeSpaceEnd.toNat_lt
  simp only [hasSpaceFor,decide_eq_true_eq]
  omega

theorem insertRecord_isSome (p : Page) (record : List Value) :
    (p.insertRecord record).isSome = p.hasSpaceFor (recordSize record) := by
  unfold insertRecord
  dsimp only
  split_ifs with hroom
  · exact hroom.symm
  · exact (Bool.of_not_eq_true hroom).symm

theorem length_serializeValue_le (val : Value) : (serializeValue val).length ≤ getValueSize val := by
  unfold serializeValue getValueSize
  cases val.type <;> simp

theorem length_flatMap_serializeValue_le (record : List Value) :
    (record.flatMap serializeValue).length ≤ recordSize record := by
  unfold recordSize
  induction record with
  | nil => simp
  | cons val record ih =>
    have hval := length_serializeValue_le val
    simp only [List.flatMap_cons,List.length_append,List.map_cons,List.sum_cons]
    omega

/-- What an insertion does to a page: one slot more, for a record directly below the others. -/
structure Inserted (p : Page) (record : List Value) (q : Page) : Prop where
  room : p.header.freeSpaceOffset.toNat+recordSize record+slotSize ≤ p.header.freeSpaceEnd.toNat
  count : q.getRecordCount = p.getRecordCount+1
  nextPage : q.getNextPage = p.getNextPage
  pageId : q.getPageId = p.getPageId
  freeSpaceOffset : q.header.freeSpaceOffset.toNat = p.header.freeSpaceOffset.toNat+slotSize
  freeSpaceEnd : q.header.freeSpaceEnd.toNat = p.header.freeSpaceEnd.toNat-recordSize record
  offset : (q.getSlot p.getRecordCount).offset.toNat =
    p.header.freeSpaceEnd.toNat-recordSize record
  length : (q.getSlot p.getRecordCount).length.toNat = recordSize record
  flags : (q.getSlot p.getRecordCount).flags = 0
  slots : ∀ i < p.getRecordCount, q.getSlot i = p.getSlot i
  bytes : ∀ a, p.header.freeSpaceEnd.toNat ≤ a → q.bytes a = p.bytes a
  written : readMem q.bytes (p.header.freeSpaceEnd.toNat-recordSize record)
    (record.flatMap serializeValue).length = record.flatMap serializeValue

theorem insertRecord_inserted (hp : p.WellFormed) (h : p.insertRecord record = some (q,rid)) :
    Inserted p record q := by
  unfold insertRecord at h
  dsimp only at h
  split_ifs at h with hroom
  obtain ⟨rfl,-⟩ := Prod.mk.inj (Option.some.inj h)
  rw [hasSpaceFor_iff hp] at hroom
  have hdir := hp.directory
  have hsize := hp.size
  have hlength := length_flatMap_serializeValue_le record
  unfold pageSize headerSize slotSize at *
  have hrecord : (UInt16.ofNat (recordSize record)).toNat = recordSize record :=
    UInt16.toNat_ofNat_of_lt' (by simp only [UInt16.size]; omega)
  have hend : (p.header.freeSpaceEnd-UInt16.ofNat (recordSize record)).toNat =
      p.header.freeSpaceEnd.toNat-recordSize record := by
    rw [UInt16.toNat_sub_of_le]
    · rw [hrecord]
    · rw [UInt16.le_iff_toNat_le,hrecord]
      omega
  have hcount : (p.header.recordCount+1).toNat = p.getRecordCount+1 := by
    have hlt : p.header.recordCount.toNat+1 < 2^16 := by
      unfold getRecordCount at hdir
      omega
    rw [UInt16.toNat_add]
    exact Nat.mod_eq_of_lt hlt
  have hoffset : (p.header.freeSpaceOffset+UInt16.ofNat 8).toNat = p.header.freeSpaceOffset.toNat+8 := by
    rw [UInt16.toNat_add]
    exact Nat.mod_eq_of_lt (show _ < 2^16 by change _+8 < _; omega)
  let start := p.header.freeSpaceEnd-UInt16.ofNat (recordSize record)
  let r : Page := { p with bytes := writeMem p.bytes start.toNat (record.flatMap serializeValue) }
  let slot : PageSlot := ⟨start,UInt16.ofNat (recordSize record),0,0⟩
  have hslot : (r.setSlot p.getRecordCount slot).getSlot p.getRecordCount = slot :=
    getSlot_setSlot r _ slot
  have hbelow : ∀ a, a < p.header.freeSpaceEnd.toNat-recordSize record → r.bytes a = p.bytes a :=
    fun a ha => writeMem_of_lt _ _ (Nat.lt_of_lt_of_eq ha hend.symm)
  have habove : ∀ a, p.header.freeSpaceEnd.toNat ≤ a → r.bytes a = p.bytes a :=
    fun a ha => writeMem_of_le _ _ (show start.toNat+_ ≤ a by rw [hend]; omega)
  have hlow : 64+8*p.getRecordCount+8 ≤ p.header.freeSpaceEnd.toNat-recordSize record := by omega
  refine ⟨hroom,hcount,rfl,rfl,hoffset,hend,?_,?_,?_,?_,?_,?_⟩
  · exact (congrArg (fun s : PageSlot => s.offset.toNat) hslot).trans hend
  · exact (congrArg (fun s : PageSlot => s.length.toNat) hslot).trans hrecord
  · exact congrArg PageSlot.flags hslot
  · intro i hi
    refine (getSlot_setSlot_of_ne r slot (Nat.ne_of_lt hi)).trans (getSlot_congr ?_)
    intro a _ ha
    exact hbelow a (by unfold headerSize slotSize at ha; omega)
  · intro a ha
    refine (setSlot_bytes_of_le r slot ?_).trans (habove a ha)
    exact Nat.le_trans hlow (Nat.le_trans (Nat.sub_le _ _) ha)
  · rw [← hend]
    have hback := readMem_writeMem_part p.bytes start.toNat [] (record.flatMap serializeValue) []
    rw [List.nil_append,List.append_nil] at hback
    refine Eq.trans (readMem_congr fun a ha _ => ?_) hback
    refine setSlot_bytes_of_le r slot ?_
    rw [hend] at ha
    exact Nat.le_trans hlow ha

namespace Inserted

theorem rowAt_of_lt (hp : p.WellFormed) (h : Inserted p record q) {i : ℕ} (hi : i < p.getRecordCount) :
    q.rowAt i = p.rowAt i := by
  have hcount := h.count
  refine rowAt_congr (by omega) (h.slots i hi) ?_
  intro _ hread a ha
  have hrec := hp.records i hi hread
  exact h.bytes a (by omega)

theorem rowAt_of_ne (hp : p.WellFormed) (h : Inserted p record q) {i : ℕ} (hi : i ≠ p.getRecordCount) :
    q.rowAt i = p.rowAt i := by
  rcases Nat.lt_or_gt_of_ne hi with hlt | hgt
  · exact h.rowAt_of_lt hp hlt
  · have hcount := h.count
    rw [rowAt_of_le (show q.getRecordCount ≤ i by omega),rowAt_of_le (Nat.le_of_lt hgt)]

theorem wellFormed (hp : p.WellFormed) (h : Inserted p record q) : q.WellFormed := by
  have hdir := hp.directory
  have hsize := hp.size
  have hroom := h.room
  refine ⟨?_,?_,?_,?_⟩
  · rw [h.count,h.freeSpaceOffset]
    unfold slotSize at *
    omega
  · rw [h.freeSpaceOffset,h.freeSpaceEnd]
    omega
  · rw [h.freeSpaceEnd]
    omega
  · intro i hi hread
    rw [h.freeSpaceEnd]
    rw [h.count] at hi
    rcases Nat.lt_succ_iff_lt_or_eq.mp hi with hlt | rfl
    · have hread' : p.SlotReadable i := by
        unfold SlotReadable at hread ⊢
        rwa [h.slots i hlt] at hread
      have hrec := hp.records i hlt hread'
      rw [h.slots i hlt]
      omega
    · rw [h.offset]

end Inserted

/-- A type that a byte of a page can stand for. -/
def ByteType (type : DataType) : Prop := DataType.ofCode (type.code%256) = type

instance (type : DataType) : Decidable (ByteType type) := inferInstanceAs (Decidable (_ = _))

/-- A value takes as many bytes when it is read as when it was written. -/
theorem deserializeValue_consumes {val : Value} {pos : ℕ} (htype : ByteType val.type)
    (hstr : val.type = .varchar → val.strVal.length < 2^32)
    (h : readMem p.bytes pos (serializeValue val).length = serializeValue val) :
    (p.deserializeValue pos).2 = (serializeValue val).length := by
  have hparts := readMem_append_eq h
  have hbyte : p.bytes pos = UInt8.ofNat val.type.code := by
    have hone := hparts.1
    simpa [readMem,leBytes] using hone
  have hread : DataType.ofCode (p.bytes pos).toNat = val.type := by
    rw [hbyte,UInt8.toNat_ofNat']
    exact htype
  unfold deserializeValue
  simp only [hread]
  cases hval : val.type with
  | varchar =>
    simp only [hval] at hparts
    have hlen := (readMem_append_eq hparts.2).1
    rw [leBytes_length,leBytes_length] at hlen
    have hmod : val.strVal.length%2^32 = val.strVal.length := Nat.mod_eq_of_lt (hstr hval)
    simp only [hlen,leNat_leBytes,serializeValue,hval,List.length_append,leBytes_length,hmod,
      List.take_length]
    omega
  | _ => simp [serializeValue,hval]

/-- More values are read than were written, if the record is followed by bytes of its own. -/
theorem length_lt_length_readValues {pos stop fuel : ℕ} (record : List Value)
    (htypes : ∀ val ∈ record, ByteType val.type)
    (hstr : ∀ val ∈ record, val.type = .varchar → val.strVal.length < 2^32)
    (h : readMem p.bytes pos (record.flatMap serializeValue).length = record.flatMap serializeValue)
    (hstop : pos+(record.flatMap serializeValue).length < stop) (hfuel : record.length < fuel) :
    record.length < (p.readValues fuel pos stop).length := by
  obtain ⟨fuel,rfl⟩ := Nat.exists_eq_add_of_le' (show 1 ≤ fuel by omega)
  induction record generalizing pos fuel with
  | nil =>
    have hpos : pos < stop := by simpa using hstop
    simp [readValues,hpos]
  | cons val record ih =>
    rw [List.flatMap_cons] at h hstop
    obtain ⟨hval,hrest⟩ := readMem_append_eq h
    rw [List.length_append] at hstop
    have hconsumes := deserializeValue_consumes (htypes val List.mem_cons_self)
      (hstr val List.mem_cons_self) hval
    rw [List.length_cons] at hfuel
    obtain ⟨fuel,rfl⟩ := Nat.exists_eq_add_of_le' (show 1 ≤ fuel by omega)
    have htail := ih (fun v hv => htypes v (List.mem_cons_of_mem _ hv))
      (fun v hv => hstr v (List.mem_cons_of_mem _ hv)) hrest (by omega) fuel (by omega)
    have hpos : pos < stop := by omega
    have hstep : p.readValues (fuel+1+1) pos stop = (p.deserializeValue pos).1::
        p.readValues (fuel+1) (pos+(p.deserializeValue pos).2) stop := if_pos hpos
    rw [hstep,hconsumes,List.length_cons,List.length_cons]
    omega

theorem getValueSize_le_recordSize {val : Value} (h : val ∈ record) :
    getValueSize val ≤ recordSize record := by
  have hmem : 2+getValueSize val ∈ record.map fun val => 2+getValueSize val :=
    List.mem_map_of_mem h
  have hle := List.single_le_sum (fun x _ => Nat.zero_le x) _ hmem
  unfold recordSize
  omega

theorem recordSize_eq (h : ∀ val ∈ record, val.type = .varchar → val.strVal.length < 2^32) :
    recordSize record = (record.flatMap serializeValue).length+2*record.length := by
  unfold recordSize
  induction record with
  | nil => rfl
  | cons val record ih =>
    have hval : (serializeValue val).length = getValueSize val := by
      cases htype : val.type with
      | varchar =>
        have hmod := Nat.mod_eq_of_lt (h val List.mem_cons_self htype)
        simp only [serializeValue,getValueSize,htype,hmod,List.length_append,leBytes_length,
          List.take_length]
      | _ => simp [serializeValue,getValueSize,htype]
    rw [List.map_cons,List.sum_cons,ih fun v hv => h v (List.mem_cons_of_mem _ hv),
      List.flatMap_cons,List.length_append,List.length_cons,hval]
    omega

namespace Inserted

theorem strVal_lt (hp : p.WellFormed) (h : Inserted p record q) :
    ∀ val ∈ record, val.type = .varchar → val.strVal.length < 2^32 := by
  intro val hval htype
  have hle := getValueSize_le_recordSize hval
  have hroom := h.room
  have hsize := hp.size
  rw [getValueSize,htype] at hle
  unfold pageSize at hsize
  dsimp only at hle
  omega

/-- The new slot can be read. -/
theorem rowAt_new_eq (hp : p.WellFormed) (h : Inserted p record q) (hne : record ≠ []) :
    q.rowAt p.getRecordCount = some (q.readValues (recordSize record)
      (p.header.freeSpaceEnd.toNat-recordSize record)
      (p.header.freeSpaceEnd.toNat-recordSize record+recordSize record)) := by
  have hsize := recordSize_eq (h.strVal_lt hp)
  have hpos : 0 < record.length := List.length_pos_iff.mpr hne
  have hreadable : q.SlotReadable p.getRecordCount := by
    refine ⟨fun hzero => ?_,by rw [h.flags]; rfl⟩
    have hlength := h.length
    rw [hzero] at hlength
    exact absurd hlength.symm (by simp; omega)
  refine rowAt_eq_some_iff.mpr ⟨by rw [h.count]; omega,hreadable,?_⟩
  rw [h.offset,h.length]

/-- An inserted record is read back with more values than it has. -/
theorem rowAt_new (hp : p.WellFormed) (h : Inserted p record q) (hne : record ≠ [])
    (htypes : ∀ val ∈ record, ByteType val.type) :
    ∃ row, q.rowAt p.getRecordCount = some row ∧ record.length < row.length := by
  have hstr := h.strVal_lt hp
  have hsize := recordSize_eq hstr
  have hpos : 0 < record.length := List.length_pos_iff.mpr hne
  refine ⟨_,h.rowAt_new_eq hp hne,?_⟩
  exact length_lt_length_readValues record htypes hstr h.written (by omega) (by omega)

/-- An empty record takes a slot that cannot be read. -/
theorem rowAt_new_nil (h : Inserted p [] q) : q.rowAt p.getRecordCount = none := by
  refine rowAt_eq_none_iff.mpr fun _ hreadable => hreadable.1 ?_
  exact UInt16.toNat_inj.mp h.length

end Inserted

end Insert

section Update

variable {p q : Page} {i : ℕ} {record : List Value}

/-- An update of a slot that cannot be read does nothing; another one deletes the record and then
inserts the new one, if there is space. -/
theorem updateRecord_eq (p : Page) (rid : RecordId) :
    p.updateRecord rid record =
      if p.getRecord rid = none then (false,p)
      else ((p.withDeleted (slotOf rid)).insertRecord record).elim
        (false,p.withDeleted (slotOf rid)) fun r => (true,r.1) := by
  unfold updateRecord
  cases hrow : p.getRecord rid with
  | none => rfl
  | some row =>
    rw [getRecord_eq_rowAt] at hrow
    have hlt := (rowAt_eq_some_iff.mp hrow).1
    rw [deleteRecord_eq,if_neg (Nat.not_le.mpr hlt)]
    dsimp only
    cases (p.withDeleted (slotOf rid)).insertRecord record with
    | none => rfl
    | some r => rfl

theorem updateRecord_makeRecordId (p : Page) (pid : PageId) (hi : i < 2^16) :
    p.updateRecord (makeRecordId pid i) record =
      if p.rowAt i = none then (false,p)
      else ((p.withDeleted i).insertRecord record).elim (false,p.withDeleted i) fun r => (true,r.1) := by
  rw [updateRecord_eq,getRecord_eq_rowAt,slotOf_makeRecordId pid i hi]

end Update

section Fresh

/-- The setters of the type and of the links leave slots and records alone. -/
theorem WellFormed.setType {p : Page} (h : p.WellFormed) (type : PageType) :
    (p.setType type).WellFormed := ⟨h.1,h.2,h.3,h.4⟩
theorem WellFormed.setNextPage {p : Page} (h : p.WellFormed) (pid : PageId) :
    (p.setNextPage pid).WellFormed := ⟨h.1,h.2,h.3,h.4⟩
theorem WellFormed.setPrevPage {p : Page} (h : p.WellFormed) (pid : PageId) :
    (p.setPrevPage pid).WellFormed := ⟨h.1,h.2,h.3,h.4⟩

theorem rowAt_setNextPage (p : Page) (pid : PageId) (i : ℕ) :
    (p.setNextPage pid).rowAt i = p.rowAt i :=
  rowAt_congr Iff.rfl rfl fun _ _ _ _ => rfl

/-- There is neither a record on the page nor room for one. -/
def Spent (p : Page) : Prop :=
  p.getRecordCount = 0 ∧ p.header.freeSpaceOffset = p.header.freeSpaceEnd

theorem spent_new (pid : PageId) (table : TableId) : (Page.new pid table).Spent := ⟨rfl,rfl⟩

theorem Spent.setType {p : Page} (h : p.Spent) (type : PageType) : (p.setType type).Spent := h
theorem Spent.setPrevPage {p : Page} (h : p.Spent) (pid : PageId) : (p.setPrevPage pid).Spent := h

theorem wellFormed_new (pid : PageId) (table : TableId) : (Page.new pid table).WellFormed :=
  ⟨show headerSize+slotSize*0 ≤ (4096 : UInt16).toNat by decide,le_rfl,le_rfl,
    fun i hi => absurd hi (Nat.not_lt_zero i)⟩

theorem Spent.rowAt {p : Page} (h : p.Spent) (i : ℕ) : p.rowAt i = none := by
  refine rowAt_eq_none_iff.mpr fun hi => ?_
  rw [h.1] at hi
  exact absurd hi (Nat.not_lt_zero i)

theorem Spent.hasSpaceFor {p : Page} (h : p.Spent) (size : ℕ) : p.hasSpaceFor size = false := by
  simp [Page.hasSpaceFor,h.2,slotSize]

theorem Spent.insertRecord {p : Page} (h : p.Spent) (record : List Value) :
    p.insertRecord record = none := by
  simp [Page.insertRecord,h.hasSpaceFor]

end Fresh

end Page
end OrangeSQL
