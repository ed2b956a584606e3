import OrangeSQL.PageRecords

/-! Pages whose slots and records lie where the header says, and what the operations on records do
to them: which slots keep their records, whether a stored record is read back, what an update and a
compaction leave behind. -/
namespace OrangeSQL

open Bytes

/-- The default constructor of the header: all of the page behind it is free. -/
def PageHeader.new : PageHeader :=
  { pageId := invalidPageId, tableId := 0, type := .dataPage, freeSpaceOffset := UInt16.ofNat 64,
    freeSpaceEnd := UInt16.ofNat pageSize, recordCount := 0, slotCount := 0,
    nextPageId := invalidPageId, prevPageId := invalidPageId, parentPageId := invalidPageId,
    checksum := 0, lsn := 0, isDirty := false, isLocked := false }

namespace Page

/-- The slots end below the free space, and the bytes of every slot lie above it, on the page. -/
structure LayoutValid (p : Page) : Prop where
  directory : headerSize+slotSize*p.getRecordCount ≤ p.header.freeSpaceOffset.toNat
  space : p.header.freeSpaceOffset.toNat ≤ p.header.freeSpaceEnd.toNat
  size : p.header.freeSpaceEnd.toNat ≤ pageSize
  slots : ∀ i < p.getRecordCount, ∀ a, (p.getSlot i).offset.toNat ≤ a →
    a < (p.getSlot i).offset.toNat+(p.getSlot i).length.toNat →
    p.header.freeSpaceEnd.toNat ≤ a ∧ a < pageSize

/-- A page without records, with the header that its constructor makes. -/
def blank : Page := ⟨PageHeader.new,fun _ => 0⟩

theorem layoutValid_blank : blank.LayoutValid :=
  ⟨by decide,by decide,by decide,fun i hi => absurd hi (Nat.not_lt_zero i)⟩

section Layout

variable {p q : Page} {i : ℕ} {rid : RecordId} {record : List Value}

theorem length_pos_of_ne {n : UInt16} (h : n ≠ 0) : 0 < n.toNat :=
  Nat.pos_of_ne_zero fun hzero => h (UInt16.toNat_inj.mp hzero)

theorem LayoutValid.wellFormed (hp : p.LayoutValid) : p.WellFormed := by
  refine ⟨hp.directory,hp.space,hp.size,fun i hi hread => ?_⟩
  have hpos := length_pos_of_ne hread.1
  exact (hp.slots i hi _ le_rfl (by omega)).1

theorem Inserted.layoutValid (hp : p.LayoutValid) (h : Inserted p record q) : q.LayoutValid := by
  have hwell := h.wellFormed hp.wellFormed
  refine ⟨hwell.directory,hwell.space,hwell.size,?_⟩
  intro i hi a ha ha'
  have hend := h.freeSpaceEnd
  have hroom := h.room
  have hsize := hp.size
  rw [h.count] at hi
  rcases Nat.lt_succ_iff_lt_or_eq.mp hi with hlt | rfl
  · rw [h.slots i hlt] at ha ha'
    have hold := hp.slots i hlt a ha ha'
    omega
  · rw [h.offset] at ha ha'
    rw [h.length] at ha'
    omega

theorem LayoutValid.withDeleted (hp : p.LayoutValid) (i : ℕ) : (p.withDeleted i).LayoutValid := by
  refine ⟨hp.directory,hp.space,hp.size,?_⟩
  intro j hj a ha ha'
  rcases eq_or_ne j i with rfl | hne
  · rw [getSlot_withDeleted] at ha ha'
    exact hp.slots j hj a ha ha'
  · rw [getSlot_withDeleted_of_ne p hne] at ha ha'
    exact hp.slots j hj a ha ha'

theorem insertRecord_eq_none_iff :
    p.insertRecord record = none ↔ p.hasSpaceFor (recordSize record) = false := by
  unfold insertRecord
  dsimp only
  split_ifs with hroom <;> simp [hroom]

/-- The id of a new record names the first slot behind the old ones. -/
theorem slotOf_insertRecord (h : p.insertRecord record = some (q,rid)) :
    slotOf rid = p.getRecordCount := by
  unfold insertRecord at h
  dsimp only at h
  split_ifs at h with hroom
  obtain ⟨-,rfl⟩ := Prod.mk.inj (Option.some.inj h)
  exact slotOf_makeRecordId _ _ p.getRecordCount_lt

end Layout

section Operations

/-- The operations that change one record of a page. -/
inductive Operation
  | insertRecord (record : List Value)
  | deleteRecord (rid : RecordId)

namespace Operation

/-- What the call returns, and the page it leaves. -/
def apply (p : Page) : Operation → Bool × Page
  | .insertRecord record => (p.insertRecord record).elim (false,p) fun r => (true,r.1)
  | .deleteRecord rid => (p.deleteRecord rid).elim (false,p) fun q => (true,q)

/-- The slot that a deletion is about. -/
def Names (slot : ℕ) : Operation → Prop
  | .insertRecord _ => False
  | .deleteRecord rid => slotOf rid = slot

def run (p : Page) (ops : List Operation) : Page := ops.foldl (fun p op => (op.apply p).2) p

end Operation

variable {p : Page}

theorem rowAt_apply (hp : p.LayoutValid) (op : Operation) {i : ℕ} (hi : i < p.getRecordCount)
    (hname : ¬ op.Names i) : (op.apply p).2.rowAt i = p.rowAt i := by
  cases op with
  | insertRecord record =>
    cases h : p.insertRecord record with
    | none => simp [Operation.apply,h]
    | some r =>
      have hins := insertRecord_inserted hp.wellFormed h
      simpa [Operation.apply,h] using hins.rowAt_of_lt hp.wellFormed hi
  | deleteRecord rid =>
    simp only [Operation.apply,deleteRecord_eq]
    split_ifs with hlt
    · rfl
    · exact rowAt_withDeleted_of_ne hp.wellFormed (Nat.not_le.mp hlt) fun h => hname h.symm

theorem LayoutValid.apply (hp : p.LayoutValid) (op : Operation) : (op.apply p).2.LayoutValid := by
  cases op with
  | insertRecord record =>
    cases h : p.insertRecord record with
    | none => simpa [Operation.apply,h] using hp
    | some r =>
      have hins := insertRecord_inserted hp.wellFormed h
      simpa [Operation.apply,h] using hins.layoutValid hp
  | deleteRecord rid =>
    simp only [Operation.apply,deleteRecord_eq]
    split_ifs with hlt
    · exact hp
    · exact hp.withDeleted _

theorem getRecordCount_le_apply (hp : p.LayoutValid) (op : Operation) :
    p.getRecordCount ≤ (op.apply p).2.getRecordCount := by
  cases op with
  | insertRecord record =>
    cases h : p.insertRecord record with
    | none => simp [Operation.apply,h]
    | some r =>
      have hcount := (insertRecord_inserted hp.wellFormed h).count
      simp [Operation.apply,h,hcount]
  | deleteRecord rid =>
    simp only [Operation.apply,deleteRecord_eq]
    split_ifs <;> exact le_rfl

/-- An operation keeps the layout and every record but the one it is about. -/
theorem apply_keeps_others (hp : p.LayoutValid) (op : Operation) :
    (op.apply p).2.LayoutValid ∧
    (∀ rid, slotOf rid < p.getRecordCount → ¬ op.Names (slotOf rid) →
      (op.apply p).2.getRecord rid = p.getRecord rid) ∧
    (∀ rid, op = .deleteRecord rid → (op.apply p).1 = true → (op.apply p).2.getRecord rid = none) ∧
    ∀ record, op = .insertRecord record → (op.apply p).1 = false → (op.apply p).2 = p := by
  refine ⟨hp.apply op,?_,?_,?_⟩
  · intro rid hrid hname
    rw [getRecord_eq_rowAt,getRecord_eq_rowAt,rowAt_apply hp op hrid hname]
  · rintro rid rfl hdone
    simp only [Operation.apply,deleteRecord_eq] at hdone ⊢
    split_ifs at hdone ⊢ with hlt
    · exact absurd hdone (by simp)
    · exact (getRecord_eq_rowAt _ rid).trans (rowAt_withDeleted p _)
  · rintro record rfl hfail
    cases h : p.insertRecord record with
    | none => simp [Operation.apply,h]
    | some r => simp [Operation.apply,h] at hfail

/-- A page with an integer in each of two slots. -/
def twoIntegers : Page :=
  Operation.run blank [.insertRecord [Value.ofInt 7],.insertRecord [Value.ofInt 8]]

theorem layoutValid_twoIntegers : twoIntegers.LayoutValid :=
  (layoutValid_blank.apply _).apply _

/-- The first of two records is deleted. -/
theorem apply_keeps_others_twoIntegers :
    ((Operation.deleteRecord 0).apply twoIntegers).2.LayoutValid ∧
    ((Operation.deleteRecord 0).apply twoIntegers).2.getRecord 0 = none ∧
    ((Operation.deleteRecord 0).apply twoIntegers).2.getRecord 1 = twoIntegers.getRecord 1 := by
  obtain ⟨hlayout,hothers,hgone,_⟩ := apply_keeps_others layoutValid_twoIntegers (.deleteRecord 0)
  exact ⟨hlayout,hgone 0 rfl (by decide +kernel),
    hothers 1 (by decide +kernel) (by unfold Operation.Names; decide)⟩

/-- Over any number of operations, a record stays as it is until a deletion names it. -/
theorem run_keeps_others (hp : p.LayoutValid) (ops : List Operation) {i : ℕ}
    (hi : i < p.getRecordCount) (hname : ∀ op ∈ ops, ¬ op.Names i) :
    (Operation.run p ops).LayoutValid ∧ (Operation.run p ops).rowAt i = p.rowAt i := by
  induction ops generalizing p with
  | nil => exact ⟨hp,rfl⟩
  | cons op ops ih =>
    have hcount := getRecordCount_le_apply hp op
    obtain ⟨hlayout,hrow⟩ := ih (hp.apply op) (Nat.lt_of_lt_of_le hi hcount)
      fun o ho => hname o (List.mem_cons_of_mem _ ho)
    exact ⟨hlayout,hrow.trans (rowAt_apply hp op hi (hname op List.mem_cons_self))⟩

end Operations

section Reading

variable {p q : Page} {rid : RecordId} {record : List Value}

/-- The types that the encoding of a value has a case for, and SQL NULL. -/
def EncodedType (type : DataType) : Prop :=
  type = .integer ∨ type = .bigint ∨ type = .boolean ∨ type = .varchar ∨ type = .nullType

theorem EncodedType.byteType {type : DataType} (h : EncodedType type) : ByteType type := by
  rcases h with rfl | rfl | rfl | rfl | rfl <;> decide

/-- What a caller of an insertion expects: the id it is given leads back to the record. -/
def ReadsBack (p : Page) (record : List Value) : Prop :=
  ∀ q rid, p.insertRecord record = some (q,rid) → q.getRecord rid = some record

theorem getRecord_insertRecord_ne (hp : p.LayoutValid) (hne : record ≠ [])
    (htypes : ∀ val ∈ record, EncodedType val.type) (h : p.insertRecord record = some (q,rid)) :
    q.getRecord rid ≠ some record := by
  have hins := insertRecord_inserted hp.wellFormed h
  obtain ⟨row,hrow,hlength⟩ :=
    hins.rowAt_new hp.wellFormed hne fun val hval => (htypes val hval).byteType
  rw [getRecord_eq_rowAt,slotOf_insertRecord h,hrow]
  rintro heq
  rw [Option.some.inj heq] at hlength
  exact Nat.lt_irrefl _ hlength

/-- The two bytes that a record is charged for each value are never written, and they are read as
further values: a record is read back as it was only where it was not stored at all. -/
theorem stored_readsBack_iff (hp : p.LayoutValid) (hne : record ≠ [])
    (htypes : ∀ val ∈ record, EncodedType val.type) :
    p.ReadsBack record ↔ p.hasSpaceFor (recordSize record) = false := by
  rw [← insertRecord_eq_none_iff]
  constructor
  · intro hback
    refine Option.eq_none_iff_forall_ne_some.mpr ?_
    rintro ⟨q,rid⟩ h
    exact getRecord_insertRecord_ne hp hne htypes h (hback q rid h)
  · intro hfull q rid h
    rw [hfull] at h
    exact absurd h (by simp)

theorem stored_readsBack_iff_blank : blank.ReadsBack [Value.ofInt 7] ↔
    blank.hasSpaceFor (recordSize [Value.ofInt 7]) = false :=
  stored_readsBack_iff layoutValid_blank (by simp) fun val hval => by
    rw [List.mem_singleton.mp hval]
    exact Or.inl rfl

/-- One integer, stored on an empty page, is read back with two more values. -/
theorem integer_not_readsBack : blank.LayoutValid ∧ ¬ blank.ReadsBack [Value.ofInt 7] := by
  refine ⟨layoutValid_blank,fun hback => ?_⟩
  cases h : blank.insertRecord [Value.ofInt 7] with
  | none => exact absurd h (by decide +kernel)
  | some r =>
    refine getRecord_insertRecord_ne layoutValid_blank (by simp) ?_ h (hback r.1 r.2 h)
    intro val hval
    rw [List.mem_singleton.mp hval]
    exact Or.inl rfl

end Reading

section Update

variable {p : Page} {rid : RecordId} {record : List Value}

/-- What an update is to leave: the new record under the old id, or the page as it was. -/
def UpdatesInPlace (p : Page) (rid : RecordId) (record : List Value) : Prop :=
  ((p.updateRecord rid record).1 = true →
    (p.updateRecord rid record).2.getRecord rid = some record ∧
    ∀ r, slotOf r ≠ slotOf rid → (p.updateRecord rid record).2.getRecord r = p.getRecord r) ∧
  ((p.updateRecord rid record).1 = false →
    ∀ r, (p.updateRecord rid record).2.getRecord r = p.getRecord r)

/-- After an update of a record that was there, its id leads to no record. -/
theorem getRecord_updateRecord (record : List Value) (hp : p.LayoutValid) (hlive : p.getRecord rid ≠ none) :
    (p.updateRecord rid record).2.getRecord rid = none := by
  have hlt : slotOf rid < p.getRecordCount := by
    obtain ⟨row,hrow⟩ := Option.ne_none_iff_exists'.mp hlive
    rw [getRecord_eq_rowAt] at hrow
    exact (rowAt_eq_some_iff.mp hrow).1
  have hdeleted := rowAt_withDeleted p (slotOf rid)
  rw [updateRecord_eq,if_neg hlive,getRecord_eq_rowAt]
  cases h : (p.withDeleted (slotOf rid)).insertRecord record with
  | none => exact hdeleted
  | some r =>
    have hwell := hp.wellFormed.withDeleted (slotOf rid)
    exact ((insertRecord_inserted hwell h).rowAt_of_lt hwell hlt).trans hdeleted

/-- The new record goes to a new slot, whose id is dropped; without space for it, the old record is
deleted all the same. Only an update of nothing does what it says. -/
theorem updatesInPlace_iff (hp : p.LayoutValid) :
    p.UpdatesInPlace rid record ↔ p.getRecord rid = none := by
  constructor
  · rintro ⟨hdone,hfailed⟩
    by_contra hlive
    have hgone := getRecord_updateRecord record hp hlive
    cases hresult : (p.updateRecord rid record).1 with
    | true =>
      have hnew := (hdone hresult).1
      rw [hgone] at hnew
      exact absurd hnew (by simp)
    | false =>
      have hold := hfailed hresult rid
      rw [hgone] at hold
      exact hlive hold.symm
  · intro hnone
    have hsame : p.updateRecord rid record = (false,p) := by rw [updateRecord_eq,if_pos hnone]
    unfold UpdatesInPlace
    rw [hsame]
    exact ⟨fun h => absurd h (by simp),fun _ _ => rfl⟩

theorem updatesInPlace_iff_twoIntegers :
    twoIntegers.UpdatesInPlace 0 [Value.ofInt 9] ↔ twoIntegers.getRecord 0 = none :=
  updatesInPlace_iff layoutValid_twoIntegers

/-- The first of two records is updated to another integer, and is gone. -/
theorem twoIntegers_not_updatesInPlace :
    twoIntegers.LayoutValid ∧ ¬ twoIntegers.UpdatesInPlace 0 [Value.ofInt 9] := by
  refine ⟨layoutValid_twoIntegers,fun h => ?_⟩
  have hgone : (twoIntegers.updateRecord 0 [Value.ofInt 9]).2.getRecord 0 = none :=
    getRecord_updateRecord _ layoutValid_twoIntegers (by decide +kernel)
  have hnew := (h.1 (by decide +kernel)).1
  rw [hgone] at hnew
  exact absurd hnew (by simp)

end Update

section Compaction

/-- The difference is an `int` before it becomes a `size_t`. -/
def getFreeSpace (p : Page) : ℕ :=
  (((p.header.freeSpaceEnd.toNat : ℤ)-p.header.freeSpaceOffset.toNat)%2^64).toNat

/-- One pass of the loop, with the bytes in the temporary buffer. There is no result where a record
is copied past the end of the buffer. -/
def moveRecord (s : Page × List UInt8) (i : ℕ) : Option (Page × List UInt8) :=
  let slot := s.1.getSlot i
  if slot.length ≠ 0 ∧ slot.flags &&& 1 = 0 then
    if s.2.length+slot.length.toNat ≤ dataSize then
      let offset := UInt16.ofNat (headerSize+maxSlots*slotSize+s.2.length)
      some (s.1.setSlot i { slot with offset := offset },
        s.2++readMem s.1.bytes slot.offset.toNat slot.length.toNat)
    else none
  else some s

def compactify (p : Page) : Option Page :=
  ((List.range p.getRecordCount).foldlM moveRecord (p,[])).map fun s =>
    { s.1 with
      bytes := writeMem s.1.bytes (headerSize+maxSlots*slotSize) s.2
      header.freeSpaceOffset := UInt16.ofNat (headerSize+maxSlots*slotSize+s.2.length)
      header.freeSpaceEnd := UInt16.ofNat pageSize
      header.isDirty := true }

/-- What a compaction is to leave: a page laid out well, with the records of the old one and at least
its free space. -/
def CompactsSafely (p : Page) : Prop :=
  ∃ q, p.compactify = some q ∧ q.LayoutValid ∧ (∀ rid, q.getRecord rid = p.getRecord rid) ∧
    p.getFreeSpace ≤ q.getFreeSpace

variable {p q : Page}

/-- The slots take up the whole page, so that there is no byte in the buffer. -/
theorem dataSize_eq : dataSize = 0 := by decide

instance (p : Page) (i : ℕ) : Decidable (p.SlotReadable i) :=
  inferInstanceAs (Decidable (_ ≠ _ ∧ _ = _))

theorem moveRecord_eq (p : Page) (i : ℕ) :
    moveRecord (p,[]) i = if p.SlotReadable i then none else some (p,[]) := by
  unfold moveRecord
  dsimp only
  by_cases hread : p.SlotReadable i
  · have hpos := length_pos_of_ne hread.1
    have hroom : ¬ ([] : List UInt8).length+(p.getSlot i).length.toNat ≤ dataSize := by
      rw [dataSize_eq,List.length_nil]
      omega
    rw [if_pos hread]
    exact (if_pos hread).trans (if_neg hroom)
  · rw [if_neg hread]
    exact if_neg hread

theorem moveRecords_eq (p : Page) (slots : List ℕ) :
    slots.foldlM moveRecord (p,[]) = if ∃ i ∈ slots, p.SlotReadable i then none else some (p,[]) := by
  induction slots with
  | nil => simp
  | cons i slots ih =>
    rw [List.foldlM_cons,moveRecord_eq]
    by_cases hread : p.SlotReadable i
    · rw [if_pos hread,if_pos ⟨i,List.mem_cons_self,hread⟩]
      rfl
    · rw [if_neg hread]
      refine ih.trans ?_
      simp [hread]

/-- A page without readable records has its free space put at its end. -/
def withoutFreeSpace (p : Page) : Page :=
  { p with
    header.freeSpaceOffset := UInt16.ofNat pageSize
    header.freeSpaceEnd := UInt16.ofNat pageSize
    header.isDirty := true }

/-- A record to move is copied past the end of the buffer. -/
theorem compactify_eq (p : Page) :
    p.compactify =
      if ∃ i < p.getRecordCount, p.SlotReadable i then none else some p.withoutFreeSpace := by
  have hbytes : writeMem p.bytes (headerSize+maxSlots*slotSize) [] = p.bytes := by
    funext a
    simp [writeMem]
  unfold compactify
  rw [moveRecords_eq]
  simp only [List.mem_range]
  split_ifs with hread
  · rfl
  · simp only [Option.map_some,hbytes]
    rfl

theorem rowAt_withoutFreeSpace (p : Page) (i : ℕ) : p.withoutFreeSpace.rowAt i = p.rowAt i :=
  rowAt_congr Iff.rfl rfl fun _ _ _ _ => rfl

theorem getFreeSpace_withoutFreeSpace (p : Page) : p.withoutFreeSpace.getFreeSpace = 0 := by
  simp [getFreeSpace,withoutFreeSpace]

theorem LayoutValid.getFreeSpace_eq (hp : p.LayoutValid) :
    p.getFreeSpace = p.header.freeSpaceEnd.toNat-p.header.freeSpaceOffset.toNat := by
  have hspace := hp.space
  have hend := p.header.freeSpaceEnd.toNat_lt
  unfold getFreeSpace
  omega

/-- There is nothing behind the end of the page for a slot to lie in. -/
theorem layoutValid_withoutFreeSpace_iff (hp : p.LayoutValid) :
    p.withoutFreeSpace.LayoutValid ↔ ∀ i < p.getRecordCount, (p.getSlot i).length = 0 := by
  constructor
  · intro h i hi
    by_contra hne
    have hpos := length_pos_of_ne hne
    have hin := h.slots i hi (p.getSlot i).offset.toNat le_rfl (Nat.lt_add_of_pos_right hpos)
    exact absurd hin.2 (Nat.not_lt.mpr hin.1)
  · intro hempty
    have hdirectory := hp.directory
    have hspace := hp.space
    have hsize := hp.size
    refine ⟨show _ ≤ pageSize by change headerSize+slotSize*p.getRecordCount ≤ _; omega,le_rfl,le_rfl,?_⟩
    intro i hi a ha ha'
    have hslot : (p.withoutFreeSpace.getSlot i).length = 0 := hempty i hi
    rw [hslot] at ha'
    exact absurd ha' (Nat.not_lt.mpr ha)

/-- A compaction is harmless only where there is nothing to compact: no byte in any slot, and no free
space to lose. -/
theorem compactsSafely_iff (hp : p.LayoutValid) :
    p.CompactsSafely ↔ (∀ i < p.getRecordCount, (p.getSlot i).length = 0) ∧
      p.header.freeSpaceOffset = p.header.freeSpaceEnd := by
  have hspace := hp.space
  unfold CompactsSafely
  rw [compactify_eq]
  constructor
  · rintro ⟨q,hq,hlayout,_,hfree⟩
    split_ifs at hq with hread
    obtain rfl := Option.some.inj hq
    rw [getFreeSpace_withoutFreeSpace,hp.getFreeSpace_eq] at hfree
    exact ⟨(layoutValid_withoutFreeSpace_iff hp).mp hlayout,UInt16.toNat_inj.mp (by omega)⟩
  · rintro ⟨hempty,hfull⟩
    have hnone : ¬ ∃ i < p.getRecordCount, p.SlotReadable i := by
      rintro ⟨i,hi,hread⟩
      exact hread.1 (hempty i hi)
    refine ⟨p.withoutFreeSpace,if_neg hnone,(layoutValid_withoutFreeSpace_iff hp).mpr hempty,?_,?_⟩
    · intro rid
      rw [getRecord_eq_rowAt,getRecord_eq_rowAt,rowAt_withoutFreeSpace]
    · rw [hp.getFreeSpace_eq,hfull]
      omega

theorem compactsSafely_iff_twoIntegers : twoIntegers.CompactsSafely ↔
    (∀ i < twoIntegers.getRecordCount, (twoIntegers.getSlot i).length = 0) ∧
      twoIntegers.header.freeSpaceOffset = twoIntegers.header.freeSpaceEnd :=
  compactsSafely_iff layoutValid_twoIntegers

/-- The first of two records is already copied past the end of the buffer. -/
theorem twoIntegers_not_compactsSafely : twoIntegers.LayoutValid ∧ ¬ twoIntegers.CompactsSafely := by
  refine ⟨layoutValid_twoIntegers,?_⟩
  rintro ⟨q,hq,_⟩
  rw [compactify_eq,if_pos ⟨0,by decide +kernel,by decide +kernel⟩] at hq
  exact absurd hq (by simp)

end Compaction

end Page
end OrangeSQL
