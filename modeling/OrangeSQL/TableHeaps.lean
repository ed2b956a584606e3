import OrangeSQL.PageLayout
import OrangeSQL.RecordCounts
import OrangeSQL.Library.RecordHeaps

/-! Sessions on a table against a heap of records. A slot is never given out twice, so what is under a
record id stays there until an update or a deletion of that id; what is read is what was stored, and
behind it the bytes of the record that were never written. The buffer pool finds a page by its id
alone, so this is about a table whose pages are the only ones in the pool. -/
namespace OrangeSQL

open Page Store Bytes

namespace Page

/-- The bytes of the union that a page keeps. -/
def dataBytes : DataType → ℕ
  | .integer => 4
  | .bigint => 8
  | .boolean => 1
  | _ => 0

/-- A value as it is read from a page. -/
def reread (val : Value) : Value where
  type := val.type
  data := UInt64.ofNat (val.data.toNat%256^dataBytes val.type)
  strVal := if val.type = .varchar then val.strVal else []
  blobVal := []

section Reading

variable {p q : Page} {val : Value} {record : List Value} {pos : ℕ}

theorem deserializeValue_reread (htype : ByteType val.type)
    (hstr : val.type = .varchar → val.strVal.length < 2^32)
    (h : readMem p.bytes pos (serializeValue val).length = serializeValue val) :
    (p.deserializeValue pos).1 = reread val := by
  have hparts := readMem_append_eq h
  have hbyte : p.bytes pos = UInt8.ofNat val.type.code := by
    have hone := hparts.1
    simpa [readMem,leBytes] using hone
  have hread : DataType.ofCode (p.bytes pos).toNat = val.type := by
    rw [hbyte,UInt8.toNat_ofNat']
    exact htype
  have hrest := hparts.2
  rw [leBytes_length] at hrest
  unfold deserializeValue
  simp only [hread]
  cases hval : val.type with
  | varchar =>
    simp only [hval] at hrest
    obtain ⟨hlen,htext⟩ := readMem_append_eq hrest
    have hmod : val.strVal.length%2^32 = val.strVal.length := Nat.mod_eq_of_lt (hstr hval)
    rw [leBytes_length] at hlen htext
    rw [hmod,List.take_length] at htext
    have hcount : leNat (readMem p.bytes (pos+1) 4) = val.strVal.length := by
      rw [hlen,leNat_leBytes]
      exact hmod
    have hback : readMem p.bytes (pos+5) val.strVal.length = val.strVal := htext
    simp [hcount,hback,reread,hval,dataBytes,Value.null,Nat.mod_one]
  | integer | bigint | boolean =>
    simp only [hval,leBytes_length] at hrest
    simp [hrest,leNat_leBytes,reread,hval,dataBytes,Value.null]
  | _ => simp [reread,hval,dataBytes,Value.null,Nat.mod_one]

/-- The values of a record are read first, one after the other. -/
theorem readValues_prefix (stop fuel : ℕ) (htypes : ∀ val ∈ record, ByteType val.type)
    (hstr : ∀ val ∈ record, val.type = .varchar → val.strVal.length < 2^32)
    (h : readMem p.bytes pos (record.flatMap serializeValue).length = record.flatMap serializeValue)
    (hstop : pos+(record.flatMap serializeValue).length < stop) (hfuel : record.length < fuel) :
    record.map reread <+: p.readValues fuel pos stop := by
  induction record generalizing pos fuel with
  | nil => exact List.nil_prefix
  | cons val record ih =>
    rw [List.flatMap_cons] at h hstop
    obtain ⟨hval,hrest⟩ := readMem_append_eq h
    rw [List.length_append] at hstop
    have htype := htypes val List.mem_cons_self
    have hlen := hstr val List.mem_cons_self
    rw [List.length_cons] at hfuel
    obtain ⟨fuel,rfl⟩ := Nat.exists_eq_add_of_le' (show 1 ≤ fuel by omega)
    have htail := ih fuel (fun v hv => htypes v (List.mem_cons_of_mem _ hv))
      (fun v hv => hstr v (List.mem_cons_of_mem _ hv)) hrest (by omega) (by omega)
    have hpos : pos < stop := by omega
    have hstep : p.readValues (fuel+1) pos stop = (p.deserializeValue pos).1::
        p.readValues fuel (pos+(p.deserializeValue pos).2) stop := if_pos hpos
    rw [hstep,deserializeValue_consumes htype hlen hval,deserializeValue_reread htype hlen hval,
      List.map_cons]
    exact List.prefix_cons_inj _ |>.mpr htail

/-- What a stored record is read as: its values, and more of them; a record without values is not read
at all. -/
def ReadsAs (record : List Value) (row : Option (List Value)) : Prop :=
  if record = [] then row = none
  else ∃ stray, stray ≠ [] ∧ row = some (record.map reread++stray)

theorem Inserted.readsAs (hp : p.WellFormed) (h : Inserted p record q)
    (htypes : ∀ val ∈ record, ByteType val.type) : ReadsAs record (q.rowAt p.getRecordCount) := by
  unfold ReadsAs
  split_ifs with hnil
  · subst hnil
    exact h.rowAt_new_nil
  · have hstr := h.strVal_lt hp
    have hsize := recordSize_eq hstr
    have hpos : 0 < record.length := List.length_pos_iff.mpr hnil
    obtain ⟨stray,hrow⟩ := readValues_prefix
      (p.header.freeSpaceEnd.toNat-recordSize record+recordSize record) (recordSize record) htypes hstr
      h.written (by omega) (by omega)
    obtain ⟨row,hsome,hlength⟩ := h.rowAt_new hp hnil htypes
    rw [h.rowAt_new_eq hp hnil,← hrow] at hsome ⊢
    refine ⟨stray,?_,rfl⟩
    rintro rfl
    rw [← Option.some.inj hsome,List.append_nil,List.length_map] at hlength
    exact Nat.lt_irrefl _ hlength

end Reading
end Page

/-- The slots of all pages of a table, with their rows. -/
def Store.heap (s : Store) (table : TableId) : RecordHeap (PageId × ℕ) (List Value) where
  used := {x | x.2 < s.countOf table x.1}
  row x := s.rowAt table x.1 x.2
  used_of_row := by
    intro x hrow
    obtain ⟨row,hrow⟩ := Option.ne_none_iff_exists'.mp hrow
    exact lt_countOf_of_rowAt hrow

namespace Store

/-- There is no page of another table. -/
def Alone (s : Store) (table : TableId) : Prop := ∀ other, other ≠ table → ∀ pid, s.pages other pid = none

/-- The pages of other tables are the same. -/
def SameElsewhere (table : TableId) (s s' : Store) : Prop :=
  ∀ other, other ≠ table → s'.pages other = s.pages other

variable {s s' s'' : Store} {table table' : TableId} {pid : PageId} {p q : Page} {values : List Value}
  {rid : RecordId}

theorem SameElsewhere.refl (table : TableId) (s : Store) : SameElsewhere table s s := fun _ _ => rfl

theorem SameElsewhere.trans (h : SameElsewhere table s s') (h' : SameElsewhere table s' s'') :
    SameElsewhere table s s'' := fun other hne => (h' other hne).trans (h other hne)

theorem SameElsewhere.alone (h : SameElsewhere table s s') (hs : s.Alone table) : s'.Alone table := by
  intro other hne pid
  rw [h other hne]
  exact hs other hne pid

theorem sameElsewhere_put (s : Store) (table : TableId) (pid : PageId) (p : Page) :
    SameElsewhere table s (s.put table pid p) := by
  intro other hne
  funext pid'
  rw [put_pages,if_neg fun hboth => hne hboth.1]

theorem sameElsewhere_appendNewPage (t : OpenTable) (s : Store) (last : Page) :
    SameElsewhere t.tableId s (t.appendNewPage s last).2 := by
  intro other hne
  funext pid
  rw [appendNewPage_pages,if_neg fun hboth => hne hboth.1,if_neg fun hboth => hne hboth.1]

theorem sameElsewhere_opened {schema : TableSchema} {t : OpenTable} (h : OpenTable.Opened s schema t s') :
    SameElsewhere t.tableId s s' := by
  rcases h.pages with ⟨rfl,_⟩ | ⟨_,rfl,_⟩
  · exact .refl _ _
  · exact sameElsewhere_put s t.tableId s.nextPageId _

theorem heap_deleted (hs : s.WellFormed) (hp : s.pages table pid = some p) {i : ℕ}
    (hi : i < p.getRecordCount) :
    (s.put table pid (p.withDeleted i)).heap table = (s.heap table).drop (pid,i) := by
  refine RecordHeap.eq_of_same (fun x => ?_) fun x => ?_
  · change x.2 < _ ↔ x.2 < _
    rw [countOf_put (q := p.withDeleted i) hp rfl]
  · rw [RecordHeap.drop_row]
    refine (rowAt_put_withDeleted hs hp hi table x.1 x.2).trans (if_congr ?_ rfl rfl)
    rw [Prod.ext_iff]
    exact and_iff_right rfl

/-- An insertion gives out the first slot behind the others on the page. -/
theorem heap_inserted (hp : s.pages table pid = some p) (hwell : p.WellFormed)
    (hins : Inserted p values q) : (s.put table pid q).heap table =
      (s.heap table).put (pid,p.getRecordCount) (q.rowAt p.getRecordCount) := by
  refine RecordHeap.eq_of_same (fun x => ?_) fun x => ?_
  · change x.2 < _ ↔ x = _ ∨ x.2 < _
    rw [Prod.ext_iff,countOf,put_pages]
    by_cases hpid : x.1 = pid
    · rw [if_pos ⟨rfl,hpid⟩,hpid,countOf_of_pages hp,Option.map_some,Option.getD_some,hins.count,
        Nat.lt_succ_iff_lt_or_eq]
      tauto
    · rw [if_neg fun hboth => hpid hboth.2]
      exact ⟨Or.inr,fun h => h.resolve_left fun heq => hpid heq.1⟩
  · rw [RecordHeap.put_row]
    refine (rowAt_put s table pid q table x.1 x.2).trans ?_
    by_cases hpid : x.1 = pid
    · rw [if_pos ⟨rfl,hpid⟩]
      split_ifs with hnew
      · rw [hnew]
      · have hslot : x.2 ≠ p.getRecordCount := fun heq => hnew (Prod.ext hpid heq)
        change _ = s.rowAt table x.1 x.2
        rw [hins.rowAt_of_ne hwell hslot,hpid,rowAt_of_pages hp]
    · rw [if_neg fun hboth => hpid hboth.2,if_neg fun heq => hpid (congrArg Prod.fst heq)]
      rfl

theorem notMem_used (hp : s.pages table pid = some p) :
    (pid,p.getRecordCount) ∉ (s.heap table).used := by
  change ¬ p.getRecordCount < s.countOf table pid
  rw [countOf_of_pages hp]
  exact Nat.lt_irrefl _

theorem heap_appendNewPage {t : OpenTable} (hs : s.WellFormed)
    (hp : s.pages t.tableId t.lastPage = some p) (table : TableId) :
    (t.appendNewPage s p).2.heap table = s.heap table := by
  refine RecordHeap.eq_of_same (fun x => ?_) fun x => rowAt_appendNewPage hs hp table x.1 x.2
  exact iff_of_eq (congrArg (x.2 < ·) (countOf_appendNewPage hs hp table x.1))

/-- The id of a new record names its slot. -/
theorem place_inserted (hs : s.WellFormed) (hp : s.pages table pid = some p)
    (h : p.insertRecord values = some (q,rid)) :
    CountedTable.place rid = (pid,p.getRecordCount) := by
  have hplaced := hs.placed _ _ p hp
  have hpid : pid < 2^32 := by
    rcases hplaced.numbered with hlt | hspent
    · exact Nat.lt_trans hlt (by decide)
    · rw [hspent.insertRecord values] at h
      cases h
  refine Prod.ext ?_ (slotOf_insertRecord h)
  unfold Page.insertRecord at h
  dsimp only at h
  split_ifs at h
  obtain ⟨-,rfl⟩ := Prod.mk.inj (Option.some.inj h)
  have hcount : p.header.recordCount.toNat < 2^32 := Nat.lt_trans p.getRecordCount_lt (by decide)
  change pageOf (makeRecordId p.getPageId _) = pid
  rw [pageOf_makeRecordId hcount,hplaced.pageId,Nat.mod_eq_of_lt hpid]

end Store

namespace OpenTable

variable {t : OpenTable} {s : Store} {rid : RecordId} {values row : List Value} {p : Page}

theorem byteType_of_validateRecord
    (htypes : ∀ col ∈ t.schema.columns, ByteType col.type) (h : t.validateRecord values = true) :
    ∀ val ∈ values, ByteType val.type := by
  intro val hval
  simp only [validateRecord,Bool.and_eq_true,List.all_eq_true] at h
  obtain ⟨i,hi,rfl⟩ := List.getElem_of_mem hval
  have hcol := h.2 (values[i],i) (List.mem_zipIdx_iff_getElem?.mpr (List.getElem?_eq_getElem hi))
  simp only [validateColumn] at hcol
  split at hcol
  · cases hcol
  · rename_i col hsome
    split_ifs at hcol with hdiffers
    rw [not_not.mp hdiffers]
    exact htypes col (List.mem_of_getElem? hsome)

theorem updateRecord_of_none (hvalid : t.validateRecord values = true)
    (hrow : s.rowAt t.tableId (pageOf rid) (slotOf rid) = none) :
    t.updateRecord s rid values = (.notFound,s) := by
  unfold updateRecord
  cases hp : s.pages t.tableId (pageOf rid) with
  | none => simp [hvalid]
  | some p =>
    rw [rowAt_of_pages hp] at hrow
    simp [hvalid,updateRecord_eq,getRecord_eq_rowAt,hrow,put_eq_self hp]

/-- A record that is there is deleted, and the new one put on its page if there is room. -/
theorem updateRecord_of_some (hvalid : t.validateRecord values = true)
    (hp : s.pages t.tableId (pageOf rid) = some p)
    (hrow : s.rowAt t.tableId (pageOf rid) (slotOf rid) = some row) :
    t.updateRecord s rid values = ((p.withDeleted (slotOf rid)).insertRecord values).elim
      (.notFound,s.put t.tableId (pageOf rid) (p.withDeleted (slotOf rid)))
      fun r => (.ok,s.put t.tableId (pageOf rid) r.1) := by
  rw [rowAt_of_pages hp] at hrow
  unfold updateRecord
  cases hins : (p.withDeleted (slotOf rid)).insertRecord values with
  | none => simp [hvalid,hp,updateRecord_eq,getRecord_eq_rowAt,hrow,hins]
  | some r => simp [hvalid,hp,updateRecord_eq,getRecord_eq_rowAt,hrow,hins]

/-- The record under an id, or nothing where the status is NOT_FOUND. -/
def getRecord (t : OpenTable) (s : Store) (rid : RecordId) : Option (List Value) :=
  (s.pages t.tableId (pageOf rid)).bind fun p => p.getRecord rid

end OpenTable

namespace CountedTable

section Definitions

abbrev HeapCall := RecordHeap.Call RecordId (List Value)
abbrev HeapReply := RecordHeap.Reply RecordId (List Value)

def replyOf : Status → HeapReply
  | .ok => .done
  | .notFound => .missing
  | _ => .refused

/-- The calls of a client, with what they answer. -/
def perform (t : CountedTable) (s : Store) (created : Bool) :
    HeapCall → Option (HeapReply × CountedTable × Store)
  | .insert values => (t.insertRecord s values created).map fun r => (r.1.elim .refused .stored,r.2)
  | .update rid values =>
    let r := t.toOpenTable.updateRecord s rid values
    some (replyOf r.1,t,r.2)
  | .delete rid =>
    let r := t.deleteRecord s rid
    some (replyOf r.1,r.2)
  | .get rid => some (.found (t.getRecord s rid),t,s)

/-- The states of a table that has the pool to itself: what the constructor makes of a store with pages
of no other table, and what the calls make of it. -/
inductive ReachedAlone : CountedTable → Store → Prop
  | opened {fuel : ℕ} {s₀ s : Store} {schema : TableSchema} {t : CountedTable} : s₀.WellFormed →
      s₀.Alone schema.id.toNat → make fuel s₀ schema = some (t,s) → ReachedAlone t s
  | step {fuel : ℕ} {t t' : CountedTable} {s s' : Store} {call : TableCall} : ReachedAlone t s →
      t.exec fuel s call = some (t',s') → ReachedAlone t' s'

/-- Any calls, with counts of the records between them. -/
inductive Session : CountedTable → Store → List (HeapCall × HeapReply) → CountedTable → Store → Prop
  | start {t : CountedTable} {s : Store} : Session t s [] t s
  | call {t t₁ t' : CountedTable} {s s₁ s' : Store} {created : Bool} {call : HeapCall}
      {reply : HeapReply} {events : List (HeapCall × HeapReply)} :
      t.perform s created call = some (reply,t₁,s₁) → Session t₁ s₁ events t' s' →
      Session t s ((call,reply)::events) t' s'
  | count {t t₁ t' : CountedTable} {s s' : Store} {fuel : ℕ} {expired : Bool} {n : UInt64}
      {events : List (HeapCall × HeapReply)} : t.getRecordCount fuel s expired = some (n,t₁) →
      Session t₁ s events t' s' → Session t s events t' s'

/-- The call is an update or a deletion of what is under the id. -/
def Removes (call : HeapCall) (rid : RecordId) : Prop := (call.map place).Removes (place rid)

end Definitions

section Steps

variable {s s' : Store} {t t' : CountedTable} {created : Bool} {call : HeapCall} {reply : HeapReply}
  {p q : Page} {pid : PageId} {values : List Value} {rid : RecordId}

theorem getRecord_eq (t : CountedTable) (s : Store) (rid : RecordId) :
    t.getRecord s rid = (s.heap t.tableId).row (place rid) := by
  have hrow : (fun p : Page => p.getRecord rid) = fun p => p.rowAt (slotOf rid) :=
    funext fun p => getRecord_eq_rowAt p rid
  rw [OpenTable.getRecord,hrow]
  rfl

theorem insert_step (hs : s.WellFormed) (hlast : HasLast t.toOpenTable s)
    (htypes : ∀ col ∈ t.schema.columns, ByteType col.type)
    (h : t.perform s created (.insert values) = some (reply,t',s')) :
    RecordHeap.Step ReadsAs (s.heap t.tableId) (.insert values) (reply.map place)
      (s'.heap t'.tableId) := by
  rcases insertRecord_cases hs hlast values created with ⟨_,_,⟨hvalid,hspace⟩,_,_⟩ | ⟨_,_,hins⟩ |
    ⟨p,_,hp,hins⟩
  · obtain ⟨p,hp,_⟩ := hlast
    rw [lastHasSpace,hp,Option.any_some,← insertRecord_isSome] at hspace
    obtain ⟨⟨q,rid⟩,hq⟩ := Option.isSome_iff_exists.mp hspace
    have hwell := (hs.placed _ _ p hp).wellFormed
    have hinserted := insertRecord_inserted hwell hq
    have hreads := hinserted.readsAs hwell (OpenTable.byteType_of_validateRecord htypes hvalid)
    have hstored : t.insertRecord s values created = some (some rid,
        { t with cachedRecordCount := t.cachedRecordCount+1 },s.put t.tableId t.lastPage q) := by
      simp [insertRecord,hvalid,hp,hq]
    rw [perform,hstored] at h
    obtain ⟨rfl,hstate⟩ := Prod.mk.inj (Option.some.inj h)
    obtain ⟨rfl,rfl⟩ := Prod.mk.inj hstate
    have hput := heap_inserted hp hwell hinserted
    rw [← place_inserted hs hp hq] at hput
    have hnew := notMem_used hp
    rw [← place_inserted hs hp hq] at hnew
    change RecordHeap.Step ReadsAs _ _ (.stored (place rid)) (Store.heap _ t.tableId)
    rw [hput]
    exact .insert hnew hreads
  · rw [perform,hins] at h
    obtain ⟨rfl,hstate⟩ := Prod.mk.inj (Option.some.inj h)
    obtain ⟨rfl,rfl⟩ := Prod.mk.inj hstate
    exact .insertRefused
  · rw [perform,hins] at h
    obtain ⟨rfl,hstate⟩ := Prod.mk.inj (Option.some.inj h)
    obtain ⟨rfl,rfl⟩ := Prod.mk.inj hstate
    have hsame := heap_appendNewPage hs hp t.tableId
    change RecordHeap.Step ReadsAs _ _ .refused (Store.heap _ t.tableId)
    rw [hsame]
    exact .insertRefused

/-- Where there is no room, an update finds nothing under the id, though it has just taken it away. -/
theorem update_step (hs : s.WellFormed) (htypes : ∀ col ∈ t.schema.columns, ByteType col.type) :
    RecordHeap.Step ReadsAs (s.heap t.tableId) (.update (place rid) values)
      ((replyOf (t.toOpenTable.updateRecord s rid values).1).map place)
      ((t.toOpenTable.updateRecord s rid values).2.heap t.tableId) := by
  have hlost : RecordHeap.Step ReadsAs (s.heap t.tableId) (.update (place rid) values) .missing
    ((s.heap t.tableId).drop (place rid)) := .updateLost
  cases hvalid : t.validateRecord values with
  | false =>
    simp only [OpenTable.updateRecord,hvalid]
    exact .updateRefused
  | true =>
    cases hrow : s.rowAt t.tableId (pageOf rid) (slotOf rid) with
    | none =>
      rw [RecordHeap.drop_eq_self hrow] at hlost
      rw [OpenTable.updateRecord_of_none hvalid hrow]
      exact hlost
    | some row =>
      obtain ⟨p,hp,hslot⟩ := exists_page_of_lt_countOf (lt_countOf_of_rowAt hrow)
      have hwell := (hs.placed _ _ p hp).wellFormed.withDeleted (slotOf rid)
      have hdeleted : (s.put t.tableId (pageOf rid) (p.withDeleted (slotOf rid))).heap t.tableId =
        (s.heap t.tableId).drop (place rid) := heap_deleted hs hp hslot
      rw [OpenTable.updateRecord_of_some hvalid hp hrow]
      cases hins : (p.withDeleted (slotOf rid)).insertRecord values with
      | none =>
        rw [← hdeleted] at hlost
        exact hlost
      | some r =>
        have hinserted := insertRecord_inserted hwell hins
        have hreads := hinserted.readsAs hwell (OpenTable.byteType_of_validateRecord htypes hvalid)
        have hmoved : (s.put t.tableId (pageOf rid) r.1).heap t.tableId =
            ((s.heap t.tableId).drop (place rid)).put (pageOf rid,p.getRecordCount)
              (r.1.rowAt p.getRecordCount) := by
          have hput := heap_inserted
            (put_pages_self s t.tableId (pageOf rid) (p.withDeleted (slotOf rid))) hwell hinserted
          rw [put_put,hdeleted] at hput
          exact hput
        have hfound : (s.heap t.tableId).row (place rid) ≠ none :=
          Option.ne_none_iff_exists'.mpr ⟨row,hrow⟩
        have hstep : RecordHeap.Step ReadsAs (s.heap t.tableId) (.update (place rid) values) .done
            (((s.heap t.tableId).drop (place rid)).put (pageOf rid,p.getRecordCount)
              (r.1.rowAt p.getRecordCount)) := .update hfound (notMem_used hp) hreads
        rw [← hmoved] at hstep
        exact hstep

theorem delete_step (hs : s.WellFormed) :
    RecordHeap.Step ReadsAs (s.heap t.tableId) (.delete (place rid))
      ((replyOf (t.deleteRecord s rid).1).map place)
      ((t.deleteRecord s rid).2.2.heap (t.deleteRecord s rid).2.1.tableId) := by
  rcases deleteRecord_cases t s rid with ⟨hslot,hdel⟩ | ⟨p,hp,hslot,hdel⟩
  · rw [hdel]
    exact .deleteMissing (Nat.not_lt.mpr hslot)
  · have hused : place rid ∈ (s.heap t.tableId).used := by
      change slotOf rid < s.countOf t.tableId (pageOf rid)
      rwa [countOf_of_pages hp]
    have hdeleted : (s.put t.tableId (pageOf rid) (p.withDeleted (slotOf rid))).heap t.tableId =
      (s.heap t.tableId).drop (place rid) := heap_deleted hs hp hslot
    rw [hdel]
    change RecordHeap.Step ReadsAs _ _ .done (Store.heap _ t.tableId)
    rw [hdeleted]
    exact .delete hused

theorem perform_step (hs : s.WellFormed) (hlast : HasLast t.toOpenTable s)
    (htypes : ∀ col ∈ t.schema.columns, ByteType col.type)
    (h : t.perform s created call = some (reply,t',s')) :
    RecordHeap.Step ReadsAs (s.heap t.tableId) (call.map place) (reply.map place)
      (s'.heap t'.tableId) := by
  cases call with
  | insert values => exact insert_step hs hlast htypes h
  | update rid values =>
    obtain ⟨rfl,hstate⟩ := Prod.mk.inj (Option.some.inj h)
    obtain ⟨rfl,rfl⟩ := Prod.mk.inj hstate
    exact update_step hs htypes
  | delete rid =>
    obtain ⟨rfl,hstate⟩ := Prod.mk.inj (Option.some.inj h)
    have hstep := @delete_step s t rid hs
    rw [hstate] at hstep
    exact hstep
  | get rid =>
    obtain ⟨rfl,hstate⟩ := Prod.mk.inj (Option.some.inj h)
    obtain ⟨rfl,rfl⟩ := Prod.mk.inj hstate
    rw [getRecord_eq]
    exact .get

end Steps

section Sessions

variable {s s' : Store} {t t' : CountedTable} {created : Bool} {call : HeapCall} {reply : HeapReply}
  {events : List (HeapCall × HeapReply)}

/-- The calls work on the pages of their table. -/
theorem exec_sameElsewhere {fuel : ℕ} {c : TableCall} (hs : s.WellFormed) (hlast : HasLast t.toOpenTable s)
    (h : t.exec fuel s c = some (t',s')) : SameElsewhere t.tableId s s' := by
  cases c with
  | insertRecord values created =>
    rcases insertRecord_cases hs hlast values created with ⟨_,_,_,⟨_,_,_,_,rfl⟩,hins⟩ | ⟨_,_,hins⟩ |
      ⟨_,_,_,hins⟩
    all_goals
      rw [exec,hins] at h
      obtain ⟨rfl,rfl⟩ := Prod.mk.inj (Option.some.inj h)
    · exact sameElsewhere_put _ _ _ _
    · exact .refl _ _
    · exact sameElsewhere_appendNewPage _ _ _
  | updateRecord rid values =>
    obtain ⟨rfl,rfl⟩ := Prod.mk.inj (Option.some.inj h)
    rcases updateRecord_cases hs t.toOpenTable rid values with ⟨_,hnothing⟩ |
      ⟨p,_,_,_,⟨_,hlost⟩ | ⟨_,_,_,_,_,_,hput⟩⟩
    · rw [hnothing]
      exact .refl _ _
    · rw [hlost]
      exact sameElsewhere_put _ _ _ _
    · rw [hput]
      exact sameElsewhere_put _ _ _ _
  | deleteRecord rid =>
    rcases deleteRecord_cases t s rid with ⟨_,hdel⟩ | ⟨p,_,_,hdel⟩
    all_goals
      rw [exec,hdel] at h
      obtain ⟨rfl,rfl⟩ := Prod.mk.inj (Option.some.inj h)
    · exact .refl _ _
    · exact sameElsewhere_put _ _ _ _
  | getRecordCount expired =>
    obtain ⟨⟨n,t₁⟩,_,heq⟩ := Option.map_eq_some_iff.mp h
    obtain ⟨rfl,rfl⟩ := Prod.mk.inj heq
    exact .refl _ _

theorem exec_schema {fuel : ℕ} {c : TableCall} (hs : s.WellFormed) (hlast : HasLast t.toOpenTable s)
    (h : t.exec fuel s c = some (t',s')) : t'.schema = t.schema := by
  rcases exec_cases hs hlast h with ⟨htable,_⟩ | ⟨_,_,_,_,_,_,htable,_⟩
  · rw [htable]
  · rw [htable]
    rfl

/-- The table is reached, and there is still no page of another one. -/
theorem ReachedAlone.kept (h : ReachedAlone t s) :
    s.WellFormed ∧ HasLast t.toOpenTable s ∧ s.Alone t.tableId := by
  induction h with
  | @opened fuel s₀ s schema t hs halone hmake =>
    obtain ⟨⟨o,s₁⟩,hopen,heq⟩ := Option.map_eq_some_iff.mp hmake
    obtain ⟨rfl,rfl⟩ := Prod.mk.inj heq
    have hopened := OpenTable.make_opened hopen
    refine ⟨hopened.wellFormed hs,hopened.last,(sameElsewhere_opened hopened).alone ?_⟩
    rwa [OpenTable.tableId,hopened.schema]
  | step _ hexec ih =>
    obtain ⟨hs,hlast,halone⟩ := ih
    obtain ⟨hs',hlast'⟩ := exec_kept hs hlast hexec
    refine ⟨hs',hlast',?_⟩
    rw [OpenTable.tableId,exec_schema hs hlast hexec]
    exact (exec_sameElsewhere hs hlast hexec).alone halone

/-- What the calls keep for the next one. -/
theorem perform_kept (hs : s.WellFormed) (hlast : HasLast t.toOpenTable s)
    (h : t.perform s created call = some (reply,t',s')) : s'.WellFormed ∧
      HasLast t'.toOpenTable s' ∧ t'.schema = t.schema ∧ SameElsewhere t.tableId s s' := by
  have hkept : ∀ c, t.exec 0 s c = some (t',s') → s'.WellFormed ∧
      HasLast t'.toOpenTable s' ∧ t'.schema = t.schema ∧ SameElsewhere t.tableId s s' := by
    intro c hexec
    obtain ⟨hs',hlast'⟩ := exec_kept hs hlast hexec
    exact ⟨hs',hlast',exec_schema hs hlast hexec,exec_sameElsewhere hs hlast hexec⟩
  cases call with
  | insert values =>
    obtain ⟨r,hins,heq⟩ := Option.map_eq_some_iff.mp h
    refine hkept (.insertRecord values created) ?_
    rw [exec,hins]
    exact congrArg some (Prod.mk.inj heq).2
  | update rid values =>
    exact hkept (.updateRecord rid values) (congrArg some (Prod.mk.inj (Option.some.inj h)).2)
  | delete rid => exact hkept (.deleteRecord rid) (congrArg some (Prod.mk.inj (Option.some.inj h)).2)
  | get rid =>
    obtain ⟨rfl,rfl⟩ := Prod.mk.inj (Prod.mk.inj (Option.some.inj h)).2
    exact ⟨hs,hlast,rfl,.refl _ _⟩

/-- The events of a session under the slots that the ids name. -/
def placed (events : List (HeapCall × HeapReply)) :
    List (RecordHeap.Call (PageId × ℕ) (List Value) × RecordHeap.Reply (PageId × ℕ) (List Value)) :=
  events.map fun e => (e.1.map place,e.2.map place)

theorem Session.run (h : Session t s events t' s') (hs : s.WellFormed) (hlast : HasLast t.toOpenTable s)
    (htypes : ∀ col ∈ t.schema.columns, ByteType col.type) (halone : s.Alone t.tableId) :
    RecordHeap.Run ReadsAs (s.heap t.tableId) (placed events) (s'.heap t'.tableId) ∧
      s'.Alone t'.tableId := by
  induction h with
  | start => exact ⟨.nil,halone⟩
  | call hperform _ ih =>
    obtain ⟨hs₁,hlast₁,hschema,hsame⟩ := perform_kept hs hlast hperform
    have halone₁ := hsame.alone halone
    rw [OpenTable.tableId,← hschema] at halone₁
    obtain ⟨hrun,halone'⟩ := ih hs₁ hlast₁ (hschema ▸ htypes) halone₁
    exact ⟨.cons (perform_step hs hlast htypes hperform) hrun,halone'⟩
  | count hcount _ ih =>
    obtain rfl := getRecordCount_eq hcount
    exact ih hs hlast htypes halone

end Sessions

end CountedTable
end OrangeSQL
