import OrangeSQL.StatementEffects

/-! The table object with its count of records, under any calls, and what a failed insertion leaves
behind. -/
namespace OrangeSQL

open Page Store

/-- The table object with the count of records that it keeps. -/
structure CountedTable extends OpenTable where
  cachedRecordCount : UInt64

namespace CountedTable

/-- The constructor. -/
def make (fuel : ℕ) (s : Store) (schema : TableSchema) : Option (CountedTable × Store) :=
  (OpenTable.make fuel s schema).map fun r => (⟨r.1,0⟩,r.2)

/-- The id of the record, or nothing where the status is ERROR. The buffer pool has a new page for
the table, or `createNewPage` returns null. -/
def insertRecord (t : CountedTable) (s : Store) (values : List Value) (created : Bool) :
    Option (Option RecordId × CountedTable × Store) :=
  if !t.validateRecord values then some (none,t,s)
  else do
    let last ← s.pages t.tableId t.lastPage
    match last.insertRecord values with
    | some (last,rid) =>
      return (some rid,{ t with cachedRecordCount := t.cachedRecordCount+1 },
        s.put t.tableId t.lastPage last)
    | none =>
      if !created then return (none,t,s)
      else
        let (o,s) := t.toOpenTable.appendNewPage s last
        let t : CountedTable := { t with toOpenTable := o }
        let new ← s.pages t.tableId t.lastPage
        match new.insertRecord values with
        | some (new,rid) =>
          return (some rid,{ t with cachedRecordCount := t.cachedRecordCount+1 },
            s.put t.tableId t.lastPage new)
        | none => return (none,t,s)

def deleteRecord (t : CountedTable) (s : Store) (rid : RecordId) : Status × CountedTable × Store :=
  let (status,s) := t.toOpenTable.deleteRecord s rid
  if status = .ok then (status,{ t with cachedRecordCount := t.cachedRecordCount-1 },s)
  else (status,t,s)

/-- The table as its iterators see it. -/
def view (t : CountedTable) (s : Store) : Option Table :=
  (s.pages t.tableId t.firstPage).map fun p => ⟨p,s.pages t.tableId⟩

/-- The loop of `getRecordCount`. -/
def countFrom (table : Table) : ℕ → TableIterator → UInt64 → Option UInt64
  | 0, _, _ => none
  | fuel+1, it, n =>
    if it.equals Table.end then some n
    else do
      let next ← it.increment table fuel
      countFrom table fuel next (n+1)

/-- The records are counted anew when the count is older than five seconds. -/
def getRecordCount (fuel : ℕ) (t : CountedTable) (s : Store) (expired : Bool) :
    Option (UInt64 × CountedTable) :=
  if expired then do
    let table ← t.view s
    let it ← table.begin fuel
    let n ← countFrom table fuel it 0
    return (n,{ t with cachedRecordCount := n })
  else some (t.cachedRecordCount,t)

end CountedTable

/-- The calls that change a table or its count, with what the buffer pool and the clock decide. -/
inductive TableCall
  | insertRecord (values : List Value) (created : Bool)
  | updateRecord (rid : RecordId) (values : List Value)
  | deleteRecord (rid : RecordId)
  | getRecordCount (expired : Bool)

namespace CountedTable

def exec (fuel : ℕ) (t : CountedTable) (s : Store) : TableCall → Option (CountedTable × Store)
  | .insertRecord values created => (t.insertRecord s values created).map Prod.snd
  | .updateRecord rid values => some (t,(t.toOpenTable.updateRecord s rid values).2)
  | .deleteRecord rid => some (t.deleteRecord s rid).2
  | .getRecordCount expired => (t.getRecordCount fuel s expired).map fun r => (r.2,s)

/-- The states of a table: what the constructor makes of a store, what the calls make of it, and
what becomes of the pages of other tables in between. -/
inductive Reached : CountedTable → Store → Prop
  | opened {fuel : ℕ} {s₀ s : Store} {schema : TableSchema} {t : CountedTable} : s₀.WellFormed →
      make fuel s₀ schema = some (t,s) → Reached t s
  | step {fuel : ℕ} {t t' : CountedTable} {s s' : Store} {call : TableCall} : Reached t s →
      t.exec fuel s call = some (t',s') → Reached t' s'
  | elsewhere {t : CountedTable} {s s' : Store} : Reached t s → s'.WellFormed →
      s'.pages t.tableId = s.pages t.tableId → Reached t s'

section Calls

variable {s s' : Store} {t t' : CountedTable} {values : List Value} {created : Bool} {rid : RecordId}

/-- The last page has space for the record. -/
def lastHasSpace (t : CountedTable) (s : Store) (values : List Value) : Bool :=
  (s.pages t.tableId t.lastPage).any fun p => p.hasSpaceFor (recordSize values)

/-- A new page is put behind the last one, which is full. -/
def Appends (t : CountedTable) (s : Store) (values : List Value) (created : Bool) : Prop :=
  t.validateRecord values = true ∧ created = true ∧ t.lastHasSpace s values = false

/-- The record is put on the last page. -/
def Stores (t : CountedTable) (s : Store) (values : List Value) : Prop :=
  t.validateRecord values = true ∧ t.lastHasSpace s values = true

/-- An insertion stores the record, or does nothing, or only puts a page behind the last one. -/
theorem insertRecord_cases (hs : s.WellFormed) (hlast : HasLast t.toOpenTable s) (values : List Value)
    (created : Bool) :
    (∃ r s', t.Stores s values ∧ RecordStored t.toOpenTable values s s' ∧
      t.insertRecord s values created =
        some (some r,{ t with cachedRecordCount := t.cachedRecordCount+1 },s')) ∨
    ¬ t.Stores s values ∧ ¬ t.Appends s values created ∧
      t.insertRecord s values created = some (none,t,s) ∨
    ∃ p, t.Appends s values created ∧ s.pages t.tableId t.lastPage = some p ∧
      t.insertRecord s values created = some (none,
        { t with toOpenTable := (t.toOpenTable.appendNewPage s p).1 },
        (t.toOpenTable.appendNewPage s p).2) := by
  obtain ⟨p,hp,_⟩ := hlast
  have hspace : t.lastHasSpace s values = p.hasSpaceFor (recordSize values) := by
    rw [lastHasSpace,hp,Option.any_some]
  unfold Stores Appends
  rw [hspace]
  cases hvalid : t.validateRecord values with
  | false =>
    refine Or.inr (Or.inl ⟨nofun,nofun,?_⟩)
    simp [insertRecord,hvalid]
  | true =>
    cases hins : p.insertRecord values with
    | some r =>
      have hroom : p.hasSpaceFor (recordSize values) = true := by
        rw [← insertRecord_isSome,hins]
        rfl
      refine Or.inl ⟨r.2,_,⟨rfl,hroom⟩,⟨p,r.1,hp,?_,rfl⟩,?_⟩
      · exact insertRecord_inserted (hs.placed _ _ p hp).wellFormed hins
      · simp [insertRecord,hvalid,hp,hins]
    | none =>
      have hfull : p.hasSpaceFor (recordSize values) = false := by
        rw [← insertRecord_isSome,hins]
        rfl
      rw [hfull]
      cases created with
      | false =>
        refine Or.inr (Or.inl ⟨nofun,nofun,?_⟩)
        simp [insertRecord,hvalid,hp,hins]
      | true =>
        refine Or.inr (Or.inr ⟨p,⟨rfl,rfl,rfl⟩,hp,?_⟩)
        have hnew : (t.appendNewPage s p).2.pages (t.appendNewPage s p).1.tableId
            (t.appendNewPage s p).1.lastPage = some (appendedPage t.toOpenTable s p) := by
          rw [appendNewPage_pages]
          exact if_pos ⟨rfl,rfl⟩
        have hrefused := (appendedPage_placed t.toOpenTable s p).2.1.insertRecord values
        simp [insertRecord,hvalid,hp,hins,hnew,hrefused]

/-- The slot that a record id names. -/
def slotAt (rid : RecordId) : TableCursor := ⟨pageOf rid,slotOf rid,none⟩

/-- A deletion finds no slot, or marks one as deleted, whatever is in it. -/
theorem deleteRecord_cases (t : CountedTable) (s : Store) (rid : RecordId) :
    s.countOf t.tableId (pageOf rid) ≤ slotOf rid ∧ t.deleteRecord s rid = (.notFound,t,s) ∨
    ∃ p, s.pages t.tableId (pageOf rid) = some p ∧ slotOf rid < p.getRecordCount ∧
      t.deleteRecord s rid = (.ok,{ t with cachedRecordCount := t.cachedRecordCount-1 },
        s.put t.tableId (pageOf rid) (p.withDeleted (slotOf rid))) := by
  unfold deleteRecord OpenTable.deleteRecord
  cases hp : s.pages t.tableId (pageOf rid) with
  | none => exact Or.inl ⟨by simp [countOf,hp],rfl⟩
  | some p =>
    dsimp only
    rw [deleteRecord_eq]
    by_cases hslot : p.getRecordCount ≤ slotOf rid
    · rw [if_pos hslot]
      exact Or.inl ⟨by rwa [countOf_of_pages hp],rfl⟩
    · rw [if_neg hslot]
      exact Or.inr ⟨p,rfl,Nat.not_le.mp hslot,rfl⟩

/-- An update does nothing, or it deletes the record, and puts the new one on the same page if there
is space. -/
theorem updateRecord_cases (hs : s.WellFormed) (o : OpenTable) (rid : RecordId) (values : List Value) :
    (o.validateRecord values = true → s.rowAt o.tableId (pageOf rid) (slotOf rid) = none) ∧
      (o.updateRecord s rid values).2 = s ∨
    ∃ p, o.validateRecord values = true ∧ s.pages o.tableId (pageOf rid) = some p ∧
      (p.rowAt (slotOf rid)).isSome ∧
      (p.hasSpaceFor (recordSize values) = false ∧
        (o.updateRecord s rid values).2 =
          s.put o.tableId (pageOf rid) (p.withDeleted (slotOf rid)) ∨
      p.hasSpaceFor (recordSize values) = true ∧
        Rewritten o (slotAt rid) values s (o.updateRecord s rid values).2) := by
  unfold OpenTable.updateRecord
  cases hvalid : o.validateRecord values with
  | false => exact Or.inl ⟨nofun,rfl⟩
  | true =>
    cases hp : s.pages o.tableId (pageOf rid) with
    | none => exact Or.inl ⟨fun _ => by simp [Store.rowAt,hp],rfl⟩
    | some p =>
      cases hrow : p.rowAt (slotOf rid) with
      | none =>
        refine Or.inl ⟨fun _ => (rowAt_of_pages hp _).trans hrow,?_⟩
        simp [updateRecord_eq,getRecord_eq_rowAt,hrow,put_eq_self hp]
      | some row =>
        have hslot := (rowAt_eq_some_iff.mp hrow).1
        have hwf := (hs.placed _ _ p hp).wellFormed.withDeleted (slotOf rid)
        refine Or.inr ⟨p,rfl,rfl,by rw [hrow]; rfl,?_⟩
        have hspace : (p.withDeleted (slotOf rid)).hasSpaceFor (recordSize values) =
            p.hasSpaceFor (recordSize values) := rfl
        rw [← hspace]
        cases hins : (p.withDeleted (slotOf rid)).insertRecord values with
        | none =>
          refine Or.inl ⟨?_,?_⟩
          · rw [← insertRecord_isSome,hins]
            rfl
          · simp [updateRecord_eq,getRecord_eq_rowAt,hrow,hins]
        | some r =>
          refine Or.inr ⟨?_,p,r.1,hp,hslot,insertRecord_inserted hwf hins,?_⟩
          · rw [← insertRecord_isSome,hins]
            rfl
          · simp [updateRecord_eq,getRecord_eq_rowAt,hrow,hins,slotAt]

/-- A count, old or new, is all that `getRecordCount` leaves in the table. -/
theorem getRecordCount_eq {fuel : ℕ} {expired : Bool} {n : UInt64}
    (h : t.getRecordCount fuel s expired = some (n,t')) : t' = { t with cachedRecordCount := n } := by
  cases expired with
  | false =>
    obtain ⟨rfl,rfl⟩ := Prod.mk.inj (Option.some.inj h)
    rfl
  | true =>
    simp only [getRecordCount,if_true,Option.bind_eq_bind,Option.bind_eq_some_iff] at h
    obtain ⟨_,_,_,_,_,_,hpair⟩ := h
    obtain ⟨rfl,rfl⟩ := Prod.mk.inj (Option.some.inj hpair)
    rfl

end Calls

section Chains

variable {s s' : Store} {o : OpenTable} {t t' : CountedTable} {fuel : ℕ} {call : TableCall}

/-- The pages follow each other as they did. -/
structure ChainKept (o : OpenTable) (s s' : Store) : Prop where
  wellFormed : s'.WellFormed
  hasLast : HasLast o s'
  nextOf : ∀ pid, s'.nextOf o.tableId pid = s.nextOf o.tableId pid

theorem nextOf_put_withDeleted {table : TableId} {pid : PageId} {p : Page} (hp : s.pages table pid = some p)
    (i : ℕ) (table' : TableId) (pid' : PageId) :
    (s.put table pid (p.withDeleted i)).nextOf table' pid' = s.nextOf table' pid' :=
  nextOf_put (q := p.withDeleted i) hp rfl table' pid'

theorem chainKept_deleted (hs : s.WellFormed) (hlast : HasLast o s) {pid : PageId} {p : Page}
    (hp : s.pages o.tableId pid = some p) (i : ℕ) :
    ChainKept o s (s.put o.tableId pid (p.withDeleted i)) :=
  ⟨hs.put hp ((hs.placed _ _ p hp).withDeleted i),hlast.put hp rfl,nextOf_put_withDeleted hp i o.tableId⟩

theorem chainKept_stored (hs : s.WellFormed) (hlast : HasLast o s) {values : List Value}
    (h : RecordStored o values s s') : ChainKept o s s' := by
  refine ⟨(h.extended hs).wellFormed,h.hasLast hlast,?_⟩
  obtain ⟨p,q,hp,hins,rfl⟩ := h
  exact nextOf_put hp hins.nextPage o.tableId

theorem chainKept_rewritten (hs : s.WellFormed) (hlast : HasLast o s) {it : TableCursor}
    {values : List Value} (h : Rewritten o it values s s') : ChainKept o s s' := by
  have hevolved := h.evolved hs
  refine ⟨hevolved.wellFormed,?_,hevolved.nextOf o.tableId⟩
  obtain ⟨p,q,hp,_,hins,rfl⟩ := h
  exact hlast.put hp hins.nextPage

/-- No call changes the chain but an insertion that puts a page behind the last one. -/
theorem exec_cases (hs : s.WellFormed) (hlast : HasLast t.toOpenTable s)
    (h : t.exec fuel s call = some (t',s')) :
    t'.toOpenTable = t.toOpenTable ∧ ChainKept t.toOpenTable s s' ∨
    ∃ values created p, call = .insertRecord values created ∧ t.Appends s values created ∧
      s.pages t.tableId t.lastPage = some p ∧
      t'.toOpenTable = (t.toOpenTable.appendNewPage s p).1 ∧
      s' = (t.toOpenTable.appendNewPage s p).2 := by
  have hsame : ChainKept t.toOpenTable s s := ⟨hs,hlast,fun _ => rfl⟩
  cases call with
  | insertRecord values created =>
    rcases insertRecord_cases hs hlast values created with ⟨r,s₁,_,hstored,hins⟩ | ⟨_,_,hins⟩ |
      ⟨p,happends,hp,hins⟩
    · rw [exec,hins] at h
      obtain ⟨rfl,rfl⟩ := Prod.mk.inj (Option.some.inj h)
      exact Or.inl ⟨rfl,chainKept_stored hs hlast hstored⟩
    · rw [exec,hins] at h
      obtain ⟨rfl,rfl⟩ := Prod.mk.inj (Option.some.inj h)
      exact Or.inl ⟨rfl,hsame⟩
    · rw [exec,hins] at h
      obtain ⟨rfl,rfl⟩ := Prod.mk.inj (Option.some.inj h)
      exact Or.inr ⟨values,created,p,rfl,happends,hp,rfl,rfl⟩
  | updateRecord rid values =>
    obtain ⟨rfl,rfl⟩ := Prod.mk.inj (Option.some.inj h)
    refine Or.inl ⟨rfl,?_⟩
    rcases updateRecord_cases hs t.toOpenTable rid values with ⟨_,hnothing⟩ |
      ⟨p,_,hp,_,⟨_,hlost⟩ | ⟨_,hre⟩⟩
    · rw [hnothing]
      exact hsame
    · rw [hlost]
      exact chainKept_deleted hs hlast hp (slotOf rid)
    · exact chainKept_rewritten hs hlast hre
  | deleteRecord rid =>
    rcases deleteRecord_cases t s rid with ⟨_,hdel⟩ | ⟨p,hp,_,hdel⟩
    · rw [exec,hdel] at h
      obtain ⟨rfl,rfl⟩ := Prod.mk.inj (Option.some.inj h)
      exact Or.inl ⟨rfl,hsame⟩
    · rw [exec,hdel] at h
      obtain ⟨rfl,rfl⟩ := Prod.mk.inj (Option.some.inj h)
      exact Or.inl ⟨rfl,chainKept_deleted hs hlast hp (slotOf rid)⟩
  | getRecordCount expired =>
    obtain ⟨⟨n,t₁⟩,hcount,heq⟩ := Option.map_eq_some_iff.mp h
    obtain ⟨rfl,rfl⟩ := Prod.mk.inj heq
    rw [getRecordCount_eq hcount]
    exact Or.inl ⟨rfl,hsame⟩

theorem exec_kept (hs : s.WellFormed) (hlast : HasLast t.toOpenTable s)
    (h : t.exec fuel s call = some (t',s')) : s'.WellFormed ∧ HasLast t'.toOpenTable s' := by
  rcases exec_cases hs hlast h with ⟨htable,hkept⟩ | ⟨_,_,p,_,_,hp,htable,rfl⟩
  · rw [htable]
    exact ⟨hkept.wellFormed,hkept.hasLast⟩
  · rw [htable]
    refine ⟨appendNewPage_wellFormed hs hp,appendedPage t.toOpenTable s p,?_,rfl⟩
    exact (appendNewPage_pages _ s p _ _).trans (if_pos ⟨rfl,rfl⟩)

end Chains

section Failures

variable {s s' : Store} {t t' : CountedTable}

theorem Reached.kept (h : Reached t s) : s.WellFormed ∧ HasLast t.toOpenTable s := by
  induction h with
  | @opened fuel s₀ s schema t hs hmake =>
    obtain ⟨⟨o,s₁⟩,hopen,heq⟩ := Option.map_eq_some_iff.mp hmake
    obtain ⟨rfl,rfl⟩ := Prod.mk.inj heq
    have hopened := OpenTable.make_opened hopen
    exact ⟨hopened.wellFormed hs,hopened.last⟩
  | step _ hexec ih => exact exec_kept ih.1 ih.2 hexec
  | @elsewhere t s s' _ hs' hpages ih =>
    refine ⟨hs',?_⟩
    unfold HasLast
    rw [hpages]
    exact ih.2

/-- Nothing is different about the table: neither its pages and their order, nor its pointers, nor
the count, nor a record. -/
structure SameTable (t : CountedTable) (s : Store) (t' : CountedTable) (s' : Store) : Prop where
  linked : ∀ pid, Linked s' t.tableId t'.firstPage pid ↔ Linked s t.tableId t.firstPage pid
  nextOf : ∀ pid, s'.nextOf t.tableId pid = s.nextOf t.tableId pid
  firstPage : t'.firstPage = t.firstPage
  lastPage : t'.lastPage = t.lastPage
  cachedRecordCount : t'.cachedRecordCount = t.cachedRecordCount
  rowAt : ∀ pid i, s'.rowAt t.tableId pid i = s.rowAt t.tableId pid i

/-- An insertion into a reached table returns, and when it fails the table is as it was unless a page
has been put behind the last one. -/
theorem insertRecord_unchanged_iff (h : Reached t s) (values : List Value) (created : Bool) :
    ∃ rid t' s', t.insertRecord s values created = some (rid,t',s') ∧
      ((rid = none → SameTable t s t' s') ↔ ¬ t.Appends s values created) := by
  obtain ⟨hs,hlast⟩ := h.kept
  rcases insertRecord_cases hs hlast values created with ⟨r,s₁,hstores,_,hins⟩ | ⟨_,hnot,hins⟩ |
    ⟨p,happends,hp,hins⟩
  · refine ⟨_,_,_,hins,iff_of_true nofun ?_⟩
    rintro ⟨_,_,hfull⟩
    rw [hstores.2] at hfull
    cases hfull
  · refine ⟨_,_,_,hins,iff_of_true (fun _ => ?_) hnot⟩
    exact ⟨fun _ => Iff.rfl,fun _ => rfl,rfl,rfl,rfl,fun _ _ => rfl⟩
  · refine ⟨_,_,_,hins,iff_of_false ?_ (not_not.mpr happends)⟩
    intro hsame
    exact lastPage_ne hs hp (hsame rfl).lastPage.symm

end Failures

section Small

/-- No page has been made yet. -/
def noPages : Store := ⟨fun _ _ => none,1⟩

theorem noPages_wellFormed : noPages.WellFormed := ⟨nofun,fun _ _ _ => rfl⟩

def oneColumnSchema : TableSchema := { TableSchema.new with columns := [ColumnSchema.new] }

/-- A table with an integer column as it is made first, with its store. -/
def fresh : CountedTable := ⟨⟨oneColumnSchema,1,1⟩,0⟩
def freshStore : Store := (noPages.createNewPage 0).2

theorem fresh_reached : Reached fresh freshStore :=
  @Reached.opened 0 noPages freshStore oneColumnSchema fresh noPages_wellFormed rfl

theorem insertRecord_unchanged_iff_fresh :
    ∃ rid t' s', fresh.insertRecord freshStore [.ofInt 7] false = some (rid,t',s') ∧
      ((rid = none → SameTable fresh freshStore t' s') ↔ ¬ fresh.Appends freshStore [.ofInt 7] false) :=
  insertRecord_unchanged_iff fresh_reached [.ofInt 7] false

/-- The insertion of an integer into a new table fails and leaves a second page behind. -/
theorem failed_insert_leaves_page :
    Reached fresh freshStore ∧ ∃ t' s',
      fresh.insertRecord freshStore [.ofInt 7] true = some (none,t',s') ∧
      ¬ Linked freshStore 0 fresh.firstPage 2 ∧ Linked s' 0 t'.firstPage 2 ∧
      ¬ SameTable fresh freshStore t' s' := by
  refine ⟨fresh_reached,_,_,rfl,?_,.next .refl (by decide),?_⟩
  · intro hlinked
    rcases hlinked.head with hsame | ⟨hne,_⟩
    · exact absurd hsame (by decide)
    · exact hne rfl
  · intro hsame
    exact absurd hsame.lastPage (by decide)

end Small

end CountedTable
end OrangeSQL
