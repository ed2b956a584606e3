import OrangeSQL.FailedStatements
import Mathlib.Order.CompletePartialOrder

/-! The rows after an UPDATE. A new version of a row is read back with more values than were
written, so an UPDATE that returns OK after it replaced a row leaves one long row more than there
were before, and the assignments alone do not make a row longer. -/
namespace OrangeSQL

open Page Store TableCursor QueryExecutor

section Types

variable {p : Page} {t : OpenTable} {values : List Value}

theorem byteType_ofCode {n : ℕ} (h : n < 256) : ByteType (DataType.ofCode n) := by
  have hcode : (DataType.ofCode n).code = n := by
    unfold DataType.ofCode
    split <;> rfl
  rw [ByteType,hcode,Nat.mod_eq_of_lt h]

theorem deserializeValue_type (p : Page) (pos : ℕ) :
    (p.deserializeValue pos).1.type = DataType.ofCode (p.bytes pos).toNat := by
  unfold deserializeValue
  dsimp only
  split <;> rfl

theorem byteType_of_mem_readValues {fuel pos stop : ℕ} {val : Value}
    (h : val ∈ p.readValues fuel pos stop) : ByteType val.type := by
  induction fuel generalizing pos with
  | zero => cases h
  | succ fuel ih =>
    unfold readValues at h
    split_ifs at h with hpos
    · rcases List.mem_cons.mp h with rfl | hrest
      · rw [deserializeValue_type]
        exact byteType_ofCode (p.bytes pos).toNat_lt
      · exact ih hrest
    · cases h

/-- What is read from a page has types that a byte stands for. -/
theorem byteType_of_rowAt {i : ℕ} (h : p.rowAt i = some values) :
    ∀ val ∈ values, ByteType val.type := by
  obtain ⟨_,_,rfl⟩ := rowAt_eq_some_iff.mp h
  intro val hval
  exact byteType_of_mem_readValues hval

end Types

section Assignments

theorem length_applyAssignments {schema : TableSchema} {row new result : List Value}
    {assignments : List Assignment} (h : applyAssignments schema row assignments new = some result) :
    result.length = new.length := by
  induction assignments generalizing new with
  | nil => rw [Option.some.inj h]
  | cons a rest ih =>
    obtain ⟨val,_,h⟩ := Option.bind_eq_some_iff.mp h
    split_ifs at h
    rw [ih h,List.length_set]

end Assignments

section Loop

variable {s s' : Store} {t : OpenTable} {it : TableCursor} {m m' : TransactionManager}
  {u : UpdateNode} {tx : Option TransactionId} {fuel : ℕ} {status : Status}

/-- The row has more values than the table has columns. -/
def Long (t : OpenTable) (row : List Value) : Prop := t.schema.columns.length < row.length

/-- A row that can be replaced is not long. -/
theorem not_long_of_valid {row new : List Value}
    (hnew : applyAssignments t.schema row u.assignments row = some new)
    (hvalid : t.validateRecord new = true) : ¬ Long t row := by
  have hlength := length_applyAssignments hnew
  have hcolumns := validateRecord_length hvalid
  unfold Long
  omega

/-- No long row goes. -/
def KeepsLong (t : OpenTable) (s s' : Store) : Prop :=
  ∀ pid i row, s.rowAt t.tableId pid i = some row → Long t row → s'.rowAt t.tableId pid i = some row

theorem keepsLong_put_withDeleted {p : Page} {row : List Value} (hs : s.WellFormed)
    (hp : s.pages t.tableId it.pageId = some p) (hslot : it.slot < p.getRecordCount)
    (hrow : s.rowAt t.tableId it.pageId it.slot = some row) (hshort : ¬ Long t row) :
    KeepsLong t s (s.put t.tableId it.pageId (p.withDeleted it.slot)) := by
  intro pid i long hlive hlong
  rw [rowAt_put_withDeleted hs hp hslot]
  split_ifs with hall
  · obtain ⟨_,rfl,rfl⟩ := hall
    obtain rfl := Option.some.inj (hrow.symm.trans hlive)
    exact absurd hlong hshort
  · exact hlive

theorem Rewritten.keepsLong {row new : List Value} (hs : s.WellFormed) (h : Rewritten t it new s s')
    (hrow : s.rowAt t.tableId it.pageId it.slot = some row) (hshort : ¬ Long t row) :
    KeepsLong t s s' := by
  obtain ⟨p,q,hp,hslot,hins,rfl⟩ := h
  have hplaced := hs.placed _ _ p hp
  intro pid i long hlive hlong
  have hkept := keepsLong_put_withDeleted hs hp hslot hrow hshort pid i long hlive hlong
  rw [rowAt_put] at hkept ⊢
  split_ifs at hkept ⊢ with hboth
  · have hi : i < (p.withDeleted it.slot).getRecordCount := (rowAt_eq_some_iff.mp hkept).1
    exact (hins.rowAt_of_lt (hplaced.wellFormed.withDeleted it.slot) hi).trans hkept
  · exact hkept

/-- The new version of the row is long. -/
theorem Rewritten.exists_long {new : List Value} (hs : s.WellFormed) (h : Rewritten t it new s s')
    (hlength : new.length = t.schema.columns.length) (hne : new ≠ [])
    (htypes : ∀ val ∈ new, ByteType val.type) :
    ∃ i row, s.rowAt t.tableId it.pageId i = none ∧ s'.rowAt t.tableId it.pageId i = some row ∧
      Long t row := by
  obtain ⟨p,q,hp,hslot,hins,rfl⟩ := h
  have hwf := (hs.placed _ _ p hp).wellFormed.withDeleted it.slot
  obtain ⟨row,hrow,hlong⟩ := hins.rowAt_new hwf hne htypes
  rw [hlength] at hlong
  refine ⟨p.getRecordCount,row,?_,?_,hlong⟩
  · rw [rowAt_of_pages hp]
    exact rowAt_of_le le_rfl
  · rw [rowAt_of_pages (put_pages_self _ _ _ _)]
    exact hrow

theorem updateRows_keepsLong (hs : s.WellFormed) (hready : Ready s t.tableId it)
    (h : updateRows u tx t fuel it s m = some (status,s',m')) : KeepsLong t s s' := by
  induction fuel generalizing it s m with
  | zero => cases h
  | succ fuel ih =>
    rcases updateRows_cases hs hready h with ⟨_,rfl,_⟩ | ⟨_,_,it',hinc,hloop⟩ |
      ⟨_,_,⟨_,rfl,_⟩ | ⟨_,row,new,hrow,hnew,hvalid,⟨p,hp,hslot,rfl,_⟩ | ⟨s₁,it',m'',hre,hinc,hloop⟩⟩⟩
    · exact fun _ _ _ hlive _ => hlive
    · exact ih hs (increment_spec hready hinc).1 hloop
    · exact fun _ _ _ hlive _ => hlive
    · exact keepsLong_put_withDeleted hs hp hslot hrow (not_long_of_valid hnew hvalid)
    · have hstep := hre.evolved hs
      have hkeep := hre.keepsLong hs hrow (not_long_of_valid hnew hvalid)
      have hrest := ih hstep.wellFormed (increment_spec (hstep.ready hready) hinc).1 hloop
      intro pid i long hlive hlong
      exact hrest pid i long (hkeep pid i long hlive hlong) hlong

/-- Where a row is replaced and the loop ends with OK, a long row is there that was not before. -/
theorem ReplacedAt.exists_long (hs : s.WellFormed) (hready : Ready s t.tableId it)
    (h : ReplacedAt u tx t fuel it s .ok s' m') {row new : List Value}
    (hrow : s.rowAt t.tableId it.pageId it.slot = some row)
    (hnew : applyAssignments t.schema row u.assignments row = some new)
    (htypes : ∀ val ∈ new, ByteType val.type) :
    ∃ i long, s.rowAt t.tableId it.pageId i = none ∧ s'.rowAt t.tableId it.pageId i = some long ∧
      Long t long := by
  obtain ⟨_,row',new',hrow',hnew',hvalid,⟨_,_,_,_,hfails⟩ | ⟨s₁,it',m'',hre,hinc,hloop⟩⟩ := h
  · exact absurd rfl hfails
  obtain rfl := Option.some.inj (hrow'.symm.trans hrow)
  obtain rfl := Option.some.inj (hnew'.symm.trans hnew)
  have hne : new' ≠ [] := by
    rw [← List.length_pos_iff,length_applyAssignments hnew,List.length_pos_iff]
    obtain ⟨p,_,hread⟩ := Option.bind_eq_some_iff.mp hrow
    exact ne_nil_of_rowAt hread
  obtain ⟨i,long,hnone,hlive,hlong⟩ := hre.exists_long hs (validateRecord_length hvalid) hne htypes
  have hstep := hre.evolved hs
  have hready' := (increment_spec (hstep.ready hready) hinc).1
  exact ⟨i,long,hnone,updateRows_keepsLong hstep.wellFormed hready' hloop _ _ _ hlive hlong,hlong⟩

/-- A loop that ends with OK leaves the store alone, and then no row in front of the iterator
satisfies the condition; or it replaces such a row, and there is a new long row. -/
theorem updateRows_ok (hs : s.WellFormed) (hready : Ready s t.tableId it)
    (h : updateRows u tx t fuel it s m = some (.ok,s',m')) :
    s' = s ∧ (∀ pid i row, Ahead s t.tableId it pid i → s.rowAt t.tableId pid i = some row →
      matchesWhere u.whereClause row ≠ some true) ∨
    ∃ pid i row new, it.pageId ≠ invalidPageId ∧ Linked s t.tableId it.pageId pid ∧
      s.rowAt t.tableId pid i = some row ∧ matchesWhere u.whereClause row = some true ∧
      applyAssignments t.schema row u.assignments row = some new ∧
      ((∀ val ∈ new, ByteType val.type) → ∃ j long, s.rowAt t.tableId pid j = none ∧
        s'.rowAt t.tableId pid j = some long ∧ Long t long) := by
  rcases updateRows_first hs hready h with ⟨_,_,hsame,hnone⟩ |
    ⟨it',_,hready',hlinked,hmatch,⟨_,_,hfails⟩ | ⟨_,hreplaced⟩⟩
  · exact Or.inl ⟨hsame,hnone⟩
  · exact absurd rfl hfails
  have hparts := hreplaced
  obtain ⟨hid,row,new,hrow,hnew,_⟩ := hparts
  rw [hready'.row_eq hid,hrow,Option.getD_some] at hmatch
  obtain ⟨hid',hmet⟩ := hlinked hid
  exact Or.inr ⟨it'.pageId,it'.slot,row,new,hid',hmet,hrow,hmatch,hnew,
    hreplaced.exists_long hs hready' hrow hnew⟩

end Loop

section Count

/-- A bijection onto a finite set cannot respect a property that more elements have there. -/
theorem not_ssubset_of_bijOn {α : Type*} {before after : Set α} {e : α → α} (P : α → Prop)
    (h : Set.BijOn e before after) (hfinite : after.Finite)
    (hP : ∀ x ∈ before, (P (e x) ↔ P x)) : ¬ {x ∈ before | P x} ⊂ {x ∈ after | P x} := by
  intro hssubset
  have hbij : Set.BijOn e {x ∈ before | P x} {x ∈ after | P x} := by
    refine ⟨fun x hx => ⟨h.mapsTo hx.1,(hP x hx.1).mpr hx.2⟩,h.injOn.mono fun x hx => hx.1,?_⟩
    rintro y ⟨hy,hPy⟩
    obtain ⟨x,hx,rfl⟩ := h.surjOn hy
    exact ⟨x,⟨hx,(hP x hx).mp hPy⟩,rfl⟩
  have hlt := Set.ncard_lt_ncard hssubset (hfinite.subset fun x hx => hx.1)
  rw [hbij.ncard_eq] at hlt
  exact lt_irrefl _ hlt

theorem Store.WellFormed.finite_liveRows {s : Store} (hs : s.WellFormed) (table : TableId) :
    (s.liveRows table).Finite := by
  have hslots : (Set.Iio s.nextPageId ×ˢ Set.Iio (2^16 : ℕ)).Finite :=
    (Set.finite_Iio _).prod (Set.finite_Iio _)
  refine (hslots.image fun x => (x.1,x.2,(s.rowAt table x.1 x.2).getD [])).subset ?_
  rintro ⟨pid,i,row⟩ ⟨_,hrow⟩
  have hi : i < 2^16 := Nat.lt_trans (lt_countOf_of_rowAt hrow) (s.countOf_lt table pid)
  have hpid : pid < s.nextPageId := by
    by_contra hge
    rw [Store.rowAt,hs.fresh table pid (Nat.not_lt.mp hge)] at hrow
    cases hrow
  refine ⟨(pid,i),⟨hpid,hi⟩,?_⟩
  have hrow' : s.rowAt table pid i = some row := hrow
  simp only [hrow',Option.getD_some]

end Count

namespace QueryExecutor

/-- The row as the statement should leave it. -/
def updatedRow (u : UpdateNode) (schema : TableSchema) (row : List Value) : Option (List Value) :=
  if matchesWhere u.whereClause row = some true then applyAssignments schema row u.assignments row
  else some row

/-- The rows afterwards are, as a multiset, the rows before with the assignments applied once to
those that satisfied the condition: they correspond one to one. -/
def UpdatesOnce (db db' : Database) (u : UpdateNode) : Prop :=
  ∀ schema, db.catalog.tables.lookup u.table = some schema →
    ∃ e, Set.BijOn e (db.store.liveRows schema.id.toNat) (db'.store.liveRows schema.id.toNat) ∧
      ∀ x ∈ db.store.liveRows schema.id.toNat, updatedRow u schema x.2.2 = some (e x).2.2

/-- No live row of the table satisfies the condition. -/
def NoneSatisfies (db : Database) (u : UpdateNode) : Prop :=
  ∀ schema, db.catalog.tables.lookup u.table = some schema →
    ∀ x ∈ db.store.liveRows schema.id.toNat, matchesWhere u.whereClause x.2.2 ≠ some true

variable {fuel : ℕ} {db db' : Database} {u : UpdateNode}

theorem length_updatedRow {schema : TableSchema} {row new : List Value}
    (h : updatedRow u schema row = some new) : new.length = row.length := by
  unfold updatedRow at h
  split_ifs at h
  · exact length_applyAssignments h
  · rw [Option.some.inj h]

theorem updatesOnce_of_sameRows (hsame : SameRows db db') (hnone : NoneSatisfies db u) :
    UpdatesOnce db db' u := by
  intro schema hlook
  refine ⟨id,?_,?_⟩
  · rw [hsame]
    exact Set.bijOn_id _
  · intro x hx
    rw [updatedRow,if_neg (hnone schema hlook x hx),id]

/-- A long row more than before cannot come from the assignments. -/
theorem not_updatesOnce_of_long {schema : TableSchema} (t : OpenTable) (hs : db'.store.WellFormed)
    (hlook : db.catalog.tables.lookup u.table = some schema)
    (hkeep : ∀ x ∈ db.store.liveRows schema.id.toNat, Long t x.2.2 →
      x ∈ db'.store.liveRows schema.id.toNat)
    (hnew : ∃ x ∈ db'.store.liveRows schema.id.toNat,
      x ∉ db.store.liveRows schema.id.toNat ∧ Long t x.2.2) : ¬ UpdatesOnce db db' u := by
  intro hupdates
  obtain ⟨e,hbij,hrows⟩ := hupdates schema hlook
  have hlong : ∀ x ∈ db.store.liveRows schema.id.toNat, (Long t (e x).2.2 ↔ Long t x.2.2) := by
    intro x hx
    rw [Long,length_updatedRow (hrows x hx),Long]
  refine not_ssubset_of_bijOn (fun x => Long t x.2.2) hbij (hs.finite_liveRows _) hlong ?_
  rw [Set.ssubset_iff_exists]
  obtain ⟨x,hx,hold,hlongx⟩ := hnew
  refine ⟨fun y hy => ⟨hkeep y hy.1 hy.2,hy.2⟩,x,⟨hx,hlongx⟩,?_⟩
  intro hx'
  exact hold hx'.1

/-- An UPDATE that returns OK leaves the rows alone, as none satisfies the condition; or one does,
and then they are not the updated ones. -/
theorem executeUpdate_ok {tx : Option TransactionId} (hs : db.store.WellFormed)
    (h : executeUpdate fuel db tx u = some (.ok,db')) :
    UpdatesOnce db db' u ∧ NoneSatisfies db u ∨ ¬ UpdatesOnce db db' u ∧ ¬ NoneSatisfies db u := by
  rcases withTable_cases h with ⟨hnone,rfl⟩ | ⟨schema,t,s,s',m,hlook,hmake,hwork,rfl⟩
  · have habsent : ∀ schema, db'.catalog.tables.lookup u.table ≠ some schema := by
      intro schema
      rw [hnone]
      nofun
    exact Or.inl ⟨fun schema hlook => absurd hlook (habsent schema),
      fun schema hlook => absurd hlook (habsent schema)⟩
  have ho := OpenTable.make_opened hmake
  have hs₁ := ho.wellFormed hs
  obtain ⟨it,hbegin,hloop⟩ := Option.bind_eq_some_iff.mp hwork
  obtain ⟨hready,hstart,_⟩ := OpenTable.begin_spec hs₁ hbegin
  have htable : schema.id.toNat = t.tableId := by rw [OpenTable.tableId,ho.schema]
  have hbefore : db.store.liveRows schema.id.toNat = s.liveRows t.tableId := by
    rw [htable,ho.liveRows hs]
  rcases updateRows_ok hs₁ hready hloop with ⟨rfl,hahead⟩ |
    ⟨pid,i,row,new,hid,hmet,hrow,hmatch,hnew,hlong⟩
  · have hnone : NoneSatisfies db u := by
      intro schema' hlook' x hx
      obtain rfl := Option.some.inj (hlook'.symm.trans hlook)
      rw [hbefore] at hx
      exact hahead x.1 x.2.1 x.2.2 (ho.ahead_of_live hs hbegin hx) hx.2
    exact Or.inl ⟨updatesOnce_of_sameRows (fun table => ho.liveRows hs table) hnone,hnone⟩
  · have hevolved := updateRows_evolved hs₁ hready hloop
    have hkeep := updateRows_keepsLong hs₁ hready hloop
    have hlinked := linked_congr (hevolved.nextOf t.tableId) 0
    have hlive := ho.live_of_linked hs ((hstart hid).trans hmet) hrow
    refine Or.inr ⟨?_,fun hnone => hnone schema hlook _ (hbefore ▸ hlive) hmatch⟩
    intro hupdates
    have htypes : ∀ val ∈ new, ByteType val.type := by
      obtain ⟨e,hbij,hrows⟩ := hupdates schema hlook
      rw [hbefore] at hbij hrows
      have hupdated := hrows _ hlive
      rw [updatedRow,if_pos hmatch,← ho.schema,hnew] at hupdated
      have hlive' := (hbij.mapsTo hlive).2
      rw [← Option.some.inj hupdated] at hlive'
      obtain ⟨p,_,hread⟩ := Option.bind_eq_some_iff.mp hlive'
      exact byteType_of_rowAt hread
    obtain ⟨j,long,hfree,hlive',hlong⟩ := hlong htypes
    refine not_updatesOnce_of_long t hevolved.wellFormed hlook ?_ ?_ hupdates
    · rw [hbefore,htable]
      exact fun x hx hlongx => ⟨(hlinked x.1).mpr hx.1,hkeep _ _ _ hx.2 hlongx⟩
    · rw [hbefore,htable]
      refine ⟨(pid,j,long),⟨(hlinked pid).mpr hlive.1,hlive'⟩,?_,hlong⟩
      intro hold
      have hrow' := hold.2
      rw [hfree] at hrow'
      cases hrow'

theorem execute_update_ok {around : Surroundings} (hs : db.store.WellFormed)
    (h : execute fuel db around (.update u) = some (.ok,db')) :
    UpdatesOnce db db' u ∧ NoneSatisfies db u ∨ ¬ UpdatesOnce db db' u ∧ ¬ NoneSatisfies db u := by
  obtain ⟨tx,m,db₁,hrun,_,hstore⟩ := execute_cases h
  have hok := @executeUpdate_ok fuel { db with manager := m } db₁ u tx hs hrun
  simp only [UpdatesOnce,NoneSatisfies] at hok ⊢
  rwa [hstore]

/-- An UPDATE that returns OK has updated each row once just when no live row satisfied its
condition. -/
theorem updatesOnce_iff {around : Surroundings} (hs : db.store.WellFormed)
    (h : execute fuel db around (.update u) = some (.ok,db')) :
    UpdatesOnce db db' u ↔ NoneSatisfies db u := by
  rcases execute_update_ok hs h with ⟨hupdates,hnone⟩ | ⟨hupdates,hnone⟩
  · exact iff_of_true hupdates hnone
  · exact iff_of_false hupdates hnone

section Small

/-- A page with the number 5, without spare bytes, in front of a page without records. -/
def fivePage : Page :=
  let p : Page := { roomyPage with
    header.recordCount := 1
    header.freeSpaceOffset := 72
    header.freeSpaceEnd := 4091
    bytes := Bytes.writeMem roomyPage.bytes 4091 (serializeValue (.ofInt 5)) }
  (p.setSlot 0 ⟨4091,5,0,0⟩).setNextPage 1

def twoPageDatabase : Database :=
  let db := onePageDatabase fivePage
  { db with store := (db.store.createNewPage 1).2 }

def setNine (n : Int32) : UpdateNode :=
  ⟨"t".toList,[⟨"c".toList,.literal (.ofInt 9)⟩],
    some ⟨.binary .EQ (.columnRef [] "c".toList) (some (.literal (.ofInt n)))⟩⟩

theorem fivePage_placed : Placed 0 fivePage := by
  refine ⟨⟨by decide,by decide,by decide,?_⟩,rfl,Or.inl (by decide)⟩
  intro i hi _
  have hzero : i = 0 := Nat.lt_one_iff.mp hi
  subst hzero
  decide

theorem twoPageDatabase_wellFormed : twoPageDatabase.store.WellFormed :=
  (onePageDatabase_wellFormed fivePage_placed).createNewPage 1

theorem rowAt_fivePage : fivePage.rowAt 0 = some [.ofInt 5] := by decide

theorem rowAt_twoPageDatabase {pid : PageId} {i : ℕ} {row : List Value}
    (h : twoPageDatabase.store.rowAt 1 pid i = some row) : row = [.ofInt 5] := by
  have hold := (rowAt_createNewPage (onePageDatabase_wellFormed fivePage_placed) 1 1 pid i).symm.trans h
  obtain ⟨p,hp,hrow⟩ := Option.bind_eq_some_iff.mp hold
  obtain ⟨_,hsome⟩ := Option.ite_none_right_eq_some.mp hp
  obtain rfl := Option.some.inj hsome
  have hzero : i = 0 := Nat.lt_one_iff.mp (rowAt_eq_some_iff.mp hrow).1
  subst hzero
  exact (Option.some.inj (rowAt_fivePage.symm.trans hrow)).symm

theorem updatesOnce_iff_six :
    ∃ db', execute 6 twoPageDatabase quiet (.update (setNine 6)) = some (.ok,db') ∧
      UpdatesOnce twoPageDatabase db' (setNine 6) := by
  have hrun : ∃ db', execute 6 twoPageDatabase quiet (.update (setNine 6)) = some (.ok,db') :=
    ⟨_,rfl⟩
  obtain ⟨db',hrun⟩ := hrun
  refine ⟨db',hrun,(updatesOnce_iff twoPageDatabase_wellFormed hrun).mpr ?_⟩
  intro schema hlook x hx
  obtain rfl := Option.some.inj (hlook.symm.trans (onePageDatabase_lookup fivePage))
  rw [rowAt_twoPageDatabase hx.2]
  decide

/-- The number 9 is read back with two values more. -/
theorem nine_with_spare_values :
    ∃ db', twoPageDatabase.store.WellFormed ∧
      execute 6 twoPageDatabase quiet (.update (setNine 5)) = some (.ok,db') ∧
      ¬ UpdatesOnce twoPageDatabase db' (setNine 5) := by
  have hrun : ∃ db', execute 6 twoPageDatabase quiet (.update (setNine 5)) = some (.ok,db') :=
    ⟨_,rfl⟩
  obtain ⟨db',hrun⟩ := hrun
  refine ⟨db',twoPageDatabase_wellFormed,hrun,?_⟩
  have hlive : (0,0,[.ofInt 5]) ∈ twoPageDatabase.store.liveRows 1 := ⟨.refl,rowAt_fivePage⟩
  rcases execute_update_ok twoPageDatabase_wellFormed hrun with ⟨_,hnone⟩ | ⟨hnot,_⟩
  · exact absurd rfl (hnone numbers (onePageDatabase_lookup fivePage) _ hlive)
  · exact hnot

end Small

end QueryExecutor
end OrangeSQL
