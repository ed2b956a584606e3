import OrangeSQL.StatementEffects

/-! Statements that fail. An abort undoes nothing, so such a statement has changed no row just when
it failed before its first change. -/
namespace OrangeSQL

open Page Store TableCursor QueryExecutor

namespace QueryExecutor

/-- Nothing is deleted by this DELETE, as no live row satisfies its condition. -/
def DeleteHarmless (db : Database) (node : DeleteNode) : Prop :=
  ∀ schema, db.catalog.tables.lookup node.table = some schema →
    ∀ x ∈ db.store.liveRows schema.id.toNat, matchesWhere node.whereClause x.2.2 ≠ some true

/-- The first slot whose row satisfies the condition of this UPDATE holds no row that is valid
after the assignments. -/
def UpdateHarmless (fuel : ℕ) (db : Database) (node : UpdateNode) : Prop :=
  ∀ schema t s it it', db.catalog.tables.lookup node.table = some schema →
    OpenTable.make fuel db.store schema = some (t,s) → t.begin fuel s = some it →
    firstMatch node.whereClause s t.tableId fuel it = some it' → ¬ Replaceable node t s it'

/-- The first record of this INSERT is not stored as a row. -/
def InsertHarmless (fuel : ℕ) (db : Database) (node : InsertNode) : Prop :=
  ∀ schema t s, db.catalog.tables.lookup node.table = some schema →
    OpenTable.make fuel db.store schema = some (t,s) → FirstRefused node.values t s

/-- A condition on the state before the statement. -/
def Harmless (fuel : ℕ) (db : Database) : RowStatement → Prop
  | .insert node => InsertHarmless fuel db node
  | .update node => UpdateHarmless fuel db node
  | .delete node => DeleteHarmless db node
  | .begin _ | .commit _ | .rollback _ => True

/-- The name of the table that a statement is about. -/
def tableOf : RowStatement → Option Text
  | .insert node => some node.table
  | .update node => some node.table
  | .delete node => some node.table
  | .begin _ | .commit _ | .rollback _ => none

/-- The live rows of all tables are the same. -/
def SameRows (db db' : Database) : Prop := ∀ table, db'.store.liveRows table = db.store.liveRows table

/-- The live rows of a table are the same. -/
def SameTable (db db' : Database) (name : Text) : Prop :=
  ∀ schema, db.catalog.tables.lookup name = some schema →
    db'.store.liveRows schema.id.toNat = db.store.liveRows schema.id.toNat

section Tables

variable {fuel : ℕ} {db db' : Database} {tx : Option TransactionId} {status : Status} {name : Text}

theorem withTable_cases {work : OpenTable → Store → Option (Status × Store × TransactionManager)}
    (h : withTable fuel db name work = some (status,db')) :
    db.catalog.tables.lookup name = none ∧ db' = db ∨
    ∃ schema t s s' m, db.catalog.tables.lookup name = some schema ∧
      OpenTable.make fuel db.store schema = some (t,s) ∧ work t s = some (status,s',m) ∧
      db' = { db with store := s', manager := m } := by
  unfold withTable at h
  cases hlook : db.catalog.tables.lookup name with
  | none =>
    rw [hlook] at h
    exact Or.inl ⟨rfl,(Prod.mk.inj (Option.some.inj h)).2.symm⟩
  | some schema =>
    rw [hlook] at h
    obtain ⟨⟨t,s⟩,hmake,h⟩ := Option.bind_eq_some_iff.mp h
    obtain ⟨⟨status',s',m⟩,hwork,h⟩ := Option.bind_eq_some_iff.mp h
    obtain ⟨rfl,rfl⟩ := Prod.mk.inj (Option.some.inj h)
    exact Or.inr ⟨schema,t,s,s',m,rfl,hmake,hwork,rfl⟩

/-- A DELETE takes the live rows that satisfy its condition, and no others, whatever its status
is. -/
theorem executeDelete_spec {node : DeleteNode} (hs : db.store.WellFormed)
    (h : executeDelete fuel db tx node = some (status,db')) :
    db'.store.WellFormed ∧ ∀ table x, x ∈ db'.store.liveRows table ↔ x ∈ db.store.liveRows table ∧
      ¬ (matchesWhere node.whereClause x.2.2 = some true ∧
        ∃ schema, db.catalog.tables.lookup node.table = some schema ∧ schema.id.toNat = table) := by
  rcases withTable_cases h with ⟨hnone,rfl⟩ | ⟨schema,t,s,s',m,hlook,hmake,hwork,rfl⟩
  · exact ⟨hs,fun table x => by simp [hnone]⟩
  have ho := OpenTable.make_opened hmake
  have hs₁ := ho.wellFormed hs
  obtain ⟨it,hbegin,hloop⟩ := Option.bind_eq_some_iff.mp hwork
  obtain ⟨hthin,hgone⟩ := deleteRows_spec hs₁ (OpenTable.begin_spec hs₁ hbegin).1 hloop
  refine ⟨hthin.wellFormed,?_⟩
  rintro table ⟨pid,i,row⟩
  rw [← ho.liveRows hs table]
  have hlinked := linked_congr (hthin.nextOf table) 0 pid
  constructor
  · rintro ⟨hpid,hrow⟩
    have hold : s.rowAt table pid i = some row := by
      rcases hthin.rowAt table pid i with hsame | ⟨_,hnone,_⟩
      · exact hsame.symm.trans hrow
      · rw [hnone] at hrow
        cases hrow
    have hlive : (pid,i,row) ∈ s.liveRows table := ⟨hlinked.mp hpid,hold⟩
    refine ⟨hlive,?_⟩
    rintro ⟨hmatch,schema',hlook',hid⟩
    obtain rfl := Option.some.inj (hlook'.symm.trans hlook)
    have htable : table = t.tableId := by rw [← hid,OpenTable.tableId,ho.schema]
    subst htable
    have hnone := hgone pid i row (ho.ahead_of_live hs hbegin hlive) hold hmatch
    rw [hnone] at hrow
    cases hrow
  · rintro ⟨⟨hpid,hrow⟩,hkept⟩
    refine ⟨hlinked.mpr hpid,?_⟩
    rcases hthin.rowAt table pid i with hsame | ⟨rfl,_,hmatch⟩
    · exact hsame.trans hrow
    · refine absurd ⟨hmatch row hrow,schema,hlook,?_⟩ hkept
      rw [OpenTable.tableId,ho.schema]

theorem executeDelete_sameRows {node : DeleteNode} (hs : db.store.WellFormed)
    (h : executeDelete fuel db tx node = some (status,db')) (hharmless : DeleteHarmless db node) :
    SameRows db db' := by
  obtain ⟨_,hrows⟩ := executeDelete_spec hs h
  intro table
  ext x
  rw [hrows]
  refine and_iff_left_of_imp ?_
  rintro hx ⟨hmatch,schema,hlook,rfl⟩
  exact hharmless schema hlook x hx hmatch

theorem deleteHarmless_of_sameTable {node : DeleteNode} (hs : db.store.WellFormed)
    (h : executeDelete fuel db tx node = some (status,db')) (hsame : SameTable db db' node.table) :
    DeleteHarmless db node := by
  obtain ⟨_,hrows⟩ := executeDelete_spec hs h
  intro schema hlook x hx hmatch
  rw [← hsame schema hlook] at hx
  exact ((hrows _ x).mp hx).2 ⟨hmatch,schema,hlook,rfl⟩

/-- An UPDATE that changes a row has the first match replaced. -/
theorem executeUpdate_spec {node : UpdateNode} (hs : db.store.WellFormed)
    (h : executeUpdate fuel db tx node = some (status,db')) :
    db'.store.WellFormed ∧ (UpdateHarmless fuel db node → SameRows db db') ∧
      (SameTable db db' node.table → UpdateHarmless fuel db node) := by
  rcases withTable_cases h with ⟨hnone,rfl⟩ | ⟨schema,t,s,s',m,hlook,hmake,hwork,rfl⟩
  · refine ⟨hs,fun _ _ => rfl,fun _ => ?_⟩
    intro schema t s it it' hlook
    rw [hnone] at hlook
    cases hlook
  have ho := OpenTable.make_opened hmake
  have hs₁ := ho.wellFormed hs
  obtain ⟨it,hbegin,hloop⟩ := Option.bind_eq_some_iff.mp hwork
  obtain ⟨hready,hstart,_⟩ := OpenTable.begin_spec hs₁ hbegin
  refine ⟨(updateRows_evolved hs₁ hready hloop).wellFormed,?_,?_⟩
  · intro hharmless table
    refine Eq.trans (congrArg (fun s : Store => s.liveRows table) ?_) (ho.liveRows hs table)
    rcases updateRows_first hs₁ hready hloop with ⟨_,_,rfl,_⟩ |
      ⟨it',hfirst,_,_,_,⟨_,rfl,_⟩ | ⟨_,hreplaced⟩⟩
    · rfl
    · rfl
    · exact absurd hreplaced.replaceable (hharmless schema t s it it' hlook hmake hbegin hfirst)
  · intro hsame schema' t' s₁ it₁ it' hlook' hmake' hbegin' hfirst'
    obtain rfl := Option.some.inj (hlook'.symm.trans hlook)
    obtain ⟨rfl,rfl⟩ := Prod.mk.inj (Option.some.inj (hmake'.symm.trans hmake))
    obtain rfl := Option.some.inj (hbegin'.symm.trans hbegin)
    rcases updateRows_first hs₁ hready hloop with ⟨hnone,_⟩ |
      ⟨it'',hfirst,hready',hlinked,_,⟨hnot,_⟩ | ⟨_,hreplaced⟩⟩
    · rw [hfirst'] at hnone
      cases hnone
    · obtain rfl := Option.some.inj (hfirst'.symm.trans hfirst)
      exact hnot
    · have hgone := hreplaced.rowAt_old hs₁ hready'
      obtain ⟨hid,row,_,hrow,_⟩ := hreplaced
      obtain ⟨hid',hmet⟩ := hlinked hid
      have hlive := ho.live_of_linked hs ((hstart hid').trans hmet) hrow
      have htable : schema'.id.toNat = t'.tableId := by rw [OpenTable.tableId,ho.schema]
      have hkept := hsame schema' hlook'
      rw [htable,← ho.liveRows hs t'.tableId] at hkept
      rw [← hkept] at hlive
      have hstill := hlive.2
      rw [hgone] at hstill
      cases hstill

theorem executeInsert_spec {node : InsertNode} (hs : db.store.WellFormed)
    (h : executeInsert fuel db tx node = some (status,db')) :
    db'.store.WellFormed ∧ (InsertHarmless fuel db node → SameRows db db') ∧
      (SameTable db db' node.table → InsertHarmless fuel db node) := by
  rcases withTable_cases h with ⟨hnone,rfl⟩ | ⟨schema,t,s,s',m,hlook,hmake,hwork,rfl⟩
  · refine ⟨hs,fun _ _ => rfl,fun _ => ?_⟩
    intro schema t s hlook
    rw [hnone] at hlook
    cases hlook
  have ho := OpenTable.make_opened hmake
  have hs₁ := ho.wellFormed hs
  have hlast : HasLast t s := ho.last
  refine ⟨(insertRows_extended hs₁ hlast hwork).wellFormed,?_,?_⟩
  · intro hharmless table
    exact (insertRows_liveRows hs₁ hlast (hharmless schema t s hlook hmake) hwork table).trans
      (ho.liveRows hs table)
  · intro hsame schema' t' s₁ hlook' hmake'
    obtain rfl := Option.some.inj (hlook'.symm.trans hlook)
    obtain ⟨rfl,rfl⟩ := Prod.mk.inj (Option.some.inj (hmake'.symm.trans hmake))
    rcases ho.pages with ⟨_,hfirst⟩ | ⟨_,hcreated,_,hlastPage⟩
    · by_contra hstored
      have hlinked := ho.linked
      rw [hfirst] at hlinked
      obtain ⟨x,hx,hnot⟩ := insertRows_exists_live hs₁ hlast hlinked hstored hwork
      have htable : schema'.id.toNat = t'.tableId := by rw [OpenTable.tableId,ho.schema]
      have hkept := hsame schema' hlook'
      rw [htable,← ho.liveRows hs t'.tableId] at hkept
      rw [hkept] at hx
      exact hnot hx
    · intro exprs rest values _ _ _
      refine Or.inr fun p hp => ?_
      rw [hcreated,hlastPage,createNewPage_pages,if_pos ⟨rfl,rfl⟩] at hp
      have hspent := (spent_new db.store.nextPageId t'.tableId).setType .dataPage
      rw [Option.some.inj hp] at hspent
      exact hspent.hasSpaceFor (recordSize values)

end Tables

section Statements

variable {fuel : ℕ} {db db' : Database} {around : Surroundings} {status : Status}
  {statement : RowStatement}

/-- The statement leaves the rows of its table alone. -/
def Unchanged (db db' : Database) (statement : RowStatement) : Prop :=
  ∀ name, tableOf statement = some name → SameTable db db' name

theorem executeStatement_spec {tx : Option TransactionId} (hs : db.store.WellFormed)
    (h : executeStatement fuel db tx statement = some (status,db')) :
    db'.store.WellFormed ∧ (Harmless fuel db statement → SameRows db db') ∧
      (Unchanged db db' statement → Harmless fuel db statement) := by
  cases statement with
  | insert node =>
    obtain ⟨hwf,hsame,hharmless⟩ := executeInsert_spec hs h
    exact ⟨hwf,hsame,fun hun => hharmless (hun node.table rfl)⟩
  | update node =>
    obtain ⟨hwf,hsame,hharmless⟩ := executeUpdate_spec hs h
    exact ⟨hwf,hsame,fun hun => hharmless (hun node.table rfl)⟩
  | delete node =>
    exact ⟨(executeDelete_spec hs h).1,executeDelete_sameRows hs h,
      fun hun => deleteHarmless_of_sameTable hs h (hun node.table rfl)⟩
  | begin node | commit node | rollback node =>
    obtain rfl := (Prod.mk.inj (Option.some.inj h)).2
    exact ⟨hs,fun _ _ => rfl,fun _ => trivial⟩

theorem harmless_congr (hcatalog : db'.catalog = db.catalog) (hstore : db'.store = db.store) :
    Harmless fuel db' statement ↔ Harmless fuel db statement := by
  cases statement <;>
    simp only [Harmless,InsertHarmless,UpdateHarmless,DeleteHarmless,hcatalog,hstore]

/-- Around the statement only the transaction changes. -/
theorem execute_cases (h : execute fuel db around statement = some (status,db')) :
    ∃ tx m db₁, executeStatement fuel { db with manager := m } tx statement = some (status,db₁) ∧
      db'.catalog = db₁.catalog ∧ db'.store = db₁.store := by
  unfold execute at h
  generalize db.manager.begin .repeatableRead .readWrite around.now = r at h
  obtain ⟨tx,m⟩ := r
  obtain ⟨⟨status',db₁⟩,hrun,h⟩ := Option.bind_eq_some_iff.mp h
  obtain ⟨rfl,rfl⟩ := Prod.mk.inj (Option.some.inj h)
  exact ⟨tx,m,db₁,hrun,rfl,rfl⟩

theorem execute_spec (hs : db.store.WellFormed)
    (h : execute fuel db around statement = some (status,db')) :
    db'.store.WellFormed ∧ (Harmless fuel db statement → SameRows db db') ∧
      (Unchanged db db' statement → Harmless fuel db statement) := by
  obtain ⟨tx,m,db₁,hrun,_,hstore⟩ := execute_cases h
  have hspec := @executeStatement_spec _ { db with manager := m } _ _ _ _ hs hrun
  rw [@harmless_congr _ db { db with manager := m } _ rfl rfl] at hspec
  simp only [SameRows,Unchanged,SameTable] at hspec ⊢
  rwa [hstore]

/-- A statement that returns leaves the rows of its table alone just when it is harmless. -/
theorem unchanged_iff_harmless (hs : db.store.WellFormed)
    (h : execute fuel db around statement = some (status,db')) :
    Unchanged db db' statement ↔ Harmless fuel db statement := by
  obtain ⟨_,hsame,hharmless⟩ := execute_spec hs h
  constructor
  · exact hharmless
  · intro hharmless name _ schema _
    exact hsame hharmless schema.id.toNat

def Fails (fuel : ℕ) (db : Database) (around : Surroundings) (statement : RowStatement) : Prop :=
  ∃ status db', execute fuel db around statement = some (status,db') ∧ status ≠ .ok

/-- A failure of the statement leaves the rows of its table as they were. -/
def FailsUnchanged (fuel : ℕ) (db : Database) (around : Surroundings) (statement : RowStatement) :
    Prop :=
  ∀ status db', execute fuel db around statement = some (status,db') → status ≠ .ok →
    Unchanged db db' statement

/-- A statement that fails has changed nothing just when it would have been harmless anyway. -/
theorem failsUnchanged_iff (hs : db.store.WellFormed) (hfails : Fails fuel db around statement) :
    FailsUnchanged fuel db around statement ↔ Harmless fuel db statement := by
  obtain ⟨status,db',h,hstatus⟩ := hfails
  constructor
  · intro hunchanged
    exact (unchanged_iff_harmless hs h).mp (hunchanged status db' h hstatus)
  · intro hharmless status' db'' h' _
    exact (unchanged_iff_harmless hs h').mpr hharmless

end Statements

section Small

/-- An empty page with room for records. -/
def roomyPage : Page := { Page.new 0 1 with header.freeSpaceOffset := 64 }

def numbers : TableSchema := ⟨1,"t".toList,[{ ColumnSchema.new with name := "c".toList }],[],∅,∅⟩

/-- A table with an integer column, on a single page. -/
def onePageDatabase (p : Page) : Database :=
  ⟨(Catalog.new.createTable "t".toList numbers).2,
    ⟨fun table pid => if table = 1 ∧ pid = 0 then some p else none,1⟩,
    TransactionManager.new (BufferPool.new 1 Disk.empty 1) (LogManager.new .normal)⟩

def quiet : Surroundings := ⟨0,[],[],[]⟩

theorem onePageDatabase_lookup (p : Page) :
    (onePageDatabase p).catalog.tables.lookup "t".toList = some numbers := rfl

theorem onePageDatabase_wellFormed {p : Page} (h : Placed 0 p) :
    (onePageDatabase p).store.WellFormed := by
  constructor
  · intro table pid q hq
    obtain ⟨⟨_,rfl⟩,hsome⟩ := Option.ite_none_right_eq_some.mp hq
    exact Option.some.inj hsome ▸ h
  · intro table pid hpid
    refine if_neg fun hboth => ?_
    rw [hboth.2] at hpid
    exact absurd hpid (Nat.not_succ_le_zero 0)

theorem roomyPage_placed : Placed 0 roomyPage :=
  ⟨⟨by decide,by decide,by decide,fun i hi => absurd hi (Nat.not_lt_zero i)⟩,rfl,Or.inl (by decide)⟩

def insertValues (rows : List (List Value)) : RowStatement :=
  .insert ⟨"t".toList,[],rows.map fun row => row.map .literal,none⟩

/-- A truth value is refused in an integer column. -/
theorem boolean_harmless (fuel : ℕ) :
    Harmless fuel (onePageDatabase roomyPage) (insertValues [[.ofBool true]]) := by
  intro schema t s hlook hmake exprs rest values hrows hvalues hvalid
  obtain rfl := Option.some.inj (hlook.symm.trans (onePageDatabase_lookup roomyPage))
  obtain ⟨rfl,rfl⟩ := List.cons.inj hrows
  obtain rfl := Option.some.inj hvalues
  obtain ⟨schema,first,last⟩ := t
  obtain rfl := (OpenTable.make_opened hmake).schema
  have hinvalid : OpenTable.validateRecord ⟨numbers,first,last⟩ [.ofBool true] = false := rfl
  exact absurd (hvalid.symm.trans hinvalid) (by decide)

theorem failsUnchanged_iff_boolean :
    FailsUnchanged 2 (onePageDatabase roomyPage) quiet (insertValues [[.ofBool true]]) := by
  have hfails : Fails 2 (onePageDatabase roomyPage) quiet (insertValues [[.ofBool true]]) :=
    ⟨.error,_,rfl,nofun⟩
  exact (failsUnchanged_iff (onePageDatabase_wellFormed roomyPage_placed) hfails).mpr
    (boolean_harmless 2)

/-- The first of two rows stays when the second one is refused. -/
theorem first_row_stays :
    (onePageDatabase roomyPage).store.WellFormed ∧
    Fails 2 (onePageDatabase roomyPage) quiet (insertValues [[.ofInt 7],[.ofBool true]]) ∧
    ¬ FailsUnchanged 2 (onePageDatabase roomyPage) quiet
      (insertValues [[.ofInt 7],[.ofBool true]]) := by
  have hs := onePageDatabase_wellFormed roomyPage_placed
  have hrun : ∃ db', execute 2 (onePageDatabase roomyPage) quiet
      (insertValues [[.ofInt 7],[.ofBool true]]) = some (.error,db') := ⟨_,rfl⟩
  obtain ⟨db',hrun⟩ := hrun
  refine ⟨hs,⟨.error,db',hrun,nofun⟩,?_⟩
  intro hunchanged
  have hharmless := (unchanged_iff_harmless hs hrun).mp (hunchanged .error db' hrun nofun)
  have hrefused := hharmless numbers ⟨numbers,0,0⟩ (onePageDatabase roomyPage).store rfl rfl
    [.literal (.ofInt 7)] _ [.ofInt 7] rfl rfl rfl
  rcases hrefused with hnil | hfull
  · cases hnil
  · exact absurd (hfull roomyPage rfl) (by decide)

end Small

end QueryExecutor
end OrangeSQL
