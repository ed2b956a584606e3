import OrangeSQL.FailedStatements

/-! The records that an INSERT stores, the rows that an UPDATE replaces, and when a statement fails
without a change. The loop of a DELETE returns OK only behind a last page without records. -/
namespace OrangeSQL

open Page Store TableCursor QueryExecutor

namespace QueryExecutor

section Insert

/-- How many rows, from the first one on, are valid records for which the page has room. -/
def takenRows (t : OpenTable) : List (List ASTNode) → Page → ℕ
  | [], _ => 0
  | exprs::rows, p =>
    match exprs.mapM (evaluateExpression []) with
    | none => 0
    | some values =>
      if t.validateRecord values then
        match p.insertRecord values with
        | none => 0
        | some (p,_) => takenRows t rows p+1
      else 0

/-- The records that the loop of an INSERT stores. -/
def storedRecords : List (List ASTNode) → OpenTable → Store → List (List Value)
  | [], _, _ => []
  | exprs::rows, t, s =>
    match exprs.mapM (evaluateExpression []) with
    | none => []
    | some values =>
      match t.insertRecord s values with
      | some (some _,t,s) => values::storedRecords rows t s
      | _ => []

/-- The records are stored one after the other; one more may be refused. -/
def StoredInTurn (t : OpenTable) : List (List Value) → Store → Store → Prop
  | [], s, s' => Extended s s' ∧ ∀ table, s'.liveRows table = s.liveRows table
  | values::records, s, s' => ∃ s₁, RecordStored t values s s₁ ∧ StoredInTurn t records s₁ s'

variable {s s' : Store} {t : OpenTable} {p : Page} {m m' : TransactionManager}
  {tx : Option TransactionId} {status : Status} {exprs : List ASTNode}
  {rows : List (List ASTNode)}

/-- The first row is refused, or it is stored and the loop goes on with the others. -/
theorem insertRows_step (hs : s.WellFormed) (hp : s.pages t.tableId t.lastPage = some p)
    (hend : p.getNextPage = invalidPageId)
    (h : insertRows tx (exprs::rows) t s m = some (status,s',m')) :
    ∃ values, exprs.mapM (evaluateExpression []) = some values ∧
      (takenRows t (exprs::rows) p = 0 ∧ storedRecords (exprs::rows) t s = [] ∧ status ≠ .ok ∧
        StoredInTurn t [] s s' ∨
      ∃ s₁ q m'', RecordStored t values s s₁ ∧ s₁.pages t.tableId t.lastPage = some q ∧
        q.getNextPage = invalidPageId ∧ takenRows t (exprs::rows) p = takenRows t rows q+1 ∧
        storedRecords (exprs::rows) t s = values::storedRecords rows t s₁ ∧
        insertRows tx rows t s₁ m'' = some (status,s',m')) := by
  obtain ⟨values,hvalues,h⟩ := Option.bind_eq_some_iff.mp h
  obtain ⟨⟨rid,t',s₁⟩,hins,h⟩ := Option.bind_eq_some_iff.mp h
  refine ⟨values,hvalues,?_⟩
  rcases insertRecord_cases hs ⟨p,hp,hend⟩ hins with ⟨rfl,hext,hlive,_⟩ | ⟨hsome,rfl,hvalid,hstored⟩
  · obtain ⟨rfl,heq⟩ := Prod.mk.inj (Option.some.inj h)
    obtain ⟨rfl,_⟩ := Prod.mk.inj heq
    refine Or.inl ⟨?_,by simp [storedRecords,hvalues,hins],nofun,hext,hlive⟩
    cases hvalid : t.validateRecord values with
    | false => simp [takenRows,hvalues,hvalid]
    | true =>
      cases hpage : p.insertRecord values with
      | none => simp [takenRows,hvalues,hvalid,hpage]
      | some r =>
        rw [insertRecord_of_room hvalid hp hpage] at hins
        cases hins
  · obtain ⟨r,rfl⟩ := Option.isSome_iff_exists.mp hsome
    obtain ⟨m'',_,h⟩ := Option.bind_eq_some_iff.mp h
    cases hpage : p.insertRecord values with
    | none =>
      rw [insertRecord_of_full hvalid hp hpage] at hins
      cases hins
    | some q =>
      have hinserted := insertRecord_inserted (hs.placed _ _ p hp).wellFormed hpage
      have hput : s₁ = s.put t'.tableId t'.lastPage q.1 := by
        rw [insertRecord_of_room hvalid hp hpage] at hins
        obtain ⟨_,heq⟩ := Prod.mk.inj (Option.some.inj hins)
        exact (Prod.mk.inj heq).2.symm
      refine Or.inr ⟨s₁,q.1,m'',hstored,?_,hinserted.nextPage.trans hend,?_,?_,h⟩
      · rw [hput,put_pages_self]
      · simp [takenRows,hvalues,hvalid,hpage]
      · simp [storedRecords,hvalues,hins]

theorem insertRows_storedInTurn (hs : s.WellFormed) (hp : s.pages t.tableId t.lastPage = some p)
    (hend : p.getNextPage = invalidPageId) (h : insertRows tx rows t s m = some (status,s',m')) :
    StoredInTurn t (storedRecords rows t s) s s' := by
  induction rows generalizing s p m with
  | nil =>
    obtain ⟨_,heq⟩ := Prod.mk.inj (Option.some.inj h)
    obtain ⟨rfl,_⟩ := Prod.mk.inj heq
    exact ⟨Extended.refl hs,fun _ => rfl⟩
  | cons exprs rows ih =>
    obtain ⟨values,_,⟨_,hrecords,_,hrefused⟩ | ⟨s₁,q,m'',hstored,hq,hend',_,hrecords,hloop⟩⟩ :=
      insertRows_step hs hp hend h
    · rw [hrecords]
      exact hrefused
    · rw [hrecords]
      exact ⟨s₁,hstored,ih (hstored.extended hs).wellFormed hq hend' hloop⟩

/-- The loop returns OK just when all rows are taken in. -/
theorem insertRows_status (hs : s.WellFormed) (hp : s.pages t.tableId t.lastPage = some p)
    (hend : p.getNextPage = invalidPageId) (h : insertRows tx rows t s m = some (status,s',m')) :
    status = .ok ↔ takenRows t rows p = rows.length := by
  induction rows generalizing s p m with
  | nil => exact iff_of_true (Prod.mk.inj (Option.some.inj h)).1.symm rfl
  | cons exprs rows ih =>
    obtain ⟨values,_,⟨htaken,_,hstatus,_⟩ | ⟨s₁,q,m'',hstored,hq,hend',htaken,_,hloop⟩⟩ :=
      insertRows_step hs hp hend h
    · rw [htaken]
      exact iff_of_false hstatus (Nat.succ_ne_zero _).symm
    · rw [htaken,List.length_cons,Nat.add_right_cancel_iff]
      exact ih (hstored.extended hs).wellFormed hq hend' hloop

theorem takenRows_le (t : OpenTable) (rows : List (List ASTNode)) (p : Page) :
    takenRows t rows p ≤ rows.length := by
  induction rows generalizing p with
  | nil => exact le_rfl
  | cons exprs rows ih =>
    unfold takenRows
    split
    · exact Nat.zero_le _
    · split_ifs
      · split
        · exact Nat.zero_le _
        · exact Nat.succ_le_succ (ih _)
      · exact Nat.zero_le _

theorem length_storedRecords (hs : s.WellFormed) (hp : s.pages t.tableId t.lastPage = some p)
    (hend : p.getNextPage = invalidPageId) (h : insertRows tx rows t s m = some (status,s',m')) :
    (storedRecords rows t s).length = takenRows t rows p := by
  induction rows generalizing s p m with
  | nil => rfl
  | cons exprs rows ih =>
    obtain ⟨values,_,⟨htaken,hrecords,_⟩ | ⟨s₁,q,m'',hstored,hq,hend',htaken,hrecords,hloop⟩⟩ :=
      insertRows_step hs hp hend h
    · rw [htaken,hrecords]
      rfl
    · rw [htaken,hrecords,List.length_cons,ih (hstored.extended hs).wellFormed hq hend' hloop]

/-- The rows are stored in their order, each with the values of its expressions. -/
theorem storedRecords_get {i : ℕ} {record : List Value}
    (h : (storedRecords rows t s)[i]? = some record) :
    ∃ exprs, rows[i]? = some exprs ∧ exprs.mapM (evaluateExpression []) = some record := by
  induction rows generalizing t s i with
  | nil => cases h
  | cons exprs rows ih =>
    unfold storedRecords at h
    split at h
    · cases h
    · rename_i values hvalues
      split at h
      · cases i with
        | zero => exact ⟨exprs,rfl,hvalues.trans h⟩
        | succ i => exact ih h
      · cases h

end Insert

section Update

/-- The rows that the loop of an UPDATE replaces, each with the new one. -/
def replacedRows (u : UpdateNode) (t : OpenTable) :
    ℕ → TableCursor → Store → List (List Value × List Value)
  | 0, _, _ => []
  | fuel+1, it, s =>
    if it.atEnd then []
    else
      let row := it.row s t.tableId
      match matchesWhere u.whereClause row with
      | none => []
      | some false =>
        ((it.increment s t.tableId fuel).map fun it => replacedRows u t fuel it s).getD []
      | some true =>
        match applyAssignments t.schema row u.assignments row with
        | none => []
        | some new =>
          let (status,s) := t.updateRecord s it.recordId new
          if status ≠ .ok then []
          else (row,new)::
            ((it.increment s t.tableId fuel).map fun it => replacedRows u t fuel it s).getD []

/-- The rows are replaced one after the other; one more may be deleted only. -/
def ReplacedInTurn (t : OpenTable) : List (List Value × List Value) → Store → Store → Prop
  | [], s, s' => s' = s ∨ ∃ (it : TableCursor) (p : Page), s.pages t.tableId it.pageId = some p ∧
      it.slot < p.getRecordCount ∧ s' = s.put t.tableId it.pageId (p.withDeleted it.slot)
  | (row,new)::rest, s, s' => ∃ it s₁, s.rowAt t.tableId it.pageId it.slot = some row ∧
      Rewritten t it new s s₁ ∧ ReplacedInTurn t rest s₁ s'

variable {s s' : Store} {t : OpenTable} {it : TableCursor} {m m' : TransactionManager}
  {u : UpdateNode} {tx : Option TransactionId} {fuel : ℕ} {status : Status}

/-- The new row comes from the assignments. -/
theorem applyAssignments_of_mem_replacedRows {pair : List Value × List Value}
    (h : pair ∈ replacedRows u t fuel it s) :
    applyAssignments t.schema pair.1 u.assignments pair.1 = some pair.2 := by
  induction fuel generalizing it s with
  | zero => cases h
  | succ fuel ih =>
    have hrest : ∀ s₁, pair ∈ ((it.increment s₁ t.tableId fuel).map fun it =>
        replacedRows u t fuel it s₁).getD [] →
          applyAssignments t.schema pair.1 u.assignments pair.1 = some pair.2 := by
      intro s₁ hmem
      cases hinc : it.increment s₁ t.tableId fuel with
      | none =>
        rw [hinc] at hmem
        cases hmem
      | some it' =>
        rw [hinc] at hmem
        exact ih hmem
    rw [replacedRows] at h
    split_ifs at h
    · cases h
    dsimp only at h
    split at h
    · cases h
    · exact hrest s h
    · split at h
      · cases h
      · rename_i new hnew
        split_ifs at h
        · cases h
        · rcases List.mem_cons.mp h with rfl | hmem
          · exact hnew
          · exact hrest _ hmem

theorem updateRows_replacedInTurn (hs : s.WellFormed) (hready : Ready s t.tableId it)
    (h : updateRows u tx t fuel it s m = some (status,s',m')) :
    ReplacedInTurn t (replacedRows u t fuel it s) s s' := by
  induction fuel generalizing it s m with
  | zero => cases h
  | succ fuel ih =>
    rw [updateRows] at h
    cases hend : it.atEnd with
    | true =>
      rw [hend,if_pos rfl] at h
      obtain ⟨_,heq⟩ := Prod.mk.inj (Option.some.inj h)
      have hnil : replacedRows u t (fuel+1) it s = [] := by simp [replacedRows,hend]
      rw [hnil]
      exact Or.inl (Prod.mk.inj heq).1.symm
    | false =>
      rw [hend,if_neg Bool.false_ne_true] at h
      dsimp only at h
      obtain ⟨b,hb,h⟩ := Option.bind_eq_some_iff.mp h
      cases b with
      | false =>
        obtain ⟨it',hinc,h⟩ := Option.bind_eq_some_iff.mp h
        have hsame : replacedRows u t (fuel+1) it s = replacedRows u t fuel it' s := by
          simp [replacedRows,hend,hb,hinc]
        rw [hsame]
        exact ih hs (increment_spec hready hinc).1 h
      | true =>
        obtain ⟨new,hnew,h⟩ := Option.bind_eq_some_iff.mp h
        rcases updateRecord_cases hs hready new with ⟨hstatus,hsame,_⟩ |
          ⟨row,_,hlive,hrow,_,⟨p,hp,hslot,hupdate⟩ | ⟨s₁,hrewritten,hupdate⟩⟩
        · rw [if_pos hstatus] at h
          obtain ⟨_,heq⟩ := Prod.mk.inj (Option.some.inj h)
          have hnil : replacedRows u t (fuel+1) it s = [] := by
            simp [replacedRows,hend,hb,hnew,hstatus]
          rw [hnil]
          exact Or.inl ((Prod.mk.inj heq).1.symm.trans hsame)
        · have hfailed : Status.notFound ≠ .ok := by decide
          rw [hupdate,if_pos hfailed] at h
          obtain ⟨_,heq⟩ := Prod.mk.inj (Option.some.inj h)
          have hnil : replacedRows u t (fuel+1) it s = [] := by
            simp [replacedRows,hend,hb,hnew,hupdate]
          rw [hnil]
          exact Or.inr ⟨it,p,hp,hslot,(Prod.mk.inj heq).1.symm⟩
        · rw [hupdate,if_neg (not_not.mpr rfl)] at h
          obtain ⟨m'',_,h⟩ := Option.bind_eq_some_iff.mp h
          obtain ⟨it',hinc,h⟩ := Option.bind_eq_some_iff.mp h
          have hcons : replacedRows u t (fuel+1) it s = (row,new)::replacedRows u t fuel it' s₁ := by
            rw [hrow] at hb hnew
            simp [replacedRows,hend,hrow,hb,hnew,hupdate,hinc]
          have hstep := hrewritten.evolved hs
          rw [hcons]
          exact ⟨it,s₁,hlive,hrewritten,
            ih hstep.wellFormed (increment_spec (hstep.ready hready) hinc).1 h⟩

end Update

section Databases

variable {fuel : ℕ} {db db' : Database} {tx : Option TransactionId} {status : Status}

/-- The table of a name as a statement opens it, and the store then. -/
def openedTable (fuel : ℕ) (db : Database) (name : Text) : Option (OpenTable × Store) :=
  (db.catalog.tables.lookup name).bind (OpenTable.make fuel db.store)

/-- The records that an INSERT stores. -/
def insertedRecords (fuel : ℕ) (db : Database) (node : InsertNode) : List (List Value) :=
  match openedTable fuel db node.table with
  | none => []
  | some (t,s) => storedRecords node.values t s

/-- The rows that an UPDATE replaces, each with the new one. -/
def updatedRows (fuel : ℕ) (db : Database) (u : UpdateNode) : List (List Value × List Value) :=
  match openedTable fuel db u.table with
  | none => []
  | some (t,s) => ((t.begin fuel s).map fun it => replacedRows u t fuel it s).getD []

/-- How many rows of an INSERT are taken in. -/
def insertedCount (fuel : ℕ) (db : Database) (node : InsertNode) : ℕ :=
  match openedTable fuel db node.table with
  | none => 0
  | some (t,s) => ((s.pages t.tableId t.lastPage).map (takenRows t node.values)).getD 0

/-- The last page of the table has records. -/
def LastPageFilled (fuel : ℕ) (db : Database) (name : Text) : Prop :=
  ∀ t s, openedTable fuel db name = some (t,s) → s.countOf t.tableId t.lastPage ≠ 0

/-- The statement fails before its first change. -/
def Refused (fuel : ℕ) (db : Database) : RowStatement → Prop
  | .insert node => InsertHarmless fuel db node ∧ insertedCount fuel db node < node.values.length
  | .update u => ∃ t s it it', openedTable fuel db u.table = some (t,s) ∧ t.begin fuel s = some it ∧
      firstMatch u.whereClause s t.tableId fuel it = some it' ∧ ¬ Replaceable u t s it'
  | .delete d => DeleteHarmless db d ∧ LastPageFilled fuel db d.table
  | .begin _ | .commit _ | .rollback _ => False

theorem openedTable_cases {name : Text} {t : OpenTable} {s : Store}
    (h : openedTable fuel db name = some (t,s)) :
    ∃ schema, db.catalog.tables.lookup name = some schema ∧
      OpenTable.make fuel db.store schema = some (t,s) ∧ OpenTable.Opened db.store schema t s := by
  obtain ⟨schema,hlook,hmake⟩ := Option.bind_eq_some_iff.mp h
  exact ⟨schema,hlook,hmake,OpenTable.make_opened hmake⟩

/-- Where there is the table, the statement works on it. -/
theorem withTable_of_lookup {name : Text} {schema : TableSchema}
    {work : OpenTable → Store → Option (Status × Store × TransactionManager)}
    (hlook : db.catalog.tables.lookup name = some schema)
    (h : withTable fuel db name work = some (status,db')) :
    ∃ t s s' m, openedTable fuel db name = some (t,s) ∧ OpenTable.Opened db.store schema t s ∧
      work t s = some (status,s',m) ∧ db'.store = s' := by
  rcases withTable_cases h with ⟨hnone,_⟩ | ⟨schema',t,s,s',m,hlook',hmake,hwork,rfl⟩
  · rw [hlook] at hnone
    cases hnone
  · obtain rfl := Option.some.inj (hlook'.symm.trans hlook)
    have hopen : openedTable fuel db name = some (t,s) := by
      rw [openedTable,hlook']
      exact hmake
    exact ⟨t,s,s',m,hopen,OpenTable.make_opened hmake,hwork,rfl⟩

theorem executeInsert_status {node : InsertNode} {schema : TableSchema} (hs : db.store.WellFormed)
    (hlook : db.catalog.tables.lookup node.table = some schema)
    (h : executeInsert fuel db tx node = some (status,db')) :
    status ≠ .ok ↔ insertedCount fuel db node < node.values.length := by
  obtain ⟨t,s,s',m,hopen,ho,hwork,_⟩ := withTable_of_lookup hlook h
  obtain ⟨p,hp,hend⟩ := ho.last
  have hle := takenRows_le t node.values p
  rw [ne_eq,insertRows_status (ho.wellFormed hs) hp hend hwork]
  simp only [insertedCount,hopen,hp,Option.map_some,Option.getD_some]
  omega

theorem length_insertedRecords {node : InsertNode} {schema : TableSchema} (hs : db.store.WellFormed)
    (hlook : db.catalog.tables.lookup node.table = some schema)
    (h : executeInsert fuel db tx node = some (status,db')) :
    (insertedRecords fuel db node).length = insertedCount fuel db node := by
  obtain ⟨t,s,s',m,hopen,ho,hwork,_⟩ := withTable_of_lookup hlook h
  obtain ⟨p,hp,hend⟩ := ho.last
  simp only [insertedRecords,insertedCount,hopen,hp,Option.map_some,Option.getD_some]
  exact length_storedRecords (ho.wellFormed hs) hp hend hwork

/-- What an INSERT does to the store is to store these records. -/
theorem executeInsert_storedInTurn {node : InsertNode} {schema : TableSchema}
    (hs : db.store.WellFormed) (hlook : db.catalog.tables.lookup node.table = some schema)
    (h : executeInsert fuel db tx node = some (status,db')) :
    ∃ t s, openedTable fuel db node.table = some (t,s) ∧
      StoredInTurn t (insertedRecords fuel db node) s db'.store := by
  obtain ⟨t,s,s',m,hopen,ho,hwork,rfl⟩ := withTable_of_lookup hlook h
  obtain ⟨p,hp,hend⟩ := ho.last
  refine ⟨t,s,hopen,?_⟩
  simp only [insertedRecords,hopen]
  exact insertRows_storedInTurn (ho.wellFormed hs) hp hend hwork

theorem insertedRecords_get {node : InsertNode} {i : ℕ} {record : List Value}
    (h : (insertedRecords fuel db node)[i]? = some record) :
    ∃ exprs, node.values[i]? = some exprs ∧ exprs.mapM (evaluateExpression []) = some record := by
  unfold insertedRecords at h
  split at h
  · cases h
  · exact storedRecords_get h

theorem applyAssignments_of_mem_updatedRows {u : UpdateNode} {schema : TableSchema}
    (hlook : db.catalog.tables.lookup u.table = some schema) {pair : List Value × List Value}
    (h : pair ∈ updatedRows fuel db u) :
    applyAssignments schema pair.1 u.assignments pair.1 = some pair.2 := by
  unfold updatedRows at h
  cases hopen : openedTable fuel db u.table with
  | none =>
    rw [hopen] at h
    cases h
  | some r =>
    obtain ⟨t,s⟩ := r
    obtain ⟨schema',hlook',_,ho⟩ := openedTable_cases hopen
    obtain rfl := Option.some.inj (hlook'.symm.trans hlook)
    simp only [hopen] at h
    cases hbegin : t.begin fuel s with
    | none =>
      rw [hbegin] at h
      cases h
    | some it =>
      rw [hbegin] at h
      rw [← ho.schema]
      exact applyAssignments_of_mem_replacedRows h

/-- What an UPDATE does to the store is to replace these rows. -/
theorem executeUpdate_replacedInTurn {u : UpdateNode} {schema : TableSchema}
    (hs : db.store.WellFormed) (hlook : db.catalog.tables.lookup u.table = some schema)
    (h : executeUpdate fuel db tx u = some (status,db')) :
    ∃ t s, openedTable fuel db u.table = some (t,s) ∧
      ReplacedInTurn t (updatedRows fuel db u) s db'.store := by
  obtain ⟨t,s,s',m,hopen,ho,hwork,rfl⟩ := withTable_of_lookup hlook h
  have hs₁ := ho.wellFormed hs
  obtain ⟨it,hbegin,hloop⟩ := Option.bind_eq_some_iff.mp hwork
  refine ⟨t,s,hopen,?_⟩
  simp only [updatedRows,hopen,hbegin,Option.map_some,Option.getD_some]
  exact updateRows_replacedInTurn hs₁ (OpenTable.begin_spec hs₁ hbegin).1 hloop

/-- A DELETE that returns has failed just when the last page has records. -/
theorem executeDelete_status {d : DeleteNode} {schema : TableSchema} (hs : db.store.WellFormed)
    (hlook : db.catalog.tables.lookup d.table = some schema)
    (h : executeDelete fuel db tx d = some (status,db')) :
    status ≠ .ok ↔ LastPageFilled fuel db d.table := by
  obtain ⟨t,s,s',m,hopen,ho,hwork,_⟩ := withTable_of_lookup hlook h
  have hs₁ := ho.wellFormed hs
  obtain ⟨it,hbegin,hloop⟩ := Option.bind_eq_some_iff.mp hwork
  obtain ⟨hready,hstart,_⟩ := OpenTable.begin_spec hs₁ hbegin
  have hend : s.nextOf t.tableId t.lastPage = invalidPageId := by
    obtain ⟨p,hp,hend⟩ := ho.last
    rw [nextOf_of_pages hp,hend]
  have hstatus : status = .ok ↔ s.countOf t.tableId t.lastPage = 0 := by
    exact deleteRows_status hs₁ hready hend (fun hid => (hstart hid).to_last ho.linked hend)
      (ho.slot_of_past hs hbegin) hloop
  rw [ne_eq,hstatus]
  constructor
  · intro hfilled t' s₁ hopen'
    obtain ⟨rfl,rfl⟩ := Prod.mk.inj (Option.some.inj (hopen'.symm.trans hopen))
    exact hfilled
  · exact fun hfilled => hfilled t s hopen

theorem executeUpdate_refused {u : UpdateNode} {schema : TableSchema} (hs : db.store.WellFormed)
    (hlook : db.catalog.tables.lookup u.table = some schema)
    (h : executeUpdate fuel db tx u = some (status,db')) :
    status ≠ .ok ∧ UpdateHarmless fuel db u ↔ Refused fuel db (.update u) := by
  obtain ⟨t,s,s',m,hopen,ho,hwork,_⟩ := withTable_of_lookup hlook h
  have hs₁ := ho.wellFormed hs
  obtain ⟨it,hbegin,hloop⟩ := Option.bind_eq_some_iff.mp hwork
  have hready := (OpenTable.begin_spec hs₁ hbegin).1
  constructor
  · rintro ⟨hstatus,hharmless⟩
    rcases updateRows_first hs₁ hready hloop with ⟨_,hok,_⟩ | ⟨it',hfirst,_⟩
    · exact absurd hok hstatus
    · obtain ⟨schema',hlook',hmake,_⟩ := openedTable_cases hopen
      exact ⟨t,s,it,it',hopen,hbegin,hfirst,
        hharmless schema' t s it it' hlook' hmake hbegin hfirst⟩
  · rintro ⟨t',s₁,it₁,it',hopen',hbegin',hfirst,hnot⟩
    obtain ⟨rfl,rfl⟩ := Prod.mk.inj (Option.some.inj (hopen'.symm.trans hopen))
    obtain rfl := Option.some.inj (hbegin'.symm.trans hbegin)
    constructor
    · rcases updateRows_first hs₁ hready hloop with ⟨hnone,_⟩ |
        ⟨it'',hfirst',_,_,_,⟨_,_,hstatus⟩ | ⟨_,hreplaced⟩⟩
      · rw [hfirst] at hnone
        cases hnone
      · exact hstatus
      · obtain rfl := Option.some.inj (hfirst'.symm.trans hfirst)
        exact absurd hreplaced.replaceable hnot
    · intro schema' t₂ s₂ it₂ it'' hlook' hmake' hbegin₂ hfirst'
      have hopen₂ : openedTable fuel db u.table = some (t₂,s₂) := by
        rw [openedTable,hlook']
        exact hmake'
      obtain ⟨rfl,rfl⟩ := Prod.mk.inj (Option.some.inj (hopen₂.symm.trans hopen))
      obtain rfl := Option.some.inj (hbegin₂.symm.trans hbegin)
      obtain rfl := Option.some.inj (hfirst'.symm.trans hfirst)
      exact hnot

end Databases

section Statements

variable {fuel : ℕ} {db db' : Database} {around : Surroundings} {status : Status}
  {statement : RowStatement} {name : Text} {schema : TableSchema}

theorem executeStatement_refused {tx : Option TransactionId} (hs : db.store.WellFormed)
    (hname : tableOf statement = some name) (hlook : db.catalog.tables.lookup name = some schema)
    (h : executeStatement fuel db tx statement = some (status,db')) :
    status ≠ .ok ∧ Harmless fuel db statement ↔ Refused fuel db statement := by
  cases statement with
  | insert node =>
    obtain rfl := Option.some.inj hname
    rw [executeInsert_status hs hlook h]
    exact and_comm
  | update u =>
    obtain rfl := Option.some.inj hname
    exact executeUpdate_refused hs hlook h
  | delete d =>
    obtain rfl := Option.some.inj hname
    rw [executeDelete_status hs hlook h]
    exact and_comm
  | begin node | commit node | rollback node => cases hname

/-- A statement on a table fails and leaves its rows alone just when it is refused. -/
theorem refused_iff (hs : db.store.WellFormed) (hname : tableOf statement = some name)
    (hlook : db.catalog.tables.lookup name = some schema)
    (h : execute fuel db around statement = some (status,db')) :
    status ≠ .ok ∧ Unchanged db db' statement ↔ Refused fuel db statement := by
  rw [unchanged_iff_harmless hs h]
  obtain ⟨tx,m,db₁,hrun,_⟩ := execute_cases h
  have hrefused := @executeStatement_refused _ { db with manager := m } _ _ _ _ _ _ hs hname hlook hrun
  cases statement <;> exact hrefused

end Statements

end QueryExecutor
end OrangeSQL
