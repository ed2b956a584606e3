import OrangeSQL.StatementTraces
import OrangeSQL.UpdateOnce

/-! Columns by their names. An INSERT stores its values in the order in which they stand, whatever
its column list says; an UPDATE looks its columns up, and takes the first for one that is not there. -/
namespace OrangeSQL

open Page Store TableCursor QueryExecutor

def TableSchema.columnNames (schema : TableSchema) : List Text :=
  schema.columns.map fun col => col.name

mutual

/-- The columns that an expression names. -/
def ASTNode.columns : ASTNode → List Text
  | .literal _ => []
  | .columnRef _ column => [column]
  | .binary _ left none => left.columns
  | .binary _ left (some right) => left.columns++right.columns
  | .unary _ expr => expr.columns
  | .functionCall _ args => columnsOfAll args
  | .list => []
  | .select _ => []

def columnsOfAll : List ASTNode → List Text
  | [] => []
  | x::xs => x.columns++columnsOfAll xs

end

namespace QueryExecutor

section Assignments

variable {schema : TableSchema} {row old new : List Value} {assignments : List Assignment}

theorem columnIndex_eq (schema : TableSchema) (name : Text) :
    columnIndex schema name = (schema.columnNames.idxOf? name).getD 0 := by
  rw [columnIndex,TableSchema.columnNames,List.idxOf?,List.findIdx?_map]
  congr
  funext col
  exact (beq_eq_decide _ _).symm

theorem columnIndex_of_mem {name : Text} (h : name ∈ schema.columnNames) :
    columnIndex schema name = schema.columnNames.idxOf name := by
  rw [columnIndex_eq,List.idxOf_eq_getD_idxOf?]
  cases hfound : schema.columnNames.idxOf? name with
  | none => exact absurd h (List.idxOf?_eq_none_iff.mp hfound)
  | some i => rfl

/-- A name that is not there stands for the first column. -/
theorem columnIndex_of_not_mem {name : Text} (h : name ∉ schema.columnNames) :
    columnIndex schema name = 0 := by
  rw [columnIndex_eq,List.idxOf?_eq_none_iff.mpr h,Option.getD_none]

/-- Assignments to different places leave each its value, and the other places as they are. -/
theorem applyAssignments_get (hnodup : (assignments.map fun a => columnIndex schema a.column).Nodup)
    (h : applyAssignments schema row assignments old = some new) :
    (∀ a ∈ assignments, new[columnIndex schema a.column]? = evaluateExpression row a.value) ∧
      ∀ i, i ∉ assignments.map (fun a => columnIndex schema a.column) → new[i]? = old[i]? := by
  induction assignments generalizing old with
  | nil =>
    obtain rfl := Option.some.inj h
    exact ⟨nofun,fun _ _ => rfl⟩
  | cons a rest ih =>
    obtain ⟨hfree,hrest⟩ := List.nodup_cons.mp hnodup
    obtain ⟨val,hval,h⟩ := Option.bind_eq_some_iff.mp h
    obtain ⟨hlt,h⟩ := Option.ite_none_right_eq_some.mp h
    obtain ⟨hvalues,hothers⟩ := ih hrest h
    constructor
    · intro b hb
      rcases List.mem_cons.mp hb with rfl | hb
      · rw [hothers _ hfree,List.getElem?_set_self hlt,hval]
      · exact hvalues b hb
    · intro i hi
      rw [List.map_cons,List.mem_cons,not_or] at hi
      rw [hothers i hi.2,List.getElem?_set_ne (Ne.symm hi.1)]

theorem nodup_columnIndex (hknown : ∀ a ∈ assignments, a.column ∈ schema.columnNames)
    (hnodup : (assignments.map fun a => a.column).Nodup) :
    (assignments.map fun a => columnIndex schema a.column).Nodup := by
  have hmap : (assignments.map fun a => columnIndex schema a.column) =
      (assignments.map fun a => a.column).map schema.columnNames.idxOf := by
    rw [List.map_map]
    exact List.map_congr_left fun a ha => columnIndex_of_mem (hknown a ha)
  rw [hmap]
  refine hnodup.map_on ?_
  intro c hc c' _ hsame
  obtain ⟨a,ha,rfl⟩ := List.mem_map.mp hc
  exact (List.idxOf_inj (hknown a ha)).mp hsame

end Assignments

section Names

/-- The columns that a condition names. -/
def conditionColumns (condition : Option WhereClause) : List Text :=
  (condition.map fun w => w.condition.columns).getD []

/-- The columns that a statement names: those of its list, those that it assigns to, and those in
its expressions. -/
def namedColumns : RowStatement → List Text
  | .insert node => node.columns++node.values.flatMap columnsOfAll
  | .update u => (u.assignments.map fun a => a.column)++
      (u.assignments.flatMap fun a => a.value.columns)++conditionColumns u.whereClause
  | .delete d => conditionColumns d.whereClause
  | .begin _ | .commit _ | .rollback _ => []

def NamesUnknown (schema : TableSchema) (statement : RowStatement) : Prop :=
  ∃ name ∈ namedColumns statement, name ∉ schema.columnNames

/-- The value that a row of an INSERT has at a place. -/
def valueAt (exprs : List ASTNode) (i : ℕ) : Option Value :=
  exprs[i]?.bind (evaluateExpression [])

variable (fuel : ℕ) (db db' : Database) (status : Status) (schema : TableSchema)

/-- The value given for each column is the one stored at the position of the column. -/
def InsertsByName (node : InsertNode) : Prop :=
  node.columns.Perm schema.columnNames → ∀ (i : ℕ) exprs record, node.values[i]? = some exprs →
    (insertedRecords fuel db node)[i]? = some record → ∀ name ∈ schema.columnNames,
      record[schema.columnNames.idxOf name]? = valueAt exprs (node.columns.idxOf name)

def UpdatesByName (u : UpdateNode) : Prop :=
  (∀ a ∈ u.assignments, a.column ∈ schema.columnNames) →
    (u.assignments.map fun a => a.column).Nodup →
    ∀ pair ∈ updatedRows fuel db u, ∀ a ∈ u.assignments,
      pair.2[schema.columnNames.idxOf a.column]? = evaluateExpression pair.1 a.value

def WritesByName : RowStatement → Prop
  | .insert node => InsertsByName fuel db schema node
  | .update u => UpdatesByName fuel db schema u
  | .delete _ | .begin _ | .commit _ | .rollback _ => True

/-- The columns are addressed by their names, and a name that is not there makes the statement
fail without a change. -/
def AddressesByName (statement : RowStatement) : Prop :=
  WritesByName fuel db schema statement ∧
    (NamesUnknown schema statement → status ≠ .ok ∧ Unchanged db db' statement)

/-- The rows that are taken in have the same values in the order of the column list and in that of
the schema. -/
def InsertsInOrder (node : InsertNode) : Prop :=
  node.columns.Perm schema.columnNames → ∀ (i : ℕ) exprs, i < insertedCount fuel db node →
    node.values[i]? = some exprs → ∀ name ∈ schema.columnNames,
      valueAt exprs (schema.columnNames.idxOf name) = valueAt exprs (node.columns.idxOf name)

/-- A condition on the statement and on the state before it. -/
def Addressable (statement : RowStatement) : Prop :=
  (∀ node, statement = .insert node → InsertsInOrder fuel db schema node) ∧
    (NamesUnknown schema statement → Refused fuel db statement)

end Names

section Addressed

variable {fuel : ℕ} {db db' : Database} {around : Surroundings} {status : Status}
  {schema : TableSchema} {statement : RowStatement} {name : Text} {tx : Option TransactionId}

theorem getElem?_of_mapM {exprs : List ASTNode} {record : List Value}
    (h : exprs.mapM (evaluateExpression []) = some record) (i : ℕ) :
    record[i]? = valueAt exprs i := by
  induction exprs generalizing record i with
  | nil =>
    obtain rfl := Option.some.inj h
    rfl
  | cons e exprs ih =>
    rw [List.mapM_cons] at h
    obtain ⟨val,hval,h⟩ := Option.bind_eq_some_iff.mp h
    obtain ⟨rest,hrest,h⟩ := Option.bind_eq_some_iff.mp h
    obtain rfl := Option.some.inj h
    cases i with
    | zero => exact hval.symm
    | succ i => exact ih hrest i

/-- The column list of an INSERT is not read: the order of the values is that of the schema. -/
theorem insertsByName_iff {node : InsertNode} (hs : db.store.WellFormed)
    (hlook : db.catalog.tables.lookup node.table = some schema)
    (h : executeInsert fuel db tx node = some (status,db')) :
    InsertsByName fuel db schema node ↔ InsertsInOrder fuel db schema node := by
  have hlength := length_insertedRecords hs hlook h
  refine imp_congr_right fun _ => forall₂_congr fun i exprs => ?_
  constructor
  · intro hbyName hi hrow name hname
    have hrecord := List.getElem?_eq_getElem (hlength ▸ hi)
    obtain ⟨exprs',hrow',hvalues⟩ := insertedRecords_get hrecord
    obtain rfl := Option.some.inj (hrow'.symm.trans hrow)
    rw [← getElem?_of_mapM hvalues]
    exact hbyName _ hrow hrecord name hname
  · intro horder record hrow hrecord name hname
    obtain ⟨exprs',hrow',hvalues⟩ := insertedRecords_get hrecord
    obtain rfl := Option.some.inj (hrow'.symm.trans hrow)
    have hi := (List.getElem?_eq_some_iff.mp hrecord).1
    rw [getElem?_of_mapM hvalues]
    exact horder (hlength ▸ hi) hrow name hname

/-- The assigned columns are looked up, and those that are there are found. -/
theorem updatesByName {u : UpdateNode}
    (hlook : db.catalog.tables.lookup u.table = some schema) : UpdatesByName fuel db schema u := by
  intro hknown hnodup pair hpair a ha
  have happly := applyAssignments_of_mem_updatedRows hlook hpair
  rw [← columnIndex_of_mem (hknown a ha)]
  exact (applyAssignments_get (nodup_columnIndex hknown hnodup) happly).1 a ha

/-- For a column that is not there the first one is overwritten. -/
theorem updatedRows_unknown {u : UpdateNode} {a : Assignment}
    (hlook : db.catalog.tables.lookup u.table = some schema) (hu : u.assignments = [a])
    (hunknown : a.column ∉ schema.columnNames) {pair : List Value × List Value}
    (hpair : pair ∈ updatedRows fuel db u) :
    pair.2[0]? = evaluateExpression pair.1 a.value ∧ ∀ i ≠ 0, pair.2[i]? = pair.1[i]? := by
  have happly := applyAssignments_of_mem_updatedRows hlook hpair
  rw [hu] at happly
  have hsingle : ([a].map fun a => columnIndex schema a.column).Nodup := List.nodup_singleton _
  obtain ⟨hvalues,hothers⟩ := applyAssignments_get hsingle happly
  have hvalue := hvalues a (List.mem_singleton_self a)
  rw [columnIndex_of_not_mem hunknown] at hvalue
  refine ⟨hvalue,fun i hi => hothers i ?_⟩
  rw [List.map_singleton,List.mem_singleton,columnIndex_of_not_mem hunknown]
  exact hi

theorem writesByName_iff (hs : db.store.WellFormed) (hname : tableOf statement = some name)
    (hlook : db.catalog.tables.lookup name = some schema)
    (h : executeStatement fuel db tx statement = some (status,db')) :
    WritesByName fuel db schema statement ↔
      ∀ node, statement = .insert node → InsertsInOrder fuel db schema node := by
  cases statement with
  | insert node =>
    obtain rfl := Option.some.inj hname
    rw [WritesByName,insertsByName_iff hs hlook h]
    exact ⟨fun horder _ heq => RowStatement.insert.inj heq ▸ horder,fun horder => horder node rfl⟩
  | update u =>
    obtain rfl := Option.some.inj hname
    exact iff_of_true (updatesByName hlook) nofun
  | delete _ | begin _ | commit _ | rollback _ => exact iff_of_true trivial nofun

/-- A statement on a table addresses its columns by their names just when its values are in the
order of the schema anyway, and a name that is not there comes with another reason to fail. -/
theorem addressesByName_iff (hs : db.store.WellFormed) (hname : tableOf statement = some name)
    (hlook : db.catalog.tables.lookup name = some schema)
    (h : execute fuel db around statement = some (status,db')) :
    AddressesByName fuel db db' status schema statement ↔ Addressable fuel db schema statement := by
  obtain ⟨tx,m,db₁,hrun,_⟩ := execute_cases h
  have hwrites := @writesByName_iff _ { db with manager := m } _ _ _ _ _ _ hs hname hlook hrun
  refine and_congr ?_ (imp_congr_right fun _ => refused_iff hs hname hlook h)
  cases statement <;> exact hwrites

end Addressed

section Small

def pairs : TableSchema :=
  ⟨1,"t".toList,[{ ColumnSchema.new with name := "a".toList },
    { ColumnSchema.new with name := "b".toList }],[],∅,∅⟩

/-- A table with two integer columns, on a page with room. -/
def pairDatabase : Database :=
  { onePageDatabase roomyPage with catalog := (Catalog.new.createTable "t".toList pairs).2 }

/-- The values 1 and 2 for two columns. -/
def insertPair (columns : List Text) : RowStatement :=
  .insert ⟨"t".toList,columns,[[.literal (.ofInt 1),.literal (.ofInt 2)]],none⟩

/-- The number 9 for a column, in the rows with the number 5. -/
def setColumn (column : Text) : RowStatement :=
  .update ⟨"t".toList,[⟨column,.literal (.ofInt 9)⟩],
    some ⟨.binary .EQ (.columnRef [] "c".toList) (some (.literal (.ofInt 5)))⟩⟩

theorem pairDatabase_wellFormed : pairDatabase.store.WellFormed :=
  onePageDatabase_wellFormed roomyPage_placed

theorem addressesByName_iff_pair :
    ∃ db', execute 2 pairDatabase quiet (insertPair ["a".toList,"b".toList]) = some (.ok,db') ∧
      AddressesByName 2 pairDatabase db' .ok pairs (insertPair ["a".toList,"b".toList]) := by
  have hrun : ∃ db', execute 2 pairDatabase quiet (insertPair ["a".toList,"b".toList]) =
      some (.ok,db') := ⟨_,rfl⟩
  obtain ⟨db',hrun⟩ := hrun
  refine ⟨db',hrun,(addressesByName_iff pairDatabase_wellFormed rfl rfl hrun).mpr ⟨?_,?_⟩⟩
  · rintro node hnode _ i exprs _ _ name _
    obtain rfl := RowStatement.insert.inj hnode
    rfl
  · rintro ⟨name,hname,hunknown⟩
    exact absurd hname hunknown

/-- The values are stored in the order in which they stand, and a column that is not there is
another one. -/
theorem columns_not_by_name :
    (∃ db', execute 2 pairDatabase quiet (insertPair ["b".toList,"a".toList]) = some (.ok,db') ∧
      ¬ AddressesByName 2 pairDatabase db' .ok pairs (insertPair ["b".toList,"a".toList])) ∧
    ∃ db', execute 6 twoPageDatabase quiet (setColumn "z".toList) = some (.ok,db') ∧
      ¬ AddressesByName 6 twoPageDatabase db' .ok numbers (setColumn "z".toList) := by
  constructor
  · refine ⟨_,rfl,?_⟩
    rintro ⟨hwrites,_⟩
    have hrecords : insertedRecords 2 pairDatabase ⟨"t".toList,["b".toList,"a".toList],
        [[.literal (.ofInt 1),.literal (.ofInt 2)]],none⟩ = [[.ofInt 1,.ofInt 2]] := rfl
    have hfirst := hwrites (List.Perm.swap _ _ _) 0 _ [.ofInt 1,.ofInt 2] rfl (by rw [hrecords]; rfl)
      "a".toList (by decide)
    exact absurd hfirst (by decide)
  · refine ⟨_,rfl,?_⟩
    rintro ⟨_,hunknown⟩
    exact (hunknown ⟨"z".toList,by decide,by decide⟩).1 rfl

end Small

end QueryExecutor
end OrangeSQL
