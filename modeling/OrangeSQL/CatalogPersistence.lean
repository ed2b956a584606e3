import OrangeSQL.Catalog
import OrangeSQL.Library.Json

/-! Saving and loading the catalog. The file is a JSON value, which is read back as it was written;
writer and reader are two lists of fields, and what one of them leaves out is lost. -/
namespace OrangeSQL

open FiniteMap

def ConstraintInfoType.code : ConstraintInfoType → ℤ
  | .PRIMARY_KEY => 0 | .FOREIGN_KEY => 1 | .UNIQUE => 2 | .CHECK => 3 | .NOT_NULL => 4
  | .unnamed code => code

def ConstraintInfoType.ofCode : ℤ → ConstraintInfoType
  | 0 => .PRIMARY_KEY | 1 => .FOREIGN_KEY | 2 => .UNIQUE | 3 => .CHECK | 4 => .NOT_NULL
  | code => .unnamed code

namespace Catalog

open Engine (Lists)

/-- The orders in which the maps are walked through when they are written. -/
structure Orders where
  tables : List Text
  indexes : List Text
  constraints : List Text
  sequences : List Text
  views : List Text

/-- Orders of the maps of this catalog. -/
structure OrdersOf (c : Catalog) (orders : Orders) : Prop where
  tables : Lists orders.tables c.tables.keys
  indexes : Lists orders.indexes c.indexes.keys
  constraints : Lists orders.constraints c.constraints.keys
  sequences : Lists orders.sequences c.sequences.keys
  views : Lists orders.views c.views.keys

section Write

open Json

/-- Enumerators are written as 32-bit integers. -/
def enumJson (code : ℤ) : Json := num (code.bmod (2^32))

def columnJson (col : ColumnSchema) : Json :=
  obj [("id",num col.id.toNat),("name",str col.name),("type",enumJson col.type.code),
    ("length",num col.length.toNat),("nullable",bool col.nullable),
    ("is_primary_key",bool col.isPrimaryKey)]

def tableJson (name : Text) (schema : TableSchema) : Json :=
  obj [("name",str name),("id",num schema.id.toNat),("columns",arr (schema.columns.map columnJson)),
    ("primary_key",arr (schema.primaryKey.map fun id => num id.toNat))]

def indexJson (name : Text) (id : IndexId) : Json := obj [("name",str name),("id",num id.toNat)]

def constraintJson (name : Text) (k : ConstraintInfo) : Json :=
  obj [("name",str name),("type",enumJson k.type.code),("table",str k.tableName),
    ("columns",arr (k.columns.map str)),("ref_table",str k.refTable),
    ("ref_columns",arr (k.refColumns.map str)),("check_expr",str k.checkExpr)]

def sequenceJson (name : Text) (s : SequenceInfo) : Json :=
  obj [("name",str name),("start",num s.startValue.toInt),("current",num s.currentValue.toInt),
    ("increment",num s.increment.toInt),("min",num s.minValue.toInt),("max",num s.maxValue.toInt),
    ("cycle",bool s.cycle)]

def viewJson (name : Text) (v : ViewInfo) : Json :=
  obj [("name",str name),("query",str v.query),("columns",arr (v.columns.map str)),
    ("materialized",bool v.materialized)]

def entriesJson {β : Type} (write : Text → β → Json) (m : Finmap fun _ : Text => β)
    (order : List Text) : Json :=
  arr ((entries m order).map fun e => write e.1 e.2)

def serialize (c : Catalog) (orders : Orders) : Json :=
  obj [("version",num 1),("next_table_id",num c.nextTableId.toNat),
    ("next_index_id",num c.nextIndexId.toNat),
    ("tables",entriesJson tableJson c.tables orders.tables),
    ("indexes",entriesJson indexJson c.indexes orders.indexes),
    ("constraints",entriesJson constraintJson c.constraints orders.constraints),
    ("sequences",entriesJson sequenceJson c.sequences orders.sequences),
    ("views",entriesJson viewJson c.views orders.views)]

end Write

section Read

open Json

def toUInt32 (j : Json) : Option UInt32 := j.toNum.map fun n => UInt32.ofNat (n%2^32).toNat
def toUInt16 (j : Json) : Option UInt16 := j.toNum.map fun n => UInt16.ofNat (n%2^16).toNat
def toInt64 (j : Json) : Option Int64 := j.toNum.map Int64.ofInt

def toDataType (j : Json) : Option DataType := j.toNum.map fun n => .ofCode (n%2^32).toNat
def toConstraintInfoType (j : Json) : Option ConstraintInfoType :=
  j.toNum.map fun n => .ofCode (n.bmod (2^32))

/-- What the writer left out keeps the value of the constructor. -/
def readColumn (j : Json) : Option ColumnSchema := do
  let id ← get toUInt16 "id" j
  let name ← get toStr "name" j
  let type ← get toDataType "type" j
  let length ← getD toUInt32 "length" 0 j
  let nullable ← getD toBool "nullable" true j
  let isPrimaryKey ← getD toBool "is_primary_key" false j
  return { ColumnSchema.new with
    id := id, name := name, type := type, length := length, nullable := nullable
    isPrimaryKey := isPrimaryKey }

def readTable (j : Json) : Option TableSchema := do
  let id ← get toUInt32 "id" j
  let name ← get toStr "name" j
  let columns ← get (items readColumn) "columns" j
  let primaryKey ← get (items toUInt16) "primary_key" j
  return { TableSchema.new with id := id, name := name, columns := columns, primaryKey := primaryKey }

def readIndex (j : Json) : Option (Text × IndexId) := do
  let name ← get toStr "name" j
  let id ← get toUInt32 "id" j
  return (name,id)

def readConstraint (j : Json) : Option ConstraintInfo := do
  let name ← get toStr "name" j
  let type ← get toConstraintInfoType "type" j
  let tableName ← get toStr "table" j
  let columns ← get (items toStr) "columns" j
  let refTable ← getD toStr "ref_table" [] j
  let refColumns ← getD (items toStr) "ref_columns" [] j
  let checkExpr ← getD toStr "check_expr" [] j
  return ⟨type,name,tableName,columns,refTable,refColumns,checkExpr,false,false⟩

def readSequence (j : Json) : Option SequenceInfo := do
  let name ← get toStr "name" j
  let startValue ← get toInt64 "start" j
  let currentValue ← get toInt64 "current" j
  let increment ← get toInt64 "increment" j
  let minValue ← get toInt64 "min" j
  let maxValue ← get toInt64 "max" j
  let cycle ← get toBool "cycle" j
  return ⟨name,startValue,currentValue,increment,minValue,maxValue,cycle⟩

def readView (j : Json) : Option ViewInfo := do
  let name ← get toStr "name" j
  let query ← get toStr "query" j
  let columns ← get (items toStr) "columns" j
  let materialized ← getD toBool "materialized" false j
  return ⟨name,query,columns,materialized⟩

def loadTable (c : Catalog) (schema : TableSchema) : Catalog :=
  { c with tables := c.tables.insert schema.name schema }

def loadIndex (c : Catalog) (index : Text × IndexId) : Catalog :=
  { c with
    indexes := c.indexes.insert index.1 index.2
    indexIdMap := c.indexIdMap.insert index.2 index.1 }

def loadConstraint (c : Catalog) (k : ConstraintInfo) : Catalog :=
  { c with
    constraints := c.constraints.insert k.name k
    tableConstraints := c.tableConstraints.insert k.tableName (c.constraintList k.tableName++[k.name]) }

def loadSequence (c : Catalog) (s : SequenceInfo) : Catalog :=
  { c with sequences := c.sequences.insert s.name s }

def loadView (c : Catalog) (v : ViewInfo) : Catalog := { c with views := c.views.insert v.name v }

/-- A loop of the reader. An exception leaves what was loaded before it. -/
def loadEach {α : Type} (read : Json → Option α) (load : Catalog → α → Catalog) (c : Catalog) :
    List Json → Except Catalog Catalog
  | [] => .ok c
  | j::js =>
    match read j with
    | some x => loadEach read load (load c x) js
    | none => .error c

/-- The loop over a part of the file. A part that is missing has no elements. -/
def loadPart {α : Type} (key : String) (read : Json → Option α) (load : Catalog → α → Catalog)
    (j : Json) (c : Catalog) : Except Catalog Catalog :=
  loadEach read load c ((j.field key).elim [] elements)

/-- Walk through both maps with these orders. -/
def buildIdMaps (c : Catalog) (tables indexes : List Text) : Catalog :=
  { c with
    tableIdMap := tables.foldl (fun m name =>
      (c.tables.lookup name).elim m fun schema => m.insert schema.id name) c.tableIdMap
    indexIdMap := indexes.foldl (fun m name =>
      (c.indexes.lookup name).elim m fun id => m.insert id name) c.indexIdMap }

/-- Read a file into a catalog. -/
def deserialize (c : Catalog) (j : Json) (tables indexes : List Text) : Except Catalog Catalog := do
  let some 1 := get toNum "version" j | throw c
  let some nextTableId := get toUInt32 "next_table_id" j | throw c
  let c := { c with nextTableId := nextTableId }
  let some nextIndexId := get toUInt32 "next_index_id" j | throw c
  let c := { c with nextIndexId := nextIndexId }
  let c ← loadPart "tables" readTable loadTable j c
  let c ← loadPart "indexes" readIndex loadIndex j c
  let c ← loadPart "constraints" readConstraint loadConstraint j c
  let c ← loadPart "sequences" readSequence loadSequence j c
  let c ← loadPart "views" readView loadView j c
  return c.buildIdMaps tables indexes

end Read

section Reread

open Json

theorem toUInt32_num (n : UInt32) : toUInt32 (num n.toNat) = some n := by
  simp only [toUInt32,toNum,Option.map_some,Option.some.injEq]
  have hlt := n.toNat_lt
  have hmod : ((n.toNat : ℤ)%2^32).toNat = n.toNat := by omega
  rw [hmod,UInt32.ofNat_toNat]

theorem toUInt16_num (n : UInt16) : toUInt16 (num n.toNat) = some n := by
  simp only [toUInt16,toNum,Option.map_some,Option.some.injEq]
  have hlt := n.toNat_lt
  have hmod : ((n.toNat : ℤ)%2^16).toNat = n.toNat := by omega
  rw [hmod,UInt16.ofNat_toNat]

theorem toInt64_num (n : Int64) : toInt64 (num n.toInt) = some n := by
  simp [toInt64,toNum]

theorem toDataType_enumJson (type : DataType) :
    toDataType (enumJson type.code) = some (.ofCode (type.code%2^32)) := by
  have hcode : ((type.code : ℤ).bmod (2^32)%2^32).toNat = type.code%2^32 := by
    rw [show (2^32 : ℤ) = ((2^32 : ℕ) : ℤ) by rfl,Int.bmod_emod]
    omega
  simp only [toDataType,enumJson,toNum,Option.map_some,hcode]

theorem toConstraintInfoType_enumJson (type : ConstraintInfoType) :
    toConstraintInfoType (enumJson type.code) = some (.ofCode (type.code.bmod (2^32))) := by
  simp only [toConstraintInfoType,enumJson,toNum,Option.map_some,Int.bmod_bmod]

/-- What is left of a column that was written and read. -/
def rereadColumn (col : ColumnSchema) : ColumnSchema :=
  { ColumnSchema.new with
    id := col.id, name := col.name, type := .ofCode (col.type.code%2^32), length := col.length
    nullable := col.nullable, isPrimaryKey := col.isPrimaryKey }

theorem readColumn_columnJson (col : ColumnSchema) :
    readColumn (columnJson col) = some (rereadColumn col) := by
  simp [readColumn,columnJson,get_tail,getD_tail,toUInt16_num,toUInt32_num,toStr,Json.toBool,
    toDataType_enumJson,rereadColumn]

def rereadTable (name : Text) (schema : TableSchema) : TableSchema :=
  { TableSchema.new with
    id := schema.id, name := name, columns := schema.columns.map rereadColumn
    primaryKey := schema.primaryKey }

theorem readTable_tableJson (name : Text) (schema : TableSchema) :
    readTable (tableJson name schema) = some (rereadTable name schema) := by
  have hcolumns := items_map readColumn fun col (_ : col ∈ schema.columns) =>
    readColumn_columnJson col
  have hkey := items_map toUInt16 fun id (_ : id ∈ schema.primaryKey) => toUInt16_num id
  rw [List.map_id'] at hkey
  simp [readTable,tableJson,get_tail,toUInt32_num,toStr,hcolumns,hkey,rereadTable]

theorem readIndex_indexJson (name : Text) (id : IndexId) :
    readIndex (indexJson name id) = some (name,id) := by
  simp [readIndex,indexJson,get_tail,toUInt32_num,toStr]

theorem items_toStr (names : List Text) : items toStr (arr (names.map str)) = some names := by
  have hnames := items_map toStr fun name (_ : name ∈ names) => (rfl : toStr (str name) = some name)
  rw [List.map_id'] at hnames
  exact hnames

def rereadConstraint (name : Text) (k : ConstraintInfo) : ConstraintInfo :=
  { k with
    name := name, type := .ofCode (k.type.code.bmod (2^32)), deferrable := false
    initiallyDeferred := false }

theorem readConstraint_constraintJson (name : Text) (k : ConstraintInfo) :
    readConstraint (constraintJson name k) = some (rereadConstraint name k) := by
  simp [readConstraint,constraintJson,get_tail,getD_tail,toStr,toConstraintInfoType_enumJson,
    items_toStr,rereadConstraint]

theorem readSequence_sequenceJson (name : Text) (s : SequenceInfo) :
    readSequence (sequenceJson name s) = some { s with name := name } := by
  simp [readSequence,sequenceJson,get_tail,toStr,toInt64_num,Json.toBool]

theorem readView_viewJson (name : Text) (v : ViewInfo) :
    readView (viewJson name v) = some { v with name := name } := by
  simp [readView,viewJson,get_tail,getD_tail,toStr,items_toStr,Json.toBool]

/-- A loop over what was written loads what is read of it. -/
theorem loadEach_map {α β : Type} {read : Json → Option α} {write : β → Json} {f : β → α}
    (load : Catalog → α → Catalog) (h : ∀ x, read (write x) = some (f x)) (c : Catalog)
    (xs : List β) :
    loadEach read load c (xs.map write) = .ok (xs.foldl (fun c x => load c (f x)) c) := by
  induction xs generalizing c with
  | nil => rfl
  | cons x xs ih =>
    rw [List.map_cons,loadEach,h]
    exact ih (load c (f x))

theorem loadPart_entriesJson {α β : Type} {read : Json → Option α} {write : Text → β → Json}
    {f : Text → β → α} (load : Catalog → α → Catalog)
    (h : ∀ name b, read (write name b) = some (f name b)) {j : Json} {key : String}
    {m : Finmap fun _ : Text => β} {order : List Text}
    (hj : j.field key = some (entriesJson write m order)) (c : Catalog) :
    loadPart key read load j c = .ok ((entries m order).foldl (fun c e => load c (f e.1 e.2)) c) := by
  rw [loadPart,hj]
  exact loadEach_map load (fun e => h e.1 e.2) c (entries m order)

/-- What is left of a catalog that was written and read, before the maps of the ids are built. -/
def reread (c : Catalog) (orders : Orders) : Catalog where
  tables := filterMapValues (fun name schema => some (rereadTable name schema)) c.tables
  tableIdMap := ∅
  indexes := c.indexes
  indexIdMap := (entries c.indexes orders.indexes).foldl (fun m e => m.insert e.2 e.1) ∅
  tableIndexes := ∅
  constraints := filterMapValues (fun name k => some (rereadConstraint name k)) c.constraints
  tableConstraints := (entries c.constraints orders.constraints).foldl (fun m e =>
    m.insert e.2.tableName ((m.lookup e.2.tableName).getD []++[e.1])) ∅
  sequences := filterMapValues (fun name s => some { s with name := name }) c.sequences
  views := filterMapValues (fun name v => some { v with name := name }) c.views
  nextTableId := c.nextTableId
  nextIndexId := c.nextIndexId

theorem foldl_loadTable (c : Catalog) (es : List (Text × TableSchema)) :
    es.foldl (fun c e => c.loadTable (rereadTable e.1 e.2)) c =
      { c with tables := es.foldl (fun m e => m.insert e.1 (rereadTable e.1 e.2)) c.tables } :=
  List.foldl_hom (fun m => { c with tables := m }) fun _ _ => rfl

theorem foldl_loadIndex (c : Catalog) (es : List (Text × IndexId)) :
    es.foldl (fun c e => c.loadIndex (e.1,e.2)) c =
      { c with
        indexes := es.foldl (fun m e => m.insert e.1 e.2) c.indexes
        indexIdMap := es.foldl (fun m e => m.insert e.2 e.1) c.indexIdMap } := by
  induction es generalizing c with
  | nil => rfl
  | cons e es ih => exact ih (c.loadIndex e)

theorem foldl_loadConstraint (c : Catalog) (es : List (Text × ConstraintInfo)) :
    es.foldl (fun c e => c.loadConstraint (rereadConstraint e.1 e.2)) c =
      { c with
        constraints := es.foldl (fun m e => m.insert e.1 (rereadConstraint e.1 e.2)) c.constraints
        tableConstraints := es.foldl (fun m e =>
          m.insert e.2.tableName ((m.lookup e.2.tableName).getD []++[e.1])) c.tableConstraints } := by
  induction es generalizing c with
  | nil => rfl
  | cons e es ih => exact ih (c.loadConstraint (rereadConstraint e.1 e.2))

theorem foldl_loadSequence (c : Catalog) (es : List (Text × SequenceInfo)) :
    es.foldl (fun c e => c.loadSequence { e.2 with name := e.1 }) c =
      { c with sequences := es.foldl (fun m e => m.insert e.1 { e.2 with name := e.1 }) c.sequences } :=
  List.foldl_hom (fun m => { c with sequences := m }) fun _ _ => rfl

theorem foldl_loadView (c : Catalog) (es : List (Text × ViewInfo)) :
    es.foldl (fun c e => c.loadView { e.2 with name := e.1 }) c =
      { c with views := es.foldl (fun m e => m.insert e.1 { e.2 with name := e.1 }) c.views } :=
  List.foldl_hom (fun m => { c with views := m }) fun _ _ => rfl

/-- Reading what was written never fails. -/
theorem deserialize_serialize {c : Catalog} {orders : Orders} (horders : OrdersOf c orders)
    (tables indexes : List Text) :
    deserialize .new (c.serialize orders) tables indexes =
      .ok ((c.reread orders).buildIdMaps tables indexes) := by
  have hindexes : filterMapValues (fun _ id => some id) c.indexes = c.indexes :=
    filterMapValues_some_eq_self_iff.mpr fun _ _ _ => rfl
  have hversion : get toNum "version" (c.serialize orders) = some 1 := by
    simp [serialize,toNum]
  have htable : get toUInt32 "next_table_id" (c.serialize orders) = some c.nextTableId := by
    simp [serialize,get_tail,toUInt32_num]
  have hindex : get toUInt32 "next_index_id" (c.serialize orders) = some c.nextIndexId := by
    simp [serialize,get_tail,toUInt32_num]
  have h1 := loadPart_entriesJson loadTable readTable_tableJson
    (show (c.serialize orders).field "tables" = some (entriesJson tableJson c.tables orders.tables)
      from rfl)
  have h2 := loadPart_entriesJson loadIndex readIndex_indexJson
    (show (c.serialize orders).field "indexes" =
      some (entriesJson indexJson c.indexes orders.indexes) from rfl)
  have h3 := loadPart_entriesJson loadConstraint readConstraint_constraintJson
    (show (c.serialize orders).field "constraints" =
      some (entriesJson constraintJson c.constraints orders.constraints) from rfl)
  have h4 := loadPart_entriesJson loadSequence readSequence_sequenceJson
    (show (c.serialize orders).field "sequences" =
      some (entriesJson sequenceJson c.sequences orders.sequences) from rfl)
  have h5 := loadPart_entriesJson loadView readView_viewJson
    (show (c.serialize orders).field "views" = some (entriesJson viewJson c.views orders.views)
      from rfl)
  simp only [deserialize,hversion,htable,hindex,h1,h2,h3,h4,h5,foldl_loadTable,foldl_loadIndex,
    foldl_loadConstraint,foldl_loadSequence,foldl_loadView,new,bind,Except.bind]
  have htables := foldl_insert_entries rereadTable horders.tables.2
  have hind := foldl_insert_entries (fun _ id => id) horders.indexes.2
  have hconstraints := foldl_insert_entries rereadConstraint horders.constraints.2
  have hsequences := foldl_insert_entries (fun name (s : SequenceInfo) => { s with name := name })
    horders.sequences.2
  have hviews := foldl_insert_entries (fun name (v : ViewInfo) => { v with name := name })
    horders.views.2
  rw [htables,hind,hindexes,hconstraints,hsequences,hviews]
  rfl

end Reread

section Reach

/-- The states of a catalog: those after calls and after loading files, read whole or in part. -/
inductive Reached : Catalog → Prop
  | new : Reached .new
  | exec {c c' : Catalog} {op : CatalogOp} : Reached c → c.exec op = some c' → Reached c'
  | load {c c' : Catalog} (j : Json) (tables indexes : List Text) : Reached c →
      (c.deserialize j tables indexes = .ok c' ∨ c.deserialize j tables indexes = .error c') →
      Reached c'

/-- Every value of a map is under its own name. -/
def OwnNames {β : Type} (nameOf : β → Text) (m : Finmap fun _ : Text => β) : Prop :=
  ∀ name b, m.lookup name = some b → nameOf b = name

variable {β : Type} {nameOf : β → Text} {m : Finmap fun _ : Text => β}

theorem OwnNames.insert (h : OwnNames nameOf m) (b : β) : OwnNames nameOf (m.insert (nameOf b) b) := by
  intro name b' hb'
  rcases lookup_insert_cases hb' with ⟨rfl,rfl⟩ | hold
  · rfl
  · exact h name b' hold

theorem OwnNames.erase (h : OwnNames nameOf m) (a : Text) : OwnNames nameOf (m.erase a) :=
  fun name b hb => h name b (lookup_erase_cases hb).2

theorem OwnNames.foldl_erase (h : OwnNames nameOf m) (names : List Text) :
    OwnNames nameOf (names.foldl (fun m a => m.erase a) m) := by
  induction names generalizing m with
  | nil => exact h
  | cons a names ih => exact ih (h.erase a)

structure Named (c : Catalog) : Prop where
  constraints : OwnNames ConstraintInfo.name c.constraints
  sequences : OwnNames SequenceInfo.name c.sequences
  views : OwnNames ViewInfo.name c.views

theorem advance_name {s s' : SequenceInfo} (h : SequenceInfo.advance s = some s') :
    s'.name = s.name := by
  unfold SequenceInfo.advance at h
  dsimp only at h
  split_ifs at h
  all_goals
    obtain rfl := Option.some.inj h
    rfl

theorem Named.dropIndex {c : Catalog} (hc : Named c) (name : Text) (order : List Text) :
    Named (c.dropIndex name order).2 := by
  rcases c.dropIndex_cases name order with ⟨_,heq⟩ | ⟨id,_,heq⟩
  · rw [heq]
    exact hc
  · rw [heq]
    exact ⟨hc.1,hc.2,hc.3⟩

theorem Named.exec {c c' : Catalog} {op : CatalogOp} (hc : Named c) (h : c.exec op = some c') :
    Named c' := by
  cases op with
  | createTable name schema =>
    obtain rfl := Option.some.inj h
    rcases c.createTable_cases name schema with ⟨_,heq,_⟩ | ⟨_,_,heq⟩
    · rw [heq]
      exact hc
    · rw [heq]
      exact ⟨hc.1,hc.2,hc.3⟩
  | dropTable name =>
    obtain rfl := Option.some.inj h
    rcases c.dropTable_cases name with ⟨_,heq⟩ | ⟨schema,_,_,heq⟩
    · rw [heq]
      exact hc
    · rw [heq]
      exact ⟨hc.constraints.foldl_erase _,hc.2,hc.3⟩
  | renameTable oldName newName =>
    obtain rfl := Option.some.inj h
    rcases c.renameTable_cases oldName newName with ⟨_,heq,_⟩ | ⟨schema,_,_,heq⟩
    · rw [heq]
      exact hc
    · rw [heq]
      exact ⟨hc.1,hc.2,hc.3⟩
  | createIndex name table columns unique =>
    obtain rfl := Option.some.inj h
    rcases c.createIndex_cases name table columns unique with ⟨_,heq,_⟩ | ⟨schema,_,_,heq⟩
    · rw [heq]
      exact hc
    · rw [heq]
      exact ⟨hc.1,hc.2,hc.3⟩
  | dropIndex name order =>
    obtain ⟨_,hsome⟩ := Option.ite_none_right_eq_some.mp h
    obtain rfl := Option.some.inj hsome
    exact hc.dropIndex name order
  | dropIndexId id order =>
    obtain ⟨_,hsome⟩ := Option.ite_none_right_eq_some.mp h
    obtain rfl := Option.some.inj hsome
    rcases c.dropIndexId_cases id order with ⟨_,heq⟩ | ⟨name,_,heq⟩
    · rw [heq]
      exact hc
    · rw [heq]
      exact hc.dropIndex name order
  | addConstraint table k =>
    obtain rfl := Option.some.inj h
    rcases c.addConstraint_cases table k with ⟨heq,_⟩ | ⟨_,heq⟩
    · rw [heq]
      exact hc
    · rw [heq]
      exact ⟨hc.constraints.insert k,hc.2,hc.3⟩
  | dropConstraint table name =>
    obtain rfl := Option.some.inj h
    unfold dropConstraint
    split_ifs
    · exact ⟨hc.constraints.erase name,hc.2,hc.3⟩
    · exact hc
  | createSequence s =>
    obtain rfl := Option.some.inj h
    unfold createSequence
    split_ifs
    · exact hc
    · exact ⟨hc.1,hc.sequences.insert s,hc.3⟩
  | dropSequence name =>
    obtain rfl := Option.some.inj h
    unfold dropSequence
    split_ifs
    · exact ⟨hc.1,hc.sequences.erase name,hc.3⟩
    · exact hc
  | nextValue name =>
    obtain ⟨⟨v,c''⟩,hnext,rfl⟩ := Option.map_eq_some_iff.mp h
    unfold nextValue at hnext
    cases hlook : c.sequences.lookup name with
    | none =>
      rw [hlook] at hnext
      obtain ⟨_,rfl⟩ := Prod.mk.inj (Option.some.inj hnext)
      exact hc
    | some s =>
      rw [hlook] at hnext
      obtain ⟨s',hs',heq⟩ := Option.map_eq_some_iff.mp hnext
      obtain ⟨_,rfl⟩ := Prod.mk.inj heq
      have hname : s'.name = name := by rw [advance_name hs',hc.sequences name s hlook]
      have hins := hc.sequences.insert s'
      rw [hname] at hins
      exact ⟨hc.1,hins,hc.3⟩
  | createView v =>
    obtain rfl := Option.some.inj h
    unfold createView
    split_ifs
    · exact hc
    · exact ⟨hc.1,hc.2,hc.views.insert v⟩
  | dropView name =>
    obtain rfl := Option.some.inj h
    unfold dropView
    split_ifs
    · exact ⟨hc.1,hc.2,hc.views.erase name⟩
    · exact hc

/-- The catalog that a reader leaves behind is named, also after an exception. -/
def LeavesNamed (r : Except Catalog Catalog) : Prop := ∀ c', r = .ok c' ∨ r = .error c' → Named c'

theorem LeavesNamed.ok {c : Catalog} (hc : Named c) : LeavesNamed (.ok c) := by
  rintro c' (hok | herr)
  · exact Except.ok.inj hok ▸ hc
  · cases herr

theorem LeavesNamed.error {c : Catalog} (hc : Named c) : LeavesNamed (.error c) := by
  rintro c' (hok | herr)
  · cases hok
  · exact Except.error.inj herr ▸ hc

theorem LeavesNamed.bind {r : Except Catalog Catalog} {f : Catalog → Except Catalog Catalog}
    (hr : LeavesNamed r) (hf : ∀ c, Named c → LeavesNamed (f c)) : LeavesNamed (r >>= f) := by
  cases r with
  | ok c => exact hf c (hr c (Or.inl rfl))
  | error c => exact LeavesNamed.error (hr c (Or.inr rfl))

theorem LeavesNamed.loadPart {α : Type} {read : Json → Option α} {load : Catalog → α → Catalog}
    (hload : ∀ c x, Named c → Named (load c x)) {c : Catalog} (hc : Named c) (key : String) (j : Json) :
    LeavesNamed (c.loadPart key read load j) := by
  unfold Catalog.loadPart
  generalize (j.field key).elim [] Json.elements = js
  induction js generalizing c with
  | nil => exact LeavesNamed.ok hc
  | cons j js ih =>
    unfold loadEach
    cases read j with
    | none => exact LeavesNamed.error hc
    | some x => exact ih (hload c x hc)

theorem Named.deserialize {c : Catalog} (hc : Named c) (j : Json) (tables indexes : List Text) :
    LeavesNamed (c.deserialize j tables indexes) := by
  unfold Catalog.deserialize
  split
  swap
  · exact LeavesNamed.error hc
  split
  swap
  · exact LeavesNamed.error hc
  split
  swap
  · exact LeavesNamed.error ⟨hc.1,hc.2,hc.3⟩
  dsimp only
  refine LeavesNamed.bind (LeavesNamed.loadPart ?_ ?_ _ _) fun c hc => ?_
  · exact fun c schema hc => ⟨hc.1,hc.2,hc.3⟩
  · exact ⟨hc.1,hc.2,hc.3⟩
  refine (LeavesNamed.loadPart ?_ hc _ _).bind fun c hc => ?_
  · exact fun c index hc => ⟨hc.1,hc.2,hc.3⟩
  refine (LeavesNamed.loadPart ?_ hc _ _).bind fun c hc => ?_
  · exact fun c k hc => ⟨hc.constraints.insert k,hc.2,hc.3⟩
  refine (LeavesNamed.loadPart ?_ hc _ _).bind fun c hc => ?_
  · exact fun c s hc => ⟨hc.1,hc.sequences.insert s,hc.3⟩
  refine (LeavesNamed.loadPart ?_ hc _ _).bind fun c hc => ?_
  · exact fun c v hc => ⟨hc.1,hc.2,hc.views.insert v⟩
  exact LeavesNamed.ok ⟨hc.1,hc.2,hc.3⟩

theorem Reached.named {c : Catalog} (hc : Reached c) : Named c := by
  induction hc with
  | new => exact ⟨nofun,nofun,nofun⟩
  | exec _ h ih => exact ih.exec h
  | load j tables indexes _ h ih => exact ih.deserialize j tables indexes _ h

end Reach

section Storable

/-- The parts of the catalog that a file is to keep. The maps from the ids to the names are
built anew. -/
structure SameCatalog (c c' : Catalog) : Prop where
  tables : c'.tables = c.tables
  indexes : c'.indexes = c.indexes
  tableIndexes : c'.tableIndexes = c.tableIndexes
  constraints : c'.constraints = c.constraints
  tableConstraints : c'.tableConstraints = c.tableConstraints
  sequences : c'.sequences = c.sequences
  views : c'.views = c.views
  nextTableId : c'.nextTableId = c.nextTableId
  nextIndexId : c'.nextIndexId = c.nextIndexId

/-- Into a new catalog the file is read as the catalog that wrote it. -/
def Reloads (c : Catalog) (orders : Orders) : Prop :=
  ∀ tables indexes, ∃ c', deserialize .new (c.serialize orders) tables indexes = .ok c' ∧
    SameCatalog c c'

/-- What the writer leaves out is as the constructor sets it. The type is a 32-bit value. -/
structure StorableColumn (col : ColumnSchema) : Prop where
  type : DataType.ofCode (col.type.code%2^32) = col.type
  precision : col.precision = 10
  scale : col.scale = 0
  isUnique : col.isUnique = false
  isAutoIncrement : col.isAutoIncrement = false
  defaultValue : col.defaultValue = []
  comment : col.comment = []

theorem rereadColumn_eq_self_iff {col : ColumnSchema} :
    rereadColumn col = col ↔ StorableColumn col := by
  obtain ⟨id,name,type,length,precision,scale,nullable,isPrimaryKey,isUnique,isAutoIncrement,
    defaultValue,comment⟩ := col
  simp only [rereadColumn,ColumnSchema.new,ColumnSchema.mk.injEq,true_and]
  constructor
  · rintro ⟨htype,rfl,rfl,rfl,rfl,rfl,rfl⟩
    exact ⟨htype,rfl,rfl,rfl,rfl,rfl,rfl⟩
  · rintro ⟨htype,rfl,rfl,rfl,rfl,rfl,rfl⟩
    exact ⟨htype,rfl,rfl,rfl,rfl,rfl,rfl⟩

structure StorableTable (name : Text) (schema : TableSchema) : Prop where
  name : schema.name = name
  columns : ∀ col ∈ schema.columns, StorableColumn col
  indexes : schema.indexes = ∅
  options : schema.options = ∅

theorem rereadTable_eq_self_iff {name : Text} {schema : TableSchema} :
    rereadTable name schema = schema ↔ StorableTable name schema := by
  obtain ⟨id,schemaName,columns,primaryKey,indexes,options⟩ := schema
  have hcolumns : columns.map rereadColumn = columns ↔ ∀ col ∈ columns, StorableColumn col := by
    conv_lhs => rhs; rw [← List.map_id columns]
    rw [List.map_inj_left]
    exact forall₂_congr fun col _ => rereadColumn_eq_self_iff
  simp only [rereadTable,TableSchema.new,TableSchema.mk.injEq,hcolumns,true_and]
  constructor
  · rintro ⟨rfl,hall,rfl,rfl⟩
    exact ⟨rfl,hall,rfl,rfl⟩
  · rintro ⟨rfl,hall,rfl,rfl⟩
    exact ⟨rfl,hall,rfl,rfl⟩

structure StorableConstraint (k : ConstraintInfo) : Prop where
  type : ConstraintInfoType.ofCode (k.type.code.bmod (2^32)) = k.type
  deferrable : k.deferrable = false
  initiallyDeferred : k.initiallyDeferred = false

theorem rereadConstraint_eq_self_iff {k : ConstraintInfo} :
    rereadConstraint k.name k = k ↔ StorableConstraint k := by
  obtain ⟨type,name,tableName,columns,refTable,refColumns,checkExpr,deferrable,deferred⟩ := k
  simp only [rereadConstraint,ConstraintInfo.mk.injEq,true_and]
  constructor
  · rintro ⟨htype,rfl,rfl⟩
    exact ⟨htype,rfl,rfl⟩
  · rintro ⟨htype,rfl,rfl⟩
    exact ⟨htype,rfl,rfl⟩

/-- The names of the constraints that name this table as their own, in the order of the file. -/
def constraintsNaming (c : Catalog) (order : List Text) (table : Text) : List Text :=
  ((entries c.constraints order).filter fun e => e.2.tableName = table).map Prod.fst

/-- There is nothing in the catalog that the file has no place for: no index is on a list of a
table or in a schema, and the lists of constraints are those by the tables the constraints name. -/
structure Storable (c : Catalog) (order : List Text) : Prop where
  tables : ∀ name schema, c.tables.lookup name = some schema → StorableTable name schema
  tableIndexes : c.tableIndexes = ∅
  constraints : ∀ name k, c.constraints.lookup name = some k → StorableConstraint k
  tableConstraints : ∀ table, c.tableConstraints.lookup table =
    if c.constraintsNaming order table = [] then none else some (c.constraintsNaming order table)

theorem lookup_reread_tableConstraints (c : Catalog) (orders : Orders) (table : Text) :
    (c.reread orders).tableConstraints.lookup table =
      if c.constraintsNaming orders.constraints table = [] then none
      else some (c.constraintsNaming orders.constraints table) := by
  have hlook := lookup_foldl_append (fun e : Text × ConstraintInfo => e.2.tableName) Prod.fst
    (entries c.constraints orders.constraints) ∅ table
  rw [Finmap.lookup_empty] at hlook
  simp only [constraintsNaming,List.map_eq_nil_iff]
  exact hlook

theorem sameCatalog_reread_iff {c : Catalog} (hc : Named c) (orders : Orders)
    (tables indexes : List Text) :
    SameCatalog c ((c.reread orders).buildIdMaps tables indexes) ↔ Storable c orders.constraints := by
  have htables : (c.reread orders).tables = c.tables ↔
      ∀ name schema, c.tables.lookup name = some schema → StorableTable name schema := by
    refine filterMapValues_some_eq_self_iff.trans ?_
    exact forall₃_congr fun name schema _ => rereadTable_eq_self_iff
  have hconstraints : (c.reread orders).constraints = c.constraints ↔
      ∀ name k, c.constraints.lookup name = some k → StorableConstraint k := by
    refine filterMapValues_some_eq_self_iff.trans ?_
    refine forall₃_congr fun name k hk => ?_
    rw [← hc.constraints name k hk]
    exact rereadConstraint_eq_self_iff
  have hlists : (c.reread orders).tableConstraints = c.tableConstraints ↔
      ∀ table, c.tableConstraints.lookup table =
        if c.constraintsNaming orders.constraints table = [] then none
        else some (c.constraintsNaming orders.constraints table) := by
    constructor
    · intro h table
      rw [← h,lookup_reread_tableConstraints]
    · intro h
      apply Finmap.ext_lookup
      intro table
      rw [h,lookup_reread_tableConstraints]
  have hsequences : (c.reread orders).sequences = c.sequences := by
    refine filterMapValues_some_eq_self_iff.mpr fun name s hs => ?_
    rw [← hc.sequences name s hs]
  have hviews : (c.reread orders).views = c.views := by
    refine filterMapValues_some_eq_self_iff.mpr fun name v hv => ?_
    rw [← hc.views name v hv]
  constructor
  · intro h
    exact ⟨htables.mp h.tables,h.tableIndexes.symm,hconstraints.mp h.constraints,
      hlists.mp h.tableConstraints⟩
  · intro h
    exact ⟨htables.mpr h.tables,rfl,h.tableIndexes.symm,hconstraints.mpr h.constraints,
      hlists.mpr h.tableConstraints,hsequences,hviews,rfl,rfl⟩

/-- A file brings the catalog back just when there is nothing in it that the file has no place
for. -/
theorem reloads_iff {c : Catalog} (hc : Reached c) {orders : Orders} (horders : OrdersOf c orders) :
    Reloads c orders ↔ Storable c orders.constraints := by
  constructor
  · intro h
    obtain ⟨c',hread,hsame⟩ := h [] []
    rw [deserialize_serialize horders] at hread
    rw [← sameCatalog_reread_iff hc.named orders [] [],Except.ok.inj hread]
    exact hsame
  · intro h tables indexes
    exact ⟨_,deserialize_serialize horders tables indexes,
      (sameCatalog_reread_iff hc.named orders tables indexes).mpr h⟩

section Small

def idColumn : ColumnSchema :=
  { ColumnSchema.new with id := 1, name := "id".toList, isPrimaryKey := true }

def plainTable : TableSchema := ⟨0,"t".toList,[idColumn],[1],∅,∅⟩

def primaryKey : ConstraintInfo :=
  ⟨.PRIMARY_KEY,"pk".toList,"t".toList,["id".toList],[],[],[],false,false⟩

theorem plainCatalog_reached : Reached (Catalog.new.createTable "t".toList plainTable).2 :=
  @Reached.exec _ _ (.createTable "t".toList plainTable) .new rfl

/-- A table with a constraint. -/
def keyedCatalog : Catalog :=
  ((Catalog.new.createTable "t".toList plainTable).2.addConstraint "t".toList primaryKey).2

theorem keyedCatalog_reached : Reached keyedCatalog :=
  @Reached.exec _ _ (.addConstraint "t".toList primaryKey) plainCatalog_reached rfl

theorem reloads_iff_keyed :
    OrdersOf keyedCatalog ⟨["t".toList],[],["pk".toList],[],[]⟩ ∧
    Reloads keyedCatalog ⟨["t".toList],[],["pk".toList],[],[]⟩ := by
  have horders : OrdersOf keyedCatalog ⟨["t".toList],[],["pk".toList],[],[]⟩ :=
    ⟨by decide,by decide,by decide,by decide,by decide⟩
  have htables : keyedCatalog.tables =
      (∅ : Finmap fun _ => TableSchema).insert "t".toList { plainTable with id := 1 } := rfl
  have hconstraints : keyedCatalog.constraints =
      (∅ : Finmap fun _ => ConstraintInfo).insert "pk".toList primaryKey := rfl
  have hlists : keyedCatalog.tableConstraints =
      (∅ : Finmap fun _ => List Text).insert "t".toList ["pk".toList] := rfl
  refine ⟨horders,(reloads_iff keyedCatalog_reached horders).mpr ⟨?_,rfl,?_,?_⟩⟩
  · intro name schema hlook
    rw [htables] at hlook
    rcases lookup_insert_cases hlook with ⟨rfl,rfl⟩ | hnone
    · refine ⟨rfl,?_,rfl,rfl⟩
      intro col hcol
      obtain rfl := List.mem_singleton.mp hcol
      exact ⟨rfl,rfl,rfl,rfl,rfl,rfl,rfl⟩
    · cases hnone
  · intro name k hlook
    rw [hconstraints] at hlook
    rcases lookup_insert_cases hlook with ⟨rfl,rfl⟩ | hnone
    · exact ⟨by decide,rfl,rfl⟩
    · cases hnone
  · intro table
    have hentries : entries keyedCatalog.constraints ["pk".toList] = [("pk".toList,primaryKey)] := by
      decide
    rw [hlists,lookup_insert_eq]
    simp only [constraintsNaming,hentries]
    by_cases ht : table = "t".toList
    · subst ht
      rfl
    · have hname : primaryKey.tableName ≠ table := Ne.symm ht
      rw [if_neg ht,List.filter_cons_of_neg (by simpa using hname)]
      rfl

/-- A table with an index: the file has neither the list of its indexes nor the entry in the
schema. -/
def indexedCatalog : Catalog :=
  ((Catalog.new.createTable "t".toList plainTable).2.createIndex "i".toList "t".toList
    ["id".toList] true).2

theorem index_not_reloaded :
    ∃ (c : Catalog) (orders : Orders), Reached c ∧ OrdersOf c orders ∧ ¬ Reloads c orders := by
  have hreached : Reached indexedCatalog :=
    @Reached.exec _ _ (.createIndex "i".toList "t".toList ["id".toList] true) plainCatalog_reached rfl
  have horders : OrdersOf indexedCatalog ⟨["t".toList],["i".toList],[],[],[]⟩ :=
    ⟨by decide,by decide,by decide,by decide,by decide⟩
  refine ⟨_,_,hreached,horders,?_⟩
  intro h
  obtain ⟨c',hread,hsame⟩ := h [] []
  rw [deserialize_serialize horders] at hread
  obtain rfl := Except.ok.inj hread
  have hlist : (∅ : Finmap fun _ : Text => List IndexId) = indexedCatalog.tableIndexes :=
    hsame.tableIndexes
  have hlook := congrArg (Finmap.lookup "t".toList) hlist
  exact absurd hlook (by decide)

end Small

end Storable

end Catalog
end OrangeSQL
