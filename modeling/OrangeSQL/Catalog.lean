import OrangeSQL.Engine
import OrangeSQL.Lexer
import OrangeSQL.Library.FiniteMap

/-! The system catalog: schemas of tables, indexes, constraints, sequences and views, in maps that
name one another. Ids of tables and indexes are 32-bit counters. Locks are no-ops, the
directories of the tables are left out, and where the source walks through a hash map and
stops, the order is an argument. -/
namespace OrangeSQL

open FiniteMap

abbrev IndexId := UInt32
abbrev ColumnId := UInt16

structure ColumnSchema where
  id : ColumnId
  name : Text
  type : DataType
  length : UInt32
  precision : Int32
  scale : Int32
  nullable : Bool
  isPrimaryKey : Bool
  isUnique : Bool
  isAutoIncrement : Bool
  defaultValue : Text
  comment : Text
  deriving DecidableEq, Repr

/-- The default constructor. -/
def ColumnSchema.new : ColumnSchema where
  id := 0
  name := []
  type := .integer
  length := 0
  precision := 10
  scale := 0
  nullable := true
  isPrimaryKey := false
  isUnique := false
  isAutoIncrement := false
  defaultValue := []
  comment := []

/-- `indexes` has an index id for a column name. -/
structure TableSchema where
  id : UInt32
  name : Text
  columns : List ColumnSchema
  primaryKey : List ColumnId
  indexes : Finmap (fun _ : Text => IndexId)
  options : Finmap (fun _ : Text => Text)
  deriving DecidableEq

def TableSchema.new : TableSchema := ⟨0,[],[],[],∅,∅⟩

/-- `unnamed` holds the codes read from a file that stand for no enumerator. -/
inductive ConstraintInfoType
  | PRIMARY_KEY | FOREIGN_KEY | UNIQUE | CHECK | NOT_NULL | unnamed (code : ℤ)
  deriving DecidableEq, Repr

structure ConstraintInfo where
  type : ConstraintInfoType
  name : Text
  tableName : Text
  columns : List Text
  refTable : Text
  refColumns : List Text
  checkExpr : Text
  deferrable : Bool
  initiallyDeferred : Bool
  deriving DecidableEq, Repr

structure SequenceInfo where
  name : Text
  startValue : Int64
  currentValue : Int64
  increment : Int64
  minValue : Int64
  maxValue : Int64
  cycle : Bool
  deriving DecidableEq, Repr

structure ViewInfo where
  name : Text
  query : Text
  columns : List Text
  materialized : Bool
  deriving DecidableEq, Repr

structure Catalog where
  tables : Finmap (fun _ : Text => TableSchema)
  tableIdMap : Finmap (fun _ : UInt32 => Text)
  indexes : Finmap (fun _ : Text => IndexId)
  indexIdMap : Finmap (fun _ : IndexId => Text)
  tableIndexes : Finmap (fun _ : Text => List IndexId)
  constraints : Finmap (fun _ : Text => ConstraintInfo)
  tableConstraints : Finmap (fun _ : Text => List Text)
  sequences : Finmap (fun _ : Text => SequenceInfo)
  views : Finmap (fun _ : Text => ViewInfo)
  nextTableId : UInt32
  nextIndexId : IndexId

namespace Catalog

def new : Catalog := ⟨∅,∅,∅,∅,∅,∅,∅,∅,∅,1,1⟩

/-- The list under a name, empty where there is none. -/
def indexList (c : Catalog) (table : Text) : List IndexId := (c.tableIndexes.lookup table).getD []
def constraintList (c : Catalog) (table : Text) : List Text :=
  (c.tableConstraints.lookup table).getD []

/-- A schema without an id gets the next one. -/
def createTable (c : Catalog) (name : Text) (schema : TableSchema) : Status × Catalog :=
  if name ∈ c.tables then (.alreadyExists,c)
  else
    let id := if schema.id = 0 then c.nextTableId else schema.id
    let nextTableId := if schema.id = 0 then c.nextTableId+1 else c.nextTableId
    (.ok,{ c with
      tables := c.tables.insert name { schema with id := id }
      tableIdMap := c.tableIdMap.insert id name
      nextTableId := nextTableId })

def getIndexName (c : Catalog) (id : IndexId) : Text := (c.indexIdMap.lookup id).getD []

def viewDependsOn (name : Text) (v : ViewInfo) : Bool := name <:+: v.query
def constraintDependsOn (name : Text) (k : ConstraintInfo) : Bool :=
  k.tableName = name ∨ k.refTable = name

/-- The objects that depend on a name, views and constraints in the orders of their maps. -/
def getDependencies (c : Catalog) (name : Text) (views constraints : List Text) : List Text :=
  (views.filter fun v => (c.views.lookup v).any (viewDependsOn name)).map ("VIEW:".toList++·) ++
  (constraints.filter fun k => (c.constraints.lookup k).any (constraintDependsOn name)).map
    ("CONSTRAINT:".toList++·) ++
  (c.indexList name).map fun id => "INDEX:".toList++c.getIndexName id

/-- Whether there are no dependencies, which no order of the maps has a say in. -/
def canDrop (c : Catalog) (name : Text) : Bool :=
  (∀ v ∈ c.views.keys, (c.views.lookup v).any (viewDependsOn name) = false) ∧
  (∀ k ∈ c.constraints.keys, (c.constraints.lookup k).any (constraintDependsOn name) = false) ∧
  c.indexList name = []

/-- The loop over the indexes of a dropped table. -/
def dropIndexes (c : Catalog) (ids : List IndexId) : Catalog :=
  ids.foldl (fun c id =>
    { c with
      indexes := c.indexes.erase (c.getIndexName id)
      indexIdMap := c.indexIdMap.erase id }) c

def dropTable (c : Catalog) (name : Text) : Status × Catalog :=
  match c.tables.lookup name with
  | none => (.notFound,c)
  | some schema =>
    if !c.canDrop name then (.error,c)
    else
      let c := c.dropIndexes (c.indexList name)
      let constraints := (c.constraintList name).foldl (fun m k => m.erase k) c.constraints
      (.ok,{ c with
        tableIndexes := c.tableIndexes.erase name
        constraints := constraints
        tableConstraints := c.tableConstraints.erase name
        tables := c.tables.erase name
        tableIdMap := c.tableIdMap.erase schema.id })

/-- Only the schema and the map of the ids learn of the new name. -/
def renameTable (c : Catalog) (oldName newName : Text) : Status × Catalog :=
  match c.tables.lookup oldName with
  | none => (.notFound,c)
  | some schema =>
    if newName ∈ c.tables then (.alreadyExists,c)
    else
      (.ok,{ c with
        tables := (c.tables.erase oldName).insert newName { schema with name := newName }
        tableIdMap := c.tableIdMap.insert schema.id newName })

def createIndex (c : Catalog) (name table : Text) (columns : List Text) (_unique : Bool) :
    Status × Catalog :=
  if name ∈ c.indexes then (.alreadyExists,c)
  else
    match c.tables.lookup table with
    | none => (.notFound,c)
    | some schema =>
      let id := c.nextIndexId
      let entries := columns.foldl (fun m col => m.insert col id) schema.indexes
      (.ok,{ c with
        nextIndexId := id+1
        indexes := c.indexes.insert name id
        indexIdMap := c.indexIdMap.insert id name
        tableIndexes := c.tableIndexes.insert table (c.indexList table++[id])
        tables := c.tables.insert table { schema with indexes := entries } })

/-- The id goes from the first list in the order that has it. -/
def eraseFromLists (id : IndexId) (lists : Finmap fun _ : Text => List IndexId) :
    List Text → Finmap fun _ : Text => List IndexId
  | [] => lists
  | table::order =>
    match lists.lookup table with
    | some ids =>
      if id ∈ ids then lists.insert table (ids.erase id) else eraseFromLists id lists order
    | none => eraseFromLists id lists order

/-- `order` is that of `tableIndexes`. -/
def dropIndex (c : Catalog) (name : Text) (order : List Text) : Status × Catalog :=
  match c.indexes.lookup name with
  | none => (.notFound,c)
  | some id =>
    let tables := mapValues (fun schema : TableSchema =>
      { schema with indexes := filterValues (fun i => i ≠ id) schema.indexes }) c.tables
    (.ok,{ c with
      tables := tables
      tableIndexes := eraseFromLists id c.tableIndexes order
      indexes := c.indexes.erase name
      indexIdMap := c.indexIdMap.erase id })

/-- The overload that takes an id. -/
def dropIndexId (c : Catalog) (id : IndexId) (order : List Text) : Status × Catalog :=
  match c.indexIdMap.lookup id with
  | none => (.notFound,c)
  | some name => c.dropIndex name order

def listIndexes (c : Catalog) (table : Text) : List Text := (c.indexList table).map c.getIndexName

def addConstraint (c : Catalog) (table : Text) (k : ConstraintInfo) : Status × Catalog :=
  if k.name ∈ c.constraints then (.alreadyExists,c)
  else
    (.ok,{ c with
      constraints := c.constraints.insert k.name k
      tableConstraints := c.tableConstraints.insert table (c.constraintList table++[k.name]) })

def dropConstraint (c : Catalog) (table name : Text) : Status × Catalog :=
  if name ∈ c.constraints then
    let lists := match c.tableConstraints.lookup table with
      | some names => c.tableConstraints.insert table (names.erase name)
      | none => c.tableConstraints
    (.ok,{ c with constraints := c.constraints.erase name, tableConstraints := lists })
  else (.notFound,c)

def getConstraints (c : Catalog) (table : Text) : List ConstraintInfo :=
  (c.constraintList table).filterMap c.constraints.lookup

def createSequence (c : Catalog) (s : SequenceInfo) : Status × Catalog :=
  if s.name ∈ c.sequences then (.alreadyExists,c)
  else (.ok,{ c with sequences := c.sequences.insert s.name s })

def dropSequence (c : Catalog) (name : Text) : Status × Catalog :=
  if name ∈ c.sequences then (.ok,{ c with sequences := c.sequences.erase name })
  else (.notFound,c)

/-- The step behind the value that is returned; it is undefined where the sum overflows. -/
def SequenceInfo.advance (s : SequenceInfo) : Option SequenceInfo :=
  let sum := s.currentValue.toInt+s.increment.toInt
  if sum < -2^63 ∨ 2^63 ≤ sum then none
  else
    let next := s.currentValue+s.increment
    some { s with currentValue :=
      if s.maxValue < next then if s.cycle then s.minValue else s.maxValue else next }

def nextValue (c : Catalog) (name : Text) : Option (Int64 × Catalog) :=
  match c.sequences.lookup name with
  | none => some (-1,c)
  | some s =>
    (SequenceInfo.advance s).map fun s' =>
      (s.currentValue,{ c with sequences := c.sequences.insert name s' })

def createView (c : Catalog) (v : ViewInfo) : Status × Catalog :=
  if v.name ∈ c.views then (.alreadyExists,c)
  else (.ok,{ c with views := c.views.insert v.name v })

def dropView (c : Catalog) (name : Text) : Status × Catalog :=
  if name ∈ c.views then (.ok,{ c with views := c.views.erase name })
  else (.notFound,c)

end Catalog

inductive CatalogOp
  | createTable (name : Text) (schema : TableSchema)
  | dropTable (name : Text)
  | renameTable (oldName newName : Text)
  | createIndex (name table : Text) (columns : List Text) (unique : Bool)
  | dropIndex (name : Text) (order : List Text)
  | dropIndexId (id : IndexId) (order : List Text)
  | addConstraint (table : Text) (k : ConstraintInfo)
  | dropConstraint (table name : Text)
  | createSequence (s : SequenceInfo)
  | dropSequence (name : Text)
  | nextValue (name : Text)
  | createView (v : ViewInfo)
  | dropView (name : Text)

namespace Catalog

open Engine (Lists)

/-- One call that returns. There is no call with an order that is none. -/
def exec (c : Catalog) : CatalogOp → Option Catalog
  | .createTable name schema => some (c.createTable name schema).2
  | .dropTable name => some (c.dropTable name).2
  | .renameTable oldName newName => some (c.renameTable oldName newName).2
  | .createIndex name table columns unique => some (c.createIndex name table columns unique).2
  | .dropIndex name order =>
    if Lists order c.tableIndexes.keys then some (c.dropIndex name order).2 else none
  | .dropIndexId id order =>
    if Lists order c.tableIndexes.keys then some (c.dropIndexId id order).2 else none
  | .addConstraint table k => some (c.addConstraint table k).2
  | .dropConstraint table name => some (c.dropConstraint table name).2
  | .createSequence s => some (c.createSequence s).2
  | .dropSequence name => some (c.dropSequence name).2
  | .nextValue name => (c.nextValue name).map Prod.snd
  | .createView v => some (c.createView v).2
  | .dropView name => some (c.dropView name).2

/-- The calls one after the other. -/
def run (c : Catalog) : List CatalogOp → Option Catalog
  | [] => some c
  | op::ops => (c.exec op).bind fun c => run c ops

section Specs

variable {c : Catalog}

theorem canDrop_eq_true (name : Text) :
    c.canDrop name = true ↔
      (∀ v ∈ c.views.keys, (c.views.lookup v).any (viewDependsOn name) = false) ∧
      (∀ k ∈ c.constraints.keys, (c.constraints.lookup k).any (constraintDependsOn name) = false) ∧
      c.indexList name = [] := by
  rw [canDrop,decide_eq_true_eq]

/-- A name can be dropped just when nothing depends on it, in whatever order the maps are. -/
theorem canDrop_iff_getDependencies (name : Text) {views constraints : List Text}
    (hviews : Lists views c.views.keys) (hconstraints : Lists constraints c.constraints.keys) :
    c.canDrop name = true ↔ c.getDependencies name views constraints = [] := by
  rw [canDrop_eq_true,← hviews.2,← hconstraints.2]
  simp [getDependencies,List.filter_eq_nil_iff]

theorem lookup_isSome_iff {α β : Type} [DecidableEq α] {m : Finmap fun _ : α => β} {a : α} :
    a ∈ m ↔ ∃ b, m.lookup a = some b := by
  rw [← Finmap.lookup_isSome,Option.isSome_iff_exists]

/-- The id that a new table of this schema gets. -/
def newTableId (c : Catalog) (schema : TableSchema) : UInt32 :=
  if schema.id = 0 then c.nextTableId else schema.id

theorem createTable_cases (c : Catalog) (name : Text) (schema : TableSchema) :
    ((c.createTable name schema).1 ≠ .ok ∧ (c.createTable name schema).2 = c ∧ name ∈ c.tables) ∨
    name ∉ c.tables ∧ ∃ next, c.createTable name schema = (.ok,{ c with
      tables := c.tables.insert name { schema with id := c.newTableId schema }
      tableIdMap := c.tableIdMap.insert (c.newTableId schema) name
      nextTableId := next }) := by
  unfold createTable
  by_cases hname : name ∈ c.tables
  · simp [hname]
  · exact Or.inr ⟨hname,_,by simp [hname,newTableId]; rfl⟩

/-- The catalog without a table; the list of its indexes was empty. -/
def withoutTable (c : Catalog) (name : Text) (schema : TableSchema) : Catalog :=
  { c with
    tableIndexes := c.tableIndexes.erase name
    constraints := (c.constraintList name).foldl (fun m k => m.erase k) c.constraints
    tableConstraints := c.tableConstraints.erase name
    tables := c.tables.erase name
    tableIdMap := c.tableIdMap.erase schema.id }

theorem dropTable_cases (c : Catalog) (name : Text) :
    ((c.dropTable name).1 ≠ .ok ∧ (c.dropTable name).2 = c) ∨
    ∃ schema, c.tables.lookup name = some schema ∧ c.indexList name = [] ∧
      c.dropTable name = (.ok,c.withoutTable name schema) := by
  unfold dropTable
  cases hlook : c.tables.lookup name with
  | none => exact Or.inl ⟨nofun,rfl⟩
  | some schema =>
    cases hdrop : c.canDrop name with
    | false => exact Or.inl ⟨nofun,rfl⟩
    | true =>
      have hempty := ((canDrop_eq_true name).mp hdrop).2.2
      refine Or.inr ⟨schema,rfl,hempty,?_⟩
      simp only [hempty,Bool.not_true,Bool.false_eq_true,if_false]
      rfl

/-- The catalog with a table under another name. -/
def withRenamed (c : Catalog) (oldName newName : Text) (schema : TableSchema) : Catalog :=
  { c with
    tables := (c.tables.erase oldName).insert newName { schema with name := newName }
    tableIdMap := c.tableIdMap.insert schema.id newName }

theorem renameTable_cases (c : Catalog) (oldName newName : Text) :
    ((c.renameTable oldName newName).1 ≠ .ok ∧ (c.renameTable oldName newName).2 = c ∧
      (oldName ∉ c.tables ∨ newName ∈ c.tables)) ∨
    ∃ schema, c.tables.lookup oldName = some schema ∧ newName ∉ c.tables ∧
      c.renameTable oldName newName = (.ok,c.withRenamed oldName newName schema) := by
  unfold renameTable
  cases hlook : c.tables.lookup oldName with
  | none => exact Or.inl ⟨nofun,rfl,Or.inl (Finmap.lookup_eq_none.mp hlook)⟩
  | some schema =>
    by_cases hnew : newName ∈ c.tables
    · simp [hnew]
    · exact Or.inr ⟨schema,rfl,hnew,by simp [hnew,withRenamed]⟩

/-- The catalog with a new index of the next id. -/
def withIndex (c : Catalog) (name table : Text) (columns : List Text) (schema : TableSchema) :
    Catalog :=
  { c with
    nextIndexId := c.nextIndexId+1
    indexes := c.indexes.insert name c.nextIndexId
    indexIdMap := c.indexIdMap.insert c.nextIndexId name
    tableIndexes := c.tableIndexes.insert table (c.indexList table++[c.nextIndexId])
    tables := c.tables.insert table { schema with
      indexes := columns.foldl (fun m col => m.insert col c.nextIndexId) schema.indexes } }

theorem createIndex_cases (c : Catalog) (name table : Text) (columns : List Text) (unique : Bool) :
    ((c.createIndex name table columns unique).1 ≠ .ok ∧
      (c.createIndex name table columns unique).2 = c ∧ (name ∈ c.indexes ∨ table ∉ c.tables)) ∨
    ∃ schema, name ∉ c.indexes ∧ c.tables.lookup table = some schema ∧
      c.createIndex name table columns unique = (.ok,c.withIndex name table columns schema) := by
  unfold createIndex
  by_cases hname : name ∈ c.indexes
  · simp [hname]
  · cases hlook : c.tables.lookup table with
    | none => simp [hname,Finmap.lookup_eq_none.mp hlook]
    | some schema => exact Or.inr ⟨schema,hname,rfl,by simp [hname,withIndex]⟩

/-- The catalog without an index. -/
def withoutIndex (c : Catalog) (name : Text) (id : IndexId) (order : List Text) : Catalog :=
  { c with
    tables := mapValues (fun schema : TableSchema =>
      { schema with indexes := filterValues (fun i => i ≠ id) schema.indexes }) c.tables
    tableIndexes := eraseFromLists id c.tableIndexes order
    indexes := c.indexes.erase name
    indexIdMap := c.indexIdMap.erase id }

theorem dropIndex_cases (c : Catalog) (name : Text) (order : List Text) :
    ((c.dropIndex name order).1 ≠ .ok ∧ (c.dropIndex name order).2 = c) ∨
    ∃ id, c.indexes.lookup name = some id ∧
      c.dropIndex name order = (.ok,c.withoutIndex name id order) := by
  unfold dropIndex
  cases hlook : c.indexes.lookup name with
  | none => exact Or.inl ⟨nofun,rfl⟩
  | some id => exact Or.inr ⟨id,rfl,rfl⟩

theorem dropIndexId_cases (c : Catalog) (id : IndexId) (order : List Text) :
    ((c.dropIndexId id order).1 ≠ .ok ∧ (c.dropIndexId id order).2 = c) ∨
    ∃ name, c.indexIdMap.lookup id = some name ∧
      c.dropIndexId id order = c.dropIndex name order := by
  unfold dropIndexId
  cases c.indexIdMap.lookup id with
  | none => exact Or.inl ⟨nofun,rfl⟩
  | some name => exact Or.inr ⟨name,rfl,rfl⟩

theorem addConstraint_cases (c : Catalog) (table : Text) (k : ConstraintInfo) :
    ((c.addConstraint table k).2 = c ∧ k.name ∈ c.constraints) ∨
    k.name ∉ c.constraints ∧ (c.addConstraint table k).2 = { c with
      constraints := c.constraints.insert k.name k
      tableConstraints := c.tableConstraints.insert table (c.constraintList table++[k.name]) } := by
  unfold addConstraint
  by_cases hname : k.name ∈ c.constraints
  · simp [hname]
  · simp [hname]

/-- A list of constraints only loses names by a drop. -/
theorem constraintList_dropConstraint (c : Catalog) (table name t : Text) :
    ∀ k ∈ (c.dropConstraint table name).2.constraintList t, k ∈ c.constraintList t := by
  intro k hk
  unfold dropConstraint at hk
  split_ifs at hk
  · cases hlook : c.tableConstraints.lookup table with
    | none =>
      rw [hlook] at hk
      exact hk
    | some names =>
      simp only [hlook,constraintList,lookup_insert_eq] at hk ⊢
      split_ifs at hk with ht
      · rw [ht,hlook]
        exact List.mem_of_mem_erase hk
      · exact hk
  · exact hk

/-- An id that is in one list at most is gone from all lists. -/
theorem lookup_eraseFromLists {id : IndexId} {lists : Finmap fun _ : Text => List IndexId}
    {order : List Text}
    (hone : ∀ t t' ids ids', lists.lookup t = some ids → lists.lookup t' = some ids' →
      id ∈ ids → id ∈ ids' → t = t')
    (horder : ∀ t ids, lists.lookup t = some ids → id ∈ ids → t ∈ order) (t : Text) :
    (eraseFromLists id lists order).lookup t = (lists.lookup t).map (·.erase id) := by
  have hother : (∀ ids, lists.lookup t = some ids → id ∉ ids) →
      lists.lookup t = (lists.lookup t).map (·.erase id) := by
    intro hnot
    cases hlook : lists.lookup t with
    | none => rfl
    | some ids => rw [Option.map_some,List.erase_of_not_mem (hnot ids hlook)]
  induction order with
  | nil =>
    refine hother fun ids hids hmem => ?_
    cases horder t ids hids hmem
  | cons a order ih =>
    have hskip : (∀ ids, lists.lookup a = some ids → id ∉ ids) →
        (eraseFromLists id lists order).lookup t = (lists.lookup t).map (·.erase id) := by
      intro hnot
      apply ih
      intro t' ids hids hmem
      rcases List.mem_cons.mp (horder t' ids hids hmem) with rfl | hin
      · exact absurd hmem (hnot ids hids)
      · exact hin
    cases hlook : lists.lookup a with
    | none =>
      rw [eraseFromLists,hlook]
      exact hskip (by simp [hlook])
    | some ids =>
      by_cases hmem : id ∈ ids
      · simp only [eraseFromLists,hlook,hmem,if_true]
        by_cases ht : t = a
        · subst ht
          rw [Finmap.lookup_insert,hlook,Option.map_some]
        · rw [Finmap.lookup_insert_of_ne _ ht]
          exact hother fun ids' hids' hmem' => ht (hone t a ids' ids hids' hlook hmem' hmem)
      · simp only [eraseFromLists,hlook,hmem,if_false]
        exact hskip (by simp [hlook,hmem])

/-- The maps of tables and indexes are the same. -/
structure SameTables (c c' : Catalog) : Prop where
  tables : c'.tables = c.tables
  tableIdMap : c'.tableIdMap = c.tableIdMap
  indexes : c'.indexes = c.indexes
  indexIdMap : c'.indexIdMap = c.indexIdMap
  tableIndexes : c'.tableIndexes = c.tableIndexes
  nextIndexId : c'.nextIndexId = c.nextIndexId

/-- The calls on sequences and views. -/
def sparesConstraints : CatalogOp → Bool
  | .createSequence _ | .dropSequence _ | .nextValue _ | .createView _ | .dropView _ => true
  | _ => false

theorem exec_sparesConstraints {c' : Catalog} {op : CatalogOp} (hop : sparesConstraints op = true)
    (h : c.exec op = some c') : ∃ s v, c' = { c with sequences := s, views := v } := by
  cases op with
  | nextValue name =>
    obtain ⟨⟨v,c''⟩,hnext,rfl⟩ := Option.map_eq_some_iff.mp h
    unfold nextValue at hnext
    cases hlook : c.sequences.lookup name with
    | none =>
      rw [hlook] at hnext
      obtain ⟨rfl,rfl⟩ := Prod.mk.inj (Option.some.inj hnext)
      exact ⟨_,_,rfl⟩
    | some s =>
      rw [hlook] at hnext
      obtain ⟨s',_,heq⟩ := Option.map_eq_some_iff.mp hnext
      obtain ⟨rfl,rfl⟩ := Prod.mk.inj heq
      exact ⟨_,_,rfl⟩
  | createSequence s =>
    obtain rfl := Option.some.inj h
    unfold createSequence
    split_ifs <;> exact ⟨_,_,rfl⟩
  | dropSequence name =>
    obtain rfl := Option.some.inj h
    unfold dropSequence
    split_ifs <;> exact ⟨_,_,rfl⟩
  | createView v =>
    obtain rfl := Option.some.inj h
    unfold createView
    split_ifs <;> exact ⟨_,_,rfl⟩
  | dropView name =>
    obtain rfl := Option.some.inj h
    unfold dropView
    split_ifs <;> exact ⟨_,_,rfl⟩
  | _ => cases hop

/-- The calls on constraints, sequences and views. -/
def sparesTables : CatalogOp → Bool
  | .addConstraint _ _ | .dropConstraint _ _ => true
  | op => sparesConstraints op

theorem exec_sparesTables {c' : Catalog} {op : CatalogOp} (hop : sparesTables op = true)
    (h : c.exec op = some c') : SameTables c c' := by
  have hother : sparesConstraints op = true → SameTables c c' := by
    intro hspares
    obtain ⟨s,v,rfl⟩ := exec_sparesConstraints hspares h
    exact ⟨rfl,rfl,rfl,rfl,rfl,rfl⟩
  cases op with
  | addConstraint table k =>
    obtain rfl := Option.some.inj h
    unfold addConstraint
    split_ifs <;> exact ⟨rfl,rfl,rfl,rfl,rfl,rfl⟩
  | dropConstraint table name =>
    obtain rfl := Option.some.inj h
    unfold dropConstraint
    split_ifs <;> exact ⟨rfl,rfl,rfl,rfl,rfl,rfl⟩
  | _ => exact hother hop

end Specs

end Catalog
end OrangeSQL
