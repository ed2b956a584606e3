import OrangeSQL.CatalogPersistence
import OrangeSQL.SchemaText

/-! The tables of the schema, the calls that build them, and their text. A table is written as a JSON
value, which is read back as it was written, with the columns in it as texts. -/
namespace OrangeSQL
namespace Schema

open FiniteMap
open Catalog (toUInt32)

structure Index where
  name : Text
  columnIndices : List UInt64
  deriving DecidableEq, Repr

structure ForeignKey where
  name : Text
  columnIndices : List UInt64
  refTable : Text
  refColumns : List Text
  deriving DecidableEq, Repr

structure Table where
  id : UInt32
  name : Text
  columns : List Column
  columnMap : Finmap fun _ : Text => UInt64
  indexes : Finmap fun _ : Text => Index
  foreignKeys : List ForeignKey
  options : Finmap fun _ : Text => Text
  primaryKey : List UInt64

namespace Table

section Building

def new (name : Text) (id : UInt32) : Table := ⟨id,name,[],∅,∅,[],∅,[]⟩

/-- The form for a column that is given. -/
def addColumn (t : Table) (column : Column) : Table :=
  let columns := t.columns++[{ column with id := UInt16.ofNat t.columns.length }]
  { t with
    columns := columns
    columnMap := t.columnMap.insert column.name (UInt64.ofNat (columns.length-1)) }

/-- The form for a name and a type. -/
def addColumnOf (t : Table) (name : Text) (type : ExtendedDataType) : Table :=
  let columns := t.columns++[{ Column.new name type with id := UInt16.ofNat t.columns.length }]
  { t with
    columns := columns
    columnMap := t.columnMap.insert name (UInt64.ofNat (columns.length-1)) }

/-- `static_cast<size_t>(-1)`. -/
def notFound : UInt64 := 18446744073709551615

def getColumnIndex (t : Table) (name : Text) : UInt64 := (t.columnMap.lookup name).getD notFound

def setPrimaryKeyColumn (t : Table) (name : Text) : Table :=
  let idx := t.getColumnIndex name
  if idx ≠ notFound then
    { t with
      primaryKey := t.primaryKey++[idx]
      columns := t.columns.modify idx.toNat Column.setPrimaryKey }
  else t

def setPrimaryKey (t : Table) (columns : List Text) : Table :=
  columns.foldl setPrimaryKeyColumn { t with primaryKey := [] }

/-- The loop that looks up the columns of an index or of a foreign key. -/
def foundIndices (t : Table) (columns : List Text) : List UInt64 :=
  (columns.map t.getColumnIndex).filter (· ≠ notFound)

def addIndex (t : Table) (name : Text) (columns : List Text) : Table :=
  let idx : Index := ⟨name,t.foundIndices columns⟩
  if idx.columnIndices ≠ [] then { t with indexes := t.indexes.insert name idx } else t

def addForeignKey (t : Table) (name : Text) (columns : List Text) (refTable : Text)
    (refColumns : List Text) : Table :=
  let fk : ForeignKey := ⟨name,t.foundIndices columns,refTable,refColumns⟩
  if fk.columnIndices ≠ [] then { t with foreignKeys := t.foreignKeys++[fk] } else t

def setOption (t : Table) (key value : Text) : Table :=
  { t with options := t.options.insert key value }

/-- The calls that build a table. -/
inductive Call
  | addColumn (column : Column)
  | addColumnOf (name : Text) (type : ExtendedDataType)
  | setPrimaryKey (columns : List Text)
  | addIndex (name : Text) (columns : List Text)
  | addForeignKey (name : Text) (columns : List Text) (refTable : Text) (refColumns : List Text)
  | setOption (key value : Text)

def call (t : Table) : Call → Table
  | .addColumn column => t.addColumn column
  | .addColumnOf name type => t.addColumnOf name type
  | .setPrimaryKey columns => t.setPrimaryKey columns
  | .addIndex name columns => t.addIndex name columns
  | .addForeignKey name columns refTable refColumns => t.addForeignKey name columns refTable refColumns
  | .setOption key value => t.setOption key value

def build (name : Text) (id : UInt32) (calls : List Call) : Table := calls.foldl call (new name id)

end Building

section Writing

open Json

def sizesJson (indices : List UInt64) : Json := arr (indices.map fun idx => num idx.toNat)

def foreignKeyJson (fk : ForeignKey) : Json :=
  obj [("name",str fk.name),("columns",sizesJson fk.columnIndices),("ref_table",str fk.refTable),
    ("ref_columns",arr (fk.refColumns.map str))]

/-- An object with the entries of a map, in an order of its keys. -/
def mapJson {β : Type} (write : β → Json) (m : Finmap fun _ : Text => β) (order : List Text) : Json :=
  obj ((entries m order).map fun e => (String.ofList e.1,write e.2))

/-- The value that is dumped; the orders are those of the keys in its objects. -/
def toString (t : Table) (indexes options : List Text) : Json :=
  obj [("id",num t.id.toNat),("name",str t.name),
    ("columns",arr (t.columns.map fun col => str col.toString)),("primary_key",sizesJson t.primaryKey),
    ("indexes",mapJson (fun idx => sizesJson idx.columnIndices) t.indexes indexes),
    ("foreign_keys",arr (t.foreignKeys.map foreignKeyJson)),("options",mapJson str t.options options)]

end Writing

section Reading

open Json

def toUInt64 (j : Json) : Option UInt64 := j.toNum.map fun n => UInt64.ofNat (n%2^64).toNat

def toSizes (j : Json) : Option (List UInt64) := items toUInt64 j

/-- What `items()` goes through: the entries of an object; the keys of an array are its positions. -/
def jsonItems : Json → List (Text × Json)
  | null => []
  | arr js => js.zipIdx.map fun e => (Nat.toDigits 10 e.2,e.1)
  | obj fields => fields.map fun e => (e.1.toList,e.2)
  | j => [([],j)]

def readOption (e : String × Json) : Option (Text × Text) := do return (e.1.toList,← e.2.toStr)

/-- A map from strings to strings, which only an object can be. -/
def toMap : Json → Option (Finmap fun _ : Text => Text)
  | obj fields =>
    (fields.mapM readOption).map fun es => es.foldl (fun m e => m.insert e.1 e.2) ∅
  | _ => none

def readForeignKey (j : Json) : Option ForeignKey := do
  let name ← get toStr "name" j
  let columnIndices ← get toSizes "columns" j
  let refTable ← get toStr "ref_table" j
  let refColumns ← get (items toStr) "ref_columns" j
  return ⟨name,columnIndices,refTable,refColumns⟩

def readIndex (e : Text × Json) : Option Index := do return ⟨e.1,← toSizes e.2⟩

/-- The loop that puts the names of the columns in the map. -/
def columnMapOf (names : List Text) : Finmap fun _ : Text => UInt64 :=
  names.zipIdx.foldl (fun m e => m.insert e.1 (UInt64.ofNat e.2)) ∅

def fromString (j : Json) : Option Table := do
  let id ← get toUInt32 "id" j
  let name ← get toStr "name" j
  let columns ← ((j.field "columns").elim [] elements).mapM fun j => j.toStr.bind Column.fromString
  let primaryKey ← getD toSizes "primary_key" [] j
  let indexes ← ((j.field "indexes").elim [] jsonItems).mapM readIndex
  let foreignKeys ← ((j.field "foreign_keys").elim [] elements).mapM readForeignKey
  let options ← getD toMap "options" ∅ j
  return { id := id, name := name, columns := columns, primaryKey := primaryKey
           columnMap := columnMapOf (columns.map Column.name)
           indexes := indexes.foldl (fun m idx => m.insert idx.name idx) ∅
           foreignKeys := foreignKeys, options := options }

end Reading

section Rereading

open Json

theorem toUInt64_num (n : UInt64) : toUInt64 (num n.toNat) = some n := by
  simp only [toUInt64,toNum,Option.map_some,Option.some.injEq]
  have hlt := n.toNat_lt
  have hmod : ((n.toNat : ℤ)%2^64).toNat = n.toNat := by omega
  rw [hmod,UInt64.ofNat_toNat]

theorem toSizes_sizesJson (indices : List UInt64) : toSizes (sizesJson indices) = some indices := by
  have hitems := items_map toUInt64 fun idx (_ : idx ∈ indices) => toUInt64_num idx
  rwa [List.map_id'] at hitems

theorem readForeignKey_foreignKeyJson (fk : ForeignKey) :
    readForeignKey (foreignKeyJson fk) = some fk := by
  simp [readForeignKey,foreignKeyJson,get_tail,toStr,toSizes_sizesJson,Catalog.items_toStr]

/-- The items of an array that was written are read in a loop. -/
theorem mapM_map_of_read {α β γ : Type} {read : β → Option γ} {write : α → β} {f : α → γ} {xs : List α}
    (h : ∀ x ∈ xs, read (write x) = some (f x)) : (xs.map write).mapM read = some (xs.map f) := by
  induction xs with
  | nil => rfl
  | cons x xs ih =>
    obtain ⟨hx,hxs⟩ := List.forall_mem_cons.mp h
    rw [List.map_cons,List.mapM_cons,hx,ih hxs]
    rfl

theorem toMap_mapJson {m : Finmap fun _ : Text => Text} {order : List Text}
    (horder : Engine.Lists order m.keys) : toMap (mapJson str m order) = some m := by
  have hentries := @mapM_map_of_read _ _ _ readOption
    (fun e : Text × Text => (String.ofList e.1,str e.2)) (fun e => e) (entries m order) fun e _ => by
      simp [readOption,toStr]
  have hcopy := foldl_insert_entries (fun _ b => b) horder.2
  rw [filterMapValues_some_eq_self_iff.mpr fun _ _ _ => rfl] at hcopy
  rw [List.map_id'] at hentries
  rw [mapJson,toMap,hentries]
  exact congrArg some hcopy

theorem indexes_mapJson {m : Finmap fun _ : Text => Index} {order : List Text}
    (horder : Engine.Lists order m.keys)
    (hname : ∀ name idx, m.lookup name = some idx → idx.name = name) :
    ((jsonItems (mapJson (fun idx => sizesJson idx.columnIndices) m order)).mapM readIndex).map
      (fun l => l.foldl (fun m idx => m.insert idx.name idx) ∅) = some m := by
  have hentries := @mapM_map_of_read _ _ _ readIndex
    (fun e : Text × Index => (e.1,sizesJson e.2.columnIndices)) (fun e => ⟨e.1,e.2.columnIndices⟩)
    (entries m order) fun e _ => by simp [readIndex,toSizes_sizesJson]
  have hcopy := foldl_insert_entries (fun name (idx : Index) => ⟨name,idx.columnIndices⟩) horder.2
  rw [filterMapValues_some_eq_self_iff.mpr fun name idx hidx => by
    rw [← hname name idx hidx]] at hcopy
  have hitems : jsonItems (mapJson (fun idx => sizesJson idx.columnIndices) m order) =
      (entries m order).map fun e => (e.1,sizesJson e.2.columnIndices) := by
    simp [jsonItems,mapJson,Function.comp_def]
  rw [hitems,hentries,Option.map_some,List.foldl_map]
  exact congrArg some hcopy

/-- What building keeps: the map of the columns is the one that the reader builds, and an index is in
its map under its name. -/
structure Inv (t : Table) : Prop where
  columnMap : t.columnMap = columnMapOf (t.columns.map Column.name)
  indexName : ∀ name idx, t.indexes.lookup name = some idx → idx.name = name

variable {t : Table} {indexes options : List Text}

/-- All but the columns is read as it was written. -/
theorem fromString_toString_eq (h : t.Inv) (hindexes : Engine.Lists indexes t.indexes.keys)
    (hoptions : Engine.Lists options t.options.keys) :
    fromString (t.toString indexes options) =
      (t.columns.mapM fun col => Column.fromString col.toString).map fun columns =>
        { t with columns := columns, columnMap := columnMapOf (columns.map Column.name) } := by
  have hkeys := mapM_map_of_read fun fk (_ : fk ∈ t.foreignKeys) => readForeignKey_foreignKeyJson fk
  rw [List.map_id'] at hkeys
  obtain ⟨l,hl,hfold⟩ := Option.map_eq_some_iff.mp (indexes_mapJson hindexes h.indexName)
  rw [Option.map_eq_bind]
  simp [fromString,toString,get_tail,getD_tail,field,List.lookup_cons,Catalog.toUInt32_num,toStr,elements,
    toSizes_sizesJson,hkeys,hl,hfold,toMap_mapJson hoptions,Function.comp_def]

theorem mapM_eq_self_iff {α : Type} {f : α → Option α} {l : List α} :
    l.mapM f = some l ↔ ∀ x ∈ l, f x = some x := by
  induction l with
  | nil => exact iff_of_true rfl nofun
  | cons x l ih =>
    rw [List.mapM_cons,List.forall_mem_cons,← ih]
    simp only [Option.bind_eq_bind,Option.bind_eq_some_iff,Option.pure_def,Option.some.injEq,
      List.cons.injEq]
    constructor
    · rintro ⟨y,hy,l',hl',rfl,rfl⟩
      exact ⟨hy,hl'⟩
    · rintro ⟨hx,hl⟩
      exact ⟨x,hx,l,hl,rfl,rfl⟩

theorem fromString_toString_iff (h : t.Inv) (hindexes : Engine.Lists indexes t.indexes.keys)
    (hoptions : Engine.Lists options t.options.keys) :
    fromString (t.toString indexes options) = some t ↔ ∀ col ∈ t.columns, col.Plain := by
  have hcolumns : (∀ col ∈ t.columns, col.Plain) ↔
      (t.columns.mapM fun col => Column.fromString col.toString) = some t.columns := by
    rw [mapM_eq_self_iff]
    simp only [Column.fromString_toString_iff]
  rw [hcolumns,fromString_toString_eq h hindexes hoptions,Option.map_eq_some_iff]
  constructor
  · rintro ⟨columns,hread,heq⟩
    rw [hread,← heq]
  · intro hread
    refine ⟨t.columns,hread,?_⟩
    rw [← h.columnMap]

end Rereading

section Calls

variable {t : Table} {names : List Text} {name : Text}

theorem columnMapOf_append :
    columnMapOf (names++[name]) = (columnMapOf names).insert name (UInt64.ofNat names.length) := by
  rw [columnMapOf,List.zipIdx_append,List.foldl_append,Nat.zero_add]
  rfl

/-- What a change of a column does not change is the same in all columns after it. -/
theorem map_modify {α β : Type} {f : α → α} {g : α → β} (h : ∀ a, g (f a) = g a) (l : List α) (i : ℕ) :
    (l.modify i f).map g = l.map g := by
  induction l generalizing i with
  | nil => rw [List.modify_nil]
  | cons a l ih =>
    cases i with
    | zero => rw [List.modify_zero_cons,List.map_cons,h,List.map_cons]
    | succ i => rw [List.modify_succ_cons,List.map_cons,ih,List.map_cons]

theorem inv_new (name : Text) (id : UInt32) : (new name id).Inv := by
  refine ⟨rfl,fun name idx h => ?_⟩
  rw [new,Finmap.lookup_empty] at h
  cases h

theorem Inv.addColumn (h : t.Inv) (column : Column) : (t.addColumn column).Inv := by
  refine ⟨?_,h.indexName⟩
  simp only [Table.addColumn,List.map_append,List.map_cons,List.map_nil,columnMapOf_append,h.columnMap,
    List.length_append,List.length_singleton,Nat.add_sub_cancel,List.length_map]

theorem Inv.setPrimaryKeyColumn (h : t.Inv) (name : Text) : (t.setPrimaryKeyColumn name).Inv := by
  rw [Table.setPrimaryKeyColumn]
  split_ifs
  · refine ⟨?_,h.indexName⟩
    dsimp only
    rw [@map_modify _ _ Column.setPrimaryKey _ fun _ => rfl]
    exact h.columnMap
  · exact h

/-- What holds without a primary key, and is kept where a column is put in it. -/
theorem setPrimaryKey_rule {P : Table → Prop} (hclear : P { t with primaryKey := [] })
    (hstep : ∀ t name, P t → P (t.setPrimaryKeyColumn name)) (columns : List Text) :
    P (t.setPrimaryKey columns) := by
  rw [setPrimaryKey]
  generalize ({ t with primaryKey := [] } : Table) = t' at hclear ⊢
  induction columns generalizing t' with
  | nil => exact hclear
  | cons name columns ih => exact ih _ (hstep t' name hclear)

theorem Inv.setPrimaryKey (h : t.Inv) (columns : List Text) : (t.setPrimaryKey columns).Inv :=
  setPrimaryKey_rule ⟨h.columnMap,h.indexName⟩ (fun _ name h => h.setPrimaryKeyColumn name) columns

theorem Inv.addIndex (h : t.Inv) (name : Text) (columns : List Text) :
    (t.addIndex name columns).Inv := by
  rw [Table.addIndex]
  dsimp only
  split_ifs
  · refine ⟨h.columnMap,fun key idx hidx => ?_⟩
    rcases lookup_insert_cases hidx with ⟨rfl,rfl⟩ | hold
    · rfl
    · exact h.indexName key idx hold
  · exact h

theorem Inv.call (h : t.Inv) (c : Call) : (t.call c).Inv := by
  cases c with
  | addColumn column => exact h.addColumn column
  | addColumnOf name type => exact h.addColumn (Column.new name type)
  | setPrimaryKey columns => exact h.setPrimaryKey columns
  | addIndex name columns => exact h.addIndex name columns
  | addForeignKey name columns refTable refColumns =>
    rw [Table.call,addForeignKey]
    dsimp only
    split_ifs
    · exact ⟨h.columnMap,h.indexName⟩
    · exact h
  | setOption key value => exact ⟨h.columnMap,h.indexName⟩

theorem inv_build (name : Text) (id : UInt32) (calls : List Call) : (build name id calls).Inv := by
  have hrun : ∀ t : Table, t.Inv → (calls.foldl call t).Inv := by
    induction calls with
    | nil => exact fun _ h => h
    | cons c calls ih => exact fun _ h => ih _ (h.call c)
  exact hrun _ (inv_new name id)

/-- The call adds no column with a bar in one of its texts. -/
def Call.Plain : Call → Prop
  | .addColumn column => column.Plain
  | .addColumnOf name _ => '|' ∉ name
  | _ => True

theorem plain_modify (l : List Column) (i : ℕ) :
    (∀ col ∈ l.modify i Column.setPrimaryKey, col.Plain) ↔ ∀ col ∈ l, col.Plain := by
  have hmap := @map_modify _ _ Column.setPrimaryKey Column.Plain (fun _ => rfl) l i
  have hall : ∀ l : List Column, (∀ col ∈ l, col.Plain) ↔ ∀ p ∈ l.map Column.Plain, p := fun l => by
    rw [List.forall_mem_map]
  rw [hall,hmap,← hall]

theorem plain_setPrimaryKey (t : Table) (columns : List Text) :
    (∀ col ∈ (t.setPrimaryKey columns).columns, col.Plain) ↔ ∀ col ∈ t.columns, col.Plain := by
  refine @setPrimaryKey_rule t
    (fun t' => (∀ col ∈ t'.columns, col.Plain) ↔ ∀ col ∈ t.columns, col.Plain) Iff.rfl ?_ columns
  intro t' name h
  rw [← h,setPrimaryKeyColumn]
  split_ifs
  · exact plain_modify _ _
  · exact Iff.rfl

theorem plain_call (t : Table) (c : Call) :
    (∀ col ∈ (t.call c).columns, col.Plain) ↔ (∀ col ∈ t.columns, col.Plain) ∧ c.Plain := by
  cases c with
  | addColumn column =>
    simp only [call,addColumn,List.forall_mem_append,List.forall_mem_singleton]
    exact Iff.rfl
  | addColumnOf name type =>
    simp only [call,addColumnOf,List.forall_mem_append,List.forall_mem_singleton]
    refine and_congr_right fun _ => ?_
    simp [Column.Plain,Column.new,ColumnAttributes.new,Call.Plain]
  | setPrimaryKey columns => exact (plain_setPrimaryKey t columns).trans (and_iff_left trivial).symm
  | addIndex name columns =>
    rw [call,addIndex]
    dsimp only
    split_ifs <;> exact (and_iff_left trivial).symm
  | addForeignKey name columns refTable refColumns =>
    rw [call,addForeignKey]
    dsimp only
    split_ifs <;> exact (and_iff_left trivial).symm
  | setOption key value => exact (and_iff_left trivial).symm

theorem plain_build (name : Text) (id : UInt32) (calls : List Call) :
    (∀ col ∈ (build name id calls).columns, col.Plain) ↔ ∀ c ∈ calls, c.Plain := by
  have hrun : ∀ t : Table, (∀ col ∈ (calls.foldl call t).columns, col.Plain) ↔
      (∀ col ∈ t.columns, col.Plain) ∧ ∀ c ∈ calls, c.Plain := by
    induction calls with
    | nil => simp
    | cons c calls ih =>
      intro t
      rw [List.foldl_cons,ih,plain_call,List.forall_mem_cons,and_assoc]
  rw [build,hrun,new]
  simp

/-- A table is read back as it was written just when no column was added with a bar in its name, its
default value, its check expression or its comment. -/
theorem fromString_toString_build_iff (name : Text) (id : UInt32) (calls : List Call)
    (indexes options : List Text)
    (hindexes : Engine.Lists indexes (build name id calls).indexes.keys)
    (hoptions : Engine.Lists options (build name id calls).options.keys) :
    fromString ((build name id calls).toString indexes options) = some (build name id calls) ↔
      ∀ c ∈ calls, c.Plain :=
  (fromString_toString_iff (inv_build name id calls) hindexes hoptions).trans (plain_build name id calls)

/-- A column, an index on it and an option. -/
theorem fromString_toString_build_indexed :
    fromString ((build ['t'] 1 [.addColumnOf ['a'] .VARCHAR,.addIndex ['i'] [['a']],
      .setOption ['k'] ['v']]).toString [['i']] [['k']]) =
    some (build ['t'] 1 [.addColumnOf ['a'] .VARCHAR,.addIndex ['i'] [['a']],
      .setOption ['k'] ['v']]) := by
  refine (fromString_toString_build_iff ['t'] 1 _ [['i']] [['k']] (by decide) (by decide)).mpr ?_
  simp [Call.Plain]

/-- The check of a column joins two strings. -/
def joining : Column :=
  { Column.new ['c'] .TEXT with
    attributes := { ColumnAttributes.new with checkExpr := [ 'a','|','|','b'] } }

/-- The check ends at its first bar. -/
theorem fromString_toString_joining :
    fromString ((build ['t'] 1 [.addColumn joining]).toString [] []) ≠
      some (build ['t'] 1 [.addColumn joining]) ∧
    (fromString ((build ['t'] 1 [.addColumn joining]).toString [] [])).map
      (fun t => t.columns.map fun col => (col.attributes.checkExpr,col.attributes.comment)) =
        some [([ 'a'],[])] := by
  have hlists : Engine.Lists ([] : List Text) ∅ := by decide
  refine ⟨fun h => ?_,?_⟩
  · have hplain := (fromString_toString_iff (inv_build _ _ _) hlists hlists).mp h
    exact absurd (hplain _ (List.mem_singleton.mpr rfl)) (by decide)
  · decide

end Calls

end Table

end Schema
end OrangeSQL
