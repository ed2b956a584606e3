import OrangeSQL.CatalogIndexes

/-! The maps of the catalog against one another. A table keeps its identity when it is renamed, so
the tables are numbered in the order of their creation and the number of a table is noted for
each index that is created on it. -/
namespace OrangeSQL
namespace Catalog

open Engine (Lists)
open FiniteMap

/-- The number of the table that a name stands for, and of the table that an index was created
on. -/
structure Origins where
  table : Finmap (fun _ : Text => ℕ)
  index : Finmap (fun _ : Text => ℕ)
  next : ℕ

namespace Origins

def new : Origins := ⟨∅,∅,0⟩

/-- What a call on the catalog means for the numbers. -/
def track (o : Origins) (c : Catalog) : CatalogOp → Origins
  | .createTable name schema =>
    if (c.createTable name schema).1 = .ok then
      { o with table := o.table.insert name o.next, next := o.next+1 }
    else o
  | .dropTable name =>
    if (c.dropTable name).1 = .ok then { o with table := o.table.erase name } else o
  | .renameTable oldName newName =>
    if (c.renameTable oldName newName).1 = .ok then
      let number := (o.table.lookup oldName).getD o.next
      { o with table := (o.table.erase oldName).insert newName number }
    else o
  | .createIndex name table columns unique =>
    if (c.createIndex name table columns unique).1 = .ok then
      { o with index := o.index.insert name ((o.table.lookup table).getD o.next) }
    else o
  | .dropIndex name order =>
    if (c.dropIndex name order).1 = .ok then { o with index := o.index.erase name } else o
  | .dropIndexId id order =>
    if (c.dropIndexId id order).1 = .ok then
      { o with index := o.index.erase (c.getIndexName id) }
    else o
  | _ => o

end Origins

/-- Ids and names of tables belong together, no list is kept for a name without a table, and the
indexes of a table are those that were created on it under any of its names. -/
structure Consistent (c : Catalog) (o : Origins) : Prop where
  ids : ∀ id name, c.tableIdMap.lookup id = some name ↔
    ∃ schema, c.tables.lookup name = some schema ∧ schema.id = id
  named : ∀ t, c.indexList t ≠ [] ∨ c.constraintList t ≠ [] → t ∈ c.tables
  listed : ∀ t ∈ c.tables, (c.listIndexes t).Nodup ∧ ∀ name, name ∈ c.listIndexes t ↔
    name ∈ c.indexes ∧ o.index.lookup name = o.table.lookup t

/-- The invariant behind it. -/
structure Tracked (c : Catalog) (o : Origins) : Prop where
  maps : IndexMaps c
  ids : ∀ id name, c.tableIdMap.lookup id = some name ↔
    ∃ schema, c.tables.lookup name = some schema ∧ schema.id = id
  named : ∀ t, c.indexList t ≠ [] ∨ c.constraintList t ≠ [] → t ∈ c.tables
  tables : ∀ t, t ∈ c.tables ↔ t ∈ o.table
  distinct : ∀ t t' k, o.table.lookup t = some k → o.table.lookup t' = some k → t = t'
  old : ∀ t k, o.table.lookup t = some k → k < o.next
  made : ∀ name k, o.index.lookup name = some k → k < o.next
  placed : ∀ name id t, c.indexes.lookup name = some id →
    (id ∈ c.indexList t ↔ t ∈ c.tables ∧ o.index.lookup name = o.table.lookup t)
  homed : ∀ name id, c.indexes.lookup name = some id → ∃ t, id ∈ c.indexList t

theorem Tracked.new : Tracked Catalog.new .new := by
  refine ⟨IndexMaps.new,?_,?_,?_,?_,?_,?_,?_,?_⟩
  case refine_3 => exact fun t => Iff.rfl
  all_goals simp [Catalog.new,Origins.new,indexList,constraintList]

variable {c : Catalog} {o : Origins}

theorem getIndexName_eq {id : IndexId} {name : Text} (h : c.indexIdMap.lookup id = some name) :
    c.getIndexName id = name := by
  rw [getIndexName,h]
  rfl

theorem Tracked.consistent (h : Tracked c o) : Consistent c o := by
  refine ⟨h.ids,h.named,?_⟩
  intro t ht
  constructor
  · refine List.Nodup.map_on ?_ (h.maps.once t)
    intro id hid id' hid' hsame
    obtain ⟨name,hname⟩ := h.maps.listed t id hid
    obtain ⟨name',hname'⟩ := h.maps.listed t id' hid'
    rw [getIndexName_eq hname,getIndexName_eq hname'] at hsame
    subst hsame
    have hback := (h.maps.inverse name id).mpr hname
    rw [(h.maps.inverse name id').mpr hname'] at hback
    exact (Option.some.inj hback).symm
  · intro name
    rw [listIndexes,List.mem_map]
    constructor
    · rintro ⟨id,hid,rfl⟩
      obtain ⟨name,hname⟩ := h.maps.listed t id hid
      have hindex := (h.maps.inverse name id).mpr hname
      rw [getIndexName_eq hname]
      exact ⟨Finmap.mem_of_lookup_eq_some hindex,((h.placed name id t hindex).mp hid).2⟩
    · rintro ⟨hname,horigin⟩
      obtain ⟨id,hid⟩ := Finmap.mem_iff.mp hname
      exact ⟨id,(h.placed name id t hid).mpr ⟨ht,horigin⟩,
        getIndexName_eq ((h.maps.inverse name id).mp hid)⟩

/-- A name without a table has no lists. -/
theorem Tracked.lists_nil (h : Tracked c o) {t : Text} (ht : t ∉ c.tables) :
    c.indexList t = [] ∧ c.constraintList t = [] := by
  constructor
  · by_contra hne
    exact ht (h.named t (Or.inl hne))
  · by_contra hne
    exact ht (h.named t (Or.inr hne))

theorem Tracked.lookup_table (h : Tracked c o) {t : Text} (ht : t ∈ c.tables) :
    ∃ k, o.table.lookup t = some k := Finmap.mem_iff.mp ((h.tables t).mp ht)

/-- The condition on a call under which the maps stay consistent: a new table gets an id that no
table has, a new index one that no index has, a table is renamed without indexes and
constraints, and a constraint is added to a table that exists. -/
def Meets (c : Catalog) : CatalogOp → Prop
  | .createTable name schema => name ∈ c.tables ∨
    ∀ t s, c.tables.lookup t = some s → s.id ≠ c.newTableId schema
  | .renameTable oldName newName => oldName ∉ c.tables ∨ newName ∈ c.tables ∨
    c.indexList oldName = [] ∧ c.constraintList oldName = []
  | .createIndex name table _ _ => name ∈ c.indexes ∨ table ∉ c.tables ∨ c.nextIndexId ∉ c.indexIdMap
  | .addConstraint table k => k.name ∈ c.constraints ∨ table ∈ c.tables
  | _ => True

theorem Tracked.createTable (h : Tracked c o) {name : Text} {schema : TableSchema}
    (hname : name ∉ c.tables) {id next : UInt32}
    (hid : ∀ t s, c.tables.lookup t = some s → s.id ≠ id) :
    Tracked { c with
        tables := c.tables.insert name { schema with id := id }
        tableIdMap := c.tableIdMap.insert id name
        nextTableId := next }
      { o with table := o.table.insert name o.next, next := o.next+1 } := by
  have hnone : c.tables.lookup name = none := Finmap.lookup_eq_none.mpr hname
  have hlists := h.lists_nil hname
  refine ⟨h.maps.congr rfl rfl fun _ => rfl,?_,?_,?_,?_,?_,?_,?_,h.homed⟩
  · intro i t
    simp only [lookup_insert_eq]
    by_cases ht : t = name
    · by_cases hi : i = id
      · simp [ht,hi]
      · have hnot : c.tableIdMap.lookup i ≠ some name := by
          rw [ne_eq,h.ids i name,hnone]
          simp
        simp [ht,hi,hnot,Ne.symm hi]
    · by_cases hi : i = id
      · have hnot : ¬∃ s, c.tables.lookup t = some s ∧ s.id = id := by
          rintro ⟨s,hs,hsid⟩
          exact hid t s hs hsid
        simp [ht,hi,hnot,Ne.symm ht]
      · simpa [ht,hi] using h.ids i t
  · intro t ht
    exact Finmap.mem_insert.mpr (Or.inr (h.named t ht))
  · intro t
    rw [Finmap.mem_insert,Finmap.mem_insert,h.tables]
  · intro t t' k hk hk'
    rcases lookup_insert_cases hk with ⟨rfl,rfl⟩ | hold
    · rcases lookup_insert_cases hk' with ⟨rfl,_⟩ | hold'
      · rfl
      · exact absurd (h.old t' _ hold') (Nat.lt_irrefl _)
    · rcases lookup_insert_cases hk' with ⟨rfl,rfl⟩ | hold'
      · exact absurd (h.old t _ hold) (Nat.lt_irrefl _)
      · exact h.distinct t t' k hold hold'
  · intro t k hk
    rcases lookup_insert_cases hk with ⟨_,rfl⟩ | hk
    · exact Nat.lt_succ_self _
    · exact Nat.lt_succ_of_lt (h.old t k hk)
  · intro n k hk
    exact Nat.lt_succ_of_lt (h.made n k hk)
  · intro n i t hn
    have hold := h.placed n i t hn
    by_cases ht : t = name
    · subst ht
      have hfresh : o.index.lookup n ≠ some o.next := by
        intro hk
        exact absurd (h.made n _ hk) (Nat.lt_irrefl _)
      have hnot : i ∉ c.indexList t := by
        rw [hlists.1]
        exact List.not_mem_nil
      simp only [lookup_insert_eq,if_true,hfresh,and_false,iff_false]
      exact hnot
    · simp only [lookup_insert_eq,Finmap.mem_insert,ht,false_or]
      exact hold

theorem Tracked.dropTable (h : Tracked c o) {name : Text} {schema : TableSchema}
    (hschema : c.tables.lookup name = some schema) (hempty : c.indexList name = []) :
    Tracked (c.withoutTable name schema) { o with table := o.table.erase name } := by
  have hlist := indexList_erase c hempty
  have hmem : ∀ t, t ∈ (c.withoutTable name schema).tables ↔ t ≠ name ∧ t ∈ c.tables :=
    fun t => Finmap.mem_erase
  refine ⟨h.maps.congr rfl rfl hlist,?_,?_,?_,?_,?_,h.made,?_,?_⟩
  · intro i t
    simp only [Catalog.withoutTable,lookup_erase_eq]
    by_cases ht : t = name
    · have hnot : i ≠ schema.id → c.tableIdMap.lookup i ≠ some name := by
        intro hi
        rw [ne_eq,h.ids i name,hschema]
        simpa using Ne.symm hi
      by_cases hi : i = schema.id
      · simp [ht,hi]
      · simp [ht,hi,hnot hi]
    · by_cases hi : i = schema.id
      · have hown : c.tableIdMap.lookup schema.id = some name :=
          (h.ids _ _).mpr ⟨schema,hschema,rfl⟩
        have hnot : ¬∃ s, c.tables.lookup t = some s ∧ s.id = schema.id := by
          rw [← h.ids,hown]
          exact fun hsame => ht (Option.some.inj hsame).symm
        simp [ht,hi,hnot]
      · simpa [ht,hi] using h.ids i t
  · intro t ht
    rw [hmem]
    have hlists : c.indexList t ≠ [] ∨ t ≠ name ∧ c.constraintList t ≠ [] := by
      rcases ht with ht | ht
      · rw [indexList,Catalog.withoutTable,hlist] at ht
        exact Or.inl ht
      · simp only [constraintList,Catalog.withoutTable,lookup_erase_eq] at ht
        split_ifs at ht with htname
        · exact absurd rfl ht
        · exact Or.inr ⟨htname,ht⟩
    rcases hlists with hne | ⟨hne,hlist⟩
    · refine ⟨?_,h.named t (Or.inl hne)⟩
      rintro rfl
      exact hne hempty
    · exact ⟨hne,h.named t (Or.inr hlist)⟩
  · intro t
    rw [hmem,Finmap.mem_erase,h.tables]
  · intro t t' k hk hk'
    exact h.distinct t t' k (lookup_erase_cases hk).2 (lookup_erase_cases hk').2
  · intro t k hk
    exact h.old t k (lookup_erase_cases hk).2
  · intro n i t hn
    have hold := h.placed n i t hn
    rw [hmem,show (c.withoutTable name schema).indexList t = c.indexList t from hlist t,
      lookup_erase_eq]
    by_cases ht : t = name
    · simp [ht,hempty]
    · simpa [ht] using hold
  · intro n i hn
    obtain ⟨t,ht⟩ := h.homed n i hn
    refine ⟨t,?_⟩
    rw [show (c.withoutTable name schema).indexList t = c.indexList t from hlist t]
    exact ht

theorem Tracked.renameTable (h : Tracked c o) {oldName newName : Text} {schema : TableSchema}
    (hschema : c.tables.lookup oldName = some schema) (hnew : newName ∉ c.tables)
    (hindexes : c.indexList oldName = []) (hconstraints : c.constraintList oldName = []) {k : ℕ}
    (hk : o.table.lookup oldName = some k) :
    Tracked (c.withRenamed oldName newName schema)
      { o with table := (o.table.erase oldName).insert newName k } := by
  have hold : oldName ∈ c.tables := Finmap.mem_of_lookup_eq_some hschema
  have hne : oldName ≠ newName := fun hsame => hnew (hsame ▸ hold)
  have hnone : c.tables.lookup newName = none := Finmap.lookup_eq_none.mpr hnew
  have hnewLists := h.lists_nil hnew
  have hmem : ∀ t, t ∈ (c.withRenamed oldName newName schema).tables ↔
      t = newName ∨ t ≠ oldName ∧ t ∈ c.tables := by
    intro t
    rw [Catalog.withRenamed,Finmap.mem_insert,Finmap.mem_erase]
  have hnumber : ∀ t m, ((o.table.erase oldName).insert newName k).lookup t = some m →
      (t = newName ∧ m = k) ∨ (t ≠ oldName ∧ o.table.lookup t = some m) := by
    intro t m hm
    rcases lookup_insert_cases hm with hnew | hm
    · exact Or.inl hnew
    · exact Or.inr (lookup_erase_cases hm)
  refine ⟨h.maps.congr rfl rfl fun _ => rfl,?_,?_,?_,?_,?_,h.made,?_,h.homed⟩
  · intro i t
    have hown : c.tableIdMap.lookup schema.id = some oldName :=
      (h.ids _ _).mpr ⟨schema,hschema,rfl⟩
    simp only [Catalog.withRenamed,lookup_insert_eq,lookup_erase_eq]
    by_cases htnew : t = newName
    · have hnot : c.tableIdMap.lookup i ≠ some newName := by
        rw [ne_eq,h.ids i newName,hnone]
        simp
      by_cases hi : i = schema.id
      · simp [htnew,hi]
      · simp [htnew,hi,hnot,Ne.symm hi]
    · by_cases htold : t = oldName
      · have hnot : i ≠ schema.id → c.tableIdMap.lookup i ≠ some oldName := by
          intro hi
          rw [ne_eq,h.ids i oldName,hschema]
          simpa using Ne.symm hi
        by_cases hi : i = schema.id
        · simp [htold,hi,hne,Ne.symm hne]
        · simp [htold,hi,hne,hnot hi]
      · by_cases hi : i = schema.id
        · have hnot : ¬∃ s, c.tables.lookup t = some s ∧ s.id = schema.id := by
            rw [← h.ids,hown]
            exact fun hsame => htold (Option.some.inj hsame).symm
          simp [htnew,htold,hi,hnot,Ne.symm htnew]
        · simpa [htnew,htold,hi] using h.ids i t
  · intro t ht
    rw [hmem]
    right
    refine ⟨?_,h.named t ht⟩
    rintro rfl
    rcases ht with ht | ht
    · exact ht hindexes
    · exact ht hconstraints
  · intro t
    rw [hmem,Finmap.mem_insert,Finmap.mem_erase,h.tables]
  · intro t t' m hm hm'
    rcases hnumber t m hm with ⟨rfl,rfl⟩ | ⟨hnot,hkept⟩
    · rcases hnumber t' _ hm' with ⟨rfl,_⟩ | ⟨hnot',hkept'⟩
      · rfl
      · exact absurd (h.distinct t' oldName _ hkept' hk) hnot'
    · rcases hnumber t' m hm' with ⟨rfl,rfl⟩ | ⟨_,hkept'⟩
      · exact absurd (h.distinct t oldName _ hkept hk) hnot
      · exact h.distinct t t' m hkept hkept'
  · intro t m hm
    rcases hnumber t m hm with ⟨_,rfl⟩ | ⟨_,hm⟩
    · exact h.old oldName _ hk
    · exact h.old t m hm
  · intro n i t hn
    rw [hmem,lookup_insert_eq,lookup_erase_eq]
    have hlist : (c.withRenamed oldName newName schema).indexList t = c.indexList t := rfl
    rw [hlist]
    by_cases htnew : t = newName
    · have hnot : o.index.lookup n ≠ some k := by
        intro hmade
        have hin := (h.placed n i oldName hn).mpr ⟨hold,hmade.trans hk.symm⟩
        rw [hindexes] at hin
        cases hin
      simp [htnew,hnewLists.1,hnot]
    · by_cases htold : t = oldName
      · simp [htold,hne,hindexes]
      · simpa [htnew,htold] using h.placed n i t hn

theorem Tracked.withIndex (h : Tracked c o) {name table : Text} (columns : List Text)
    {schema : TableSchema} (hname : name ∉ c.indexes)
    (hschema : c.tables.lookup table = some schema) (hfresh : ¬c.Live c.nextIndexId) {k : ℕ}
    (hk : o.table.lookup table = some k) :
    Tracked (c.withIndex name table columns schema)
      { o with index := o.index.insert name k } := by
  have htable : table ∈ c.tables := Finmap.mem_of_lookup_eq_some hschema
  have hmem : ∀ t, t ∈ (c.withIndex name table columns schema).tables ↔ t ∈ c.tables := by
    intro t
    rw [Catalog.withIndex,Finmap.mem_insert]
    constructor
    · rintro (rfl | ht)
      · exact htable
      · exact ht
    · exact Or.inr
  have hlist := indexList_withIndex c name table columns schema
  refine ⟨h.maps.withIndex hfresh hname table columns schema,?_,?_,?_,h.distinct,h.old,?_,?_,?_⟩
  · intro i t
    simp only [Catalog.withIndex,lookup_insert_eq]
    by_cases ht : t = table
    · simpa [ht,hschema] using h.ids i table
    · simpa [ht] using h.ids i t
  · intro t ht
    rw [hmem]
    by_cases htt : t = table
    · exact htt ▸ htable
    · rw [hlist,if_neg htt] at ht
      exact h.named t ht
  · intro t
    rw [hmem,h.tables]
  · intro n m hm
    rcases lookup_insert_cases hm with ⟨_,rfl⟩ | hm
    · exact h.old table _ hk
    · exact h.made n m hm
  · intro n i t hn
    rw [hmem,hlist,lookup_insert_eq]
    rcases lookup_insert_cases hn with ⟨rfl,rfl⟩ | hkept
    · by_cases ht : t = table
      · subst ht
        simp [htable,hk]
      · have hnot : c.nextIndexId ∉ c.indexList t := fun hin => hfresh (h.maps.listed t _ hin)
        have hother : some k ≠ o.table.lookup t := fun hsame => ht (h.distinct t table k hsame.symm hk)
        simp [ht,hnot,hother]
    · have hne : n ≠ name := by
        rintro rfl
        exact hname (Finmap.mem_of_lookup_eq_some hkept)
      have hi : i ≠ c.nextIndexId := by
        rintro rfl
        exact hfresh ⟨n,(h.maps.inverse n _).mp hkept⟩
      rw [if_neg hne,← h.placed n i t hkept]
      by_cases ht : t = table <;> simp [ht,hi]
  · intro n i hn
    rcases lookup_insert_cases hn with ⟨_,rfl⟩ | hkept
    · exact ⟨table,by simp [hlist]⟩
    · obtain ⟨t,ht⟩ := h.homed n i hkept
      refine ⟨t,?_⟩
      rw [hlist]
      split_ifs with htt
      · exact List.mem_append_left _ (htt ▸ ht)
      · exact ht

theorem Tracked.withoutIndex (h : Tracked c o) {name : Text} {id : IndexId} {order : List Text}
    (hname : c.indexes.lookup name = some id) (horder : Lists order c.tableIndexes.keys) :
    Tracked (c.withoutIndex name id order) { o with index := o.index.erase name } := by
  have hmem : ∀ t, t ∈ (c.withoutIndex name id order).tables ↔ t ∈ c.tables := by
    intro t
    rw [lookup_isSome_iff,lookup_isSome_iff]
    simp [Catalog.withoutIndex]
  have hlist := h.maps.mem_withoutIndex name id horder
  have hother : ∀ n i, (c.withoutIndex name id order).indexes.lookup n = some i →
      n ≠ name ∧ i ≠ id ∧ c.indexes.lookup n = some i := by
    intro n i hn
    obtain ⟨hne,hkept⟩ := lookup_erase_cases hn
    refine ⟨hne,?_,hkept⟩
    rintro rfl
    have hthere := (h.maps.inverse n _).mp hkept
    rw [(h.maps.inverse name _).mp hname] at hthere
    exact hne (Option.some.inj hthere).symm
  refine ⟨h.maps.withoutIndex hname horder,?_,?_,?_,h.distinct,h.old,?_,?_,?_⟩
  · intro i t
    simp only [Catalog.withoutIndex,lookup_mapValues,Option.map_eq_some_iff]
    rw [h.ids i t]
    constructor
    · rintro ⟨s,hs,rfl⟩
      exact ⟨_,⟨s,hs,rfl⟩,rfl⟩
    · rintro ⟨_,⟨s,hs,rfl⟩,hi⟩
      exact ⟨s,hs,hi⟩
  · intro t ht
    rw [hmem]
    rcases ht with ht | ht
    · obtain ⟨i,hi⟩ := List.exists_mem_of_ne_nil _ ht
      exact h.named t (Or.inl (List.ne_nil_of_mem ((hlist t i).mp hi).2))
    · exact h.named t (Or.inr ht)
  · intro t
    rw [hmem,h.tables]
  · intro n m hm
    exact h.made n m (lookup_erase_cases hm).2
  · intro n i t hn
    obtain ⟨hne,hi,hkept⟩ := hother n i hn
    rw [hmem,hlist,lookup_erase_eq,if_neg hne,h.placed n i t hkept]
    exact and_iff_right hi
  · intro n i hn
    obtain ⟨_,hi,hkept⟩ := hother n i hn
    obtain ⟨t,ht⟩ := h.homed n i hkept
    exact ⟨t,(hlist t i).mpr ⟨hi,ht⟩⟩

/-- Calls that touch neither tables nor indexes, and give no list to a name without a table. -/
theorem Tracked.congr (h : Tracked c o) {c' : Catalog} (hsame : SameTables c c')
    (hlists : ∀ t, c'.constraintList t ≠ [] → t ∈ c.tables) : Tracked c' o := by
  have hlist : ∀ t, c'.indexList t = c.indexList t := by
    intro t
    rw [indexList,hsame.tableIndexes]
    rfl
  refine ⟨h.maps.congr hsame.indexes hsame.indexIdMap hlist,?_,?_,?_,h.distinct,h.old,h.made,?_,?_⟩
  · rw [hsame.tableIdMap,hsame.tables]
    exact h.ids
  · intro t ht
    rw [hsame.tables]
    rcases ht with ht | ht
    · exact h.named t (Or.inl (hlist t ▸ ht))
    · exact hlists t ht
  · rw [hsame.tables]
    exact h.tables
  · intro n i t hn
    rw [hsame.tables,hlist]
    rw [hsame.indexes] at hn
    exact h.placed n i t hn
  · intro n i hn
    obtain ⟨t,ht⟩ := h.homed n i (hsame.indexes ▸ hn)
    exact ⟨t,(hlist t).symm ▸ ht⟩

theorem constraintList_insert (c : Catalog) (table t : Text) (names : List Text) :
    ((c.tableConstraints.insert table names).lookup t).getD [] =
      if t = table then names else c.constraintList t := by
  rw [lookup_insert_eq]
  split_ifs <;> rfl

/-- The calls on constraints, sequences and views leave the lists of constraints, lose names from
them, or add one to the list of a table. -/
theorem exec_constraintList {c' : Catalog} {op : CatalogOp} (hop : sparesTables op = true)
    (hexec : c.exec op = some c') {t : Text} (ht : c'.constraintList t ≠ []) :
    c.constraintList t ≠ [] ∨ ∃ k, op = .addConstraint t k ∧ k.name ∉ c.constraints := by
  have hother : sparesConstraints op = true → c.constraintList t ≠ [] := by
    intro hspares
    obtain ⟨s,v,rfl⟩ := exec_sparesConstraints hspares hexec
    exact ht
  cases op with
  | addConstraint table k =>
    obtain rfl := Option.some.inj hexec
    rcases addConstraint_cases c table k with ⟨hsame,_⟩ | ⟨hname,hadd⟩
    · exact Or.inl (by rwa [hsame] at ht)
    · rw [hadd,constraintList,constraintList_insert] at ht
      split_ifs at ht with htt
      · exact Or.inr ⟨k,by rw [htt],hname⟩
      · exact Or.inl ht
  | dropConstraint table name =>
    obtain rfl := Option.some.inj hexec
    obtain ⟨k,hk⟩ := List.exists_mem_of_ne_nil _ ht
    exact Or.inl (List.ne_nil_of_mem (constraintList_dropConstraint c table name t k hk))
  | _ => exact Or.inl (hother hop)

/-- A call that meets the condition keeps the invariant. -/
theorem Tracked.exec {c' : Catalog} {op : CatalogOp} (h : Tracked c o) (hmeets : c.Meets op)
    (hexec : c.exec op = some c') : Tracked c' (o.track c op) := by
  have hother : sparesTables op = true → o.track c op = o → Tracked c' (o.track c op) := by
    intro hop htrack
    rw [htrack]
    refine h.congr (exec_sparesTables hop hexec) ?_
    intro t ht
    rcases exec_constraintList hop hexec ht with hold | ⟨k,rfl,hname⟩
    · exact h.named t (Or.inr hold)
    · exact hmeets.resolve_left hname
  cases op with
  | createTable name schema =>
    obtain rfl := Option.some.inj hexec
    rcases createTable_cases c name schema with ⟨hfail,hsame,_⟩ | ⟨hname,next,hcreate⟩
    · rw [Origins.track,if_neg hfail,hsame]
      exact h
    · rw [Origins.track,hcreate,if_pos rfl]
      exact h.createTable hname (hmeets.resolve_left hname)
  | dropTable name =>
    obtain rfl := Option.some.inj hexec
    rcases dropTable_cases c name with ⟨hfail,hsame⟩ | ⟨schema,hschema,hempty,hdrop⟩
    · rw [Origins.track,if_neg hfail,hsame]
      exact h
    · rw [Origins.track,hdrop,if_pos rfl]
      exact h.dropTable hschema hempty
  | renameTable oldName newName =>
    obtain rfl := Option.some.inj hexec
    rcases renameTable_cases c oldName newName with ⟨hfail,hsame,_⟩ | ⟨schema,hschema,hnew,hren⟩
    · rw [Origins.track,if_neg hfail,hsame]
      exact h
    · have hold : oldName ∈ c.tables := Finmap.mem_of_lookup_eq_some hschema
      obtain ⟨k,hk⟩ := h.lookup_table hold
      obtain ⟨hindexes,hconstraints⟩ := (hmeets.resolve_left (not_not.mpr hold)).resolve_left hnew
      rw [Origins.track,hren,if_pos rfl,hk]
      exact h.renameTable hschema hnew hindexes hconstraints hk
  | createIndex name table columns unique =>
    obtain rfl := Option.some.inj hexec
    rcases createIndex_cases c name table columns unique with
      ⟨hfail,hsame,_⟩ | ⟨schema,hname,hschema,hcreate⟩
    · rw [Origins.track,if_neg hfail,hsame]
      exact h
    · have htable : table ∈ c.tables := Finmap.mem_of_lookup_eq_some hschema
      obtain ⟨k,hk⟩ := h.lookup_table htable
      have hfree := (hmeets.resolve_left hname).resolve_left (not_not.mpr htable)
      have hfresh : ¬c.Live c.nextIndexId := fun ⟨n,hn⟩ => hfree (Finmap.mem_of_lookup_eq_some hn)
      rw [Origins.track,hcreate,if_pos rfl,hk]
      exact h.withIndex columns hname hschema hfresh hk
  | dropIndex name order =>
    simp only [Catalog.exec] at hexec
    split_ifs at hexec with horder
    obtain rfl := Option.some.inj hexec
    rcases dropIndex_cases c name order with ⟨hfail,hsame⟩ | ⟨id,hid,hdrop⟩
    · rw [Origins.track,if_neg hfail,hsame]
      exact h
    · rw [Origins.track,hdrop,if_pos rfl]
      exact h.withoutIndex hid horder
  | dropIndexId id order =>
    simp only [Catalog.exec] at hexec
    split_ifs at hexec with horder
    obtain rfl := Option.some.inj hexec
    rcases dropIndexId_cases c id order with ⟨hfail,hsame⟩ | ⟨name,hname,hdrop⟩
    · rw [Origins.track,if_neg hfail,hsame]
      exact h
    · have hid := (h.maps.inverse name id).mpr hname
      rcases dropIndex_cases c name order with ⟨hfail,hsame⟩ | ⟨id',hid',hdrop'⟩
      · rw [Origins.track,hdrop,if_neg hfail,hsame]
        exact h
      · obtain rfl := Option.some.inj (hid.symm.trans hid')
        rw [Origins.track,hdrop,hdrop',if_pos rfl,getIndexName_eq hname]
        exact h.withoutIndex hid horder
  | _ => exact hother rfl rfl

/-- A second index with an id hides the name of the first. -/
theorem Tracked.not_consistent_withIndex (h : Tracked c o) {name table : Text}
    {columns : List Text} {schema : TableSchema} (hname : name ∉ c.indexes)
    (hlive : c.nextIndexId ∈ c.indexIdMap) (k : ℕ) :
    ¬Consistent (c.withIndex name table columns schema)
      { o with index := o.index.insert name k } := by
  intro hc
  obtain ⟨first,hfirst⟩ := Finmap.mem_iff.mp hlive
  have hindex := (h.maps.inverse first c.nextIndexId).mpr hfirst
  have hne : first ≠ name := by
    rintro rfl
    exact hname (Finmap.mem_of_lookup_eq_some hindex)
  obtain ⟨t,ht⟩ := h.homed first _ hindex
  obtain ⟨htable,horigin⟩ := (h.placed first _ t hindex).mp ht
  have htable' : t ∈ (c.withIndex name table columns schema).tables :=
    Finmap.mem_insert.mpr (Or.inr htable)
  have hlisted : first ∈ (c.withIndex name table columns schema).listIndexes t := by
    rw [(hc.listed t htable').2]
    refine ⟨Finmap.mem_insert.mpr (Or.inr (Finmap.mem_of_lookup_eq_some hindex)),?_⟩
    rw [lookup_insert_eq,if_neg hne]
    exact horigin
  obtain ⟨id,hid,hshown⟩ := List.mem_map.mp hlisted
  simp only [getIndexName,Catalog.withIndex,lookup_insert_eq] at hshown
  split_ifs at hshown with hlast
  · exact hne hshown.symm
  · have hold : id ∈ c.indexList t := by
      rw [indexList_withIndex] at hid
      split_ifs at hid with htt
      · rcases List.mem_append.mp hid with hid | hid
        · exact htt ▸ hid
        · exact absurd (List.mem_singleton.mp hid) hlast
      · exact hid
    obtain ⟨n,hn⟩ := h.maps.listed t id hold
    rw [hn,Option.getD_some] at hshown
    subst hshown
    have hback := (h.maps.inverse n id).mpr hn
    rw [hindex] at hback
    exact hlast (Option.some.inj hback).symm

/-- A call that does not meet the condition breaks the maps at once. -/
theorem Tracked.not_consistent {c' : Catalog} {op : CatalogOp} (h : Tracked c o)
    (hmeets : ¬c.Meets op) (hexec : c.exec op = some c') : ¬Consistent c' (o.track c op) := by
  intro hc
  cases op with
  | createTable name schema =>
    obtain rfl := Option.some.inj hexec
    simp only [Meets,not_or,not_forall] at hmeets
    obtain ⟨hname,t,s,hs,hid⟩ := hmeets
    rcases createTable_cases c name schema with ⟨_,_,hin⟩ | ⟨_,next,hcreate⟩
    · exact hname hin
    · rw [hcreate] at hc
      have hne : t ≠ name := by
        rintro rfl
        exact hname (Finmap.mem_of_lookup_eq_some hs)
      have htwo := (hc.ids (c.newTableId schema) t).mpr
        ⟨s,by simp only [lookup_insert_eq,if_neg hne,hs],not_not.mp hid⟩
      simp only [lookup_insert_eq,if_true,Option.some.injEq] at htwo
      exact hne htwo.symm
  | renameTable oldName newName =>
    obtain rfl := Option.some.inj hexec
    simp only [Meets,not_or,not_not] at hmeets
    obtain ⟨hold,hnew,hlists⟩ := hmeets
    rcases renameTable_cases c oldName newName with ⟨_,_,hfail⟩ | ⟨schema,hschema,_,hren⟩
    · rcases hfail with hfail | hfail
      · exact hfail hold
      · exact hnew hfail
    · rw [hren] at hc
      have hin := hc.named oldName (by
        by_contra hempty
        rw [not_or,not_not,not_not] at hempty
        exact hlists hempty)
      simp only [Catalog.withRenamed,Finmap.mem_insert,Finmap.mem_erase,ne_eq,not_true_eq_false,
        false_and,or_false] at hin
      exact hnew (hin ▸ hold)
  | createIndex name table columns unique =>
    obtain rfl := Option.some.inj hexec
    simp only [Meets,not_or,not_not] at hmeets
    obtain ⟨hname,htable,hlive⟩ := hmeets
    rcases createIndex_cases c name table columns unique with
      ⟨_,_,hfail⟩ | ⟨schema,_,_,hcreate⟩
    · rcases hfail with hfail | hfail
      · exact hname hfail
      · exact hfail htable
    · rw [Origins.track,hcreate,if_pos rfl] at hc
      exact h.not_consistent_withIndex hname hlive _ hc
  | addConstraint table k =>
    obtain rfl := Option.some.inj hexec
    simp only [Meets,not_or] at hmeets
    obtain ⟨hname,htable⟩ := hmeets
    rcases addConstraint_cases c table k with ⟨_,hfail⟩ | ⟨_,hadd⟩
    · exact hname hfail
    · rw [hadd] at hc
      refine htable (hc.named table (Or.inr ?_))
      rw [constraintList,constraintList_insert,if_pos rfl]
      simp
  | _ => exact hmeets trivial

/-- Every catalog on the way is consistent. -/
def AllConsistent (c : Catalog) (o : Origins) : List CatalogOp → Prop
  | [] => Consistent c o
  | op::ops => Consistent c o ∧ ∀ c', c.exec op = some c' → AllConsistent c' (o.track c op) ops

/-- Every call meets the condition in the catalog on which it is made. -/
def AllMeet (c : Catalog) : List CatalogOp → Prop
  | [] => True
  | op::ops => c.Meets op ∧ ∀ c', c.exec op = some c' → AllMeet c' ops

theorem exec_isSome_of_not_meets {op : CatalogOp} (h : ¬c.Meets op) : ∃ c', c.exec op = some c' := by
  cases op with
  | createTable name schema => exact ⟨_,rfl⟩
  | renameTable oldName newName => exact ⟨_,rfl⟩
  | createIndex name table columns unique => exact ⟨_,rfl⟩
  | addConstraint table k => exact ⟨_,rfl⟩
  | _ => exact absurd trivial h

theorem Tracked.allConsistent_iff (h : Tracked c o) (ops : List CatalogOp) :
    AllConsistent c o ops ↔ AllMeet c ops := by
  induction ops generalizing c o with
  | nil => exact iff_of_true h.consistent trivial
  | cons op ops ih =>
    by_cases hmeets : c.Meets op
    · have hstep : ∀ c', c.exec op = some c' →
          (AllConsistent c' (o.track c op) ops ↔ AllMeet c' ops) :=
        fun c' hexec => ih (h.exec hmeets hexec)
      simp only [AllConsistent,AllMeet,h.consistent,hmeets,true_and]
      exact forall_congr' fun c' => forall_congr' fun hexec => hstep c' hexec
    · obtain ⟨c',hexec⟩ := exec_isSome_of_not_meets hmeets
      have hbroken := h.not_consistent hmeets hexec
      refine iff_of_false ?_ fun hall => hmeets hall.1
      intro hall
      have hrest := hall.2 c' hexec
      cases ops with
      | nil => exact hbroken hrest
      | cons op' ops => exact hbroken hrest.1

/-- In every run from an empty catalog, all catalogs reached are consistent just when all calls
meet the condition. -/
theorem catalog_consistent_iff (ops : List CatalogOp) :
    AllConsistent Catalog.new .new ops ↔ AllMeet Catalog.new ops :=
  Tracked.new.allConsistent_iff ops

/-- A table with an index is renamed: the list of its indexes stays behind. -/
theorem rename_loses_indexes :
    ¬AllConsistent Catalog.new .new
      [.createTable ['t'] TableSchema.new,.createIndex ['i'] ['t'] [] false,
        .renameTable ['t'] ['u']] := by
  intro h
  have hlast := ((h.2 _ rfl).2 _ rfl).2 _ rfl
  have hlists : ['t'] ∈ _ := hlast.named ['t'] (Or.inl (by decide))
  revert hlists
  decide

end Catalog
end OrangeSQL
