import OrangeSQL.Catalog

/-! Names and ids of indexes. Four maps speak of an index: the two between names and ids, the lists
of ids of the tables, and the entries of the schemas. They agree as long as the counter of the
ids has not come around. -/
namespace OrangeSQL
namespace Catalog

open Engine (Lists)
open FiniteMap

/-- An id with a name. -/
def Live (c : Catalog) (id : IndexId) : Prop := ∃ name, c.indexIdMap.lookup id = some name

/-- Names and ids are in bijection, and every id of a list is in one place and has a name. -/
structure IndexMaps (c : Catalog) : Prop where
  inverse : ∀ name id, c.indexes.lookup name = some id ↔ c.indexIdMap.lookup id = some name
  once : ∀ table, (c.indexList table).Nodup
  one : ∀ table table' id, id ∈ c.indexList table → id ∈ c.indexList table' → table = table'
  listed : ∀ table, ∀ id ∈ c.indexList table, c.Live id

/-- The maps of the indexes after `n` indexes were created. -/
structure IndexInv (c : Catalog) (n : ℕ) : Prop extends IndexMaps c where
  bound : ∀ id, c.Live id → id.toNat ≤ n
  next : c.nextIndexId = UInt32.ofNat (n+1)
  entered : ∀ table schema col id, c.tables.lookup table = some schema →
    schema.indexes.lookup col = some id → c.Live id

theorem IndexMaps.new : IndexMaps Catalog.new := by
  constructor <;> simp [Catalog.new,indexList]

theorem IndexInv.new : IndexInv Catalog.new 0 := by
  refine ⟨IndexMaps.new,?_,?_,?_⟩ <;> simp [Catalog.new,Live]

theorem IndexMaps.congr {c c' : Catalog} (h : IndexMaps c) (hindexes : c'.indexes = c.indexes)
    (hids : c'.indexIdMap = c.indexIdMap) (hlists : ∀ t, c'.indexList t = c.indexList t) :
    IndexMaps c' := by
  constructor
  · rw [hindexes,hids]
    exact h.inverse
  · intro t
    rw [hlists]
    exact h.once t
  · intro t t' id
    rw [hlists,hlists]
    exact h.one t t' id
  · intro t id hid
    rw [hlists] at hid
    rw [Live,hids]
    exact h.listed t id hid

/-- The invariant reads only five of the maps. -/
theorem IndexInv.congr {c c' : Catalog} {n : ℕ} (h : IndexInv c n)
    (hindexes : c'.indexes = c.indexes) (hids : c'.indexIdMap = c.indexIdMap)
    (hnext : c'.nextIndexId = c.nextIndexId) (hlists : ∀ t, c'.indexList t = c.indexList t)
    (htables : ∀ t schema, c'.tables.lookup t = some schema → schema.indexes = ∅ ∨
      ∃ t' schema', c.tables.lookup t' = some schema' ∧ schema.indexes = schema'.indexes) :
    IndexInv c' n := by
  have hlive : ∀ id, c'.Live id ↔ c.Live id := by simp [Live,hids]
  refine ⟨h.toIndexMaps.congr hindexes hids hlists,?_,?_,?_⟩
  · intro id hid
    exact h.bound id ((hlive id).mp hid)
  · rw [hnext]
    exact h.next
  · intro t schema col id hschema hcol
    rcases htables t schema hschema with hempty | ⟨t',schema',hschema',hsame⟩
    · simp [hempty] at hcol
    · exact (hlive id).mpr (h.entered t' schema' col id hschema' (hsame ▸ hcol))

theorem indexList_erase (c : Catalog) {name : Text} (h : c.indexList name = []) (t : Text) :
    ((c.tableIndexes.erase name).lookup t).getD [] = c.indexList t := by
  by_cases ht : t = name
  · subst ht
    rw [Finmap.lookup_erase,h]
    rfl
  · rw [Finmap.lookup_erase_ne ht]
    rfl

theorem IndexInv.createTable {c : Catalog} {n : ℕ} (h : IndexInv c n) (name : Text)
    {schema : TableSchema} (hschema : schema.indexes = ∅) :
    IndexInv (c.createTable name schema).2 n := by
  rcases createTable_cases c name schema with ⟨_,hsame,_⟩ | ⟨_,next,hcreate⟩
  · rwa [hsame]
  · rw [hcreate]
    refine h.congr rfl rfl rfl (fun _ => rfl) ?_
    intro t s hs
    rcases lookup_insert_cases hs with ⟨_,rfl⟩ | hold
    · exact Or.inl hschema
    · exact Or.inr ⟨t,s,hold,rfl⟩

theorem IndexInv.dropTable {c : Catalog} {n : ℕ} (h : IndexInv c n) (name : Text) :
    IndexInv (c.dropTable name).2 n := by
  rcases dropTable_cases c name with ⟨_,hsame⟩ | ⟨schema,_,hempty,hdrop⟩
  · rwa [hsame]
  · rw [hdrop]
    refine h.congr rfl rfl rfl (indexList_erase c hempty) ?_
    intro t s hs
    exact Or.inr ⟨t,s,(lookup_erase_cases hs).2,rfl⟩

theorem IndexInv.renameTable {c : Catalog} {n : ℕ} (h : IndexInv c n) (oldName newName : Text) :
    IndexInv (c.renameTable oldName newName).2 n := by
  rcases renameTable_cases c oldName newName with ⟨_,hsame,_⟩ | ⟨schema,hschema,_,hrename⟩
  · rwa [hsame]
  · rw [hrename]
    refine h.congr rfl rfl rfl (fun _ => rfl) ?_
    intro t s hs
    rcases lookup_insert_cases hs with ⟨_,rfl⟩ | hold
    · exact Or.inr ⟨oldName,schema,hschema,rfl⟩
    · exact Or.inr ⟨t,s,(lookup_erase_cases hold).2,rfl⟩

theorem lookup_foldl_insert {m : Finmap fun _ : Text => IndexId} {columns : List Text}
    {new id : IndexId} {col : Text}
    (h : (columns.foldl (fun m col => m.insert col new) m).lookup col = some id) :
    id = new ∨ m.lookup col = some id := by
  induction columns generalizing m with
  | nil => exact Or.inr h
  | cons a columns ih =>
    rcases ih h with rfl | h
    · exact Or.inl rfl
    · rcases lookup_insert_cases h with ⟨_,rfl⟩ | h
      · exact Or.inl rfl
      · exact Or.inr h

theorem live_withIndex (c : Catalog) (name table : Text) (columns : List Text)
    (schema : TableSchema) (id : IndexId) :
    (c.withIndex name table columns schema).Live id ↔ id = c.nextIndexId ∨ c.Live id := by
  by_cases hid : id = c.nextIndexId <;> simp [Live,withIndex,lookup_insert_eq,hid]

theorem indexList_withIndex (c : Catalog) (name table : Text) (columns : List Text)
    (schema : TableSchema) (t : Text) :
    (c.withIndex name table columns schema).indexList t =
      if t = table then c.indexList table++[c.nextIndexId] else c.indexList t := by
  by_cases ht : t = table <;> simp [indexList,withIndex,lookup_insert_eq,ht]

/-- A new index keeps the maps in order if its id has no name yet. -/
theorem IndexMaps.withIndex {c : Catalog} (h : IndexMaps c) (hfresh : ¬c.Live c.nextIndexId)
    {name : Text} (hname : name ∉ c.indexes) (table : Text) (columns : List Text)
    (schema : TableSchema) : IndexMaps (c.withIndex name table columns schema) := by
  have hnone : c.indexes.lookup name = none := Finmap.lookup_eq_none.mpr hname
  have hlist := indexList_withIndex c name table columns schema
  have hmem : ∀ t id, id ∈ (c.withIndex name table columns schema).indexList t →
      id ∈ c.indexList t ∨ id = c.nextIndexId ∧ t = table := by
    intro t id hid
    rw [hlist] at hid
    split_ifs at hid with ht
    · subst ht
      rcases List.mem_append.mp hid with hold | hnew
      · exact Or.inl hold
      · exact Or.inr ⟨List.mem_singleton.mp hnew,rfl⟩
    · exact Or.inl hid
  constructor
  · intro k id
    simp only [Catalog.withIndex,lookup_insert_eq]
    by_cases hk : k = name
    · subst hk
      by_cases hid : id = c.nextIndexId
      · simp [hid]
      · have hnot : c.indexIdMap.lookup id ≠ some k := by
          intro hlook
          have hback := (h.inverse k id).mpr hlook
          rw [hnone] at hback
          cases hback
        simp [hid,hnot,Ne.symm hid]
    · by_cases hid : id = c.nextIndexId
      · have hnot : c.indexes.lookup k ≠ some id := by
          intro hlook
          exact hfresh ⟨k,(h.inverse k _).mp (hid ▸ hlook)⟩
        simp [hk,hid ▸ hnot,Ne.symm hk,hid]
      · simpa [hk,hid] using h.inverse k id
  · intro t
    rw [hlist]
    split_ifs with ht
    · refine List.nodup_append.mpr ⟨h.once table,List.nodup_singleton _,?_⟩
      intro a ha b hb
      obtain rfl := List.mem_singleton.mp hb
      rintro rfl
      exact hfresh (h.listed table _ ha)
    · exact h.once t
  · intro t t' id hid hid'
    rcases hmem t id hid with hid | ⟨rfl,rfl⟩
    · rcases hmem t' id hid' with hid' | ⟨rfl,_⟩
      · exact h.one t t' id hid hid'
      · exact absurd (h.listed t _ hid) hfresh
    · rcases hmem t' _ hid' with hid' | ⟨_,rfl⟩
      · exact absurd (h.listed t' _ hid') hfresh
      · rfl
  · intro t id hid
    rw [live_withIndex]
    rcases hmem t id hid with hold | ⟨rfl,_⟩
    · exact Or.inr (h.listed t id hold)
    · exact Or.inl rfl

section Create

variable {c : Catalog} {n : ℕ} (h : IndexInv c n) (hn : n+1 < 2^32)
include h hn

/-- The next id has no name yet. -/
theorem IndexInv.fresh : ¬c.Live c.nextIndexId := by
  intro hlive
  have hbound := h.bound _ hlive
  rw [h.next,UInt32.toNat_ofNat_of_lt' hn] at hbound
  omega

theorem IndexInv.withIndex {name table : Text} (columns : List Text) {schema : TableSchema}
    (hname : name ∉ c.indexes) (hschema : c.tables.lookup table = some schema) :
    IndexInv (c.withIndex name table columns schema) (n+1) := by
  have hlive := live_withIndex c name table columns schema
  refine ⟨h.toIndexMaps.withIndex (h.fresh hn) hname table columns schema,?_,?_,?_⟩
  · intro id hid
    rcases (hlive id).mp hid with rfl | hold
    · rw [h.next,UInt32.toNat_ofNat_of_lt' hn]
    · exact (h.bound id hold).trans (Nat.le_succ n)
  · simp only [Catalog.withIndex,h.next,UInt32.ofNat_add]
    rfl
  · intro t s col id hs hcol
    rw [hlive]
    rcases lookup_insert_cases hs with ⟨_,rfl⟩ | hold
    · rcases lookup_foldl_insert hcol with rfl | hentry
      · exact Or.inl rfl
      · exact Or.inr (h.entered table schema col id hschema hentry)
    · exact Or.inr (h.entered t s col id hold hcol)

end Create

theorem live_withoutIndex (c : Catalog) (name : Text) (id : IndexId) (order : List Text)
    (i : IndexId) : (c.withoutIndex name id order).Live i ↔ i ≠ id ∧ c.Live i := by
  by_cases hi : i = id <;> simp [Live,Catalog.withoutIndex,lookup_erase_eq,hi]

section Drop

variable {c : Catalog} (h : IndexMaps c)
include h

/-- The dropped id is gone from the list that had it. -/
theorem IndexMaps.indexList_withoutIndex (name : Text) (id : IndexId) {order : List Text}
    (horder : Lists order c.tableIndexes.keys) (t : Text) :
    (c.withoutIndex name id order).indexList t = (c.indexList t).erase id := by
  have hlist : ∀ t ids, c.tableIndexes.lookup t = some ids → c.indexList t = ids := by
    intro t ids hids
    rw [indexList,hids]
    rfl
  have herase := @lookup_eraseFromLists id c.tableIndexes order ?_ ?_ t
  · simp only [indexList,withoutIndex,herase]
    cases c.tableIndexes.lookup t <;> rfl
  · intro t t' ids ids' hids hids' hmem hmem'
    exact h.one t t' id (hlist t ids hids ▸ hmem) (hlist t' ids' hids' ▸ hmem')
  · intro t ids hids _
    rw [← List.mem_toFinset,horder.2,Finmap.mem_keys]
    exact Finmap.mem_of_lookup_eq_some hids

theorem IndexMaps.mem_withoutIndex (name : Text) (id : IndexId) {order : List Text}
    (horder : Lists order c.tableIndexes.keys) (t : Text) (i : IndexId) :
    i ∈ (c.withoutIndex name id order).indexList t ↔ i ≠ id ∧ i ∈ c.indexList t := by
  rw [h.indexList_withoutIndex name id horder,List.Nodup.mem_erase_iff (h.once t)]

theorem IndexMaps.withoutIndex {name : Text} {id : IndexId} {order : List Text}
    (hname : c.indexes.lookup name = some id) (horder : Lists order c.tableIndexes.keys) :
    IndexMaps (c.withoutIndex name id order) := by
  have hmem := h.mem_withoutIndex name id horder
  constructor
  · intro k i
    simp only [Catalog.withoutIndex,lookup_erase_eq]
    by_cases hk : k = name
    · by_cases hi : i = id
      · simp [hk,hi]
      · have hnot : c.indexIdMap.lookup i ≠ some name := by
          intro hlook
          have hback := (h.inverse name i).mpr hlook
          rw [hname] at hback
          exact hi (Option.some.inj hback).symm
        simp [hk,hi,hnot]
    · by_cases hi : i = id
      · have hnot : c.indexes.lookup k ≠ some id := by
          intro hlook
          have hthere := (h.inverse k id).mp hlook
          rw [(h.inverse name id).mp hname] at hthere
          exact hk (Option.some.inj hthere).symm
        simp [hk,hi,hnot]
      · simpa [hk,hi] using h.inverse k i
  · intro t
    rw [h.indexList_withoutIndex name id horder]
    exact (h.once t).erase id
  · intro t t' i hi hi'
    exact h.one t t' i ((hmem t i).mp hi).2 ((hmem t' i).mp hi').2
  · intro t i hi
    obtain ⟨hne,hold⟩ := (hmem t i).mp hi
    exact (live_withoutIndex c name id order i).mpr ⟨hne,h.listed t i hold⟩

end Drop

theorem IndexInv.withoutIndex {c : Catalog} {n : ℕ} (h : IndexInv c n) {name : Text}
    {id : IndexId} {order : List Text} (hname : c.indexes.lookup name = some id)
    (horder : Lists order c.tableIndexes.keys) : IndexInv (c.withoutIndex name id order) n := by
  have hlive := live_withoutIndex c name id order
  refine ⟨h.toIndexMaps.withoutIndex hname horder,?_,h.next,?_⟩
  · intro i hi
    exact h.bound i ((hlive i).mp hi).2
  · intro t s col i hs hcol
    simp only [Catalog.withoutIndex,lookup_mapValues,Option.map_eq_some_iff] at hs
    obtain ⟨s',hs',rfl⟩ := hs
    simp only [lookup_filterValues,Option.filter_eq_some_iff,decide_eq_true_eq] at hcol
    exact (hlive i).mpr ⟨hcol.2,h.entered t s' col i hs' hcol.1⟩

/-- A new table comes without entries for indexes. -/
def Plain : CatalogOp → Prop
  | .createTable _ schema => schema.indexes = ∅
  | _ => True

/-- The number of indexes that a call creates. -/
def creates (c : Catalog) : CatalogOp → ℕ
  | .createIndex name table columns unique =>
    if (c.createIndex name table columns unique).1 = .ok then 1 else 0
  | _ => 0

/-- The catalogs that are reached with `n` indexes created on the way. -/
inductive IndexRun : Catalog → ℕ → Prop
  | new : IndexRun Catalog.new 0
  | step {c c' : Catalog} {n : ℕ} {op : CatalogOp} : IndexRun c n → Plain op →
      c.exec op = some c' → IndexRun c' (n+c.creates op)

theorem IndexInv.dropIndex {c : Catalog} {n : ℕ} (h : IndexInv c n) (name : Text)
    {order : List Text} (horder : Lists order c.tableIndexes.keys) :
    IndexInv (c.dropIndex name order).2 n := by
  rcases dropIndex_cases c name order with ⟨_,hsame⟩ | ⟨id,hid,hdrop⟩
  · rwa [hsame]
  · rw [hdrop]
    exact h.withoutIndex hid horder

theorem IndexInv.exec {c c' : Catalog} {n : ℕ} {op : CatalogOp} (h : IndexInv c n)
    (hplain : Plain op) (hexec : c.exec op = some c') (hn : n+c.creates op < 2^32) :
    IndexInv c' (n+c.creates op) := by
  have hother : sparesTables op = true → IndexInv c' n := by
    intro hop
    have hsame := exec_sparesTables hop hexec
    refine h.congr hsame.indexes hsame.indexIdMap hsame.nextIndexId ?_ ?_
    · intro t
      rw [indexList,hsame.tableIndexes]
      rfl
    · intro t s hs
      exact Or.inr ⟨t,s,hsame.tables ▸ hs,rfl⟩
  cases op with
  | createTable name schema =>
    obtain rfl := Option.some.inj hexec
    exact h.createTable name hplain
  | dropTable name =>
    obtain rfl := Option.some.inj hexec
    exact h.dropTable name
  | renameTable oldName newName =>
    obtain rfl := Option.some.inj hexec
    exact h.renameTable oldName newName
  | createIndex name table columns unique =>
    obtain rfl := Option.some.inj hexec
    rcases createIndex_cases c name table columns unique with
      ⟨hfail,hsame,_⟩ | ⟨s,hname,hs,hcreate⟩
    · simpa [creates,hfail,hsame] using h
    · simp only [creates,hcreate,if_true] at hn ⊢
      exact h.withIndex hn columns hname hs
  | dropIndex name order =>
    simp only [Catalog.exec] at hexec
    split_ifs at hexec with horder
    obtain rfl := Option.some.inj hexec
    exact h.dropIndex name horder
  | dropIndexId id order =>
    simp only [Catalog.exec] at hexec
    split_ifs at hexec with horder
    obtain rfl := Option.some.inj hexec
    rcases dropIndexId_cases c id order with ⟨_,hsame⟩ | ⟨name,_,hdrop⟩
    · rw [hsame]
      exact h
    · rw [hdrop]
      exact h.dropIndex name horder
  | _ => exact hother rfl

theorem IndexRun.inv {c : Catalog} {n : ℕ} (h : IndexRun c n) (hn : n < 2^32) : IndexInv c n := by
  induction h with
  | new => exact IndexInv.new
  | step _ hplain hexec ih => exact (ih (by omega)).exec hplain hexec hn

/-- The maps of the indexes agree in every catalog reached with fewer than 2^32 indexes created;
the ids are below the counter unless the last id has been given away. -/
theorem index_maps_agree {c : Catalog} {n : ℕ} (h : IndexRun c n) (hn : n < 2^32) :
    (∀ name id, c.indexes.lookup name = some id ↔ c.indexIdMap.lookup id = some name) ∧
    (n < 2^32-1 → ∀ id, c.Live id → id < c.nextIndexId) ∧
    (∀ table, (c.indexList table).Nodup) ∧
    (∀ table table' id, id ∈ c.indexList table → id ∈ c.indexList table' → table = table') ∧
    (∀ table, ∀ id ∈ c.indexList table, c.Live id) ∧
    (∀ table schema col id, c.tables.lookup table = some schema →
      schema.indexes.lookup col = some id → c.Live id) := by
  have hinv := h.inv hn
  refine ⟨hinv.inverse,?_,hinv.once,hinv.one,hinv.listed,hinv.entered⟩
  intro hlast id hlive
  have hbound := hinv.bound id hlive
  rw [hinv.next,UInt32.lt_iff_toNat_lt,UInt32.toNat_ofNat_of_lt' (show n+1 < UInt32.size by
    rw [UInt32.size]; omega)]
  omega

/-- One table. -/
def oneTable : Catalog := (Catalog.new.createTable ['t'] TableSchema.new).2

theorem indexRun_oneTable : IndexRun oneTable 0 :=
  @IndexRun.step Catalog.new oneTable 0 (.createTable ['t'] TableSchema.new) .new rfl rfl

/-- An index on the table, of a catalog without indexes. -/
theorem IndexRun.createIndex {c : Catalog} {n : ℕ} {schema : TableSchema} (h : IndexRun c n)
    (hempty : c.indexes = ∅) (htable : c.tables.lookup ['t'] = some schema) :
    IndexRun (c.withIndex ['i'] ['t'] [] schema) (n+1) := by
  have hname : (['i'] : Text) ∉ c.indexes := by
    rw [hempty]
    exact Finmap.notMem_empty
  have hcreate : c.createIndex ['i'] ['t'] [] false =
      (.ok,c.withIndex ['i'] ['t'] [] schema) := by
    simp [Catalog.createIndex,hname,htable,Catalog.withIndex]
  have hstep := @IndexRun.step c _ n (.createIndex ['i'] ['t'] [] false) h trivial rfl
  simpa only [creates,hcreate,if_true] using hstep

/-- Any number of times an index is created on the table and dropped again. -/
theorem exists_indexRun (n : ℕ) :
    ∃ c schema, IndexRun c n ∧ c.indexes = ∅ ∧ c.tables.lookup ['t'] = some schema := by
  induction n with
  | zero => exact ⟨oneTable,_,indexRun_oneTable,rfl,Finmap.lookup_insert _⟩
  | succ n ih =>
    obtain ⟨c,schema,hrun,hempty,htable⟩ := ih
    have hcreated := hrun.createIndex hempty htable
    obtain ⟨order,horder⟩ : ∃ order,
        Lists order (c.withIndex ['i'] ['t'] [] schema).tableIndexes.keys :=
      ⟨_,Finset.nodup_toList _,Finset.toList_toFinset _⟩
    have hid : (c.withIndex ['i'] ['t'] [] schema).indexes.lookup ['i'] = some c.nextIndexId :=
      Finmap.lookup_insert _
    have hexec : (c.withIndex ['i'] ['t'] [] schema).exec (.dropIndex ['i'] order) =
        some ((c.withIndex ['i'] ['t'] [] schema).withoutIndex ['i'] c.nextIndexId order) := by
      rw [Catalog.exec,if_pos horder,Catalog.dropIndex,hid]
      rfl
    have hplain : Plain (.dropIndex ['i'] order) := trivial
    have hindexes : ((c.withIndex ['i'] ['t'] [] schema).withoutIndex ['i'] c.nextIndexId
        order).indexes = ∅ := by
      apply Finmap.ext_lookup
      intro k
      simp [Catalog.withoutIndex,Catalog.withIndex,hempty,lookup_erase_eq,lookup_insert_eq]
    have htable' : ∃ s, ((c.withIndex ['i'] ['t'] [] schema).withoutIndex ['i'] c.nextIndexId
        order).tables.lookup ['t'] = some s := by
      simp [Catalog.withoutIndex,Catalog.withIndex]
    obtain ⟨s,hs⟩ := htable'
    exact ⟨_,s,hcreated.step hplain hexec,hindexes,hs⟩

/-- With 2^32-1 indexes created the counter is zero, and no id is below it. -/
theorem last_id_not_below :
    ∃ c, IndexRun c (2^32-1) ∧ ∃ name id, c.indexes.lookup name = some id ∧ c.Live id ∧
      ¬id < c.nextIndexId := by
  obtain ⟨c,schema,hrun,hempty,htable⟩ := exists_indexRun (2^32-2)
  have hcreated := hrun.createIndex hempty htable
  have hinv := hcreated.inv (by decide)
  refine ⟨_,hcreated,['i'],c.nextIndexId,Finmap.lookup_insert _,⟨['i'],Finmap.lookup_insert _⟩,?_⟩
  have hzero : (c.withIndex ['i'] ['t'] [] schema).nextIndexId = 0 := hinv.next.trans (by decide)
  rw [hzero]
  exact UInt32.not_lt_zero

/-- The catalog with the first index. -/
theorem index_maps_agree_one :
    ∃ c id, IndexRun c 1 ∧ c.Live id ∧ id < c.nextIndexId := by
  have hcreated := indexRun_oneTable.createIndex rfl (Finmap.lookup_insert _)
  refine ⟨_,oneTable.nextIndexId,hcreated,⟨['i'],Finmap.lookup_insert _⟩,?_⟩
  exact (index_maps_agree hcreated (by decide)).2.1 (by decide) _ ⟨['i'],Finmap.lookup_insert _⟩

end Catalog
end OrangeSQL
