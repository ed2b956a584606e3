import OrangeSQL.CatalogIndexes

/-! The entries of a schema for its indexed columns. A column has room for one id, the last index
created on it takes it, and when that index goes the entry goes with it, whatever other indexes
cover the column. -/
namespace OrangeSQL
namespace Catalog

open Engine (Lists)
open FiniteMap

/-- The table and the columns that an index was created with. -/
abbrev Makings := Finmap fun _ : Text => Text × List Text

/-- What a call on the catalog means for them. -/
def Makings.track (m : Makings) (c : Catalog) : CatalogOp → Makings
  | .createIndex name table columns unique =>
    if (c.createIndex name table columns unique).1 = .ok then m.insert name (table,columns) else m
  | _ => m

/-- A live index that was created on the table with the column in its list. -/
structure Covers (c : Catalog) (m : Makings) (t col name : Text) : Prop where
  live : name ∈ c.indexes
  made : ∃ columns, m.lookup name = some (t,columns) ∧ col ∈ columns

/-- A column that some live index covers has an entry with the id of such an index. -/
def Usable (c : Catalog) (m : Makings) : Prop :=
  ∀ t schema, c.tables.lookup t = some schema → ∀ column ∈ schema.columns, ∀ name,
    Covers c m t column.name name → ∃ id name', schema.indexes.lookup column.name = some id ∧
      c.indexes.lookup name' = some id ∧ Covers c m t column.name name'

/-- No other live index covers a column whose entry has the id of the index. -/
def Sole (c : Catalog) (m : Makings) (name : Text) : Prop :=
  ∀ t schema, c.tables.lookup t = some schema → ∀ column ∈ schema.columns, ∀ name',
    Covers c m t column.name name' →
    schema.indexes.lookup column.name = c.indexes.lookup name → name' = name

/-- The calls that make tables and indexes and drop indexes. -/
def onIndexes : CatalogOp → Bool
  | .createTable _ _ | .createIndex _ _ _ _ | .dropIndex _ _ | .dropIndexId _ _ => true
  | _ => false

/-- The condition on a call: an index is dropped only where it shares no entry. -/
def DropsSole (c : Catalog) (m : Makings) : CatalogOp → Prop
  | .dropIndex name _ => name ∈ c.indexes → Sole c m name
  | .dropIndexId id _ => ∀ name, c.indexIdMap.lookup id = some name → name ∈ c.indexes → Sole c m name
  | _ => True

/-- The entries are usable, and indexes are on tables that exist. -/
structure Covered (c : Catalog) (m : Makings) : Prop where
  usable : Usable c m
  placed : ∀ name t columns, name ∈ c.indexes → m.lookup name = some (t,columns) → t ∈ c.tables

variable {c : Catalog} {m : Makings}

theorem Covered.new : Covered Catalog.new ∅ := by
  constructor
  · intro t schema hschema
    simp [Catalog.new] at hschema
  · intro name t columns _ hmade
    simp at hmade

theorem lookup_foldl_insert_eq (entries : Finmap fun _ : Text => IndexId) (columns : List Text)
    (id : IndexId) (col : Text) :
    (columns.foldl (fun m col => m.insert col id) entries).lookup col =
      if col ∈ columns then some id else entries.lookup col := by
  induction columns generalizing entries with
  | nil => rfl
  | cons a columns ih =>
    rw [List.foldl_cons,ih]
    by_cases ha : col = a
    · subst ha
      simp
    · simp [ha,Finmap.lookup_insert_of_ne]

theorem Covered.createTable (h : Covered c m) {name : Text} (hname : name ∉ c.tables)
    (schema : TableSchema) {ids : Finmap fun _ : UInt32 => Text} {next : UInt32} :
    Covered { c with tables := c.tables.insert name schema, tableIdMap := ids, nextTableId := next }
      m := by
  constructor
  · intro t s hs column hcolumn index hcovers
    have hcovers' : Covers c m t column.name index := ⟨hcovers.live,hcovers.made⟩
    obtain ⟨columns,hmade,_⟩ := hcovers.made
    rcases lookup_insert_cases hs with ⟨rfl,_⟩ | hold
    · exact absurd (h.placed index t columns hcovers.live hmade) hname
    · obtain ⟨id,index',hentry,hid,hlive⟩ := h.usable t s hold column hcolumn index hcovers'
      exact ⟨id,index',hentry,hid,⟨hlive.live,hlive.made⟩⟩
  · intro index t columns hlive hmade
    exact Finmap.mem_insert.mpr (Or.inr (h.placed index t columns hlive hmade))

theorem covers_withIndex {name table : Text} {columns : List Text} {schema : TableSchema}
    (hname : name ∉ c.indexes) {t col index : Text} :
    Covers (c.withIndex name table columns schema) (m.insert name (table,columns)) t col index ↔
      index = name ∧ t = table ∧ col ∈ columns ∨ Covers c m t col index := by
  have hne : Covers c m t col index → index ≠ name := by
    rintro ⟨hlive,_⟩ rfl
    exact hname hlive
  constructor
  · rintro ⟨hlive,made,hmade,hcol⟩
    rcases lookup_insert_cases hmade with ⟨rfl,hsame⟩ | hold
    · obtain ⟨rfl,rfl⟩ := Prod.mk.inj hsame
      exact Or.inl ⟨rfl,rfl,hcol⟩
    · by_cases hindex : index = name
      · subst hindex
        rw [Finmap.lookup_insert] at hmade
        obtain ⟨rfl,rfl⟩ := Prod.mk.inj (Option.some.inj hmade)
        exact Or.inl ⟨rfl,rfl,hcol⟩
      · exact Or.inr ⟨(Finmap.mem_insert.mp hlive).resolve_left hindex,made,hold,hcol⟩
  · rintro (⟨rfl,rfl,hcol⟩ | hold)
    · exact ⟨Finmap.mem_insert.mpr (Or.inl rfl),columns,Finmap.lookup_insert _,hcol⟩
    · obtain ⟨made,hmade,hcol⟩ := hold.made
      refine ⟨Finmap.mem_insert.mpr (Or.inr hold.live),made,?_,hcol⟩
      rw [Finmap.lookup_insert_of_ne _ (hne hold)]
      exact hmade

theorem Covered.withIndex (h : Covered c m) {name table : Text} (columns : List Text)
    {schema : TableSchema} (hname : name ∉ c.indexes) (hschema : c.tables.lookup table = some schema) :
    Covered (c.withIndex name table columns schema) (m.insert name (table,columns)) := by
  have hid : (c.withIndex name table columns schema).indexes.lookup name = some c.nextIndexId :=
    Finmap.lookup_insert _
  have hkept : ∀ {index id}, c.indexes.lookup index = some id →
      (c.withIndex name table columns schema).indexes.lookup index = some id := by
    intro index id hindex
    have hne : index ≠ name := by
      rintro rfl
      exact hname (Finmap.mem_of_lookup_eq_some hindex)
    exact (Finmap.lookup_insert_of_ne _ hne).trans hindex
  have hold : ∀ {t s column index}, c.tables.lookup t = some s → column ∈ s.columns →
      Covers c m t column.name index → ∃ id index', s.indexes.lookup column.name = some id ∧
        (c.withIndex name table columns schema).indexes.lookup index' = some id ∧
        Covers (c.withIndex name table columns schema) (m.insert name (table,columns)) t column.name
          index' := by
    intro t s column index hs hcolumn hcovers
    obtain ⟨id,index',hentry,hid',hlive⟩ := h.usable t s hs column hcolumn index hcovers
    exact ⟨id,index',hentry,hkept hid',(covers_withIndex hname).mpr (Or.inr hlive)⟩
  constructor
  · intro t s hs column hcolumn index hcovers
    have hcases := (covers_withIndex hname).mp hcovers
    by_cases ht : t = table
    · subst ht
      obtain rfl := Option.some.inj ((Finmap.lookup_insert _).symm.trans hs)
      rw [lookup_foldl_insert_eq]
      split_ifs with hcol
      · exact ⟨_,name,rfl,hid,(covers_withIndex hname).mpr (Or.inl ⟨rfl,rfl,hcol⟩)⟩
      · exact hold hschema hcolumn (hcases.resolve_left fun hnew => hcol hnew.2.2)
    · have hs' : c.tables.lookup t = some s := (Finmap.lookup_insert_of_ne _ ht).symm.trans hs
      exact hold hs' hcolumn (hcases.resolve_left fun hnew => ht hnew.2.1)
  · intro index t made hlive hmade
    apply Finmap.mem_insert.mpr
    by_cases hindex : index = name
    · subst hindex
      rw [Finmap.lookup_insert] at hmade
      exact Or.inl (Prod.mk.inj (Option.some.inj hmade)).1.symm
    · rw [Finmap.lookup_insert_of_ne _ hindex] at hmade
      exact Or.inr (h.placed index t made ((Finmap.mem_insert.mp hlive).resolve_left hindex) hmade)

theorem covers_withoutIndex {name : Text} {id : IndexId} {order : List Text} {t col index : Text} :
    Covers (c.withoutIndex name id order) m t col index ↔ index ≠ name ∧ Covers c m t col index := by
  constructor
  · rintro ⟨hlive,hmade⟩
    obtain ⟨hne,hlive⟩ := Finmap.mem_erase.mp hlive
    exact ⟨hne,hlive,hmade⟩
  · rintro ⟨hne,hlive,hmade⟩
    exact ⟨Finmap.mem_erase.mpr ⟨hne,hlive⟩,hmade⟩

section Drop

variable {name : Text} {id : IndexId} {order : List Text} (hname : c.indexes.lookup name = some id)
include hname

theorem Covered.withoutIndex (h : Covered c m) (hsole : Sole c m name) :
    Covered (c.withoutIndex name id order) m := by
  constructor
  · intro t s hs column hcolumn index hcovers
    obtain ⟨hne,hold⟩ := covers_withoutIndex.mp hcovers
    simp only [Catalog.withoutIndex,lookup_mapValues,Option.map_eq_some_iff] at hs
    obtain ⟨s',hs',rfl⟩ := hs
    obtain ⟨id',index',hentry,hid',hlive⟩ := h.usable t s' hs' column hcolumn index hold
    have hother : id' ≠ id := by
      rintro rfl
      exact hne (hsole t s' hs' column hcolumn index hold (hentry.trans hname.symm))
    have hindex' : index' ≠ name := by
      rintro rfl
      exact hother (Option.some.inj (hid'.symm.trans hname))
    refine ⟨id',index',?_,?_,covers_withoutIndex.mpr ⟨hindex',hlive⟩⟩
    · simp [hentry,hother]
    · exact (Finmap.lookup_erase_ne hindex').trans hid'
  · intro index t columns hlive hmade
    have htable := h.placed index t columns (Finmap.mem_erase.mp hlive).2 hmade
    obtain ⟨s,hs⟩ := lookup_isSome_iff.mp htable
    apply lookup_isSome_iff.mpr
    simp [Catalog.withoutIndex,hs]

/-- Without the condition some column loses its entry to another index. -/
theorem sole_of_usable (h : Usable (c.withoutIndex name id order) m) : Sole c m name := by
  intro t s hs column hcolumn index hcovers hentry
  by_contra hne
  have hs' : (c.withoutIndex name id order).tables.lookup t =
      some { s with indexes := filterValues (fun i => i ≠ id) s.indexes } := by
    rw [Catalog.withoutIndex,lookup_mapValues,hs]
    rfl
  obtain ⟨id',_,hentry',_⟩ := h t _ hs' column hcolumn index (covers_withoutIndex.mpr ⟨hne,hcovers⟩)
  rw [lookup_filterValues,hentry,hname,Option.filter_eq_some_iff] at hentry'
  have hfilter := of_decide_eq_true hentry'.2
  exact hfilter (Option.some.inj hentry'.1).symm

end Drop

/-- A drop by name keeps the entries usable just when the index is the sole one at its entries. -/
theorem Covered.dropIndex (h : Covered c m) (name : Text) (order : List Text) :
    ((name ∈ c.indexes → Sole c m name) → Covered (c.dropIndex name order).2 m) ∧
    (Usable (c.dropIndex name order).2 m → name ∈ c.indexes → Sole c m name) := by
  cases hlook : c.indexes.lookup name with
  | none =>
    have hsame : (c.dropIndex name order).2 = c := by
      rw [Catalog.dropIndex,hlook]
    rw [hsame]
    exact ⟨fun _ => h,fun _ hname => absurd hname (Finmap.lookup_eq_none.mp hlook)⟩
  | some id =>
    have hdrop : (c.dropIndex name order).2 = c.withoutIndex name id order := by
      rw [Catalog.dropIndex,hlook]
      rfl
    rw [hdrop]
    exact ⟨fun hsole => h.withoutIndex hlook (hsole (Finmap.mem_of_lookup_eq_some hlook)),
      fun husable _ => sole_of_usable hlook husable⟩

/-- One call keeps the entries usable just when it meets the condition. -/
theorem Covered.exec {c' : Catalog} {op : CatalogOp} (h : Covered c m) (hop : onIndexes op = true)
    (hexec : c.exec op = some c') :
    (DropsSole c m op → Covered c' (m.track c op)) ∧
    (Usable c' (m.track c op) → DropsSole c m op) := by
  cases op with
  | createTable name schema =>
    obtain rfl := Option.some.inj hexec
    refine ⟨fun _ => ?_,fun _ => trivial⟩
    rcases createTable_cases c name schema with ⟨_,hsame,_⟩ | ⟨hname,next,hcreate⟩
    · rw [hsame]
      exact h
    · rw [hcreate]
      exact h.createTable hname _
  | createIndex name table columns unique =>
    obtain rfl := Option.some.inj hexec
    refine ⟨fun _ => ?_,fun _ => trivial⟩
    rcases createIndex_cases c name table columns unique with
      ⟨hfail,hsame,_⟩ | ⟨schema,hname,hschema,hcreate⟩
    · rw [Makings.track,if_neg hfail,hsame]
      exact h
    · rw [Makings.track,hcreate,if_pos rfl]
      exact h.withIndex columns hname hschema
  | dropIndex name order =>
    simp only [Catalog.exec] at hexec
    split_ifs at hexec with horder
    obtain rfl := Option.some.inj hexec
    exact h.dropIndex name order
  | dropIndexId id order =>
    simp only [Catalog.exec] at hexec
    split_ifs at hexec with horder
    obtain rfl := Option.some.inj hexec
    cases hlook : c.indexIdMap.lookup id with
    | none =>
      have hsame : (c.dropIndexId id order).2 = c := by
        rw [Catalog.dropIndexId,hlook]
      rw [hsame]
      exact ⟨fun _ => h,fun _ name hname =>
        absurd (hname.symm.trans hlook) (Option.some_ne_none name)⟩
    | some name =>
      have hdrop : c.dropIndexId id order = c.dropIndex name order := by
        rw [Catalog.dropIndexId,hlook]
      have hstep := h.dropIndex name order
      rw [hdrop]
      refine ⟨fun hsole => hstep.1 (hsole name hlook),fun husable name' hname' => ?_⟩
      obtain rfl := Option.some.inj (hlook.symm.trans hname')
      exact hstep.2 husable
  | _ => cases hop

/-- The entries are usable in every catalog on the way. -/
def AllUsable (c : Catalog) (m : Makings) : List CatalogOp → Prop
  | [] => Usable c m
  | op::ops => Usable c m ∧ ∀ c', c.exec op = some c' → AllUsable c' (m.track c op) ops

/-- Every call meets the condition in the catalog on which it is made. -/
def AllDropSole (c : Catalog) (m : Makings) : List CatalogOp → Prop
  | [] => True
  | op::ops => ∀ c', c.exec op = some c' → DropsSole c m op ∧ AllDropSole c' (m.track c op) ops

theorem Covered.run_iff (ops : List CatalogOp) (hops : ∀ op ∈ ops, onIndexes op = true) :
    ∀ {c : Catalog} {m : Makings}, Covered c m → (AllUsable c m ops ↔ AllDropSole c m ops) := by
  induction ops with
  | nil => exact fun h => iff_of_true h.usable trivial
  | cons op ops ih =>
    intro c m h
    have hop := hops op (List.mem_cons_self ..)
    have ih' := fun {c'} {m'} => @ih (fun op hmem => hops op (List.mem_cons_of_mem _ hmem)) c' m'
    simp only [AllUsable,AllDropSole,h.usable,true_and]
    refine forall_congr' fun c' => forall_congr' fun hexec => ?_
    obtain ⟨hkeep,hbreak⟩ := h.exec hop hexec
    constructor
    · intro hall
      have husable : Usable c' (m.track c op) := by
        cases ops with
        | nil => exact hall
        | cons op' ops => exact hall.1
      exact ⟨hbreak husable,(ih' (hkeep (hbreak husable))).mp hall⟩
    · rintro ⟨hmeets,hall⟩
      exact (ih' (hkeep hmeets)).mpr hall

/-- Every indexed column keeps a usable entry through a run of calls just when no index is dropped
whose id is the entry of a column that another live index covers. -/
theorem allUsable_iff {ops : List CatalogOp} (hops : ∀ op ∈ ops, onIndexes op = true) :
    AllUsable Catalog.new ∅ ops ↔ AllDropSole Catalog.new ∅ ops :=
  Covered.new.run_iff ops hops

/-- A table with a column, and two indexes on it. -/
def oneColumnTable : TableSchema :=
  { TableSchema.new with columns := [{ ColumnSchema.new with name := ['c'] }] }
def twoIndexOps : List CatalogOp :=
  [.createTable ['t'] oneColumnTable,.createIndex ['i'] ['t'] [['c']] false,
    .createIndex ['j'] ['t'] [['c']] false]
def twoIndexes : Catalog :=
  (((new.createTable ['t'] oneColumnTable).2.createIndex ['i'] ['t'] [['c']] false).2.createIndex
    ['j'] ['t'] [['c']] false).2

/-- The table with the entry that the second index made. -/
def twiceIndexed : TableSchema :=
  { oneColumnTable with id := 1, indexes := (∅ : Finmap _).insert ['c'] 2 }

theorem twoIndexes_lookup {t : Text} {schema : TableSchema}
    (h : twoIndexes.tables.lookup t = some schema) : t = ['t'] ∧ schema = twiceIndexed := by
  have hkeys : twoIndexes.tables.keys = {['t']} := by decide
  have hlook : twoIndexes.tables.lookup ['t'] = some twiceIndexed := by decide
  have hkey : t ∈ twoIndexes.tables.keys := by
    rw [Finmap.mem_keys]
    exact Finmap.mem_of_lookup_eq_some h
  rw [hkeys,Finset.mem_singleton] at hkey
  subst hkey
  exact ⟨rfl,Option.some.inj (h.symm.trans hlook)⟩

/-- The first index goes, whose entry the second has, and then the second. -/
theorem allUsable_iff_two :
    AllUsable Catalog.new ∅ (twoIndexOps++[.dropIndex ['i'] [['t']],.dropIndex ['j'] [['t']]]) := by
  refine (allUsable_iff (by simp [twoIndexOps,onIndexes])).mpr ?_
  intro c₁ h₁
  refine ⟨trivial,fun c₂ h₂ => ⟨trivial,fun c₃ h₃ => ⟨trivial,fun c₄ h₄ => ⟨?_,fun c₅ _ => ⟨?_,trivial⟩⟩⟩⟩⟩
  all_goals
    obtain rfl := Option.some.inj h₁
    obtain rfl := Option.some.inj h₂
    obtain rfl := Option.some.inj h₃
  · intro _ t schema hschema column hcolumn name' _ hentry
    obtain ⟨rfl,rfl⟩ := twoIndexes_lookup hschema
    obtain rfl := List.mem_singleton.mp hcolumn
    exact absurd hentry (by decide)
  · intro _ t schema _ column _ name' hcovers _
    have hdropped : c₄ = (twoIndexes.dropIndex ['i'] [['t']]).2 := by
      rw [Catalog.exec,if_pos (by decide)] at h₄
      exact (Option.some.inj h₄).symm
    have hkeys : c₄.indexes.keys = {['j']} := by
      rw [hdropped]
      decide
    have hlive : name' ∈ c₄.indexes.keys := Finmap.mem_keys.mpr hcovers.live
    rwa [hkeys,Finset.mem_singleton] at hlive

/-- With the second index the entry goes, and the first index is left without one. -/
theorem entry_goes_with_second : ¬ ∀ ops : List CatalogOp, (∀ op ∈ ops, onIndexes op = true) →
    AllUsable Catalog.new ∅ ops := by
  intro h
  have hall := h (twoIndexOps++[.dropIndex ['j'] [['t']]]) (by simp [twoIndexOps,onIndexes])
  obtain ⟨_,h₁⟩ := hall
  obtain ⟨_,h₂⟩ := h₁ _ rfl
  obtain ⟨_,h₃⟩ := h₂ _ rfl
  have hexec : twoIndexes.exec (.dropIndex ['j'] [['t']]) =
      some (twoIndexes.dropIndex ['j'] [['t']]).2 := by
    rw [Catalog.exec,if_pos (by decide)]
  have husable := (h₃ twoIndexes rfl).2 _ hexec
  let schema : TableSchema := { oneColumnTable with id := 1 }
  have hschema : (twoIndexes.dropIndex ['j'] [['t']]).2.tables.lookup ['t'] = some schema := by decide
  obtain ⟨id,_,hentry,_⟩ := husable ['t'] schema hschema _ (List.mem_singleton.mpr rfl) ['i']
    ⟨by decide,[['c']],by decide,by decide⟩
  cases hentry

end Catalog
end OrangeSQL
