import OrangeSQL.CatalogIndexes

/-! Dropping a table. The test for dependencies counts what the table owns itself, so a table with
an index or a constraint of its own is not dropped at all, and the loops that would take its
indexes and constraints along have little left to do. -/
namespace OrangeSQL
namespace Catalog

open FiniteMap

/-- The table that an index was created on and that a constraint was added to, under the name that
the table has now. -/
structure Owners where
  index : Finmap (fun _ : Text => Text)
  constraint : Finmap (fun _ : Text => Text)

namespace Owners

def new : Owners := ⟨∅,∅⟩

/-- What a call on the catalog means for them. -/
def track (w : Owners) (c : Catalog) : CatalogOp → Owners
  | .createIndex name table columns unique =>
    if (c.createIndex name table columns unique).1 = .ok then
      { w with index := w.index.insert name table }
    else w
  | .addConstraint table k =>
    if (c.addConstraint table k).1 = .ok then
      { w with constraint := w.constraint.insert k.name table }
    else w
  | .renameTable oldName newName =>
    if (c.renameTable oldName newName).1 = .ok then
      ⟨mapValues (fun t => if t = oldName then newName else t) w.index,
        mapValues (fun t => if t = oldName then newName else t) w.constraint⟩
    else w
  | .dropTable name =>
    if (c.dropTable name).1 = .ok then
      ⟨filterValues (fun t => t ≠ name) w.index,filterValues (fun t => t ≠ name) w.constraint⟩
    else w
  | _ => w

end Owners

/-- The catalogs that any calls lead to, each with its owners. -/
inductive OwnerRun : Catalog → Owners → Prop
  | new : OwnerRun Catalog.new .new
  | step {c c' : Catalog} {w : Owners} {op : CatalogOp} : OwnerRun c w → c.exec op = some c' →
      OwnerRun c' (w.track c op)

section Ownership

variable (c : Catalog) (w : Owners) (t : Text)

def CreatedOn (name : Text) : Prop := name ∈ c.indexes ∧ w.index.lookup name = some t
def AttachedTo (k : Text) : Prop := k ∈ c.constraints ∧ w.constraint.lookup k = some t

/-- No view names the table and no constraint of another table references it. -/
structure Unreferenced : Prop where
  views : ∀ v info, c.views.lookup v = some info → ¬ t <:+: info.query
  references : ∀ k info t', c.constraints.lookup k = some info → AttachedTo c w t' k →
    info.refTable = t → t' = t

/-- The ids of the indexes that were created on the table. -/
def OwnId (id : IndexId) : Prop := ∃ name, CreatedOn c w t name ∧ c.indexes.lookup name = some id

open scoped Classical in
/-- The table goes with its indexes and constraints, and everything else stays. -/
structure Cascades (c' : Catalog) : Prop where
  tables : ∀ u, c'.tables.lookup u = if u = t then none else c.tables.lookup u
  tableIdMap : ∀ id u, c'.tableIdMap.lookup id = some u ↔ u ≠ t ∧ c.tableIdMap.lookup id = some u
  indexes : ∀ name id, c'.indexes.lookup name = some id ↔
    ¬ CreatedOn c w t name ∧ c.indexes.lookup name = some id
  indexIdMap : ∀ id name, c'.indexIdMap.lookup id = some name ↔
    ¬ CreatedOn c w t name ∧ c.indexIdMap.lookup id = some name
  tableIndexes : t ∉ c'.tableIndexes ∧ ∀ u, u ≠ t →
    c'.indexList u = (c.indexList u).filter fun id => ¬ OwnId c w t id
  constraints : ∀ k info, c'.constraints.lookup k = some info ↔
    ¬ AttachedTo c w t k ∧ c.constraints.lookup k = some info
  tableConstraints : t ∉ c'.tableConstraints ∧ ∀ u, u ≠ t →
    c'.constraintList u = (c.constraintList u).filter fun k => ¬ AttachedTo c w t k
  rest : c'.sequences = c.sequences ∧ c'.views = c.views ∧ c'.nextTableId = c.nextTableId ∧
    c'.nextIndexId = c.nextIndexId

/-- The table has no index and no constraint names it, the constraints in its list are just those
that were added to it, they are in no other list, and its id does not stand for another table. -/
structure Bare : Prop where
  list : c.indexList t = []
  created : ∀ name, ¬ CreatedOn c w t name
  named : ∀ k info, c.constraints.lookup k = some info → info.tableName ≠ t ∧ info.refTable ≠ t
  attached : ∀ k ∈ c.constraints, k ∈ c.constraintList t ↔ AttachedTo c w t k
  elsewhere : ∀ u, u ≠ t → ∀ k ∈ c.constraintList u, ¬ AttachedTo c w t k
  id : ∀ schema u, c.tables.lookup t = some schema → c.tableIdMap.lookup schema.id = some u → u = t

end Ownership

/-- An id stands for a table that has it. -/
def NamesTables (c : Catalog) : Prop := ∀ id name, c.tableIdMap.lookup id = some name →
  ∃ schema, c.tables.lookup name = some schema ∧ schema.id = id

variable {c : Catalog} {w : Owners} {t : Text}

theorem NamesTables.congr {c' : Catalog} (h : NamesTables c) (hids : c'.tableIdMap = c.tableIdMap)
    (htables : ∀ name schema, c.tables.lookup name = some schema →
      ∃ schema', c'.tables.lookup name = some schema' ∧ schema'.id = schema.id) :
    NamesTables c' := by
  intro id name hname
  rw [hids] at hname
  obtain ⟨schema,hschema,rfl⟩ := h id name hname
  exact htables name schema hschema

theorem ne_of_id_ne {u : Text} {s s' : TableSchema} (hs : c.tables.lookup u = some s)
    (hs' : c.tables.lookup t = some s') (hid : s.id ≠ s'.id) : u ≠ t := by
  rintro rfl
  exact hid (congrArg TableSchema.id (Option.some.inj (hs.symm.trans hs')))

theorem NamesTables.withoutIndex (h : NamesTables c) (name : Text) (order : List Text) :
    NamesTables (c.dropIndex name order).2 := by
  rcases dropIndex_cases c name order with ⟨_,hsame⟩ | ⟨id,_,hdrop⟩
  · rwa [hsame]
  · rw [hdrop]
    refine h.congr rfl fun u schema hschema => ?_
    simp [Catalog.withoutIndex,hschema]

theorem NamesTables.exec {c' : Catalog} {op : CatalogOp} (h : NamesTables c)
    (hexec : c.exec op = some c') : NamesTables c' := by
  have hother : sparesTables op = true → NamesTables c' := by
    intro hop
    have hsame := exec_sparesTables hop hexec
    refine h.congr hsame.tableIdMap fun name schema hschema => ?_
    exact ⟨schema,by rw [hsame.tables,hschema],rfl⟩
  cases op with
  | createTable name schema =>
    obtain rfl := Option.some.inj hexec
    rcases createTable_cases c name schema with ⟨_,hsame,_⟩ | ⟨hname,next,hcreate⟩
    · rwa [hsame]
    · rw [hcreate]
      intro id u hu
      rcases lookup_insert_cases hu with ⟨rfl,rfl⟩ | hold
      · exact ⟨_,Finmap.lookup_insert _,rfl⟩
      · obtain ⟨s,hs,rfl⟩ := h id u hold
        have hne : u ≠ name := by
          rintro rfl
          exact hname (Finmap.mem_of_lookup_eq_some hs)
        exact ⟨s,(Finmap.lookup_insert_of_ne _ hne).trans hs,rfl⟩
  | dropTable name =>
    obtain rfl := Option.some.inj hexec
    rcases dropTable_cases c name with ⟨_,hsame⟩ | ⟨schema,hschema,_,hdrop⟩
    · rwa [hsame]
    · rw [hdrop]
      intro id u hu
      obtain ⟨hid,hold⟩ := lookup_erase_cases hu
      obtain ⟨s,hs,rfl⟩ := h id u hold
      exact ⟨s,(Finmap.lookup_erase_ne (ne_of_id_ne hs hschema hid)).trans hs,rfl⟩
  | renameTable oldName newName =>
    obtain rfl := Option.some.inj hexec
    rcases renameTable_cases c oldName newName with ⟨_,hsame,_⟩ | ⟨schema,hschema,hnew,hren⟩
    · rwa [hsame]
    · rw [hren]
      intro id u hu
      rw [Catalog.withRenamed,lookup_insert_eq] at hu
      split_ifs at hu with hid
      · obtain rfl := Option.some.inj hu
        exact ⟨_,Finmap.lookup_insert _,hid.symm⟩
      · obtain ⟨s,hs,rfl⟩ := h id u hu
        have hne : u ≠ newName := by
          rintro rfl
          exact hnew (Finmap.mem_of_lookup_eq_some hs)
        have hold : u ≠ oldName := ne_of_id_ne hs hschema hid
        refine ⟨s,?_,rfl⟩
        rw [Catalog.withRenamed,Finmap.lookup_insert_of_ne _ hne,Finmap.lookup_erase_ne hold,hs]
  | createIndex name table columns unique =>
    obtain rfl := Option.some.inj hexec
    rcases createIndex_cases c name table columns unique with
      ⟨_,hsame,_⟩ | ⟨schema,_,hschema,hcreate⟩
    · rwa [hsame]
    · rw [hcreate]
      refine h.congr rfl fun u s hs => ?_
      by_cases hu : u = table
      · subst hu
        obtain rfl := Option.some.inj (hs.symm.trans hschema)
        exact ⟨_,Finmap.lookup_insert _,rfl⟩
      · exact ⟨s,(Finmap.lookup_insert_of_ne _ hu).trans hs,rfl⟩
  | dropIndex name order =>
    simp only [Catalog.exec] at hexec
    split_ifs at hexec with horder
    obtain rfl := Option.some.inj hexec
    exact h.withoutIndex name order
  | dropIndexId id order =>
    simp only [Catalog.exec] at hexec
    split_ifs at hexec with horder
    obtain rfl := Option.some.inj hexec
    rcases dropIndexId_cases c id order with ⟨_,hsame⟩ | ⟨name,_,hdrop⟩
    · rwa [hsame]
    · rw [hdrop]
      exact h.withoutIndex name order
  | _ => exact hother rfl

theorem OwnerRun.namesTables (h : OwnerRun c w) : NamesTables c := by
  induction h with
  | new => exact fun id name hname => by simp [Catalog.new] at hname
  | step _ hexec ih => exact ih.exec hexec

theorem lookup_foldl_erase {β : Type} (names : List Text) (m : Finmap fun _ : Text => β) (k : Text) :
    (names.foldl (fun m k => m.erase k) m).lookup k = if k ∈ names then none else m.lookup k := by
  induction names generalizing m with
  | nil => rfl
  | cons a names ih =>
    rw [List.foldl_cons,ih,lookup_erase_eq]
    by_cases ha : k = a
    · simp [ha]
    · simp [ha]

/-- A drop goes through just when there are no dependencies. -/
theorem dropTable_eq {schema : TableSchema} (hschema : c.tables.lookup t = some schema) :
    (c.canDrop t = false → (c.dropTable t).1 ≠ .ok) ∧
    (c.canDrop t = true → c.dropTable t = (.ok,c.withoutTable t schema)) := by
  constructor
  · intro hdrop
    rw [dropTable,hschema]
    simp only [hdrop,Bool.not_false,if_true]
    exact nofun
  · intro hdrop
    have hempty := ((canDrop_eq_true t).mp hdrop).2.2
    rw [dropTable,hschema]
    simp only [hdrop,hempty,Bool.not_true,Bool.false_eq_true,if_false]
    rfl

/-- With no view in the way, the dependencies are the table's indexes and the constraints that name
it. -/
theorem canDrop_iff (h : Unreferenced c w t) : c.canDrop t = true ↔ c.indexList t = [] ∧
    ∀ k info, c.constraints.lookup k = some info → info.tableName ≠ t ∧ info.refTable ≠ t := by
  have hviews : ∀ v ∈ c.views.keys, (c.views.lookup v).any (viewDependsOn t) = false := by
    intro v hv
    obtain ⟨info,hinfo⟩ := lookup_isSome_iff.mp (Finmap.mem_keys.mp hv)
    simp [hinfo,viewDependsOn,h.views v info hinfo]
  rw [canDrop_eq_true]
  constructor
  · rintro ⟨_,hconstraints,hlist⟩
    refine ⟨hlist,fun k info hk => ?_⟩
    have hk' := hconstraints k (Finmap.mem_keys.mpr (Finmap.mem_of_lookup_eq_some hk))
    simpa [hk,constraintDependsOn] using hk'
  · rintro ⟨hlist,hconstraints⟩
    refine ⟨hviews,fun k hk => ?_,hlist⟩
    obtain ⟨info,hinfo⟩ := lookup_isSome_iff.mp (Finmap.mem_keys.mp hk)
    simpa [hinfo,constraintDependsOn] using hconstraints k info hinfo

theorem lookup_withoutTable_constraints (schema : TableSchema) (k : Text) :
    (c.withoutTable t schema).constraints.lookup k =
      if k ∈ c.constraintList t then none else c.constraints.lookup k := by
  rw [withoutTable,lookup_foldl_erase]

theorem constraintList_withoutTable (schema : TableSchema) {u : Text} (hu : u ≠ t) :
    (c.withoutTable t schema).constraintList u = c.constraintList u := by
  rw [constraintList,withoutTable,Finmap.lookup_erase_ne hu]
  rfl

/-- A bare table goes, and nothing else with it. -/
theorem Bare.cascades (h : Bare c w t) (hnames : NamesTables c) {schema : TableSchema}
    (hschema : c.tables.lookup t = some schema) : Cascades c w t (c.withoutTable t schema) := by
  refine ⟨fun u => ?_,fun id u => ?_,fun name id => ?_,fun id name => ?_,⟨?_,fun u hu => ?_⟩,
    fun k info => ?_,⟨?_,fun u hu => ?_⟩,⟨rfl,rfl,rfl,rfl⟩⟩
  · exact lookup_erase_eq ..
  · rw [withoutTable,lookup_erase_eq]
    split_ifs with hid
    · refine iff_of_false nofun ?_
      rintro ⟨hne,hold⟩
      exact hne (h.id schema u hschema (hid ▸ hold))
    · refine ⟨fun hold => ⟨?_,hold⟩,And.right⟩
      obtain ⟨s,hs,rfl⟩ := hnames id u hold
      exact ne_of_id_ne hs hschema hid
  · exact ⟨fun hold => ⟨h.created name,hold⟩,And.right⟩
  · exact ⟨fun hold => ⟨h.created name,hold⟩,And.right⟩
  · exact fun hin => (Finmap.mem_erase.mp hin).1 rfl
  · have hsame : (c.withoutTable t schema).indexList u = c.indexList u := by
      rw [indexList,withoutTable,Finmap.lookup_erase_ne hu]
      rfl
    rw [hsame,List.filter_eq_self.mpr]
    rintro id _
    simp only [OwnId,h.created,false_and,exists_false,not_false_eq_true,decide_true]
  · rw [lookup_withoutTable_constraints]
    split_ifs with hin
    · refine iff_of_false nofun ?_
      rintro ⟨hnot,hold⟩
      exact hnot ((h.attached k (Finmap.mem_of_lookup_eq_some hold)).mp hin)
    · refine ⟨fun hold => ⟨fun hattached => ?_,hold⟩,And.right⟩
      exact hin ((h.attached k hattached.1).mpr hattached)
  · exact fun hin => (Finmap.mem_erase.mp hin).1 rfl
  · rw [constraintList_withoutTable schema hu,List.filter_eq_self.mpr]
    intro k hk
    simpa only [decide_eq_true_eq] using h.elsewhere u hu k hk

/-- A drop that is as it should be is that of a bare table. -/
theorem Cascades.bare {schema : TableSchema} (hcascades : Cascades c w t (c.withoutTable t schema))
    (hschema : c.tables.lookup t = some schema) (hlist : c.indexList t = [])
    (hnamed : ∀ k info, c.constraints.lookup k = some info → info.tableName ≠ t ∧ info.refTable ≠ t) :
    Bare c w t := by
  refine ⟨hlist,fun name hcreated => ?_,hnamed,fun k hk => ?_,fun u hu k hk hattached => ?_,?_⟩
  · obtain ⟨id,hid⟩ := lookup_isSome_iff.mp hcreated.1
    exact ((hcascades.indexes name id).mp hid).1 hcreated
  · obtain ⟨info,hinfo⟩ := lookup_isSome_iff.mp hk
    have hiff := hcascades.constraints k info
    rw [lookup_withoutTable_constraints,hinfo] at hiff
    by_cases hin : k ∈ c.constraintList t
    · rw [if_pos hin] at hiff
      refine iff_of_true hin ?_
      by_contra hnot
      exact absurd (hiff.mpr ⟨hnot,rfl⟩) nofun
    · rw [if_neg hin] at hiff
      exact iff_of_false hin (hiff.mp rfl).1
  · have hsame := hcascades.tableConstraints.2 u hu
    rw [constraintList_withoutTable schema hu] at hsame
    rw [hsame] at hk
    have hfilter := (List.mem_filter.mp hk).2
    simp only [decide_eq_true_eq] at hfilter
    exact hfilter hattached
  · intro s u hs hu
    obtain rfl := Option.some.inj (hs.symm.trans hschema)
    by_contra hne
    have hkept := (hcascades.tableIdMap s.id u).mpr ⟨hne,hu⟩
    rw [withoutTable,Finmap.lookup_erase] at hkept
    cases hkept

/-- A table that nothing else refers to is dropped with all that it owns just when it owns nothing
that the test for dependencies or the lists would have to know of. -/
theorem dropTable_cascades_iff (h : OwnerRun c w) (htable : t ∈ c.tables)
    (hfree : Unreferenced c w t) :
    (c.dropTable t).1 = .ok ∧ Cascades c w t (c.dropTable t).2 ↔ Bare c w t := by
  obtain ⟨schema,hschema⟩ := lookup_isSome_iff.mp htable
  obtain ⟨hrefused,hdropped⟩ := dropTable_eq hschema
  constructor
  · rintro ⟨hok,hcascades⟩
    cases hdrop : c.canDrop t with
    | false => exact absurd hok (hrefused hdrop)
    | true =>
      obtain ⟨hlist,hnamed⟩ := (canDrop_iff hfree).mp hdrop
      rw [hdropped hdrop] at hcascades
      exact hcascades.bare hschema hlist hnamed
  · intro hbare
    rw [hdropped ((canDrop_iff hfree).mpr ⟨hbare.list,hbare.named⟩)]
    exact ⟨rfl,hbare.cascades h.namesTables hschema⟩

theorem oneTable_run : OwnerRun oneTable .new :=
  @OwnerRun.step Catalog.new oneTable .new (.createTable ['t'] TableSchema.new) .new rfl

/-- A constraint that names no table. -/
def nameless : ConstraintInfo := ⟨.CHECK,['k'],[],[],[],[],['x'],false,false⟩

/-- Two tables, the first with a constraint, the second with an index. -/
def ownedTables : Catalog :=
  let c := (oneTable.createTable ['u'] TableSchema.new).2
  let c := (c.createIndex ['i'] ['u'] [] false).2
  (c.addConstraint ['t'] nameless).2

def ownedOwners : Owners := ⟨(∅ : Finmap _).insert ['i'] ['u'],(∅ : Finmap _).insert ['k'] ['t']⟩

theorem ownedTables_run : OwnerRun ownedTables ownedOwners := by
  have htwo := @OwnerRun.step _ _ _ (.createTable ['u'] TableSchema.new) oneTable_run rfl
  have hindexed := @OwnerRun.step _ _ _ (.createIndex ['i'] ['u'] [] false) htwo rfl
  exact @OwnerRun.step _ _ _ (.addConstraint ['t'] nameless) hindexed rfl

theorem ownedTables_constraint {k : Text} (h : k ∈ ownedTables.constraints) : k = ['k'] := by
  have hkeys : ownedTables.constraints.keys = {['k']} := by decide
  rw [← Finmap.mem_keys,hkeys] at h
  exact Finset.mem_singleton.mp h

theorem ownedTables_constraints {k : Text} {info : ConstraintInfo}
    (h : ownedTables.constraints.lookup k = some info) : info = nameless := by
  obtain rfl := ownedTables_constraint (Finmap.mem_of_lookup_eq_some h)
  exact Option.some.inj (h.symm.trans (by decide))

/-- The first table goes, and its constraint with it. -/
theorem dropTable_cascades_iff_owned : ['k'] ∈ ownedTables.constraints ∧
    (ownedTables.dropTable ['t']).1 = .ok ∧
    Cascades ownedTables ownedOwners ['t'] (ownedTables.dropTable ['t']).2 := by
  have hfree : Unreferenced ownedTables ownedOwners ['t'] := by
    constructor
    · intro v info hv
      cases hv
    · intro k info t' hk _ href
      rw [ownedTables_constraints hk] at href
      cases href
  refine ⟨by decide,(dropTable_cascades_iff ownedTables_run (by decide) hfree).mpr ?_⟩
  refine ⟨by decide,?_,?_,?_,?_,?_⟩
  · rintro name ⟨hlive,hcreated⟩
    have hkeys : ownedTables.indexes.keys = {['i']} := by decide
    rw [← Finmap.mem_keys,hkeys,Finset.mem_singleton] at hlive
    subst hlive
    exact absurd hcreated (by decide)
  · intro k info hk
    rw [ownedTables_constraints hk]
    decide
  · intro k hk
    obtain rfl := ownedTables_constraint hk
    exact iff_of_true (by decide) ⟨hk,by decide⟩
  · rintro u hu k hk ⟨hlive,_⟩
    have hlists : ownedTables.tableConstraints.keys = {['t']} := by decide
    have hnone : ownedTables.tableConstraints.lookup u = none := by
      rw [Finmap.lookup_eq_none,← Finmap.mem_keys,hlists,Finset.mem_singleton]
      exact hu
    rw [constraintList,hnone] at hk
    cases hk
  · intro schema u hschema hu
    have hid : ownedTables.tables.lookup ['t'] = some { TableSchema.new with id := 1 } := by decide
    obtain rfl := Option.some.inj (hid.symm.trans hschema)
    have hname : ownedTables.tableIdMap.lookup 1 = some ['t'] := by decide
    exact (Option.some.inj (hname.symm.trans hu)).symm

theorem unreferenced_of_empty (hviews : c.views = ∅) (hconstraints : c.constraints = ∅) :
    Unreferenced c w t := by
  constructor
  · intro v info hv
    simp [hviews] at hv
  · intro k info t' hk
    simp [hconstraints] at hk

/-- The table with an index. -/
def indexedTable : Catalog := (oneTable.createIndex ['i'] ['t'] [] false).2

/-- A table with an index of its own is not dropped. -/
theorem indexed_not_dropped : ¬ ∀ c w t, OwnerRun c w → t ∈ c.tables → Unreferenced c w t →
    (c.dropTable t).1 = .ok ∧ Cascades c w t (c.dropTable t).2 := by
  intro h
  have hrun := @OwnerRun.step oneTable indexedTable .new (.createIndex ['i'] ['t'] [] false)
    oneTable_run rfl
  have hok := (h _ _ ['t'] hrun (by decide) (unreferenced_of_empty rfl rfl)).1
  exact absurd hok (by decide)

end Catalog
end OrangeSQL
