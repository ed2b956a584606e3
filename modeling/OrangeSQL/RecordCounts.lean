import OrangeSQL.CountedTables
import Mathlib.Data.Set.Card

/-! The count that a table keeps of its records against the records that can be read on its pages.
A recount counts slots, and the calls in between change the count without asking whether a record
came or went. -/
namespace OrangeSQL

open Page Store

namespace Table

variable {table : Table} {pid : PageId} {pages pages' : List (PageId × Page)}

theorem PageChain.unique (h : PageChain table pid pages) (h' : PageChain table pid pages') :
    pages = pages' := by
  induction h generalizing pages' with
  | last _ hfetch hnext =>
    cases h' with
    | last _ hfetch' _ => rw [Option.some.inj (hfetch.symm.trans hfetch')]
    | link _ hfetch' hrest =>
      obtain rfl := Option.some.inj (hfetch.symm.trans hfetch')
      obtain ⟨_,_,_,_,hne⟩ := hrest.head
      exact absurd hnext hne
  | link _ hfetch hrest ih =>
    cases h' with
    | last _ hfetch' hnext =>
      obtain rfl := Option.some.inj (hfetch.symm.trans hfetch')
      obtain ⟨_,_,_,_,hne⟩ := hrest.head
      exact absurd hnext hne
    | link _ hfetch' hrest' =>
      obtain rfl := Option.some.inj (hfetch.symm.trans hfetch')
      rw [ih hrest']

/-- The chain from a page that is met on the way is no longer. -/
theorem PageChain.of_mem (h : PageChain table pid pages) {e : PageId × Page} (he : e ∈ pages) :
    ∃ rest, PageChain table e.1 rest ∧ rest.length ≤ pages.length := by
  induction h with
  | last hid hfetch hnext =>
    rw [List.mem_singleton.mp he]
    exact ⟨_,.last hid hfetch hnext,le_rfl⟩
  | link hid hfetch hrest ih =>
    rcases List.mem_cons.mp he with rfl | he'
    · exact ⟨_,.link hid hfetch hrest,le_rfl⟩
    · obtain ⟨rest,hchain,hlen⟩ := ih he'
      exact ⟨rest,hchain,Nat.le_succ_of_le hlen⟩

/-- A chain that ends meets no page twice. -/
theorem PageChain.nodup (h : PageChain table pid pages) : (pages.map Prod.fst).Nodup := by
  induction h with
  | last => exact List.nodup_singleton _
  | @link pid p rest hid hfetch hrest ih =>
    refine List.nodup_cons.mpr ⟨fun hmem => ?_,ih⟩
    obtain ⟨e,he,rfl⟩ := List.mem_map.mp hmem
    obtain ⟨rest',hchain,hlen⟩ := hrest.of_mem he
    rw [hchain.unique (.link hid hfetch hrest),List.length_cons] at hlen
    exact absurd hlen (Nat.not_succ_le_self _)

/-- The places of the slots, each by its page and number. -/
def places (pages : List (PageId × Page)) : List (PageId × ℕ) :=
  (slots pages).map fun x => (x.1,x.2.2)

theorem mem_places {pages : List (PageId × Page)} {x : PageId × ℕ} :
    x ∈ places pages ↔ ∃ p, (x.1,p) ∈ pages ∧ x.2 < p.getRecordCount := by
  simp only [places,slots,List.mem_map,List.mem_flatMap,List.mem_range]
  constructor
  · rintro ⟨_,⟨e,he,i,hi,rfl⟩,rfl⟩
    exact ⟨e.2,he,hi⟩
  · rintro ⟨p,hp,hi⟩
    exact ⟨_,⟨_,hp,_,hi,rfl⟩,rfl⟩

theorem PageChain.nodup_places (h : PageChain table pid pages) : (places pages).Nodup := by
  have hnodup := h.nodup
  simp only [places,slots,List.map_flatMap,List.map_map]
  refine List.nodup_flatMap.mpr ⟨fun e _ => ?_,?_⟩
  · refine List.nodup_range.map fun i j hij => ?_
    exact (Prod.mk.inj hij).2
  · refine (List.pairwise_map.mp hnodup).imp fun hne x hx hx' => ?_
    simp only [List.mem_map,Function.comp_apply] at hx hx'
    obtain ⟨_,_,rfl⟩ := hx
    obtain ⟨_,_,heq⟩ := hx'
    exact hne (Prod.mk.inj heq).1.symm

end Table

namespace Store

variable {s : Store} {first : Page} {tableId : TableId} {start pid : PageId}

theorem Linked.ne_invalid (h : Linked s tableId start pid) (hstart : start ≠ invalidPageId) :
    pid ≠ invalidPageId := by
  cases h with
  | refl => exact hstart
  | next _ hne => exact hne

/-- The pages that are linked make up a chain, if they come to an end. -/
theorem Linked.pageChain {pages : List (PageId × Page)} (hlinked : Linked s tableId start pid)
    (hstart : start ≠ invalidPageId) (h : Table.PageChain ⟨first,s.pages tableId⟩ pid pages) :
    ∃ pages', Table.PageChain ⟨first,s.pages tableId⟩ start pages' ∧
      pages'.getLast? = pages.getLast? := by
  induction hlinked generalizing pages with
  | refl => exact ⟨pages,h,rfl⟩
  | @next pid hlinked hne ih =>
    have hpid := hlinked.ne_invalid hstart
    cases hp : s.pages tableId pid with
    | none => simp [nextOf,hp] at hne
    | some p =>
      rw [nextOf_of_pages hp] at h
      obtain ⟨pages',hchain,hlast⟩ := ih (.link hpid hp h)
      refine ⟨pages',hchain,hlast.trans (List.getLast?_cons_of_ne_nil ?_)⟩
      rintro rfl
      cases h

theorem mem_pageChain {pages : List (PageId × Page)}
    (h : Table.PageChain ⟨first,s.pages tableId⟩ start pages) (e : PageId × Page) :
    e ∈ pages ↔ Linked s tableId start e.1 ∧ s.pages tableId e.1 = some e.2 := by
  induction h with
  | @last start p _ hfetch hnext =>
    rw [List.mem_singleton]
    constructor
    · rintro rfl
      exact ⟨.refl,hfetch⟩
    · rintro ⟨hlinked,hpage⟩
      rcases hlinked.head with heq | ⟨hne,_⟩
      · rw [heq] at hpage
        exact Prod.ext heq (Option.some.inj (hpage.symm.trans hfetch))
      · exact absurd ((nextOf_of_pages hfetch).trans hnext) hne
  | @link start p rest _ hfetch hrest ih =>
    have hnext := nextOf_of_pages hfetch
    rw [List.mem_cons,ih]
    constructor
    · rintro (rfl | ⟨hlinked,hpage⟩)
      · exact ⟨.refl,hfetch⟩
      · obtain ⟨_,_,_,_,hne⟩ := hrest.head
        rw [← hnext] at hne hlinked
        exact ⟨Linked.trans (.next .refl hne) hlinked,hpage⟩
    · rintro ⟨hlinked,hpage⟩
      rcases hlinked.head with heq | ⟨_,hlinked'⟩
      · rw [heq] at hpage
        exact Or.inl (Prod.ext heq (Option.some.inj (hpage.symm.trans hfetch)))
      · rw [hnext] at hlinked'
        exact Or.inr ⟨hlinked',hpage⟩

theorem put_put (s : Store) (table : TableId) (pid : PageId) (p q : Page) :
    (s.put table pid p).put table pid q = s.put table pid q := by
  unfold put
  simp

end Store

namespace CountedTable

open TableIterator

/-- Every record that can be read counts, by its page and slot. -/
def records (t : CountedTable) (s : Store) : Set (PageId × ℕ) :=
  {x | Linked s t.tableId t.firstPage x.1 ∧ (s.rowAt t.tableId x.1 x.2).isSome}

/-- The slots on the pages of the table, whether or not there is a record to be read. -/
def slotSet (t : CountedTable) (s : Store) : Set (PageId × ℕ) :=
  {x | Linked s t.tableId t.firstPage x.1 ∧ x.2 < s.countOf t.tableId x.1}

noncomputable def recordCount (t : CountedTable) (s : Store) : ℕ := (t.records s).ncard

/-- The last page ends the chain that starts with the first one. -/
structure Chained (t : CountedTable) (s : Store) : Prop where
  wellFormed : s.WellFormed
  hasLast : HasLast t.toOpenTable s
  firstPage : t.firstPage ≠ invalidPageId
  linked : Linked s t.tableId t.firstPage t.lastPage

section Sets

variable {s : Store} {t : CountedTable}

theorem records_subset (t : CountedTable) (s : Store) : t.records s ⊆ t.slotSet s := by
  rintro x ⟨hlinked,hrow⟩
  obtain ⟨row,hrow⟩ := Option.isSome_iff_exists.mp hrow
  exact ⟨hlinked,lt_countOf_of_rowAt hrow⟩

/-- Page numbers and slots of records fit into their ids. -/
theorem slotSet_subset (hs : s.WellFormed) : t.slotSet s ⊆ Set.Iio (2^32-1) ×ˢ Set.Iio (2^16) := by
  rintro x ⟨_,hslot⟩
  exact ⟨hs.lt_of_lt_countOf hslot,Nat.lt_trans hslot (s.countOf_lt _ _)⟩

theorem slotSet_finite (hs : s.WellFormed) : (t.slotSet s).Finite :=
  ((Set.finite_Iio _).prod (Set.finite_Iio _)).subset (slotSet_subset hs)

theorem records_finite (hs : s.WellFormed) : (t.records s).Finite :=
  (slotSet_finite hs).subset (records_subset t s)

/-- No count comes near the size of the counter. -/
theorem slotSet_ncard_lt (hs : s.WellFormed) : (t.slotSet s).ncard < 2^48 := by
  have hle := Set.ncard_le_ncard (slotSet_subset (t := t) hs)
    ((Set.finite_Iio (2^32-1)).prod (Set.finite_Iio (2^16)))
  have hIio : ∀ n : ℕ, (Set.Iio n).ncard = n := fun n => by
    rw [← Finset.coe_range,Set.ncard_coe_finset,Finset.card_range]
  rw [Set.ncard_prod,hIio,hIio] at hle
  exact Nat.lt_of_le_of_lt hle (by decide)

theorem recordCount_lt (hs : s.WellFormed) : t.recordCount s < 2^48 :=
  Nat.lt_of_le_of_lt (Set.ncard_le_ncard (records_subset t s) (slotSet_finite hs)) (slotSet_ncard_lt hs)

end Sets

section Recount

variable {s : Store} {t : CountedTable} {fuel : ℕ}

theorem countFrom_eq (table : Table) (fuel : ℕ) (it : TableIterator) (n : UInt64) :
    countFrom table fuel it n =
      (table.scanFrom fuel it).map fun out => n+UInt64.ofNat out.length := by
  induction fuel generalizing it n with
  | zero => rfl
  | succ fuel ih =>
    simp only [countFrom,Table.scanFrom]
    split_ifs
    · simp
    cases it.increment table fuel with
    | none => rfl
    | some next =>
      simp only [Option.bind_eq_bind,Option.bind_some,ih]
      cases table.scanFrom fuel next with
      | none => rfl
      | some rest =>
        have hcons : n+1+UInt64.ofNat rest.length = n+UInt64.ofNat (rest.length+1) := by
          rw [UInt64.ofNat_add,UInt64.add_assoc,UInt64.add_comm 1]
          rfl
        exact congrArg some hcons

/-- A recount is the length of a scan. -/
theorem getRecordCount_expired {p : Page} (hp : s.pages t.tableId t.firstPage = some p) :
    t.getRecordCount fuel s true = ((⟨p,s.pages t.tableId⟩ : Table).scan fuel).map fun out =>
      (UInt64.ofNat out.length,{ t with cachedRecordCount := UInt64.ofNat out.length }) := by
  simp only [getRecordCount,if_true,view,hp,Option.map_some,Option.bind_eq_bind,Option.bind_some,
    Table.scan,countFrom_eq,UInt64.zero_add]
  cases (⟨p,s.pages t.tableId⟩ : Table).begin fuel with
  | none => rfl
  | some it =>
    dsimp only [Option.bind_some]
    cases (⟨p,s.pages t.tableId⟩ : Table).scanFrom fuel it with
    | none => rfl
    | some out => rfl

theorem Chained.first (h : t.Chained s) : ∃ p, s.pages t.tableId t.firstPage = some p := by
  obtain ⟨last,hlast,_⟩ := h.hasLast
  rcases h.linked.head with heq | ⟨hne,_⟩
  · exact ⟨last,heq ▸ hlast⟩
  · cases hp : s.pages t.tableId t.firstPage with
    | none => simp [nextOf,hp] at hne
    | some p => exact ⟨p,rfl⟩

theorem Chained.lastPage (h : t.Chained s) : t.lastPage ≠ invalidPageId :=
  h.linked.ne_invalid h.firstPage

/-- The scan of a chained table is over all its slots, and it ends when there is none on the last
page. -/
theorem Chained.scan (h : t.Chained s) {p : Page} (hp : s.pages t.tableId t.firstPage = some p) :
    ((∃ fuel out, (⟨p,s.pages t.tableId⟩ : Table).scan fuel = some out) ↔
      s.countOf t.tableId t.lastPage = 0) ∧
    ∀ fuel out, (⟨p,s.pages t.tableId⟩ : Table).scan fuel = some out →
      out.length = (t.slotSet s).ncard := by
  obtain ⟨last,hlast,hend⟩ := h.hasLast
  have hone : Table.PageChain ⟨p,s.pages t.tableId⟩ t.lastPage [(t.lastPage,last)] :=
    .last h.lastPage hlast hend
  obtain ⟨pages,hchain,hlast'⟩ := h.linked.pageChain h.firstPage hone
  have hself : p.getPageId = t.firstPage := (h.wellFormed.placed _ _ p hp).pageId
  have hcount := countOf_of_pages hlast
  have hstart : Table.PageChain ⟨p,s.pages t.tableId⟩
      (⟨p,s.pages t.tableId⟩ : Table).firstPage.getPageId pages := by
    rw [show (⟨p,s.pages t.tableId⟩ : Table).firstPage.getPageId = t.firstPage from hself]
    exact hchain
  have hempty : s.countOf t.tableId t.lastPage = 0 → ∃ fuel,
      (⟨p,s.pages t.tableId⟩ : Table).scan fuel = some ((Table.slots pages).map Table.yieldSlot) := by
    intro hzero
    refine Table.scan_chain _ hstart fun e he => ?_
    obtain rfl := List.mem_singleton.mp (List.mem_of_getLast? (hlast'.symm.trans he))
    exact hcount.symm.trans hzero
  have honly : ∀ fuel out, (⟨p,s.pages t.tableId⟩ : Table).scan fuel = some out →
      s.countOf t.tableId t.lastPage = 0 := by
    intro fuel out hscan
    by_contra hne
    rw [hcount] at hne
    rw [Table.scan_stray _ hstart (e := (t.lastPage,last)) hlast' hne fuel] at hscan
    cases hscan
  refine ⟨⟨fun ⟨fuel,out,hscan⟩ => honly fuel out hscan,fun hzero => ?_⟩,?_⟩
  · obtain ⟨fuel,hscan⟩ := hempty hzero
    exact ⟨fuel,_,hscan⟩
  · intro fuel out hscan
    obtain ⟨fuel',hall⟩ := hempty (honly fuel out hscan)
    have hset : t.slotSet s = ↑(Table.places pages).toFinset := by
      ext x
      rw [Finset.mem_coe,List.mem_toFinset,Table.mem_places]
      constructor
      · rintro ⟨hlinked,hslot⟩
        obtain ⟨q,hq,hslot⟩ := exists_page_of_lt_countOf hslot
        exact ⟨q,(mem_pageChain hchain _).mpr ⟨hlinked,hq⟩,hslot⟩
      · rintro ⟨q,hq,hslot⟩
        obtain ⟨hlinked,hq⟩ := (mem_pageChain hchain _).mp hq
        exact ⟨hlinked,by rwa [countOf_of_pages hq]⟩
    rw [Table.scan_unique _ hscan hall,List.length_map,hset,Set.ncard_coe_finset,
      List.toFinset_card_of_nodup hchain.nodup_places,Table.places,List.length_map]

/-- All slots can be read, and there is none on the last page. -/
def Clean (t : CountedTable) (s : Store) : Prop :=
  s.countOf t.tableId t.lastPage = 0 ∧ ∀ x ∈ t.slotSet s, (s.rowAt t.tableId x.1 x.2).isSome

/-- A recount ends with the number of records just when there is nothing but records. -/
theorem Chained.recount_iff (h : t.Chained s) :
    (∃ fuel n t', t.getRecordCount fuel s true = some (n,t') ∧ n.toNat = t.recordCount s) ↔
      t.Clean s := by
  obtain ⟨p,hp⟩ := h.first
  obtain ⟨hends,hlength⟩ := h.scan hp
  have hlt := slotSet_ncard_lt (t := t) h.wellFormed
  have hnat : (UInt64.ofNat (t.slotSet s).ncard).toNat = (t.slotSet s).ncard :=
    UInt64.toNat_ofNat_of_lt' (Nat.lt_trans hlt (by decide))
  have hclean : (t.slotSet s).ncard = t.recordCount s ↔
      ∀ x ∈ t.slotSet s, (s.rowAt t.tableId x.1 x.2).isSome := by
    constructor
    · intro heq x hx
      have hall := Set.eq_of_subset_of_ncard_le (records_subset t s) heq.le (slotSet_finite h.wellFormed)
      rw [← hall] at hx
      exact hx.2
    · intro hall
      have hsame : t.slotSet s = t.records s :=
        Set.Subset.antisymm (fun x hx => ⟨hx.1,hall x hx⟩) (records_subset t s)
      rw [hsame,recordCount]
  rw [Clean,← hends,← hclean]
  simp only [getRecordCount_expired hp]
  constructor
  · rintro ⟨fuel,n,t',hcount,hn⟩
    obtain ⟨out,hscan,heq⟩ := Option.map_eq_some_iff.mp hcount
    obtain ⟨rfl,_⟩ := Prod.mk.inj heq
    rw [hlength fuel out hscan,hnat] at hn
    exact ⟨⟨fuel,out,hscan⟩,hn⟩
  · rintro ⟨⟨fuel,out,hscan⟩,hn⟩
    refine ⟨fuel,_,_,by rw [hscan]; rfl,?_⟩
    rw [hlength fuel out hscan,hnat,hn]

end Recount

section Effects

variable {s s' : Store} {t t' : CountedTable} {pid : PageId} {p q : Page} {values : List Value} {i : ℕ}

/-- The count is that of the records. -/
def InStep (t : CountedTable) (s : Store) : Prop :=
  t.cachedRecordCount = UInt64.ofNat (t.recordCount s)

theorem records_deleted (hs : s.WellFormed) (hp : s.pages t.tableId pid = some p)
    (hi : i < p.getRecordCount) :
    t.records (s.put t.tableId pid (p.withDeleted i)) = t.records s \ {(pid,i)} := by
  ext ⟨pid',j⟩
  have hlinked := linked_congr (nextOf_put_withDeleted hp i t.tableId) t.firstPage pid'
  simp only [records,Set.mem_ofPred_eq,Set.mem_sdiff,Set.mem_singleton_iff,Prod.mk.injEq,hlinked,
    rowAt_put_withDeleted hs hp hi,true_and]
  by_cases hsame : pid' = pid ∧ j = i
  · simp [hsame]
  · simp [hsame]

/-- There is no record yet in the slot that the next one takes. -/
theorem notMem_records (hp : s.pages t.tableId pid = some p) :
    (pid,p.getRecordCount) ∉ t.records s := by
  rintro ⟨_,hrow⟩
  obtain ⟨row,hrow⟩ := Option.isSome_iff_exists.mp hrow
  have hlt := lt_countOf_of_rowAt hrow
  rw [countOf_of_pages hp] at hlt
  exact absurd hlt (lt_irrefl _)

theorem mem_records_inserted (hs : s.WellFormed) (hp : s.pages t.tableId pid = some p)
    (hins : Inserted p values q) (x : PageId × ℕ) :
    x ∈ t.records (s.put t.tableId pid q) ↔ x ∈ t.records s ∨
      values ≠ [] ∧ Linked s t.tableId t.firstPage pid ∧ x = (pid,p.getRecordCount) := by
  obtain ⟨pid',j⟩ := x
  have hwf := (hs.placed _ _ p hp).wellFormed
  have hlinked := linked_congr (nextOf_put hp hins.nextPage t.tableId) t.firstPage pid'
  simp only [records,Set.mem_ofPred_eq,hlinked,rowAt_put,true_and,Prod.mk.injEq]
  by_cases hpid : pid' = pid
  · subst hpid
    rw [if_pos rfl,rowAt_of_pages hp]
    by_cases hj : j = p.getRecordCount
    · rw [hj,rowAt_of_le le_rfl]
      by_cases hvalues : values = []
      · subst hvalues
        rw [hins.rowAt_new_nil]
        simp
      · rw [hins.rowAt_new_eq hwf hvalues]
        simp [hvalues]
    · rw [hins.rowAt_of_ne hwf hj]
      tauto
  · rw [if_neg hpid]
    tauto

/-- A record with values on a page of the table is one more. -/
theorem records_inserted (hs : s.WellFormed) (hp : s.pages t.tableId pid = some p)
    (hins : Inserted p values q) (hne : values ≠ []) (hlinked : Linked s t.tableId t.firstPage pid) :
    t.records (s.put t.tableId pid q) = insert (pid,p.getRecordCount) (t.records s) := by
  ext x
  rw [mem_records_inserted hs hp hins,Set.mem_insert_iff]
  tauto

/-- One without values cannot be read, and other pages do not count. -/
theorem records_inserted_of_not (hs : s.WellFormed) (hp : s.pages t.tableId pid = some p)
    (hins : Inserted p values q) (h : ¬ (values ≠ [] ∧ Linked s t.tableId t.firstPage pid)) :
    t.records (s.put t.tableId pid q) = t.records s := by
  ext x
  rw [mem_records_inserted hs hp hins]
  tauto

theorem records_appended (hs : s.WellFormed) (hp : s.pages t.tableId t.lastPage = some p)
    (hend : p.getNextPage = invalidPageId) :
    ({ t with toOpenTable := (t.toOpenTable.appendNewPage s p).1 } : CountedTable).records
      (t.toOpenTable.appendNewPage s p).2 = t.records s := by
  have hnext := nextOf_appendNewPage hs hp
  have hrow := rowAt_appendNewPage hs hp t.tableId
  have hother : ∀ pid ≠ t.lastPage, (t.toOpenTable.appendNewPage s p).2.nextOf t.tableId pid =
      s.nextOf t.tableId pid := fun pid hne => by
    rw [hnext,if_neg fun hboth => hne hboth.2]
  have hlink : (t.toOpenTable.appendNewPage s p).2.nextOf t.tableId t.lastPage = s.nextPageId := by
    rw [hnext,if_pos ⟨rfl,rfl⟩]
  have habsent : s.pages t.tableId s.nextPageId = none := hs.fresh _ _ le_rfl
  have hnew : (t.toOpenTable.appendNewPage s p).2.nextOf t.tableId s.nextPageId = invalidPageId := by
    rw [hother _ (lastPage_ne hs hp).symm,nextOf,habsent]
    rfl
  ext ⟨pid,i⟩
  change Linked _ t.tableId t.firstPage pid ∧
    ((t.toOpenTable.appendNewPage s p).2.rowAt t.tableId pid i).isSome = true ↔ _
  rw [hrow]
  constructor
  · rintro ⟨hlinked,hlive⟩
    rcases hlinked.of_append hother hlink hnew with hold | rfl
    · exact ⟨hold,hlive⟩
    · rw [Store.rowAt,habsent] at hlive
      cases hlive
  · rintro ⟨hlinked,hlive⟩
    exact ⟨hlinked.append hother ((nextOf_of_pages hp).trans hend),hlive⟩

end Effects

section Steps

variable {s s' : Store} {t t' : CountedTable} {fuel : ℕ} {call : TableCall}

/-- The slot that a record id names, as a place on a page. -/
def place (rid : RecordId) : PageId × ℕ := (pageOf rid,slotOf rid)

/-- The calls that keep the count: no record without values is stored, an update puts a new record in
the place of the old one, and what is deleted is a record of the table. -/
def Keeps (t : CountedTable) (s : Store) : TableCall → Prop
  | .insertRecord values _ => t.Stores s values → values ≠ []
  | .updateRecord rid values => t.validateRecord values = true → place rid ∈ t.records s →
      values ≠ [] ∧ ∀ p, s.pages t.tableId (pageOf rid) = some p →
        p.hasSpaceFor (recordSize values) = true
  | .deleteRecord rid => slotOf rid < s.countOf t.tableId (pageOf rid) → place rid ∈ t.records s
  | .getRecordCount _ => True

theorem inStep_with (t : CountedTable) (c : UInt64) (s : Store) :
    ({ t with cachedRecordCount := c } : CountedTable).InStep s ↔
      c = UInt64.ofNat (t.records s).ncard := Iff.rfl

theorem ofNat_succ (n : ℕ) : UInt64.ofNat (n+1) = UInt64.ofNat n+1 := by
  rw [UInt64.ofNat_add]
  rfl

theorem ofNat_ne_succ (n : ℕ) : UInt64.ofNat n ≠ UInt64.ofNat (n+1) := by
  rw [ofNat_succ]
  simp

theorem ncard_erase (hs : s.WellFormed) {x : PageId × ℕ} (hx : x ∈ t.records s) :
    (t.records s \ {x}).ncard+1 = (t.records s).ncard :=
  Set.ncard_sdiff_singleton_add_one hx (records_finite hs)

theorem exec_insertRecord_inStep (h : t.Chained s) (hin : t.InStep s) {values : List Value}
    {created : Bool} (hexec : t.exec fuel s (.insertRecord values created) = some (t',s')) :
    t'.InStep s' ↔ t.Keeps s (.insertRecord values created) := by
  have hs := h.wellFormed
  have hcached : t.cachedRecordCount = UInt64.ofNat (t.records s).ncard := hin
  rcases insertRecord_cases hs h.hasLast values created with ⟨r,s₁,hstores,hstored,hins⟩ |
    ⟨hnot,_,hins⟩ | ⟨p,happends,hp,hins⟩
  · rw [exec,hins] at hexec
    obtain ⟨rfl,rfl⟩ := Prod.mk.inj (Option.some.inj hexec)
    obtain ⟨p,q,hp,hinserted,rfl⟩ := hstored
    rw [inStep_with,hcached,← ofNat_succ]
    by_cases hvalues : values = []
    · rw [records_inserted_of_not hs hp hinserted fun hboth => hboth.1 hvalues]
      exact iff_of_false (ofNat_ne_succ _).symm fun hkeeps => hkeeps hstores hvalues
    · rw [records_inserted hs hp hinserted hvalues h.linked,
        Set.ncard_insert_of_notMem (notMem_records hp) (records_finite hs)]
      exact iff_of_true rfl fun _ => hvalues
  · rw [exec,hins] at hexec
    obtain ⟨rfl,rfl⟩ := Prod.mk.inj (Option.some.inj hexec)
    exact iff_of_true hin fun hstores => absurd hstores hnot
  · rw [exec,hins] at hexec
    obtain ⟨rfl,rfl⟩ := Prod.mk.inj (Option.some.inj hexec)
    obtain ⟨p',hp',hend⟩ := h.hasLast
    obtain rfl := Option.some.inj (hp'.symm.trans hp)
    refine iff_of_true ?_ fun hstores => ?_
    · rw [InStep,recordCount,records_appended hs hp hend]
      exact hin
    · exact absurd (hstores.2.symm.trans happends.2.2) (by decide)

theorem exec_deleteRecord_inStep (h : t.Chained s) (hin : t.InStep s) {rid : RecordId}
    (hexec : t.exec fuel s (.deleteRecord rid) = some (t',s')) :
    t'.InStep s' ↔ t.Keeps s (.deleteRecord rid) := by
  have hs := h.wellFormed
  have hcached : t.cachedRecordCount = UInt64.ofNat (t.records s).ncard := hin
  rcases deleteRecord_cases t s rid with ⟨hslot,hdel⟩ | ⟨p,hp,hslot,hdel⟩
  · rw [exec,hdel] at hexec
    obtain ⟨rfl,rfl⟩ := Prod.mk.inj (Option.some.inj hexec)
    exact iff_of_true hin fun hlt => absurd hlt (Nat.not_lt.mpr hslot)
  · rw [exec,hdel] at hexec
    obtain ⟨rfl,rfl⟩ := Prod.mk.inj (Option.some.inj hexec)
    have hlt : slotOf rid < s.countOf t.tableId (pageOf rid) := by rwa [countOf_of_pages hp]
    have hplace : (pageOf rid,slotOf rid) = place rid := rfl
    rw [inStep_with,UInt64.sub_eq_iff_eq_add,← ofNat_succ,hcached,records_deleted hs hp hslot,hplace]
    by_cases hmem : place rid ∈ t.records s
    · rw [ncard_erase hs hmem]
      exact iff_of_true rfl fun _ => hmem
    · rw [Set.sdiff_singleton_eq_self hmem]
      exact iff_of_false (ofNat_ne_succ _) fun hkeeps => hmem (hkeeps hlt)

/-- An update takes the old record away, and the new one is there if it has values. -/
theorem records_rewritten (hs : s.WellFormed) {rid : RecordId} {values : List Value}
    (h : Rewritten t.toOpenTable (slotAt rid) values s s') :
    (values ≠ [] ∧ Linked s t.tableId t.firstPage (pageOf rid) →
      (t.records s').ncard = (t.records s \ {place rid}).ncard+1) ∧
    (¬ (values ≠ [] ∧ Linked s t.tableId t.firstPage (pageOf rid)) →
      t.records s' = t.records s \ {place rid}) := by
  obtain ⟨p,q,hp,hslot,hins,rfl⟩ := h
  dsimp only [slotAt] at hp hslot hins ⊢
  have hs₁ := hs.put hp ((hs.placed _ _ p hp).withDeleted (slotOf rid))
  have hp₁ := put_pages_self s t.tableId (pageOf rid) (p.withDeleted (slotOf rid))
  have hlinked := linked_congr (nextOf_put_withDeleted hp (slotOf rid) t.tableId) t.firstPage
    (pageOf rid)
  have hgone := records_deleted hs hp hslot
  have hplace : (pageOf rid,slotOf rid) = place rid := rfl
  have hput := put_put s t.tableId (pageOf rid) (p.withDeleted (slotOf rid)) q
  rw [← hput,← hplace,← hgone,← hlinked]
  constructor
  · rintro ⟨hne,hlinked'⟩
    rw [records_inserted hs₁ hp₁ hins hne hlinked',
      Set.ncard_insert_of_notMem (notMem_records hp₁) (records_finite hs₁)]
  · exact records_inserted_of_not hs₁ hp₁ hins

theorem exec_updateRecord_inStep (h : t.Chained s) (hin : t.InStep s) {rid : RecordId}
    {values : List Value} (hexec : t.exec fuel s (.updateRecord rid values) = some (t',s')) :
    t'.InStep s' ↔ t.Keeps s (.updateRecord rid values) := by
  have hs := h.wellFormed
  have hcached : t.cachedRecordCount = UInt64.ofNat (t.records s).ncard := hin
  obtain ⟨rfl,rfl⟩ := Prod.mk.inj (Option.some.inj hexec)
  rcases updateRecord_cases hs t.toOpenTable rid values with ⟨hnone,hsame⟩ |
    ⟨p,hvalid,hp,hrow,hcases⟩
  · rw [hsame]
    refine iff_of_true hin fun hvalid hmem => ?_
    have hlive := hmem.2
    rw [show s.rowAt t.tableId (place rid).1 (place rid).2 = none from hnone hvalid] at hlive
    cases hlive
  have hslot : slotOf rid < p.getRecordCount := by
    obtain ⟨row,hrow⟩ := Option.isSome_iff_exists.mp hrow
    exact (rowAt_eq_some_iff.mp hrow).1
  have hmem : place rid ∈ t.records s ↔ Linked s t.tableId t.firstPage (pageOf rid) := by
    refine ⟨fun h => h.1,fun h => ⟨h,?_⟩⟩
    rw [place,rowAt_of_pages hp]
    exact hrow
  have hlostRecords : (t.toOpenTable.updateRecord s rid values).2 =
        s.put t.tableId (pageOf rid) (p.withDeleted (slotOf rid)) →
      t.records (t.toOpenTable.updateRecord s rid values).2 = t.records s \ {place rid} := by
    intro hlost
    rw [hlost]
    exact records_deleted hs hp hslot
  rw [InStep,hcached,recordCount]
  by_cases hlinked : Linked s t.tableId t.firstPage (pageOf rid)
  · have herase := ncard_erase hs (hmem.mpr hlinked)
    rcases hcases with ⟨hfull,hlost⟩ | ⟨hroom,hre⟩
    · rw [hlostRecords hlost,← herase]
      refine iff_of_false (ofNat_ne_succ _).symm fun hkeeps => ?_
      rw [(hkeeps hvalid (hmem.mpr hlinked)).2 p hp] at hfull
      cases hfull
    · obtain ⟨hnew,hgone⟩ := records_rewritten hs hre
      by_cases hvalues : values = []
      · rw [hgone fun hboth => hboth.1 hvalues,← herase]
        refine iff_of_false (ofNat_ne_succ _).symm fun hkeeps => ?_
        exact (hkeeps hvalid (hmem.mpr hlinked)).1 hvalues
      · rw [hnew ⟨hvalues,hlinked⟩,herase]
        refine iff_of_true rfl fun _ _ => ⟨hvalues,fun p' hp' => ?_⟩
        obtain rfl := Option.some.inj (hp.symm.trans hp')
        exact hroom
  · -- a page that is not linked has no record of the table
    have hnot : place rid ∉ t.records s := fun h => hlinked (hmem.mp h)
    have hgone : t.records (t.toOpenTable.updateRecord s rid values).2 =
        t.records s \ {place rid} := by
      rcases hcases with ⟨_,hlost⟩ | ⟨_,hre⟩
      · exact hlostRecords hlost
      · exact (records_rewritten hs hre).2 fun hboth => hlinked hboth.2
    rw [hgone,Set.sdiff_singleton_eq_self hnot]
    exact iff_of_true rfl fun _ hmem' => absurd hmem' hnot

/-- A count that is right stays so under the calls that keep it, and under no others. -/
theorem exec_inStep_iff (h : t.Chained s) (hin : t.InStep s) (hcall : call ≠ .getRecordCount true)
    (hexec : t.exec fuel s call = some (t',s')) : t'.InStep s' ↔ t.Keeps s call := by
  cases call with
  | insertRecord values created => exact exec_insertRecord_inStep h hin hexec
  | updateRecord rid values => exact exec_updateRecord_inStep h hin hexec
  | deleteRecord rid => exact exec_deleteRecord_inStep h hin hexec
  | getRecordCount expired =>
    cases expired with
    | false =>
      obtain ⟨rfl,rfl⟩ := Prod.mk.inj (Option.some.inj hexec)
      exact iff_of_true hin trivial
    | true => exact absurd rfl hcall

end Steps

section Runs

variable {s s₀ s' : Store} {t t' : CountedTable} {fuel : ℕ} {schema : TableSchema} {call : TableCall}
  {calls : List TableCall}

theorem chained_of_make (hs : s₀.WellFormed) (hmake : make fuel s₀ schema = some (t,s))
    (hfirst : t.firstPage ≠ invalidPageId) : t.Chained s ∧ t.cachedRecordCount = 0 := by
  obtain ⟨⟨o,s₁⟩,hopen,heq⟩ := Option.map_eq_some_iff.mp hmake
  obtain ⟨rfl,rfl⟩ := Prod.mk.inj heq
  have hopened := OpenTable.make_opened hopen
  exact ⟨⟨hopened.wellFormed hs,hopened.last,hfirst,hopened.linked⟩,rfl⟩

/-- A page that is put behind the last one has a number other than the one that stands for no page. -/
def Numbered (t : CountedTable) (s : Store) : TableCall → Prop
  | .insertRecord values created => t.Appends s values created → s.nextPageId ≠ invalidPageId
  | _ => True

/-- The chain stays one under every call. -/
theorem exec_chained (h : t.Chained s) (hnumbered : t.Numbered s call)
    (hexec : t.exec fuel s call = some (t',s')) : t'.Chained s' := by
  obtain ⟨hs',hlast'⟩ := exec_kept h.wellFormed h.hasLast hexec
  rcases exec_cases h.wellFormed h.hasLast hexec with ⟨htable,hkept⟩ |
    ⟨values,created,p,rfl,happends,hp,htable,rfl⟩
  · obtain ⟨o,n⟩ := t'
    obtain rfl : o = t.toOpenTable := htable
    exact ⟨hs',hlast',h.firstPage,h.linked.congr hkept.nextOf⟩
  · obtain ⟨o,n⟩ := t'
    obtain rfl : o = (t.toOpenTable.appendNewPage s p).1 := htable
    refine ⟨hs',hlast',h.firstPage,?_⟩
    obtain ⟨p',hp',hend⟩ := h.hasLast
    obtain rfl := Option.some.inj (hp'.symm.trans hp)
    have hnext : (t.toOpenTable.appendNewPage s p').2.nextOf t.tableId t.lastPage =
        s.nextPageId := by
      rw [nextOf_appendNewPage h.wellFormed hp,if_pos ⟨rfl,rfl⟩]
    have hne := hnumbered happends
    rw [← hnext] at hne
    have hlink := Linked.next ((extended_appendNewPage h.wellFormed hp hend).linked h.linked) hne
    rw [hnext] at hlink
    exact hlink

/-- What `getRecordCount` is to return. -/
def CountRight (t : CountedTable) (s : Store) (expired : Bool) : Prop :=
  ∃ fuel n t', t.getRecordCount fuel s expired = some (n,t') ∧ n.toNat = t.recordCount s

/-- Every call of `getRecordCount` in a run returns the number of records. -/
def CountsRight (t : CountedTable) (s : Store) : List TableCall → Prop
  | [] => True
  | call::calls => (∀ expired, call = .getRecordCount expired → t.CountRight s expired) ∧
      ∀ fuel t' s', t.exec fuel s call = some (t',s') → CountsRight t' s' calls

/-- Whether the count is followed after a call: a recount begins it and other calls must keep it. -/
def Followed (followed : Prop) (t : CountedTable) (s : Store) : TableCall → Prop
  | .getRecordCount true => True
  | call => followed ∧ t.Keeps s call

theorem followed_iff {followed : Prop} (hcall : call ≠ .getRecordCount true) :
    Followed followed t s call ↔ followed ∧ t.Keeps s call := by
  cases call with
  | getRecordCount expired =>
    cases expired with
    | false => exact Iff.rfl
    | true => exact absurd rfl hcall
  | _ => exact Iff.rfl

/-- Where the cache has expired the pages hold nothing but records, and otherwise the count has been
followed since it was right. -/
def CountsSound (followed : Prop) (t : CountedTable) (s : Store) : List TableCall → Prop
  | [] => True
  | call::calls =>
    (∀ expired, call = .getRecordCount expired → if expired then t.Clean s else followed) ∧
      t.Numbered s call ∧
      ∀ fuel t' s', t.exec fuel s call = some (t',s') →
        CountsSound (Followed followed t s call) t' s' calls

/-- The counter holds any number of records. -/
theorem InStep.toNat (hin : t.InStep s) (hs : s.WellFormed) :
    t.cachedRecordCount.toNat = t.recordCount s := by
  rw [hin]
  exact UInt64.toNat_ofNat_of_lt' (Nat.lt_trans (recordCount_lt hs) (by decide))

theorem Chained.countRight (h : t.Chained s) (hin : t.InStep s) : t.CountRight s false :=
  ⟨0,_,_,rfl,hin.toNat h.wellFormed⟩

/-- After a recount of nothing but records the count is right. -/
theorem Chained.inStep_recount (h : t.Chained s) (hclean : t.Clean s)
    (hexec : t.exec fuel s (.getRecordCount true) = some (t',s')) : t'.InStep s' := by
  obtain ⟨⟨n,t₁⟩,hcount,heq⟩ := Option.map_eq_some_iff.mp hexec
  obtain ⟨rfl,rfl⟩ := Prod.mk.inj heq
  obtain rfl := getRecordCount_eq hcount
  obtain ⟨p,hp⟩ := h.first
  rw [getRecordCount_expired hp] at hcount
  obtain ⟨out,hscan,heq⟩ := Option.map_eq_some_iff.mp hcount
  obtain ⟨rfl,_⟩ := Prod.mk.inj heq
  have hsame : t.slotSet s = t.records s :=
    Set.Subset.antisymm (fun x hx => ⟨hx.1,hclean.2 x hx⟩) (records_subset t s)
  rw [inStep_with,(h.scan hp).2 fuel out hscan,hsame]

/-- The run: what is followed is right, call after call. -/
theorem countsRight_of_sound {followed : Prop} (h : t.Chained s) (hin : followed → t.InStep s)
    (hsound : t.CountsSound followed s calls) : t.CountsRight s calls := by
  induction calls generalizing t s followed with
  | nil => trivial
  | cons call calls ih =>
    obtain ⟨hreturns,hnumbered,hrest⟩ := hsound
    refine ⟨?_,fun fuel t' s' hexec => ih (exec_chained h hnumbered hexec) ?_ (hrest fuel t' s' hexec)⟩
    · rintro expired rfl
      cases expired with
      | false => exact h.countRight (hin (hreturns false rfl))
      | true => exact h.recount_iff.mpr (hreturns true rfl)
    · intro hfollowed
      by_cases hcall : call = .getRecordCount true
      · subst hcall
        exact h.inStep_recount (hreturns true rfl) hexec
      · obtain ⟨hbefore,hkeeps⟩ := (followed_iff hcall).mp hfollowed
        exact (exec_inStep_iff h (hin hbefore) hcall hexec).mpr hkeeps

/-- In a table that has been opened the count is followed if there are no records. -/
theorem getRecordCount_right (hs : s₀.WellFormed) (hmake : make fuel s₀ schema = some (t,s))
    (hfirst : t.firstPage ≠ invalidPageId) (hsound : t.CountsSound (t.recordCount s = 0) s calls) :
    t.CountsRight s calls := by
  obtain ⟨hchained,hzero⟩ := chained_of_make hs hmake hfirst
  refine countsRight_of_sound hchained (fun hempty => ?_) hsound
  rw [InStep,hzero,hempty]
  rfl

end Runs

section Small

/-- An empty page with room for records, as the only one of a table with an integer column. -/
def roomy : Page := { Page.new 0 0 with header.freeSpaceOffset := 64 }
def roomyStore : Store := ⟨fun table pid => if table = 0 ∧ pid = 0 then some roomy else none,1⟩
def roomyTable : CountedTable := ⟨⟨oneColumnSchema,0,0⟩,0⟩

theorem roomyStore_wellFormed : roomyStore.WellFormed := by
  constructor
  · intro table pid q hq
    obtain ⟨⟨_,rfl⟩,hsome⟩ := Option.ite_none_right_eq_some.mp hq
    obtain rfl := Option.some.inj hsome
    exact ⟨⟨by decide,by decide,by decide,fun i hi => absurd hi (Nat.not_lt_zero i)⟩,rfl,
      Or.inl (by decide)⟩
  · intro table pid hpid
    refine if_neg fun hboth => ?_
    rw [hboth.2] at hpid
    exact absurd hpid (Nat.not_succ_le_zero 0)

theorem roomyTable_recordCount : roomyTable.recordCount roomyStore = 0 := by
  have hempty : roomyTable.records roomyStore = ∅ := by
    refine Set.eq_empty_iff_forall_notMem.mpr fun x hx => ?_
    obtain ⟨row,hrow⟩ := Option.isSome_iff_exists.mp hx.2
    obtain ⟨p,hp,hlt⟩ := exists_page_of_lt_countOf (lt_countOf_of_rowAt hrow)
    obtain ⟨_,hsome⟩ := Option.ite_none_right_eq_some.mp hp
    obtain rfl := Option.some.inj hsome
    exact absurd hlt (Nat.not_lt_zero _)
  rw [recordCount,hempty,Set.ncard_empty]

theorem getRecordCount_right_roomy :
    roomyTable.CountsRight roomyStore [.insertRecord [.ofInt 7] true,.getRecordCount false] := by
  refine @getRecordCount_right roomyStore roomyStore roomyTable 1 oneColumnSchema _
    roomyStore_wellFormed rfl (by decide) ⟨nofun,?_,?_⟩
  · exact fun _ => by decide
  · intro fuel t' s' _
    refine ⟨fun expired heq => ?_,trivial,fun _ _ _ _ => trivial⟩
    obtain rfl := TableCall.getRecordCount.inj heq
    exact ⟨roomyTable_recordCount,fun _ => by simp⟩

/-- A record is inserted and deleted twice: the count is then below zero. -/
theorem second_delete_wraps :
    Reached roomyTable roomyStore ∧ ¬ roomyTable.CountsRight roomyStore
      [.insertRecord [.ofInt 7] true,.deleteRecord 0,.deleteRecord 0,.getRecordCount false] := by
  have hopened : Reached roomyTable roomyStore :=
    @Reached.opened 1 roomyStore roomyStore oneColumnSchema roomyTable roomyStore_wellFormed rfl
  refine ⟨hopened,fun h => ?_⟩
  obtain ⟨s₁,hinsert⟩ : ∃ s₁, roomyTable.exec 0 roomyStore (.insertRecord [.ofInt 7] true) =
      some ({ roomyTable with cachedRecordCount := 1 },s₁) := ⟨_,rfl⟩
  obtain ⟨s₂,hdelete⟩ : ∃ s₂, CountedTable.exec 0 { roomyTable with cachedRecordCount := 1 } s₁
      (.deleteRecord 0) = some ({ roomyTable with cachedRecordCount := 0 },s₂) := by
    obtain rfl := (Prod.mk.inj (Option.some.inj hinsert)).2
    exact ⟨_,rfl⟩
  obtain ⟨s₃,hagain⟩ : ∃ s₃, CountedTable.exec 0 { roomyTable with cachedRecordCount := 0 } s₂
      (.deleteRecord 0) = some ({ roomyTable with cachedRecordCount := 0-1 },s₃) := by
    obtain rfl := (Prod.mk.inj (Option.some.inj hinsert)).2
    obtain rfl := (Prod.mk.inj (Option.some.inj hdelete)).2
    exact ⟨_,rfl⟩
  have hreached := ((hopened.step hinsert).step hdelete).step hagain
  have hrest := ((h.2 0 _ _ hinsert).2 0 _ _ hdelete).2 0 _ _ hagain
  obtain ⟨fuel,n,t',hcount,hn⟩ := hrest.1 false rfl
  obtain ⟨rfl,_⟩ := Prod.mk.inj (Option.some.inj hcount)
  have hlt := recordCount_lt (t := { roomyTable with cachedRecordCount := 0-1 }) hreached.kept.1
  rw [← hn] at hlt
  exact absurd hlt (by decide)

end Small

end CountedTable
end OrangeSQL
