import OrangeSQL.TableStore

/-! The rows of the tables in a store, and how an iterator walks over them. The rows of a table are
those on the pages that are linked to its first page. -/
namespace OrangeSQL

open Page

namespace Store

variable {s : Store} {table : TableId} {pid : PageId} {p : Page}

def nextOf (s : Store) (table : TableId) (pid : PageId) : PageId :=
  ((s.pages table pid).map getNextPage).getD invalidPageId

def countOf (s : Store) (table : TableId) (pid : PageId) : ℕ :=
  ((s.pages table pid).map getRecordCount).getD 0

def rowAt (s : Store) (table : TableId) (pid : PageId) (i : ℕ) : Option (List Value) :=
  (s.pages table pid).bind fun p => p.rowAt i

/-- The pages that are met from a page on. -/
inductive Linked (s : Store) (table : TableId) (start : PageId) : PageId → Prop
  | refl : Linked s table start start
  | next {pid : PageId} : Linked s table start pid → s.nextOf table pid ≠ invalidPageId →
      Linked s table start (s.nextOf table pid)

/-- The live rows of a table, each with its page and slot. -/
def liveRows (s : Store) (table : TableId) : Set (PageId × ℕ × List Value) :=
  {x | Linked s table 0 x.1 ∧ s.rowAt table x.1 x.2.1 = some x.2.2}

/-- A page as it can be under an id: its slots and records are where its header says, and a page
with records or room for them has a number that fits into a record id. -/
structure Placed (pid : PageId) (p : Page) : Prop where
  wellFormed : p.WellFormed
  pageId : p.getPageId = pid
  numbered : pid < 2^32-1 ∨ p.Spent

structure WellFormed (s : Store) : Prop where
  placed : ∀ table pid p, s.pages table pid = some p → Placed pid p
  fresh : ∀ table pid, s.nextPageId ≤ pid → s.pages table pid = none

section Put

theorem put_pages (s : Store) (table : TableId) (pid : PageId) (p : Page) (table' : TableId)
    (pid' : PageId) :
    (s.put table pid p).pages table' pid' =
      if table' = table ∧ pid' = pid then some p else s.pages table' pid' := by
  unfold put
  by_cases htable : table' = table
  · subst htable
    by_cases hpid : pid' = pid
    · simp [hpid]
    · simp [hpid]
  · simp [htable]

@[simp] theorem put_pages_self (s : Store) (table : TableId) (pid : PageId) (p : Page) :
    (s.put table pid p).pages table pid = some p := by
  rw [put_pages,if_pos ⟨rfl,rfl⟩]

theorem put_pages_of_ne (s : Store) (table : TableId) {pid pid' : PageId} (p : Page)
    (h : pid' ≠ pid) : (s.put table pid p).pages table pid' = s.pages table pid' := by
  rw [put_pages,if_neg fun hboth => h hboth.2]

theorem put_eq_self (h : s.pages table pid = some p) : s.put table pid p = s := by
  have hpages : (s.put table pid p).pages = s.pages := by
    funext table' pid'
    rw [put_pages]
    split_ifs with hboth
    · rw [hboth.1,hboth.2,h]
    · rfl
  cases s
  simp only [put] at hpages ⊢
  rw [hpages]

theorem WellFormed.put (hs : s.WellFormed) {old : Page} (hold : s.pages table pid = some old)
    (hp : Placed pid p) : (s.put table pid p).WellFormed := by
  constructor
  · intro table' pid' p' hp'
    rw [put_pages] at hp'
    split_ifs at hp' with hboth
    · obtain rfl := Option.some.inj hp'
      exact hboth.2 ▸ hp
    · exact hs.placed table' pid' p' hp'
  · intro table' pid' hpid'
    rw [put_pages]
    split_ifs with hboth
    · have hnone := hs.fresh table' pid' hpid'
      rw [hboth.1,hboth.2,hold] at hnone
      cases hnone
    · exact hs.fresh table' pid' hpid'

end Put

section Rows

theorem nextOf_of_pages (h : s.pages table pid = some p) : s.nextOf table pid = p.getNextPage := by
  simp [nextOf,h]

theorem countOf_of_pages (h : s.pages table pid = some p) :
    s.countOf table pid = p.getRecordCount := by
  simp [countOf,h]

theorem rowAt_of_pages (h : s.pages table pid = some p) (i : ℕ) :
    s.rowAt table pid i = p.rowAt i := by
  simp [rowAt,h]

theorem lt_countOf_of_rowAt {i : ℕ} {row : List Value} (h : s.rowAt table pid i = some row) :
    i < s.countOf table pid := by
  obtain ⟨p,hp,hrow⟩ := Option.bind_eq_some_iff.mp h
  rw [countOf_of_pages hp]
  exact (rowAt_eq_some_iff.mp hrow).1

theorem exists_page_of_lt_countOf {i : ℕ} (h : i < s.countOf table pid) :
    ∃ p, s.pages table pid = some p ∧ i < p.getRecordCount := by
  cases hp : s.pages table pid with
  | none => simp [countOf,hp] at h
  | some p => exact ⟨p,rfl,by rwa [countOf_of_pages hp] at h⟩

/-- A page with a slot has a number that fits into a record id. -/
theorem WellFormed.lt_of_lt_countOf (hs : s.WellFormed) {i : ℕ} (h : i < s.countOf table pid) :
    pid < 2^32-1 := by
  obtain ⟨p,hp,hi⟩ := exists_page_of_lt_countOf h
  rcases (hs.placed table pid p hp).numbered with hlt | hspent
  · exact hlt
  · rw [hspent.1] at hi
    exact absurd hi (Nat.not_lt_zero i)

theorem countOf_lt (s : Store) (table : TableId) (pid : PageId) : s.countOf table pid < 2^16 := by
  unfold countOf
  cases s.pages table pid with
  | none => decide
  | some p => exact p.getRecordCount_lt

/-- The first link of a path, or no link at all. -/
theorem Linked.head {start : PageId} (h : Linked s table start pid) :
    pid = start ∨ s.nextOf table start ≠ invalidPageId ∧
      Linked s table (s.nextOf table start) pid := by
  induction h with
  | refl => exact Or.inl rfl
  | next _ hne ih =>
    rcases ih with rfl | ⟨hstart,hlinked⟩
    · exact Or.inr ⟨hne,.refl⟩
    · exact Or.inr ⟨hstart,.next hlinked hne⟩

theorem Linked.trans {a b c : PageId} (hab : Linked s table a b) (hbc : Linked s table b c) :
    Linked s table a c := by
  induction hbc with
  | refl => exact hab
  | next _ hne ih => exact .next ih hne

theorem Linked.congr {s' : Store} (h : ∀ pid, s'.nextOf table pid = s.nextOf table pid)
    {start : PageId} (hlinked : Linked s table start pid) : Linked s' table start pid := by
  induction hlinked with
  | refl => exact .refl
  | @next pid' _ hne ih =>
    rw [← h pid'] at hne ⊢
    exact .next ih hne

theorem linked_congr {s' : Store} (h : ∀ pid, s'.nextOf table pid = s.nextOf table pid)
    (start pid : PageId) : Linked s' table start pid ↔ Linked s table start pid :=
  ⟨Linked.congr fun pid => (h pid).symm,Linked.congr h⟩

/-- The last page is met from every page. -/
theorem Linked.to_last {start last : PageId} (h : Linked s table start pid)
    (hlast : Linked s table start last) (hend : s.nextOf table last = invalidPageId) :
    Linked s table pid last := by
  induction h with
  | refl => exact hlast
  | next _ hne ih =>
    rcases ih.head with rfl | ⟨_,hnext⟩
    · exact absurd hend hne
    · exact hnext

theorem Linked.last_unique {start last : PageId} (h : Linked s table start pid)
    (hlast : Linked s table start last) (hend : s.nextOf table last = invalidPageId)
    (hend' : s.nextOf table pid = invalidPageId) : pid = last :=
  ((h.to_last hlast hend).head.resolve_right fun hnext => hnext.1 hend').symm

end Rows

end Store

namespace TableCursor

open Store

variable {s : Store} {table : TableId} {it it' : TableCursor} {fuel : ℕ}

/-- The pointer is to the page of the current id. -/
def Loaded (s : Store) (table : TableId) (it : TableCursor) : Prop :=
  it.pageId ≠ invalidPageId → it.page = (s.pages table it.pageId).map fun _ => it.pageId

/-- The iterator is on a slot, or behind the last page. -/
def Ready (s : Store) (table : TableId) (it : TableCursor) : Prop :=
  it.pageId = invalidPageId ∧ it.slot < 2^16 ∨
    it.page = some it.pageId ∧ it.slot < s.countOf table it.pageId

theorem Ready.onSlot (h : Ready s table it) (hid : it.pageId ≠ invalidPageId) :
    it.page = some it.pageId ∧ it.slot < s.countOf table it.pageId :=
  h.resolve_left fun hpast => hid hpast.1

/-- The slots that an iterator has in front of it. -/
def Ahead (s : Store) (table : TableId) (it : TableCursor) (pid : PageId) (i : ℕ) : Prop :=
  it.pageId ≠ invalidPageId ∧ (pid = it.pageId ∧ it.slot ≤ i ∨
    s.nextOf table it.pageId ≠ invalidPageId ∧ Linked s table (s.nextOf table it.pageId) pid)

theorem Ready.loaded (h : Ready s table it) : Loaded s table it := by
  intro hid
  obtain ⟨hpage,hslot⟩ := h.onSlot hid
  obtain ⟨p,hp,_⟩ := exists_page_of_lt_countOf hslot
  rw [hpage,hp]
  rfl

theorem Loaded.current (h : Loaded s table it) (hid : it.pageId ≠ invalidPageId) :
    it.current s table = s.pages table it.pageId := by
  rw [TableCursor.current,h hid]
  cases hp : s.pages table it.pageId with
  | none => rfl
  | some p => exact hp

theorem Loaded.onRecord_iff (h : Loaded s table it) (hid : it.pageId ≠ invalidPageId) :
    it.onRecord s table = true ↔ it.slot < s.countOf table it.pageId := by
  rw [onRecord,h.current hid,countOf]
  cases s.pages table it.pageId with
  | none => simp
  | some p => simp

theorem loaded_loadCurrentPage (s : Store) (table : TableId) (it : TableCursor) (slot : ℕ) :
    Loaded s table { it.loadCurrentPage s table with slot := slot } := by
  intro hid
  have hid' : it.pageId ≠ invalidPageId := by
    intro heq
    rw [loadCurrentPage,if_neg (by simp [heq])] at hid
    exact hid heq
  simp only [loadCurrentPage,ne_eq,hid',not_false_eq_true,if_true]

theorem loadCurrentPage_of_pages {pid : PageId} {p : Page} (hp : s.pages table pid = some p)
    (hid : pid ≠ invalidPageId) :
    (⟨pid,0,none⟩ : TableCursor).loadCurrentPage s table = ⟨pid,0,some pid⟩ := by
  simp [loadCurrentPage,hid,hp]

/-- All the slots on the pages from the current one on are in front of its first slot. -/
theorem ahead_of_linked {pid : PageId} {i : ℕ} {page : Option PageId} {start : PageId}
    (hid : start ≠ invalidPageId) (h : Linked s table start pid) :
    Ahead s table ⟨start,0,page⟩ pid i := by
  rcases h.head with rfl | hnext
  · exact ⟨hid,Or.inl ⟨rfl,Nat.zero_le i⟩⟩
  · exact ⟨hid,Or.inr hnext⟩

/-- The steps of the loop: it is behind the last page, or on a slot; or the page has no slot for it,
and then the page was the last one, or the loop goes on with the first slot of the next one. -/
theorem advance_cases (hload : Loaded s table it)
    (h : advanceToNextValid s table (fuel+1) it = some it') :
    it.pageId = invalidPageId ∧ it' = it ∨
    it.pageId ≠ invalidPageId ∧ it.slot < s.countOf table it.pageId ∧ it' = it ∨
    it.pageId ≠ invalidPageId ∧ s.countOf table it.pageId ≤ it.slot ∧
      (s.nextOf table it.pageId = invalidPageId ∧ it'.pageId = invalidPageId ∧ it'.slot = it.slot ∨
      s.nextOf table it.pageId ≠ invalidPageId ∧ ∃ page,
        Loaded s table ⟨s.nextOf table it.pageId,0,page⟩ ∧
        advanceToNextValid s table fuel ⟨s.nextOf table it.pageId,0,page⟩ = some it') := by
  rw [advanceToNextValid] at h
  by_cases hid : it.pageId = invalidPageId
  · rw [if_pos hid] at h
    exact Or.inl ⟨hid,(Option.some.inj h).symm⟩
  rw [if_neg hid] at h
  by_cases hrec : it.onRecord s table = true
  · rw [if_pos hrec] at h
    exact Or.inr (Or.inl ⟨hid,(hload.onRecord_iff hid).mp hrec,(Option.some.inj h).symm⟩)
  rw [if_neg hrec] at h
  have hslot : s.countOf table it.pageId ≤ it.slot :=
    Nat.not_lt.mp fun hlt => hrec ((hload.onRecord_iff hid).mpr hlt)
  have hnext : it.nextPageId s table = s.nextOf table it.pageId := by
    rw [nextPageId,hload.current hid,nextOf]
  dsimp only at h
  rw [hnext] at h
  refine Or.inr (Or.inr ⟨hid,hslot,?_⟩)
  by_cases hne : s.nextOf table it.pageId = invalidPageId
  · rw [if_neg (not_not.mpr hne)] at h
    cases fuel with
    | zero => cases h
    | succ fuel =>
      rw [advanceToNextValid,if_pos hne] at h
      obtain rfl := Option.some.inj h
      exact Or.inl ⟨hne,hne,rfl⟩
  · rw [if_pos hne,loadCurrentPage,if_pos hne] at h
    have hload' := loaded_loadCurrentPage s table ⟨s.nextOf table it.pageId,0,it.page⟩ 0
    rw [loadCurrentPage,if_pos hne] at hload'
    exact Or.inr ⟨hne,_,hload',h⟩

/-- The iterator moves to the next slot, and passes over none. -/
theorem advance_spec (hload : Loaded s table it) (hbound : it.slot < 2^16)
    (h : advanceToNextValid s table fuel it = some it') :
    Ready s table it' ∧
    (it'.pageId ≠ invalidPageId → Linked s table it.pageId it'.pageId) ∧
    ∀ pid i, i < s.countOf table pid → Ahead s table it pid i → Ahead s table it' pid i := by
  induction fuel generalizing it with
  | zero => cases h
  | succ fuel ih =>
    rcases advance_cases hload h with ⟨hid,rfl⟩ | ⟨hid,hslot,rfl⟩ |
      ⟨hid,hslot,⟨hne,hend,hkept⟩ | ⟨hne,page,hload',h⟩⟩
    · exact ⟨Or.inl ⟨hid,hbound⟩,fun hne => absurd hid hne,fun _ _ _ hahead => hahead⟩
    · obtain ⟨p,hp,_⟩ := exists_page_of_lt_countOf hslot
      refine ⟨Or.inr ⟨?_,hslot⟩,fun _ => .refl,fun _ _ _ hahead => hahead⟩
      rw [hload hid,hp]
      rfl
    · refine ⟨Or.inl ⟨hend,hkept ▸ hbound⟩,fun hid' => absurd hend hid',?_⟩
      rintro pid i hi ⟨_,⟨rfl,hle⟩ | hlinked⟩
      · exact absurd hi (Nat.not_lt.mpr (Nat.le_trans hslot hle))
      · exact absurd hne hlinked.1
    · obtain ⟨hready,hlinked,hahead'⟩ := ih hload' (Nat.two_pow_pos 16) h
      refine ⟨hready,fun hid' => Linked.trans (.next .refl hne) (hlinked hid'),?_⟩
      rintro pid i hi ⟨_,⟨rfl,hle⟩ | hlinked⟩
      · exact absurd hi (Nat.not_lt.mpr (Nat.le_trans hslot hle))
      · exact hahead' pid i hi (ahead_of_linked hne hlinked.2)

/-- An iterator that gets behind the last page keeps its slot if it was there before, and starts
anew otherwise. -/
theorem advance_past (hload : Loaded s table it) (hid : it.pageId ≠ invalidPageId)
    (h : advanceToNextValid s table fuel it = some it') (hpast : it'.pageId = invalidPageId) :
    ∃ pid, Linked s table it.pageId pid ∧ s.nextOf table pid = invalidPageId ∧
      s.countOf table pid ≤ it'.slot ∧ (pid = it.pageId ∧ it'.slot = it.slot ∨ it'.slot = 0) := by
  induction fuel generalizing it with
  | zero => cases h
  | succ fuel ih =>
    rcases advance_cases hload h with ⟨hid',_⟩ | ⟨_,_,rfl⟩ |
      ⟨_,hslot,⟨hne,_,hkept⟩ | ⟨hne,page,hload',h⟩⟩
    · exact absurd hid' hid
    · exact absurd hpast hid
    · exact ⟨it.pageId,.refl,hne,hkept ▸ hslot,Or.inl ⟨rfl,hkept⟩⟩
    · obtain ⟨pid,hlinked,hlast,hcount,hkept⟩ := ih hload' hne h
      have hzero : it'.slot = 0 := hkept.elim (fun hboth => hboth.2) id
      exact ⟨pid,Linked.trans (.next .refl hne) hlinked,hlast,hcount,Or.inr hzero⟩

theorem increment_spec (hready : Ready s table it) (h : it.increment s table fuel = some it') :
    Ready s table it' ∧
    (it'.pageId ≠ invalidPageId → it.pageId ≠ invalidPageId ∧ Linked s table it.pageId it'.pageId) ∧
    ∀ pid i, i < s.countOf table pid → Ahead s table it pid i →
      pid = it.pageId ∧ i = it.slot ∨ Ahead s table it' pid i := by
  unfold increment at h
  split_ifs at h with hid
  · obtain ⟨hpage,hslot⟩ := hready.onSlot hid
    have hlt := s.countOf_lt table it.pageId
    have hbound : it.slot+1 < 2^16 := by omega
    rw [Nat.mod_eq_of_lt hbound] at h
    have hload : Loaded s table { it with slot := it.slot+1 } := hready.loaded
    obtain ⟨hready',hlinked,hahead'⟩ := advance_spec hload hbound h
    refine ⟨hready',fun hid' => ⟨hid,hlinked hid'⟩,?_⟩
    rintro pid i hi ⟨_,⟨rfl,hle⟩ | hnext⟩
    · rcases Nat.eq_or_lt_of_le hle with heq | hlt
      · exact Or.inl ⟨rfl,heq.symm⟩
      · exact Or.inr (hahead' _ i hi ⟨hid,Or.inl ⟨rfl,hlt⟩⟩)
    · exact Or.inr (hahead' pid i hi ⟨hid,Or.inr hnext⟩)
  · obtain rfl := Option.some.inj h
    exact ⟨hready,fun hid' => absurd hid' hid,fun _ _ _ hahead => Or.inr hahead⟩

/-- Behind the last page the slot is the number of its records. -/
theorem increment_past (hready : Ready s table it) (hid : it.pageId ≠ invalidPageId)
    (h : it.increment s table fuel = some it') (hpast : it'.pageId = invalidPageId) :
    ∃ pid, Linked s table it.pageId pid ∧ s.nextOf table pid = invalidPageId ∧
      it'.slot = s.countOf table pid := by
  obtain ⟨_,hslot⟩ := hready.onSlot hid
  have hlt := s.countOf_lt table it.pageId
  rw [increment,if_pos hid,Nat.mod_eq_of_lt (by omega)] at h
  have hload : Loaded s table { it with slot := it.slot+1 } := hready.loaded
  obtain ⟨pid,hlinked,hlast,hcount,⟨hpid,hkept⟩ | hzero⟩ := advance_past hload hid h hpast
  · dsimp only at hpid hkept
    subst hpid
    exact ⟨it.pageId,.refl,hlast,by omega⟩
  · exact ⟨pid,hlinked,hlast,by omega⟩

/-- The row at a slot, empty where none can be read. -/
theorem Ready.row_eq (h : Ready s table it) (hid : it.pageId ≠ invalidPageId) :
    it.row s table = (s.rowAt table it.pageId it.slot).getD [] := by
  obtain ⟨_,hslot⟩ := h.onSlot hid
  have hlt : it.slot < 2^16 := Nat.lt_trans hslot (s.countOf_lt table it.pageId)
  rw [row,h.loaded.current hid,Store.rowAt]
  cases s.pages table it.pageId with
  | none => rfl
  | some p =>
    simp only [Option.bind_some,recordId]
    rw [getRecord_makeRecordId p it.pageId hlt]

end TableCursor

namespace Store

variable {s s' : Store} {table : TableId}

/-- Rows and links decide which rows are live. -/
theorem liveRows_congr (hnext : ∀ pid, s'.nextOf table pid = s.nextOf table pid)
    (hrow : ∀ pid i, s'.rowAt table pid i = s.rowAt table pid i) :
    s'.liveRows table = s.liveRows table := by
  ext x
  simp only [liveRows,Set.mem_ofPred_eq,linked_congr hnext,hrow]

section Append

variable {last new start pid : PageId}

/-- What was linked stays so when a page is put behind a last one. -/
theorem Linked.append (hnext : ∀ pid ≠ last, s'.nextOf table pid = s.nextOf table pid)
    (hlast : s.nextOf table last = invalidPageId) (h : Linked s table start pid) :
    Linked s' table start pid := by
  induction h with
  | refl => exact .refl
  | @next pid _ hne ih =>
    have hpid : pid ≠ last := by
      rintro rfl
      exact hne hlast
    rw [← hnext pid hpid] at hne ⊢
    exact .next ih hne

/-- Only the new page is met besides. -/
theorem Linked.of_append (hnext : ∀ pid ≠ last, s'.nextOf table pid = s.nextOf table pid)
    (hlink : s'.nextOf table last = new) (hend : s'.nextOf table new = invalidPageId)
    (h : Linked s' table start pid) : Linked s table start pid ∨ pid = new := by
  induction h with
  | refl => exact Or.inl .refl
  | @next pid _ hne ih =>
    by_cases hpid : pid = last
    · rw [hpid]
      exact Or.inr hlink
    rcases ih with hlinked | rfl
    · rw [hnext pid hpid] at hne ⊢
      exact Or.inl (.next hlinked hne)
    · exact absurd hend hne

/-- A page without rows behind a last page does not change which rows are live. -/
theorem liveRows_append (hnext : ∀ pid ≠ last, s'.nextOf table pid = s.nextOf table pid)
    (hrow : ∀ pid i, s'.rowAt table pid i = s.rowAt table pid i)
    (hlast : s.nextOf table last = invalidPageId) (hlink : s'.nextOf table last = new)
    (hend : s'.nextOf table new = invalidPageId) (hempty : ∀ i, s.rowAt table new i = none) :
    s'.liveRows table = s.liveRows table := by
  ext ⟨pid,i,row⟩
  simp only [liveRows,Set.mem_ofPred_eq,hrow]
  constructor
  · rintro ⟨hlinked,hlive⟩
    rcases hlinked.of_append hnext hlink hend with hold | rfl
    · exact ⟨hold,hlive⟩
    · rw [hempty i] at hlive
      cases hlive
  · rintro ⟨hlinked,hlive⟩
    exact ⟨hlinked.append hnext hlast,hlive⟩

end Append

section Create

theorem placed_created (pid : PageId) (table : TableId) :
    Placed pid ((Page.new pid table).setType .dataPage) := by
  have hnew := wellFormed_new pid table
  have hspent := spent_new pid table
  exact ⟨hnew.setType _,rfl,Or.inr (hspent.setType _)⟩

theorem WellFormed.createNewPage (hs : s.WellFormed) (table : TableId) :
    (s.createNewPage table).2.WellFormed := by
  constructor
  · intro table' pid' p hp
    have hp' : (s.put table s.nextPageId ((Page.new s.nextPageId table).setType .dataPage)).pages
        table' pid' = some p := hp
    rw [put_pages] at hp'
    split_ifs at hp' with hboth
    · obtain rfl := Option.some.inj hp'
      rw [hboth.2]
      exact placed_created s.nextPageId table
    · exact hs.placed table' pid' p hp'
  · intro table' pid' hpid'
    have hlt : s.nextPageId < pid' := hpid'
    refine (put_pages s table s.nextPageId _ table' pid').trans ?_
    rw [if_neg fun hboth => Nat.ne_of_gt hlt hboth.2]
    exact hs.fresh table' pid' (Nat.le_of_lt hlt)

theorem createNewPage_pages (s : Store) (table table' : TableId) (pid : PageId) :
    (s.createNewPage table).2.pages table' pid =
      if table' = table ∧ pid = s.nextPageId then
        some ((Page.new s.nextPageId table).setType .dataPage)
      else s.pages table' pid :=
  put_pages s table s.nextPageId _ table' pid

/-- A new page is the end of a chain and has no rows, as the missing page was. -/
theorem nextOf_createNewPage (hs : s.WellFormed) (table table' : TableId) (pid : PageId) :
    (s.createNewPage table).2.nextOf table' pid = s.nextOf table' pid := by
  unfold nextOf
  rw [createNewPage_pages]
  split_ifs with hboth
  · rw [hboth.2,hs.fresh table' s.nextPageId le_rfl]
    rfl
  · rfl

theorem rowAt_createNewPage (hs : s.WellFormed) (table table' : TableId) (pid : PageId) (i : ℕ) :
    (s.createNewPage table).2.rowAt table' pid i = s.rowAt table' pid i := by
  unfold rowAt
  rw [createNewPage_pages]
  split_ifs with hboth
  · rw [hboth.2,hs.fresh table' s.nextPageId le_rfl]
    exact Spent.rowAt (spent_new s.nextPageId table) i
  · rfl

theorem liveRows_createNewPage (hs : s.WellFormed) (table table' : TableId) :
    (s.createNewPage table).2.liveRows table' = s.liveRows table' :=
  liveRows_congr (nextOf_createNewPage hs table table') (rowAt_createNewPage hs table table')

end Create

end Store

namespace OpenTable

open Store TableCursor

variable {s s' : Store} {fuel : ℕ} {t : OpenTable} {schema : TableSchema}

theorem findLastPage_spec {table : TableId} {pid last : PageId}
    (h : findLastPage s table fuel pid = some last) :
    Linked s table pid last ∧ ∃ p, s.pages table last = some p ∧ p.getNextPage = invalidPageId := by
  induction fuel generalizing pid with
  | zero => cases h
  | succ fuel ih =>
    rw [findLastPage] at h
    obtain ⟨p,hp,h⟩ := Option.bind_eq_some_iff.mp h
    split_ifs at h with hend
    · obtain rfl := Option.some.inj h
      exact ⟨.refl,p,hp,hend⟩
    · obtain ⟨hlinked,hlast⟩ := ih h
      refine ⟨?_,hlast⟩
      rw [← nextOf_of_pages hp] at hend hlinked
      exact Linked.trans (.next .refl hend) hlinked

/-- The table in the store as the constructor leaves it. -/
structure Opened (s : Store) (schema : TableSchema) (t : OpenTable) (s' : Store) : Prop where
  schema : t.schema = schema
  first : ∃ p, s'.pages t.tableId t.firstPage = some p
  last : ∃ p, s'.pages t.tableId t.lastPage = some p ∧ p.getNextPage = invalidPageId
  linked : Linked s' t.tableId t.firstPage t.lastPage
  pages : s' = s ∧ t.firstPage = 0 ∨
    s.pages t.tableId 0 = none ∧ s' = (s.createNewPage t.tableId).2 ∧
      t.firstPage = s.nextPageId ∧ t.lastPage = s.nextPageId

theorem make_opened (h : make fuel s schema = some (t,s')) : Opened s schema t s' := by
  unfold make at h
  cases hzero : s.pages schema.id.toNat 0 with
  | none =>
    simp only [hzero] at h
    obtain ⟨rfl,rfl⟩ := Prod.mk.inj (Option.some.inj h)
    have hnew := put_pages_self s schema.id.toNat s.nextPageId
      ((Page.new s.nextPageId schema.id.toNat).setType .dataPage)
    exact ⟨rfl,⟨_,hnew⟩,⟨_,hnew,rfl⟩,.refl,Or.inr ⟨hzero,rfl,rfl,rfl⟩⟩
  | some p =>
    simp only [hzero,Option.map_eq_some_iff] at h
    obtain ⟨last,hlast,heq⟩ := h
    obtain ⟨rfl,rfl⟩ := Prod.mk.inj heq
    obtain ⟨hlinked,hend⟩ := findLastPage_spec hlast
    exact ⟨rfl,⟨p,hzero⟩,hend,hlinked,Or.inl ⟨rfl,rfl⟩⟩

theorem Opened.wellFormed (h : Opened s schema t s') (hs : s.WellFormed) : s'.WellFormed := by
  rcases h.pages with ⟨rfl,_⟩ | ⟨_,rfl,_⟩
  · exact hs
  · exact hs.createNewPage t.tableId

theorem Opened.liveRows (h : Opened s schema t s') (hs : s.WellFormed) (table : TableId) :
    s'.liveRows table = s.liveRows table := by
  rcases h.pages with ⟨rfl,_⟩ | ⟨_,rfl,_⟩
  · rfl
  · exact liveRows_createNewPage hs t.tableId table

/-- The iterator at the start has all slots on the pages of the table in front of it. -/
theorem begin_spec {it : TableCursor} (hs : s.WellFormed) (h : t.begin fuel s = some it) :
    Ready s t.tableId it ∧
    (it.pageId ≠ invalidPageId → Linked s t.tableId t.firstPage it.pageId) ∧
    ∀ pid i, i < s.countOf t.tableId pid → Linked s t.tableId t.firstPage pid →
      t.firstPage ≠ invalidPageId → Ahead s t.tableId it pid i := by
  obtain ⟨p,hp,hmake⟩ := Option.bind_eq_some_iff.mp h
  rw [(hs.placed _ _ p hp).pageId,TableCursor.make] at hmake
  dsimp only at hmake
  split_ifs at hmake with hid hslot
  · have hload := loaded_loadCurrentPage s t.tableId ⟨t.firstPage,0,none⟩ 0
    rw [loadCurrentPage_of_pages hp hid] at hmake hload
    obtain ⟨hready,hlinked,hahead⟩ := advance_spec hload (Nat.two_pow_pos 16) hmake
    refine ⟨hready,hlinked,?_⟩
    intro pid i hi hpid _
    exact hahead pid i hi (ahead_of_linked hid hpid)
  · obtain rfl := Option.some.inj hmake
    rw [loadCurrentPage_of_pages hp hid] at hslot ⊢
    have hpos : 0 < s.countOf t.tableId t.firstPage := by
      rw [countOf_of_pages hp]
      simpa [TableCursor.current,hp,Nat.pos_iff_ne_zero] using hslot
    exact ⟨Or.inr ⟨rfl,hpos⟩,fun _ => .refl,fun pid i _ hpid _ => ahead_of_linked hid hpid⟩
  · obtain rfl := Option.some.inj hmake
    have hid' : t.firstPage = invalidPageId := not_not.mp hid
    exact ⟨Or.inl ⟨hid',Nat.two_pow_pos 16⟩,fun hne => absurd hid' hne,fun _ _ _ _ hne => absurd hid' hne⟩

theorem begin_past {it : TableCursor} (hs : s.WellFormed) (h : t.begin fuel s = some it)
    (hpast : it.pageId = invalidPageId) :
    t.firstPage = invalidPageId ∧ it.slot = 0 ∨
    ∃ pid, Linked s t.tableId t.firstPage pid ∧ s.nextOf t.tableId pid = invalidPageId ∧
      it.slot = s.countOf t.tableId pid := by
  obtain ⟨p,hp,hmake⟩ := Option.bind_eq_some_iff.mp h
  rw [(hs.placed _ _ p hp).pageId,TableCursor.make] at hmake
  dsimp only at hmake
  split_ifs at hmake with hid hslot
  · have hload := loaded_loadCurrentPage s t.tableId ⟨t.firstPage,0,none⟩ 0
    rw [loadCurrentPage_of_pages hp hid] at hmake hload
    obtain ⟨pid,hlinked,hlast,hcount,hkept⟩ := advance_past hload hid hmake hpast
    have hzero : it.slot = 0 := hkept.elim (fun h => h.2) id
    exact Or.inr ⟨pid,hlinked,hlast,by omega⟩
  · rw [loadCurrentPage_of_pages hp hid] at hmake
    obtain rfl := Option.some.inj hmake
    exact absurd hpast hid
  · obtain rfl := Option.some.inj hmake
    exact Or.inl ⟨hpast,rfl⟩

/-- The slot is that number also where the iterator is behind the last page from the start on. -/
theorem Opened.slot_of_past (ho : Opened s schema t s') (hs : s.WellFormed) {it : TableCursor}
    (h : t.begin fuel s' = some it) (hpast : it.pageId = invalidPageId) :
    it.slot = s'.countOf t.tableId t.lastPage := by
  have hs' := ho.wellFormed hs
  rcases begin_past hs' h hpast with ⟨hid,hslot⟩ | ⟨pid,hlinked,hend,hslot⟩
  · rcases ho.pages with ⟨_,hfirst⟩ | ⟨_,_,hfirst,hlast⟩
    · rw [hfirst] at hid
      exact absurd hid (by decide)
    · have hcount : ¬ 0 < s'.countOf t.tableId t.lastPage := by
        intro hpos
        have hlt := hs'.lt_of_lt_countOf hpos
        rw [hlast.trans hfirst.symm,hid] at hlt
        exact absurd hlt (by decide)
      omega
  · obtain ⟨p,hp,hend'⟩ := ho.last
    rw [hslot,hlinked.last_unique ho.linked ((nextOf_of_pages hp).trans hend') hend]

theorem liveRows_eq_empty {table : TableId} (h : s.pages table 0 = none) : s.liveRows table = ∅ := by
  have hnext : s.nextOf table 0 = invalidPageId := by simp [nextOf,h]
  ext ⟨pid,i,row⟩
  simp only [Store.liveRows,Set.mem_ofPred_eq,Set.mem_empty_iff_false,iff_false]
  rintro ⟨hlinked,hlive⟩
  rcases hlinked.head with rfl | ⟨hne,_⟩
  · simp [Store.rowAt,h] at hlive
  · exact hne hnext

/-- The live rows are in front of the iterator at the start. -/
theorem Opened.ahead_of_live (ho : Opened s schema t s') (hs : s.WellFormed) {it : TableCursor}
    (h : t.begin fuel s' = some it) {pid : PageId} {i : ℕ} {row : List Value}
    (hlive : (pid,i,row) ∈ s'.liveRows t.tableId) : Ahead s' t.tableId it pid i := by
  have hs' := ho.wellFormed hs
  have hlive' := hlive
  rw [ho.liveRows hs] at hlive'
  rcases ho.pages with ⟨_,hfirst⟩ | ⟨hnone,_⟩
  · refine (begin_spec hs' h).2.2 pid i (lt_countOf_of_rowAt hlive.2) ?_ ?_
    · rw [hfirst]
      exact hlive.1
    · rw [hfirst]
      decide
  · rw [liveRows_eq_empty hnone] at hlive'
    cases hlive'

/-- The rows on the pages that the iterator can meet are live. -/
theorem Opened.live_of_linked (ho : Opened s schema t s') (hs : s.WellFormed) {pid : PageId} {i : ℕ}
    {row : List Value} (hlinked : Linked s' t.tableId t.firstPage pid)
    (hrow : s'.rowAt t.tableId pid i = some row) : (pid,i,row) ∈ s'.liveRows t.tableId := by
  rcases ho.pages with ⟨_,hfirst⟩ | ⟨hnone,rfl,hfirst,_⟩
  · rw [hfirst] at hlinked
    exact ⟨hlinked,hrow⟩
  · have habsent : s.pages t.tableId s.nextPageId = none := hs.fresh _ _ le_rfl
    have hend : (s.createNewPage t.tableId).2.nextOf t.tableId t.firstPage = invalidPageId := by
      rw [nextOf_createNewPage hs,hfirst,nextOf,habsent]
      rfl
    rcases hlinked.head with rfl | ⟨hne,_⟩
    · rw [rowAt_createNewPage hs,hfirst,Store.rowAt,habsent] at hrow
      cases hrow
    · exact absurd hend hne

end OpenTable

end OrangeSQL
