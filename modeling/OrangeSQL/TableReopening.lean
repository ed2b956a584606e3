import OrangeSQL.Library.StateRules
import OrangeSQL.PooledTable
import OrangeSQL.WriteBack

/-! Opening a table again. The first page of a table has a number from 1 on, and once a page is in
its file, page 0 reads as zeros: a page that leads to page 0. The constructor takes page 0 for the
first page and looks for the last one forever. -/
namespace OrangeSQL

open Page PoolM StateRules FiniteMap BufferPool

/-- Nothing is in the file of the table, ranges that were never written read as zeros, and the file
operations succeed. -/
structure EmptyFile (d : Disk) (table : TableId) : Prop where
  images : ∀ p, d.images table p = none
  padding : ∀ p, d.padding table p = Disk.empty.padding table p
  outcomes : ∀ n, d.outcomes n = true

/-- Pages are stored under their numbers, and page 0 leads to itself wherever it is. -/
structure Gapped (table : TableId) (s : BufferPool) : Prop where
  keyed : ∀ p f, s.frames.lookup p = some f → f.page.getPageId = p
  frame : ∀ f, s.frames.lookup 0 = some f → f.page.getNextPage = 0
  images : ∀ p i, s.disk.images table p = some i →
    (i.getPageId = p ∨ i.getPageId = 0) ∧ (i.getPageId = 0 → i.getNextPage = 0)
  padding : ∀ p, (s.disk.padding table p).getPageId = 0 ∧ (s.disk.padding table p).getNextPage = 0
  outcomes : ∀ n, s.disk.outcomes n = true
  counter : 1 ≤ s.nextPageId

namespace Gapped

variable {table : TableId} {s s' : BufferPool}

theorem writeIfDirty (h : Gapped table s) {p : PageId} {f : BufferFrame}
    (hf : s.frames.lookup p = some f) : Gapped table (s.writeIfDirty f) := by
  refine ⟨by simpa using h.keyed,by simpa using h.frame,?_,by simpa using h.padding,?_,
    by simpa using h.counter⟩
  · intro q i hi
    rcases writeIfDirty_images_cases hi with hold | ⟨rfl,_,hid⟩ | ⟨rfl,_⟩
    · exact h.images q i hold
    · refine ⟨Or.inl hid,fun hzero => ?_⟩
      rw [h.keyed p f hf] at hzero
      rw [hzero] at hf
      exact h.frame f hf
    · exact ⟨Or.inr (h.padding q).1,fun _ => (h.padding q).2⟩
  · unfold BufferPool.writeIfDirty
    split
    · exact fun n => h.outcomes (n+1)
    · exact h.outcomes

theorem dropFrame (h : Gapped table s) (v : PageId) : Gapped table (s.dropFrame v) :=
  ⟨fun p f hf => h.keyed p f (lookup_dropFrame hf),fun f hf => h.frame f (lookup_dropFrame hf),
    h.images,h.padding,h.outcomes,h.counter⟩

theorem insert (h : Gapped table s) {p : PageId} {f : BufferFrame} (hid : f.page.getPageId = p)
    (hzero : p = 0 → f.page.getNextPage = 0) (hframes : s'.frames = s.frames.insert p f)
    (hdisk : s'.disk = s.disk) (hnext : 1 ≤ s'.nextPageId) : Gapped table s' := by
  refine ⟨?_,?_,by rw [hdisk]; exact h.images,by rw [hdisk]; exact h.padding,
    by rw [hdisk]; exact h.outcomes,hnext⟩
  · intro q g hg
    rw [hframes] at hg
    rcases lookup_insert_cases hg with ⟨rfl,rfl⟩ | hold
    · exact hid
    · exact h.keyed q g hold
  · intro g hg
    rw [hframes] at hg
    rcases lookup_insert_cases hg with ⟨rfl,rfl⟩ | hold
    · exact hzero rfl
    · exact h.frame g hold

/-- A frame in which nothing changed that the rest looks at. -/
theorem replace (h : Gapped table s) {p : PageId} {f g : BufferFrame}
    (hf : s.frames.lookup p = some f) (hid : g.page.getPageId = f.page.getPageId)
    (hnext : g.page.getNextPage = f.page.getNextPage ∨ 1 ≤ p)
    (hframes : s'.frames = s.frames.insert p g) (hdisk : s'.disk = s.disk)
    (hcounter : s'.nextPageId = s.nextPageId) : Gapped table s' := by
  refine h.insert (hid.trans (h.keyed p f hf)) ?_ hframes hdisk (hcounter ▸ h.counter)
  rintro rfl
  rcases hnext with hsame | hpos
  · rw [hsame]
    exact h.frame f hf
  · exact absurd hpos (by decide)

theorem stable (table : TableId) : Stable (Gapped table) where
  drop h hf := (h.writeIfDirty hf).dropFrame _
  flush := by
    intro s p f h hf _
    have hf' : (s.writeIfDirty f).frames.lookup p = some f := by simpa using hf
    exact (h.writeIfDirty hf).replace (g := { f with page := f.page.clearDirty, dirty := false })
      hf' rfl (Or.inl rfl) (by simp) rfl rfl
  touch := by
    intro s s' p f g h hf hpage _ hframes hdisk hnext
    exact h.replace hf (by rw [hpage]) (Or.inl (by rw [hpage])) hframes hdisk hnext
  read _ _ h := ⟨h.keyed,h.frame,h.images,h.padding,fun n => h.outcomes (n+1),h.counter⟩
  resize _ h := ⟨h.keyed,h.frame,h.images,h.padding,h.outcomes,h.counter⟩

end Gapped

/-- A page of the table with a number from 1 on is in the file, or will be. -/
def Covered (table : TableId) (s : BufferPool) : Prop :=
  (s.disk.images table 0).isSome = true ∨ ∃ p f, 1 ≤ p ∧ s.frames.lookup p = some f ∧
    f.dirty = true ∧ f.page.getTableId = table

structure Stored (table : TableId) (s : BufferPool) : Prop extends Gapped table s where
  covered : Covered table s

section Stored

variable {table : TableId} {s s' : BufferPool}

/-- With the page written there is a page 0, if only a gap. -/
theorem writeIfDirty_covers {f : BufferFrame} (hdirty : f.dirty = true)
    (htable : f.page.getTableId = table) (hpos : 1 ≤ f.page.getPageId)
    (hout : s.disk.outcomes 0 = true) :
    ((s.writeIfDirty f).disk.images table 0).isSome = true := by
  have hlt : 0 < f.page.getPageId := hpos
  simp [BufferPool.writeIfDirty,hdirty,Disk.writePage,hout,htable,Disk.grown,hlt.ne,hlt]

theorem writeIfDirty_keeps_page {f : BufferFrame} {p : PageId}
    (h : (s.disk.images table p).isSome = true) :
    ((s.writeIfDirty f).disk.images table p).isSome = true := by
  unfold BufferPool.writeIfDirty
  split
  · simp only [Disk.writePage]
    split_ifs
    · by_cases ht : table = f.page.getTableId
      · rw [← ht,Function.update_self,Disk.grown]
        split_ifs
        · rfl
        · rfl
        · exact h
      · rw [Function.update_of_ne ht]
        exact h
    · exact h
  · exact h

/-- After one of the frames was written, the page counts on the file or on another frame. -/
theorem Stored.covered_after (h : Stored table s) {p : PageId} {f : BufferFrame}
    (hf : s.frames.lookup p = some f)
    (hothers : ∀ q g, q ≠ p → s.frames.lookup q = some g → s'.frames.lookup q = some g)
    (hdisk : s'.disk = (s.writeIfDirty f).disk) : Covered table s' := by
  rcases h.covered with hpage | ⟨q,g,hpos,hg,hdirty,htable⟩
  · left
    rw [hdisk]
    exact writeIfDirty_keeps_page hpage
  · by_cases hq : q = p
    · subst hq
      obtain rfl := Option.some.inj (hg.symm.trans hf)
      left
      rw [hdisk]
      refine writeIfDirty_covers hdirty htable ?_ (h.outcomes 0)
      rw [h.keyed q g hg]
      exact hpos
    · exact Or.inr ⟨q,g,hpos,hothers q g hq hg,hdirty,htable⟩

theorem Covered.replace (h : Covered table s) {p : PageId} {f g : BufferFrame}
    (hf : s.frames.lookup p = some f) (hdirty : f.dirty = true → g.dirty = true)
    (htable : g.page.getTableId = f.page.getTableId)
    (hframes : s'.frames = s.frames.insert p g) (hdisk : s'.disk = s.disk) : Covered table s' := by
  rcases h with hpage | ⟨q,g',hpos,hg',hdirty',htable'⟩
  · left
    rw [hdisk]
    exact hpage
  · by_cases hq : q = p
    · subst hq
      obtain rfl := Option.some.inj (hg'.symm.trans hf)
      refine Or.inr ⟨q,g,hpos,?_,hdirty hdirty',htable.trans htable'⟩
      rw [hframes,Finmap.lookup_insert]
    · refine Or.inr ⟨q,g',hpos,?_,hdirty',htable'⟩
      rw [hframes,Finmap.lookup_insert_of_ne _ hq]
      exact hg'

theorem Stored.stable (table : TableId) : Stable (Stored table) where
  drop := by
    intro s p f h hf
    refine ⟨(Gapped.stable table).drop h.toGapped hf,h.covered_after hf ?_ rfl⟩
    intro q g hq hg
    rw [dropFrame,Finmap.lookup_erase_ne hq,writeIfDirty_frames]
    exact hg
  flush := by
    intro s p f h hf hdirty
    refine ⟨(Gapped.stable table).flush h.toGapped hf hdirty,h.covered_after hf ?_ rfl⟩
    intro q g hq hg
    rw [Finmap.lookup_insert_of_ne _ hq]
    exact hg
  touch := by
    intro s s' p f g h hf hpage hdirty hframes hdisk hnext
    exact ⟨(Gapped.stable table).touch h.toGapped hf hpage hdirty hframes hdisk hnext,
      h.covered.replace hf hdirty (by rw [hpage]) hframes hdisk⟩
  read t p h := ⟨(Gapped.stable table).read t p h.toGapped,h.covered⟩
  resize n h := ⟨(Gapped.stable table).resize n h.toGapped,h.covered⟩

end Stored

section Pointers

variable {table : TableId}

theorem keeps_fetchPage (fuel : ℕ) (pid : PageId) :
    Keeps (Stored table) (fetchPage fuel table pid) fun _ => True := by
  intro s a s' hs hrun
  obtain ⟨⟨r,s₁⟩,hfetch,heq⟩ := Option.map_eq_some_iff.mp hrun
  obtain ⟨_,rfl⟩ := Prod.mk.inj heq
  refine ⟨?_,trivial⟩
  rcases (Stored.stable table).fetchPage hs hfetch with ⟨hs',_⟩ | ⟨e,i,he,hnone,hi,_,rfl⟩
  · exact hs'
  · obtain ⟨hplace,hzero⟩ := he.images pid i hi
    refine ⟨he.toGapped.insert (f := BufferFrame.make i.clearDirty false .read) rfl hzero rfl rfl
      he.counter,?_⟩
    rcases he.covered with hpage | ⟨q,g,hpos,hg,hdirty,htable⟩
    · exact Or.inl hpage
    · have hne : q ≠ i.getPageId := by
        rintro rfl
        rcases hplace with hid | hid
        · rw [hid,hnone] at hg
          cases hg
        · rw [hid] at hpos
          exact absurd hpos (by decide)
      refine Or.inr ⟨q,g,hpos,?_,hdirty,htable⟩
      rw [addFrame,Finmap.lookup_insert_of_ne _ hne]
      exact hg

/-- With its first page the table is stored. -/
theorem createNewPage_stored {s s' : BufferPool} {fuel : ℕ} {pid : PageId} (h : Gapped table s)
    (hrun : createNewPage fuel table s = some (pid,s')) : Stored table s' ∧ 1 ≤ pid := by
  obtain ⟨⟨r,s₁⟩,hcreate,heq⟩ := Option.bind_eq_some_iff.mp hrun
  obtain ⟨e,he,_,rfl,rfl⟩ := (Gapped.stable table).createNewPage h hcreate
  obtain ⟨rfl,rfl⟩ := Prod.mk.inj (Option.some.inj heq)
  have hnext : Gapped table { e with nextPageId := s.nextPageId+1 } :=
    ⟨he.keyed,he.frame,he.images,he.padding,he.outcomes,Nat.succ_pos _⟩
  refine ⟨⟨hnext.insert (p := s.nextPageId)
    (f := BufferFrame.make ((Page.new s.nextPageId table).setType .dataPage) true .read) rfl ?_
    rfl rfl (Nat.succ_pos _),Or.inr ⟨s.nextPageId,_,h.counter,Finmap.lookup_insert _,rfl,rfl⟩⟩,
    h.counter⟩
  intro hzero
  exact absurd (hzero ▸ h.counter) (by decide)

theorem keeps_createNewPage (fuel : ℕ) :
    Keeps (Stored table) (createNewPage fuel table) fun pid => 1 ≤ pid := by
  intro s a s' hs hrun
  exact createNewPage_stored hs.toGapped hrun

/-- A call through a pointer that leaves the page where it belongs, and page 0 its next page. -/
theorem keeps_onPage {α : Type} {pid : PageId} {call : Page → α × Page}
    (hid : ∀ p, (call p).2.getPageId = p.getPageId)
    (htable : ∀ p, (call p).2.getTableId = p.getTableId)
    (hnext : (∀ p, (call p).2.getNextPage = p.getNextPage) ∨ 1 ≤ pid) :
    Keeps (Stored table) (onPage pid call) fun _ => True := by
  intro s a s' hs hrun
  obtain ⟨f,hf,heq⟩ := Option.bind_eq_some_iff.mp hrun
  obtain ⟨_,rfl⟩ := Prod.mk.inj (Option.some.inj heq)
  simp only [Engine.modifyPage,hf]
  refine ⟨⟨hs.toGapped.replace (g := { f with page := (call f.page).2 }) hf (hid f.page) ?_ rfl rfl
    rfl,hs.covered.replace (g := { f with page := (call f.page).2 }) hf id (htable f.page) rfl rfl⟩,
    trivial⟩
  rcases hnext with hsame | hpos
  · exact Or.inl (hsame f.page)
  · exact Or.inr hpos

theorem keeps_ask {α : Type} (pid : PageId) (get : Page → α) :
    Keeps (Stored table) (ask pid get) fun _ => True :=
  keeps_onPage (fun _ => rfl) (fun _ => rfl) (Or.inl fun _ => rfl)

theorem keeps_unpinChanged (pid : PageId) :
    Keeps (Stored table) (unpinChanged pid) fun _ => True := by
  intro s a s' hs hrun
  obtain ⟨_,rfl⟩ := Prod.mk.inj (Option.some.inj hrun)
  exact ⟨(Stored.stable table).unpinPage hs pid true,trivial⟩

end Pointers

namespace Page

/-- The operations on records leave the header where it says which page this is. -/
structure SamePlace (p q : Page) : Prop where
  id : q.getPageId = p.getPageId
  table : q.getTableId = p.getTableId
  next : q.getNextPage = p.getNextPage

theorem SamePlace.refl (p : Page) : SamePlace p p := ⟨rfl,rfl,rfl⟩

theorem SamePlace.trans {p q r : Page} (h : SamePlace p q) (h' : SamePlace q r) : SamePlace p r :=
  ⟨h'.id.trans h.id,h'.table.trans h.table,h'.next.trans h.next⟩

theorem insertRecord_samePlace {p q : Page} {record : List Value} {rid : RecordId}
    (h : p.insertRecord record = some (q,rid)) : SamePlace p q := by
  simp only [insertRecord] at h
  split_ifs at h
  obtain ⟨rfl,_⟩ := Prod.mk.inj (Option.some.inj h)
  exact ⟨rfl,rfl,rfl⟩

theorem deleteRecord_samePlace {p q : Page} {rid : RecordId} (h : p.deleteRecord rid = some q) :
    SamePlace p q := by
  simp only [deleteRecord] at h
  split_ifs at h
  obtain rfl := Option.some.inj h
  exact ⟨rfl,rfl,rfl⟩

theorem updateRecord_samePlace (p : Page) (rid : RecordId) (record : List Value) :
    SamePlace p (p.updateRecord rid record).2 := by
  unfold updateRecord
  cases p.getRecord rid with
  | none => exact .refl p
  | some _ =>
    cases hdelete : p.deleteRecord rid with
    | none => exact .refl p
    | some q =>
      have hq := deleteRecord_samePlace hdelete
      cases hinsert : q.insertRecord record with
      | none =>
        simp only [hinsert]
        exact hq
      | some r =>
        simp only [hinsert]
        exact hq.trans (insertRecord_samePlace hinsert)

end Page

section Operations

variable {table : TableId}

theorem keeps_record_call {α : Type} {pid : PageId} {call : Page → α × Page}
    (h : ∀ p, SamePlace p (call p).2) : Keeps (Stored table) (onPage pid call) fun _ => True :=
  keeps_onPage (fun p => (h p).id) (fun p => (h p).table) (Or.inl fun p => (h p).next)

/-- The table with this id, with a last page that can be linked to another one. -/
structure Opened (table : TableId) (t : PooledTable) : Prop where
  table : t.tableId = table
  last : 1 ≤ t.lastPage

namespace PooledTable

variable {t : PooledTable}

theorem keeps_insertInto (page : PageId) (values : List Value) :
    Keeps (Stored table) (insertInto page values) fun _ => True := by
  refine keeps_record_call ?_
  intro p
  cases hinsert : p.insertRecord values with
  | none => exact .refl p
  | some r => exact insertRecord_samePlace hinsert

theorem keeps_appendNewPage (h : Opened table t) (fuel : ℕ) :
    Keeps (Stored table) (t.appendNewPage fuel) (Opened table) := by
  obtain ⟨rfl,hlast⟩ := h
  refine (keeps_createNewPage fuel).bind fun new hnew => ?_
  refine (keeps_onPage (fun _ => rfl) (fun _ => rfl) (Or.inr hlast)).bind fun _ _ => ?_
  refine (keeps_ask _ _).bind fun last _ => ?_
  refine (keeps_unpinChanged last).bind fun _ _ => ?_
  refine (keeps_ask _ _).bind fun last _ => ?_
  refine (keeps_record_call fun p => ⟨rfl,rfl,rfl⟩).bind fun _ _ => ?_
  exact keeps_pure ⟨rfl,hnew⟩

theorem keeps_insertRecord (h : Opened table t) (fuel : ℕ) (values : List Value) :
    Keeps (Stored table) (t.insertRecord fuel values) fun r => Opened table r.2 := by
  refine keeps_ite (fun _ => keeps_pure h) fun _ => ?_
  refine (keeps_insertInto t.lastPage values).bind fun rid _ => ?_
  cases rid with
  | some rid =>
    refine (keeps_ask _ _).bind fun last _ => ?_
    exact (keeps_unpinChanged last).bind fun _ _ => keeps_pure ⟨h.table,h.last⟩
  | none =>
    refine (keeps_appendNewPage h fuel).bind fun t' ht' => ?_
    refine (keeps_insertInto t'.lastPage values).bind fun rid _ => ?_
    cases rid with
    | some rid => exact keeps_pure ⟨ht'.table,ht'.last⟩
    | none => exact keeps_pure ht'

theorem keeps_getRecord (h : t.tableId = table) (fuel : ℕ) (rid : RecordId) :
    Keeps (Stored table) (t.getRecord fuel rid) fun _ => True := by
  subst h
  refine (keeps_fetchPage fuel _).bind fun page _ => ?_
  cases page with
  | none => exact keeps_pure trivial
  | some page => exact keeps_ask page _

theorem keeps_updateRecord (h : t.tableId = table) (fuel : ℕ) (rid : RecordId)
    (values : List Value) : Keeps (Stored table) (t.updateRecord fuel rid values) fun _ => True := by
  subst h
  refine keeps_ite (fun _ => keeps_pure trivial) fun _ => ?_
  refine (keeps_fetchPage fuel _).bind fun page _ => ?_
  cases page with
  | none => exact keeps_pure trivial
  | some page =>
    refine (keeps_record_call fun p => updateRecord_samePlace p rid values).bind fun _ _ => ?_
    exact keeps_pure trivial

theorem keeps_deleteRecord (h : Opened table t) (fuel : ℕ) (rid : RecordId) :
    Keeps (Stored table) (t.deleteRecord fuel rid) fun r => Opened table r.2 := by
  obtain ⟨rfl,hlast⟩ := h
  refine (keeps_fetchPage fuel _).bind fun page _ => ?_
  cases page with
  | none => exact keeps_pure ⟨rfl,hlast⟩
  | some page =>
    refine (keeps_record_call fun p => ?_).bind fun done _ => ?_
    · cases hdelete : p.deleteRecord rid with
      | none => exact .refl p
      | some q => exact deleteRecord_samePlace hdelete
    · exact keeps_ite (fun _ => keeps_pure ⟨rfl,hlast⟩) fun _ => keeps_pure ⟨rfl,hlast⟩

theorem keeps_insertRecords (fuel : ℕ) (records : List (List Value)) (h : Opened table t) :
    Keeps (Stored table) (t.insertRecords fuel records) fun r => Opened table r.2 := by
  induction records generalizing t with
  | nil => exact keeps_pure h
  | cons values records ih =>
    refine (keeps_insertRecord h fuel values).bind fun r hr => ?_
    obtain ⟨rid,t'⟩ := r
    cases rid with
    | none => exact keeps_pure hr
    | some rid => exact (ih hr).bind fun r hr => keeps_pure hr

theorem keeps_deleteRecords (fuel : ℕ) (rids : List RecordId) (h : Opened table t) :
    Keeps (Stored table) (t.deleteRecords fuel rids) fun r => Opened table r.2 := by
  induction rids generalizing t with
  | nil => exact keeps_pure h
  | cons rid rids ih =>
    refine (keeps_deleteRecord h fuel rid).bind fun r hr => ?_
    exact (ih hr).bind fun r hr => keeps_pure hr

theorem keeps_loadCurrentPage (fuel : ℕ) (it : TableCursor) :
    Keeps (Stored table) (loadCurrentPage table fuel it) fun _ => True := by
  refine keeps_ite (fun _ => ?_) fun _ => keeps_pure trivial
  exact (keeps_fetchPage fuel _).bind fun _ _ => keeps_pure trivial

theorem keeps_advanceToNextValid (fuel : ℕ) (it : TableCursor) :
    Keeps (Stored table) (advanceToNextValid table fuel it) fun _ => True := by
  induction fuel generalizing it with
  | zero => exact keeps_failure
  | succ fuel ih =>
    refine keeps_ite (fun _ => keeps_pure trivial) fun _ => ?_
    cases it.page with
    | none => exact ih _
    | some page =>
      refine (keeps_ask page _).bind fun count _ => ?_
      refine keeps_ite (fun _ => keeps_pure trivial) fun _ => ?_
      refine (keeps_ask page _).bind fun next _ => ?_
      refine keeps_ite (fun _ => ?_) fun _ => ih _
      exact (keeps_loadCurrentPage fuel _).bind fun it _ => ih _

theorem keeps_cursorAt (fuel : ℕ) (pid : PageId) :
    Keeps (Stored table) (cursorAt table fuel pid) fun _ => True := by
  refine (keeps_loadCurrentPage fuel _).bind fun it _ => ?_
  cases it.page with
  | none => exact keeps_pure trivial
  | some page =>
    refine (keeps_ask page _).bind fun count _ => ?_
    exact keeps_ite (fun _ => keeps_advanceToNextValid fuel it) fun _ => keeps_pure trivial

theorem keeps_increment (fuel : ℕ) (it : TableCursor) :
    Keeps (Stored table) (increment table fuel it) fun _ => True :=
  keeps_ite (fun _ => keeps_advanceToNextValid fuel _) fun _ => keeps_pure trivial

theorem keeps_row (it : TableCursor) : Keeps (Stored table) (row it) fun _ => True := by
  unfold row
  cases it.page with
  | none => exact keeps_pure trivial
  | some page => exact (keeps_ask page _).bind fun _ _ => keeps_pure trivial

theorem keeps_scanFrom (limit fuel : ℕ) (it : TableCursor) (results : List (List Value)) :
    Keeps (Stored table) (scanFrom table limit fuel it results) fun _ => True := by
  induction fuel generalizing it results with
  | zero => exact keeps_failure
  | succ fuel ih =>
    refine keeps_ite (fun _ => keeps_pure trivial) fun _ => ?_
    refine (keeps_row it).bind fun values _ => ?_
    refine keeps_ite (fun _ => keeps_pure trivial) fun _ => ?_
    exact (keeps_increment fuel it).bind fun it _ => ih it _

theorem keeps_findFrom (key : List Value) (fuel : ℕ) (it : TableCursor) :
    Keeps (Stored table) (findFrom table key fuel it) fun _ => True := by
  induction fuel generalizing it with
  | zero => exact keeps_failure
  | succ fuel ih =>
    refine keeps_ite (fun _ => keeps_pure trivial) fun _ => ?_
    refine (keeps_row it).bind fun values _ => ?_
    have hnext : Keeps (Stored table) (do findFrom table key fuel (← increment table fuel it))
        fun _ => True := (keeps_increment fuel it).bind fun it _ => ih it
    cases values with
    | nil => exact hnext
    | cons value values =>
      cases key with
      | nil => exact keeps_failure
      | cons wanted key => exact keeps_ite (fun _ => keeps_pure trivial) fun _ => hnext

theorem keeps_countFrom (fuel : ℕ) (it : TableCursor) (count : UInt64) :
    Keeps (Stored table) (countFrom table fuel it count) fun _ => True := by
  induction fuel generalizing it count with
  | zero => exact keeps_failure
  | succ fuel ih =>
    refine keeps_ite (fun _ => keeps_pure trivial) fun _ => ?_
    exact (keeps_increment fuel it).bind fun it _ => ih it _

theorem keeps_countPages (fuel : ℕ) (page : PageId) (count : ℕ) :
    Keeps (Stored table) (countPages table fuel page count) fun _ => True := by
  induction fuel generalizing page count with
  | zero => exact keeps_failure
  | succ fuel ih =>
    refine (keeps_ask page _).bind fun next _ => ?_
    refine (keeps_fetchPage fuel next).bind fun next _ => ?_
    cases next with
    | none => exact keeps_pure trivial
    | some next => exact ih next _

theorem keeps_begin (h : t.tableId = table) (fuel : ℕ) :
    Keeps (Stored table) (t.begin fuel) fun _ => True := by
  subst h
  exact (keeps_ask _ _).bind fun pid _ => keeps_cursorAt fuel pid

theorem keeps_exec (h : Opened table t) (fuel : ℕ) (op : TableOp) :
    Keeps (Stored table) (t.exec fuel op) (Opened table) := by
  obtain ⟨rfl,hlast⟩ := h
  have h : Opened t.tableId t := ⟨rfl,hlast⟩
  have hbegin := keeps_begin rfl fuel (t := t)
  have hsame : Keeps (Stored t.tableId) (pure t) (Opened t.tableId) := keeps_pure h
  cases op with
  | insertRecord values => exact (keeps_insertRecord h fuel values).bind fun r hr => keeps_pure hr
  | getRecord rid => exact (keeps_getRecord rfl fuel rid).discard.bind fun _ _ => hsame
  | updateRecord rid values =>
    exact (keeps_updateRecord rfl fuel rid values).discard.bind fun _ _ => hsame
  | deleteRecord rid => exact (keeps_deleteRecord h fuel rid).bind fun r hr => keeps_pure hr
  | insertRecords records =>
    exact (keeps_insertRecords fuel records h).bind fun r hr => keeps_pure hr
  | deleteRecords rids => exact (keeps_deleteRecords fuel rids h).bind fun r hr => keeps_pure hr
  | find key =>
    have hfind := hbegin.bind fun it _ => keeps_findFrom key fuel it
    exact hfind.discard.bind fun _ _ => hsame
  | scan limit =>
    have hscan := hbegin.bind fun it _ => keeps_scanFrom limit fuel it []
    exact hscan.discard.bind fun _ _ => hsame
  | getRecordCount expired =>
    refine Keeps.bind (Q := fun r => Opened t.tableId r.2) ?_ fun r hr => keeps_pure hr
    refine keeps_ite (fun _ => ?_) fun _ => keeps_pure h
    refine hbegin.bind fun it _ => ?_
    exact (keeps_countFrom fuel it 0).bind fun count _ => keeps_pure ⟨rfl,hlast⟩
  | getPageCount => exact (keeps_countPages fuel t.firstPage 0).discard.bind fun _ _ => hsame
  | dump =>
    refine hbegin.bind fun it _ => ?_
    exact (keeps_countFrom fuel it 0).discard.bind fun _ _ => hsame

theorem keeps_execAll (h : Opened table t) (fuel : ℕ) (ops : List TableOp) :
    Keeps (Stored table) (t.execAll fuel ops) (Opened table) := by
  induction ops generalizing t with
  | nil => exact keeps_pure h
  | cons op ops ih => exact (keeps_exec h fuel op).bind fun t' ht' => ih ht'

end PooledTable

end Operations

section Opening

variable {table : TableId} {schema : TableSchema}

/-- Before the first page is made. -/
structure Blank (table : TableId) (s : BufferPool) : Prop extends Gapped table s where
  noFrames : s.frames = ∅
  noImages : ∀ p, s.disk.images table p = none

theorem Blank.lookup {s : BufferPool} (h : Blank table s) (p : PageId) (f : BufferFrame) :
    s.frames.lookup p ≠ some f := by
  rw [h.noFrames]
  simp

theorem Blank.stable (table : TableId) : Stable (Blank table) where
  drop h hf := absurd hf (h.lookup _ _)
  flush h hf := absurd hf (h.lookup _ _)
  touch h hf := absurd hf (h.lookup _ _)
  read t p h := ⟨(Gapped.stable table).read t p h.toGapped,h.noFrames,h.noImages⟩
  resize n h := ⟨(Gapped.stable table).resize n h.toGapped,h.noFrames,h.noImages⟩

theorem EmptyFile.blank {d : Disk} (h : EmptyFile d table) (n : ℕ) {next : PageId}
    (hnext : 1 ≤ next) : Blank table (BufferPool.new n d next) := by
  refine ⟨⟨by simp [BufferPool.new],by simp [BufferPool.new],?_,?_,h.outcomes,hnext⟩,rfl,h.images⟩
  · intro p i hi
    rw [BufferPool.new,h.images p] at hi
    cases hi
  · intro p
    rw [BufferPool.new,h.padding p]
    exact ⟨rfl,rfl⟩

namespace PooledTable

/-- The first opening makes the first page, with a number from 1 on. -/
theorem make_stored {s s' : BufferPool} {fuel : ℕ} {t : PooledTable}
    (h : Blank schema.id.toNat s) (hmake : make fuel schema s = some (t,s')) :
    Stored schema.id.toNat s' ∧ Opened schema.id.toNat t := by
  obtain ⟨⟨r,s₁⟩,hfetch,hrest⟩ := Option.bind_eq_some_iff.mp hmake
  obtain ⟨⟨q,s₂⟩,hpool,heq⟩ := Option.map_eq_some_iff.mp hfetch
  obtain ⟨rfl,rfl⟩ := Prod.mk.inj heq
  rcases (Blank.stable _).fetchPage h hpool with ⟨hs₂,hcached⟩ | ⟨e,i,he,_,hi,_⟩
  · cases q with
    | some q =>
      obtain ⟨f,hf,_⟩ := hcached q rfl
      exact absurd hf (h.lookup 0 f)
    | none =>
      obtain ⟨⟨first,s₃⟩,hcreate,hlast⟩ := Option.bind_eq_some_iff.mp hrest
      obtain ⟨rfl,rfl⟩ := Prod.mk.inj (Option.some.inj hlast)
      obtain ⟨hstored,hpos⟩ := createNewPage_stored hs₂.toGapped hcreate
      exact ⟨hstored,rfl,hpos⟩
  · rw [he.noImages 0] at hi
    cases hi

theorem fetchPage_cached {s : BufferPool} {pid : PageId} {f : BufferFrame} (fuel : ℕ)
    (table : TableId) (hf : s.frames.lookup pid = some f) (hlatch : f.latched = false) :
    ∃ s', PoolM.fetchPage fuel table pid s = some (some f.page.getPageId,s') ∧
      s'.frames.lookup pid = some (f.touch .read) := by
  refine ⟨{ s with frames := s.frames.insert pid (f.touch .read) }.updateLRU pid,?_,?_⟩
  · unfold PoolM.fetchPage BufferPool.fetchPage
    simp only [hf,hlatch,Bool.false_eq_true,if_false]
    rfl
  · exact Finmap.lookup_insert _

/-- From page 0, which leads to page 0, the search for the last page does not come back. -/
theorem findLastPage_loops (table : TableId) {s : BufferPool} {f : BufferFrame} (fuel : ℕ)
    (hf : s.frames.lookup 0 = some f) (hlatch : f.latched = false) (hid : f.page.getPageId = 0)
    (hnext : f.page.getNextPage = 0) : findLastPage table fuel 0 s = none := by
  induction fuel generalizing s f with
  | zero => rfl
  | succ fuel ih =>
    have hask : ask 0 getNextPage s = some (0,Engine.modifyPage s 0 fun _ => f.page) := by
      simp [ask,onPage,hf,hnext]
    have hcached : (Engine.modifyPage s 0 fun _ => f.page).frames.lookup 0 = some f := by
      simp [Engine.modifyPage,hf]
    obtain ⟨s',hfetch,hf'⟩ := fetchPage_cached fuel table hcached hlatch
    rw [hid] at hfetch
    have hvalid : (0 : PageId) ≠ invalidPageId := by decide
    have hrun : findLastPage table (fuel+1) 0 s = findLastPage table fuel 0 s' := by
      rw [findLastPage]
      change Option.bind (ask 0 getNextPage s) _ = _
      rw [hask]
      simp only [Option.bind_some,hvalid,if_false]
      change Option.bind (PoolM.fetchPage fuel table 0 _) _ = _
      rw [hfetch]
      rfl
    rw [hrun]
    exact ih hf' hlatch hid hnext

/-- A pool without frames reads the page that is in the file. -/
theorem fetchPage_read {s s' : BufferPool} {table : TableId} {pid : PageId} {i : Page} {fuel : ℕ}
    {r : Option PageId} (hframes : s.frames = ∅) (himage : s.disk.images table pid = some i)
    (hout : s.disk.outcomes 0 = true) (h : PoolM.fetchPage fuel table pid s = some (r,s')) :
    r = some i.getPageId ∧
      s'.frames.lookup i.getPageId = some (BufferFrame.make i.clearDirty false .read) := by
  obtain ⟨⟨q,s₁⟩,hfetch,heq⟩ := Option.map_eq_some_iff.mp h
  obtain ⟨rfl,rfl⟩ := Prod.mk.inj heq
  have hnone : s.frames.lookup pid = none := by
    rw [hframes]
    simp
  simp only [BufferPool.fetchPage,hnone,Option.bind_eq_bind,Option.bind_eq_some_iff] at hfetch
  obtain ⟨e,hevict,hfetch⟩ := hfetch
  have hsame : e.frames = ∅ ∧ e.disk = s.disk := by
    refine evictWhile_inv (P := fun x => x.frames = ∅ ∧ x.disk = s.disk) ?_ ⟨hframes,rfl⟩ hevict
    rintro x ⟨hx,hdisk⟩
    rcases evictPage_cases x with hnop | ⟨v,f,hv,_⟩
    · rw [hnop]
      exact ⟨hx,hdisk⟩
    · rw [Victim,hx] at hv
      simp at hv
  have hread : (e.disk.readPage table pid).1 = some i := by
    rw [hsame.2,Disk.readPage,hout]
    exact himage
  simp only [hread] at hfetch
  obtain ⟨rfl,rfl⟩ := Prod.mk.inj (Option.some.inj hfetch)
  exact ⟨rfl,Finmap.lookup_insert _⟩

/-- Over a file whose page 0 leads to itself the constructor does not end. -/
theorem make_loops {d : Disk} {i : Page} (himage : d.images schema.id.toNat 0 = some i)
    (hid : i.getPageId = 0) (hnext : i.getNextPage = 0) (hout : d.outcomes 0 = true)
    (fuel n : ℕ) (next : PageId) : make fuel schema (BufferPool.new n d next) = none := by
  cases hmake : make fuel schema (BufferPool.new n d next) with
  | none => rfl
  | some r =>
    obtain ⟨⟨first,s₁⟩,hfetch,hrest⟩ := Option.bind_eq_some_iff.mp hmake
    obtain ⟨rfl,hframe⟩ := fetchPage_read rfl himage hout hfetch
    rw [hid] at hframe hrest
    obtain ⟨⟨last,s₂⟩,hloop,_⟩ := Option.bind_eq_some_iff.mp hrest
    have hnever := findLastPage_loops schema.id.toNat fuel hframe rfl hid hnext
    rw [hnever] at hloop
    cases hloop

/-- Once everything is flushed, page 0 can be read. -/
theorem flushed_page_zero {table : TableId} {s : BufferPool} (h : Stored table s)
    {order : List PageId} (horder : s.Enumerates order) :
    ∃ i, (s.flushAll order).disk.images table 0 = some i ∧ i.getPageId = 0 ∧ i.getNextPage = 0 := by
  have hflushed := (Stored.stable table).flushAll h order
  rcases hflushed.covered with hpage | ⟨p,f,_,hf,hdirty,_⟩
  · obtain ⟨i,hi⟩ := Option.isSome_iff_exists.mp hpage
    obtain ⟨hid,hnext⟩ := hflushed.images 0 i hi
    have hzero : i.getPageId = 0 := hid.elim id id
    exact ⟨i,hi,hzero,hnext hzero⟩
  · rw [flushAll_clean horder hf] at hdirty
    cases hdirty

/-- A table opened anew over the files as they are after a flush: the constructor ends, and a scan
gives the rows that a scan of the old table gives. -/
def Reopens (schema : TableSchema) (t : PooledTable) (s : BufferPool) (order : List PageId)
    (n : ℕ) (next : PageId) : Prop :=
  ∃ fuel t' s', make fuel schema (BufferPool.new n (s.flushAll order).disk next) = some (t',s') ∧
    ∃ rows s₁ s₂, t.scan fuel 0 s = some (rows,s₁) ∧ t'.scan fuel 0 s' = some (rows,s₂)

theorem not_reopens_of_stored {s : BufferPool} (h : Stored schema.id.toNat s) {order : List PageId}
    (horder : s.Enumerates order) (t : PooledTable) (n : ℕ) (next : PageId) :
    ¬Reopens schema t s order n next := by
  rintro ⟨fuel,t',s',hmake,_⟩
  obtain ⟨i,himage,hid,hnext⟩ := flushed_page_zero h horder
  have hout := ((Stored.stable _).flushAll h order).outcomes 0
  rw [make_loops himage hid hnext hout fuel n next] at hmake
  cases hmake

/-- Whatever is done with a table that was opened over an empty file, it cannot be opened again. -/
theorem table_never_reopens (schema : TableSchema) {d : Disk} (hfile : EmptyFile d schema.id.toNat)
    (n : ℕ) {next : PageId} (hnext : 1 ≤ next) (ops : List TableOp) {fuel : ℕ}
    {t₀ t : PooledTable} {s₀ s : BufferPool}
    (hopen : make fuel schema (BufferPool.new n d next) = some (t₀,s₀))
    (hops : t₀.execAll fuel ops s₀ = some (t,s)) {order : List PageId}
    (horder : s.Enumerates order) (n' : ℕ) (next' : PageId) :
    ¬Reopens schema t s order n' next' := by
  obtain ⟨hstored,hopened⟩ := make_stored (hfile.blank n hnext) hopen
  have hafter := (keeps_execAll hopened fuel ops s₀ t s hstored hops).1
  exact not_reopens_of_stored hafter horder t n' next'

theorem emptyFile_empty (table : TableId) : EmptyFile Disk.empty table :=
  ⟨fun _ => rfl,fun _ => rfl,fun _ => rfl⟩

/-- A table with one column of integers. -/
def numbers : TableSchema :=
  { TableSchema.new with
    id := 1
    columns := [{ ColumnSchema.new with type := .integer }] }

theorem table_never_reopens_numbers :
    ∃ t₀ s₀ t s, make 9 numbers (BufferPool.new 10 Disk.empty 1) = some (t₀,s₀) ∧
      t₀.execAll 9 [.insertRecord [Value.ofInt 7]] s₀ = some (t,s) ∧ s.Enumerates [1,2] ∧
      ¬Reopens numbers t s [1,2] 10 1 := by
  obtain ⟨t₀,s₀,t,s,hopen,hops,horder⟩ : ∃ t₀ s₀ t s,
      make 9 numbers (BufferPool.new 10 Disk.empty 1) = some (t₀,s₀) ∧
      t₀.execAll 9 [.insertRecord [Value.ofInt 7]] s₀ = some (t,s) ∧ s.Enumerates [1,2] :=
    ⟨_,_,_,_,rfl,rfl,by decide⟩
  exact ⟨t₀,s₀,t,s,hopen,hops,horder,table_never_reopens numbers (emptyFile_empty _) 10 le_rfl _
    hopen hops horder 10 1⟩

/-- Nothing but the opening and a flush. -/
theorem empty_table_not_reopened :
    ∃ t s, make 9 numbers (BufferPool.new 10 Disk.empty 1) = some (t,s) ∧ s.Enumerates [1] ∧
      ¬Reopens numbers t s [1] 10 1 := by
  have hopen : make 9 numbers (BufferPool.new 10 Disk.empty 1) = some (_,_) := rfl
  have hblank := (emptyFile_empty numbers.id.toNat).blank 10 (le_refl 1)
  exact ⟨_,_,hopen,by decide,not_reopens_of_stored (make_stored hblank hopen).1 (by decide) _ 10 1⟩

end PooledTable

end Opening

end OrangeSQL
