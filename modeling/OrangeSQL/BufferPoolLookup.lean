import OrangeSQL.BufferPoolInvariant

/-! Which page a fetch returns. The frame map is keyed by the page id alone and a page that was
read is stored under the id in its own header, so a run is followed with the table for which
each cache entry was filled. -/
namespace OrangeSQL
namespace BufferPool

open Page FiniteMap

/-- The page is the one with this id of this table. -/
def IsPage (q : Page) (t : TableId) (p : PageId) : Prop := q.getTableId = t ∧ q.getPageId = p

/-- Every cached page stands under its own id and belongs to the table its entry was filled for. -/
def Owned (s : BufferPool) (own : PageId → TableId) : Prop :=
  ∀ p f, s.frames.lookup p = some f → IsPage f.page (own p) p

theorem Owned.insert {s s' : BufferPool} {own : PageId → TableId} (h : Owned s own) {p : PageId}
    {f : BufferFrame} (hframes : s'.frames = s.frames.insert p f) (hf : IsPage f.page (own p) p) :
    Owned s' own := by
  intro q g hg
  rw [hframes] at hg
  rcases lookup_insert_cases hg with ⟨rfl,rfl⟩ | hold
  · exact hf
  · exact h q g hold

theorem Owned.stable (own : PageId → TableId) : Stable fun s => Owned s own where
  drop h _ := fun q g hg => h q g (by simpa using lookup_dropFrame hg)
  flush := by
    intro s p f h hf _
    have hpage : IsPage f.page.clearDirty (own p) p := h p f hf
    exact h.insert (f := { f with page := f.page.clearDirty, dirty := false }) rfl hpage
  touch := by
    intro s s' p f g h hf hpage _ hframes _ _
    refine h.insert hframes ?_
    rw [hpage]
    exact h p f hf
  read _ _ h := h
  resize _ h := h

/-- What a fetch has to find for the page asked for to come back: a cached page was cached for
this table, and a page that is not cached has the right header in its file when the evictions
have made room for it. -/
def Meets (s : BufferPool) (own : PageId → TableId) (t : TableId) (p : PageId) : Prop :=
  (p ∈ s.frames → own p = t) ∧
  (p ∉ s.frames → ∀ fuel e i, evictWhile s.poolSize fuel s = some e →
    e.disk.images t p = some i → IsPage i t p)

/-- A call that is no fetch has no condition. -/
def OpMeets (s : BufferPool) (own : PageId → TableId) : PoolOp → Prop
  | .fetchPage t p _ => Meets s own t p
  | _ => True

/-- The table for which each cache entry was filled last, after one more call. -/
def fill (s : BufferPool) (own : PageId → TableId) : PoolOp → PageId → TableId
  | .fetchPage t p _ => if p ∈ s.frames then own else Function.update own p t
  | .createNewPage t _ => Function.update own s.nextPageId t
  | _ => own

/-- A fetch that returned a page: the table and the id asked for, and the page. -/
def answers : PoolOp → Option Page → List (TableId × PageId × Page)
  | .fetchPage t p _, some q => [(t,p,q)]
  | _, _ => []

/-- In a state where the entries are owned, a fetch that returns a page returns the one asked
for exactly when it meets the condition. -/
theorem Owned.fetchPage_iff {fuel : ℕ} {s s' : BufferPool} {own : PageId → TableId} {t : TableId}
    {p : PageId} {mode : FetchMode} {q : Page} (h : Owned s own)
    (hfetch : s.fetchPage fuel t p mode = some (some q,s')) :
    IsPage q t p ↔ Meets s own t p := by
  rcases fetchPage_cases hfetch with ⟨f,hlook,hr,_⟩ | ⟨hnone,e,hevict,hread⟩
  · obtain rfl := Option.some.inj hr
    have hmem : p ∈ s.frames := Finmap.mem_of_lookup_eq_some hlook
    have hf := h p f hlook
    constructor
    · intro hq
      exact ⟨fun _ => hf.1.symm.trans hq.1,fun hnot => absurd hmem hnot⟩
    · intro hmeets
      exact ⟨hf.1.trans (hmeets.1 hmem),hf.2⟩
  · have hmem : p ∉ s.frames := Finmap.lookup_eq_none.mp hnone
    rcases hread with ⟨hr,_⟩ | ⟨i,hi,hr,_⟩
    · cases hr
    · obtain rfl := Option.some.inj hr
      constructor
      · intro hq
        refine ⟨fun hin => absurd hin hmem,?_⟩
        intro _ fuel' e' j hevict' hj
        rw [← evictWhile_unique hevict hevict',hi] at hj
        obtain rfl := Option.some.inj hj
        exact hq
      · intro hmeets
        exact hmeets.2 hmem fuel e i hevict hi

theorem Owned.update {s : BufferPool} {own : PageId → TableId} (h : Owned s own) {p : PageId}
    (hp : p ∉ s.frames) (t : TableId) : Owned s (Function.update own p t) := by
  intro q f hf
  have hne : q ≠ p := by
    rintro rfl
    exact hp (Finmap.mem_of_lookup_eq_some hf)
  rw [Function.update_of_ne hne]
  exact h q f hf

theorem Owned.exec {fuel : ℕ} {s s' : BufferPool} {own : PageId → TableId} {op : PoolOp}
    {r : Option Page} (h : Owned s own) (hmeets : OpMeets s own op)
    (hexec : s.exec fuel op = some (r,s')) : Owned s' (fill s own op) := by
  cases op with
  | fetchPage t p mode =>
    rcases fetchPage_cases hexec with ⟨f,hlook,_,rfl⟩ | ⟨hnone,e,hevict,hread⟩
    · have hmem : p ∈ s.frames := Finmap.mem_of_lookup_eq_some hlook
      rw [fill,if_pos hmem]
      exact h.insert (f := f.touch mode) rfl (h p f hlook)
    · have hmem : p ∉ s.frames := Finmap.lookup_eq_none.mp hnone
      have he : Owned e own := fun q f hf => h q f (evictWhile_lookup hevict hf)
      have hpe : p ∉ e.frames := by
        intro hin
        obtain ⟨f,hf⟩ := Finmap.mem_iff.mp hin
        exact hmem (Finmap.mem_of_lookup_eq_some (evictWhile_lookup hevict hf))
      rw [fill,if_neg hmem]
      have hu := he.update hpe t
      rcases hread with ⟨_,rfl⟩ | ⟨i,hi,_,rfl⟩
      · exact hu
      · have hid := hmeets.2 hmem fuel e i hevict hi
        refine hu.insert (p := p) (f := BufferFrame.make i.clearDirty false mode) ?_ ?_
        · simp only [addFrame,hid.2]
        · rw [Function.update_self]
          exact hid
  | createNewPage t type =>
    obtain ⟨e,he,_,_,rfl⟩ := (stable own).createNewPage h hexec
    intro q g hg
    by_cases hq : q = s.nextPageId
    · subst hq
      rw [addFrame,Finmap.lookup_insert] at hg
      obtain rfl := Option.some.inj hg
      rw [fill,Function.update_self]
      exact ⟨rfl,rfl⟩
    · rw [addFrame,Finmap.lookup_insert_of_ne _ hq] at hg
      rw [fill,Function.update_of_ne hq]
      exact he q g hg
  | _ =>
    refine (stable own).exec h ?_ (by simp) (by simp) hexec
    intro order _ q g hg
    simp [discardAll] at hg

/-- Runs whose fetches all meet the condition, with the filling table of each entry and the
fetches that were answered. -/
inductive MeetingRun (start : BufferPool) :
    BufferPool → (PageId → TableId) → List (TableId × PageId × Page) → Prop
  | start (own : PageId → TableId) : MeetingRun start start own []
  | call {s s' : BufferPool} {own : PageId → TableId} {log : List (TableId × PageId × Page)}
      {fuel : ℕ} {op : PoolOp} {r : Option Page} :
      MeetingRun start s own log → OpMeets s own op → s.exec fuel op = some (r,s') →
      MeetingRun start s' (fill s own op) (answers op r++log)

theorem MeetingRun.owned {start s : BufferPool} {own : PageId → TableId}
    {log : List (TableId × PageId × Page)} (h : MeetingRun start s own log)
    (hstart : start.frames = ∅) :
    Owned s own ∧ ∀ t p q, (t,p,q) ∈ log → IsPage q t p := by
  induction h with
  | start own =>
    refine ⟨?_,by simp⟩
    intro p f hf
    simp [hstart] at hf
  | @call s s' own log fuel op r _ hmeets hexec ih =>
    refine ⟨ih.1.exec hmeets hexec,?_⟩
    intro t p q hmem
    rcases List.mem_append.mp hmem with hnew | hold
    · cases op with
      | fetchPage t' p' mode =>
        cases r with
        | none => simp [answers] at hnew
        | some q' =>
          simp only [answers,List.mem_singleton,Prod.mk.injEq] at hnew
          obtain ⟨rfl,rfl,rfl⟩ := hnew
          exact (ih.1.fetchPage_iff hexec).mpr hmeets
      | _ => simp [answers] at hnew
    · exact ih.2 t p q hold

/-- As long as every fetch meets the condition, every page returned is the page asked for; and a
fetch from there on that returns a page returns the page asked for exactly if it meets the
condition too. -/
theorem meetingRun_returns_page_asked_for (n : ℕ) (disk : Disk) (next : PageId) {s : BufferPool}
    {own : PageId → TableId} {log : List (TableId × PageId × Page)}
    (h : MeetingRun (BufferPool.new n disk next) s own log) :
    (∀ t p q, (t,p,q) ∈ log → IsPage q t p) ∧
    ∀ fuel t p mode q s', s.fetchPage fuel t p mode = some (some q,s') →
      (IsPage q t p ↔ Meets s own t p) := by
  obtain ⟨howned,hlog⟩ := h.owned rfl
  exact ⟨hlog,fun _ _ _ _ _ _ hfetch => howned.fetchPage_iff hfetch⟩

/-- The first pages of tables one and two, each with its own header. -/
def twoTables : Disk :=
  { Disk.empty with
    images := fun t p => if (t = 1 ∨ t = 2) ∧ p = 0 then some (Page.new 0 t) else none }

theorem meetingRun_returns_page_asked_for_one_table :
    ∃ s own q, MeetingRun (BufferPool.new 2 twoTables 1) s own [(1,0,q)] ∧ IsPage q 1 0 := by
  have hfetch : (BufferPool.new 2 twoTables 1).exec 1 (.fetchPage 1 0 .read) = some (some _,_) :=
    rfl
  have hmeets : OpMeets (BufferPool.new 2 twoTables 1) (fun _ => 1) (.fetchPage 1 0 .read) := by
    refine ⟨fun _ => rfl,?_⟩
    intro _ fuel e i hevict hi
    have he : BufferPool.new 2 twoTables 1 = e := evictWhile_unique (show evictWhile 2 1 _ = some _ from rfl) hevict
    subst he
    obtain rfl := Option.some.inj (show some (Page.new 0 1) = some i from hi)
    exact ⟨rfl,rfl⟩
  have hrun := MeetingRun.call (.start (fun _ => 1)) hmeets hfetch
  have hright := (meetingRun_returns_page_asked_for 2 twoTables 1 hrun).1 1 0 _
    List.mem_cons_self
  exact ⟨_,_,_,hrun,hright⟩

/-- Both images are well labelled, but after the first table's page was fetched the second table
is given that page too. -/
theorem second_table_given_first_page :
    (∀ t p i, twoTables.images t p = some i → IsPage i t p) ∧
    ∃ r s q s', (BufferPool.new 2 twoTables 1).exec 1 (.fetchPage 1 0 .read) = some (r,s) ∧
      s.fetchPage 1 2 0 .read = some (some q,s') ∧ ¬ IsPage q 2 0 := by
  constructor
  · intro t p i hi
    simp only [twoTables] at hi
    split_ifs at hi with hkey
    obtain rfl := Option.some.inj hi
    exact ⟨rfl,hkey.2.symm⟩
  · exact ⟨_,_,_,_,rfl,rfl,fun hpage => absurd hpage.1 (by decide)⟩

end BufferPool
end OrangeSQL
