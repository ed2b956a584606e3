import OrangeSQL.BufferPoolLookup
import OrangeSQL.Engine
import OrangeSQL.PageWrites

/-! What the buffer pool does not hold as dirty is on disk, as long as the writes succeed: the pool
ignores the result of a write, and marks the page clean or drops it in any case. -/
namespace OrangeSQL

open Page

section Holds

/-- The place of a page holds its content: all of it but the mark in the header that says whether
it is dirty, which a page read from disk is free of. -/
def Disk.Holds (d : Disk) (p : Page) : Prop :=
  (d.images p.getTableId p.getPageId).map clearDirty = some p.clearDirty

theorem Disk.holds_congr {d : Disk} {p q : Page} (h : p.clearDirty = q.clearDirty) :
    d.Holds p ↔ d.Holds q := by
  have htable : p.clearDirty.getTableId = q.clearDirty.getTableId := by rw [h]
  have hpid : p.clearDirty.getPageId = q.clearDirty.getPageId := by rw [h]
  change p.getTableId = q.getTableId at htable
  change p.getPageId = q.getPageId at hpid
  rw [Disk.Holds,Disk.Holds,htable,hpid,h]

theorem Disk.writePage_holds {d : Disk} (h : d.outcomes 0 = true) (p : Page) :
    (d.writePage p).Holds p := by
  simp [Disk.Holds,Disk.writePage,h,Disk.grown]

/-- A write leaves the pages with other ids alone. -/
theorem Disk.Holds.writePage {d : Disk} {q : Page} (h : d.Holds q) {p : Page}
    (hne : q.getPageId ≠ p.getPageId) : (d.writePage p).Holds q := by
  obtain ⟨image,himage,hclear⟩ := Option.map_eq_some_iff.mp h
  rw [Disk.Holds,Disk.writePage]
  by_cases hout : d.outcomes 0 = true
  · by_cases htable : q.getTableId = p.getTableId
    · simp only [hout,if_true,htable,Function.update_self,Disk.grown,if_neg hne]
      rw [← htable,himage]
      split <;> simp [hclear]
    · simp only [hout,if_true,Function.update_of_ne htable,himage,Option.map_some,hclear]
  · simp only [hout,if_false,Bool.false_eq_true,himage,Option.map_some,hclear]

end Holds

namespace BufferPool

/-- Frames are stored under the id of their page, and what is not dirty is on disk. -/
structure WrittenBack (s : BufferPool) : Prop where
  keyed : ∀ p f, s.frames.lookup p = some f → f.page.getPageId = p
  clean : ∀ p f, s.frames.lookup p = some f → f.dirty = false → s.disk.Holds f.page

/-- If there is an image to write, the coming file operation succeeds. -/
def WriteSucceeds (s : BufferPool) (image : Option Page) : Prop :=
  image.isSome = true → s.disk.outcomes 0 = true

section Steps

/-- Writing a frame back, where that succeeds, puts it on disk and takes nothing off it. -/
theorem WrittenBack.writeIfDirty {s : BufferPool} (h : WrittenBack s) {p : PageId} {f : BufferFrame}
    (hf : s.frames.lookup p = some f) (hok : s.WriteSucceeds (s.dirtyImage p)) :
    WrittenBack (s.writeIfDirty f) ∧ (s.writeIfDirty f).disk.Holds f.page := by
  cases hdirty : f.dirty with
  | false =>
    have hsame : s.writeIfDirty f = s := by simp [BufferPool.writeIfDirty,hdirty]
    rw [hsame]
    exact ⟨h,h.clean p f hf hdirty⟩
  | true =>
    have hout : s.disk.outcomes 0 = true := hok (by simp [dirtyImage,hf,hdirty])
    have hdisk : (s.writeIfDirty f).disk = s.disk.writePage f.page := by
      simp [BufferPool.writeIfDirty,hdirty]
    refine ⟨⟨by simpa using h.keyed,?_⟩,?_⟩
    · intro q g hg hclean
      rw [writeIfDirty_frames] at hg
      rw [hdisk]
      refine (h.clean q g hg hclean).writePage ?_
      rw [h.keyed q g hg,h.keyed p f hf]
      rintro rfl
      obtain rfl := Option.some.inj (hg.symm.trans hf)
      rw [hdirty] at hclean
      cases hclean
    · rw [hdisk]
      exact Disk.writePage_holds hout f.page

theorem WrittenBack.dropFrame {s : BufferPool} (h : WrittenBack s) (v : PageId) :
    WrittenBack (s.dropFrame v) :=
  ⟨fun p f hf => h.keyed p f (lookup_dropFrame hf),fun p f hf => h.clean p f (lookup_dropFrame hf)⟩

/-- A frame that is stored under the id of its page, and is dirty or on disk. -/
theorem WrittenBack.insert {s s' : BufferPool} (h : WrittenBack s) {p : PageId} {f : BufferFrame}
    (hid : f.page.getPageId = p) (hclean : f.dirty = false → s.disk.Holds f.page)
    (hframes : s'.frames = s.frames.insert p f) (hdisk : s'.disk.images = s.disk.images) :
    WrittenBack s' := by
  have hholds : ∀ q, s'.disk.Holds q ↔ s.disk.Holds q := by
    intro q
    rw [Disk.Holds,Disk.Holds,hdisk]
  constructor
  · intro q g hg
    rw [hframes] at hg
    rcases FiniteMap.lookup_insert_cases hg with ⟨rfl,rfl⟩ | hold
    · exact hid
    · exact h.keyed q g hold
  · intro q g hg hgclean
    rw [hholds]
    rw [hframes] at hg
    rcases FiniteMap.lookup_insert_cases hg with ⟨rfl,rfl⟩ | hold
    · exact hclean hgclean
    · exact h.clean q g hold hgclean

theorem WrittenBack.of_disk {s s' : BufferPool} (h : WrittenBack s) (hframes : s'.frames = s.frames)
    (hdisk : s'.disk.images = s.disk.images) : WrittenBack s' := by
  constructor
  · rw [hframes]
    exact h.keyed
  · intro p f hf hclean
    rw [hframes] at hf
    rw [Disk.Holds,hdisk]
    exact h.clean p f hf hclean

/-- An eviction does nothing, or writes the image it has to write and drops the frame. -/
theorem evictPage_image_cases (s : BufferPool) :
    s.evictPage = s ∨ ∃ v f, s.frames.lookup v = some f ∧ s.evictImage = s.dirtyImage v ∧
      s.evictPage = (s.writeIfDirty f).dropFrame v := by
  by_cases hvictim : s.selectVictim = invalidPageId
  · exact Or.inl (by simp [BufferPool.evictPage,hvictim])
  · cases hlook : s.frames.lookup s.selectVictim with
    | none => exact Or.inl (by simp [BufferPool.evictPage,hlook])
    | some f =>
      refine Or.inr ⟨s.selectVictim,f,hlook,by simp [evictImage,hvictim],?_⟩
      simp [BufferPool.evictPage,hvictim,hlook]

/-- What a step drops is on disk after it. -/
def DropsNothingElse (s s' : BufferPool) : Prop :=
  ∀ p f, s.frames.lookup p = some f → p ∉ s'.frames → s'.disk.Holds f.page

theorem WrittenBack.dropWritten {s : BufferPool} (h : WrittenBack s) {v : PageId} {f : BufferFrame}
    (hf : s.frames.lookup v = some f) (hok : s.WriteSucceeds (s.dirtyImage v)) :
    WrittenBack ((s.writeIfDirty f).dropFrame v) ∧
      DropsNothingElse s ((s.writeIfDirty f).dropFrame v) := by
  obtain ⟨hwritten,hholds⟩ := h.writeIfDirty hf hok
  refine ⟨hwritten.dropFrame v,?_⟩
  intro p g hg hgone
  by_cases hp : p = v
  · subst hp
    obtain rfl := Option.some.inj (hg.symm.trans hf)
    exact hholds
  · exfalso
    apply hgone
    apply Finmap.mem_of_lookup_eq_some (b := g)
    rwa [BufferPool.dropFrame,Finmap.lookup_erase_ne hp,writeIfDirty_frames]

theorem WrittenBack.evictPage {s : BufferPool} (h : WrittenBack s)
    (hok : s.WriteSucceeds s.evictImage) :
    WrittenBack s.evictPage ∧ DropsNothingElse s s.evictPage := by
  rcases evictPage_image_cases s with hnop | ⟨v,f,hf,himage,hevict⟩
  · rw [hnop]
    exact ⟨h,fun p f hf hgone => absurd (Finmap.mem_of_lookup_eq_some hf) hgone⟩
  · rw [hevict]
    exact h.dropWritten hf (himage ▸ hok)

/-- One of the evictions of a loop with this limit. -/
def EvictsIn (limit : ℕ) (s s₁ s₂ : BufferPool) : Prop :=
  ∃ k, (∀ j ≤ k, limit ≤ (evictPage^[j] s).size) ∧ s₁ = evictPage^[k] s ∧ s₂ = s₁.evictPage

/-- All evictions of the loop that have an image to write succeed in it. -/
def LoopSucceeds (limit : ℕ) (s : BufferPool) : Prop :=
  ∀ s₁ s₂, EvictsIn limit s s₁ s₂ → s₁.WriteSucceeds s₁.evictImage

theorem EvictsIn.next {limit : ℕ} {s s₁ s₂ : BufferPool} (hfull : limit ≤ s.size)
    (h : EvictsIn limit s.evictPage s₁ s₂) : EvictsIn limit s s₁ s₂ := by
  obtain ⟨k,hsize,hs₁,hs₂⟩ := h
  refine ⟨k+1,?_,by rw [hs₁,← Function.iterate_succ_apply],hs₂⟩
  intro j hj
  cases j with
  | zero => exact hfull
  | succ j =>
    rw [Function.iterate_succ_apply]
    exact hsize j (Nat.le_of_succ_le_succ hj)

/-- Up to each eviction of a loop, what is clean is on disk. -/
theorem WrittenBack.iterate {limit : ℕ} {s : BufferPool} (h : WrittenBack s)
    (hok : LoopSucceeds limit s) {k : ℕ}
    (hfull : ∀ j < k, limit ≤ (BufferPool.evictPage^[j] s).size) :
    WrittenBack (BufferPool.evictPage^[k] s) := by
  induction k with
  | zero => exact h
  | succ k ih =>
    have hk := ih fun j hj => hfull j (Nat.lt_succ_of_lt hj)
    rw [Function.iterate_succ_apply']
    refine (hk.evictPage (hok _ _ ⟨k,?_,rfl,rfl⟩)).1
    intro j hj
    exact hfull j (Nat.lt_succ_of_le hj)

theorem WrittenBack.evictsIn {limit : ℕ} {s s₁ s₂ : BufferPool} (h : WrittenBack s)
    (hok : LoopSucceeds limit s) (hevicts : EvictsIn limit s s₁ s₂) : DropsNothingElse s₁ s₂ := by
  have hwrite := hok s₁ s₂ hevicts
  obtain ⟨k,hfull,rfl,rfl⟩ := hevicts
  exact ((h.iterate hok fun j hj => hfull j hj.le).evictPage hwrite).2

theorem WrittenBack.evictWhile {limit fuel : ℕ} {s s' : BufferPool} (h : WrittenBack s)
    (hok : LoopSucceeds limit s) (hloop : BufferPool.evictWhile limit fuel s = some s') :
    WrittenBack s' := by
  induction fuel generalizing s with
  | zero => simp [BufferPool.evictWhile] at hloop
  | succ fuel ih =>
    simp only [BufferPool.evictWhile] at hloop
    split_ifs at hloop with hfull
    · have hfirst : EvictsIn limit s s s.evictPage := by
        refine ⟨0,?_,rfl,rfl⟩
        intro j hj
        rw [Nat.le_zero.mp hj]
        exact hfull
      exact ih (h.evictPage (hok _ _ hfirst)).1
        (fun s₁ s₂ hevicts => hok s₁ s₂ (hevicts.next hfull)) hloop
    · rwa [← Option.some.inj hloop]

theorem WrittenBack.flushPage {s : BufferPool} (h : WrittenBack s) {p : PageId}
    (hok : s.WriteSucceeds (s.dirtyImage p)) : WrittenBack (s.flushPage p) := by
  rcases flushPage_cases s p with hnop | ⟨f,hlook,_,hflush⟩
  · rwa [hnop]
  · obtain ⟨hwritten,hholds⟩ := h.writeIfDirty hlook hok
    rw [hflush]
    exact hwritten.insert (f := { f with page := f.page.clearDirty, dirty := false })
      (h.keyed p f hlook) (fun _ => (Disk.holds_congr rfl).mp hholds) (by simp) rfl

/-- The flush of a page keeps every frame, but for marks, and leaves the page itself clean. -/
theorem flushPage_lookup {s : BufferPool} {p q : PageId} {f : BufferFrame}
    (h : s.frames.lookup q = some f) :
    ∃ g, (s.flushPage p).frames.lookup q = some g ∧ g.page.clearDirty = f.page.clearDirty ∧
      ((f.dirty = false ∨ q = p) → g.dirty = false) := by
  cases hdirty : f.dirty with
  | false =>
    rcases flushPage_cases s p with hnop | ⟨f',hlook,hdirty',hflush⟩
    · exact ⟨f,by rw [hnop,h],rfl,fun _ => hdirty⟩
    · have hne : q ≠ p := by
        rintro rfl
        obtain rfl := Option.some.inj (h.symm.trans hlook)
        rw [hdirty] at hdirty'
        cases hdirty'
      exact ⟨f,by rw [hflush,Finmap.lookup_insert_of_ne _ hne,h],rfl,fun _ => hdirty⟩
  | true =>
    by_cases hq : q = p
    · subst hq
      refine ⟨{ f with page := f.page.clearDirty, dirty := false },?_,rfl,fun _ => rfl⟩
      simp [BufferPool.flushPage,h,hdirty]
    · refine ⟨f,?_,rfl,by simp [hq]⟩
      rcases flushPage_cases s p with hnop | ⟨f',_,_,hflush⟩
      · rw [hnop,h]
      · rw [hflush,Finmap.lookup_insert_of_ne _ hq,h]

theorem flushAll_lookup {s : BufferPool} (order : List PageId) {q : PageId} {f : BufferFrame}
    (h : s.frames.lookup q = some f) :
    ∃ g, (s.flushAll order).frames.lookup q = some g ∧ g.page.clearDirty = f.page.clearDirty ∧
      ((f.dirty = false ∨ q ∈ order) → g.dirty = false) := by
  induction order generalizing s f with
  | nil => exact ⟨f,h,rfl,by simp⟩
  | cons p order ih =>
    obtain ⟨g,hg,hpage,hclean⟩ := flushPage_lookup (p := p) h
    obtain ⟨g',hg',hpage',hclean'⟩ := ih hg
    refine ⟨g',hg',hpage'.trans hpage,?_⟩
    rintro (hf | hmem)
    · exact hclean' (Or.inl (hclean (Or.inl hf)))
    · rcases List.mem_cons.mp hmem with hq | hmem
      · exact hclean' (Or.inl (hclean (Or.inr hq)))
      · exact hclean' (Or.inr hmem)

/-- A flush brings no frame into the pool. -/
theorem lookup_of_flushAll {s : BufferPool} (order : List PageId) {q : PageId} {g : BufferFrame}
    (h : (s.flushAll order).frames.lookup q = some g) : ∃ f, s.frames.lookup q = some f := by
  refine flushAll_inv (P := fun x => ∀ g, x.frames.lookup q = some g →
    ∃ f, s.frames.lookup q = some f) ?_ (fun g hg => ⟨g,hg⟩) order g h
  intro x p hx g hg
  rcases flushPage_cases x p with hnop | ⟨f,hlook,_,hflush⟩
  · rw [hnop] at hg
    exact hx g hg
  · rw [hflush] at hg
    rcases FiniteMap.lookup_insert_cases hg with ⟨rfl,rfl⟩ | hold
    · exact hx f hlook
    · exact hx g hold

theorem flushAll_clean {s : BufferPool} {order : List PageId} (horder : s.Enumerates order)
    {q : PageId} {g : BufferFrame} (h : (s.flushAll order).frames.lookup q = some g) :
    g.dirty = false := by
  obtain ⟨f,hf⟩ := lookup_of_flushAll order h
  obtain ⟨g',hg',_,hclean⟩ := flushAll_lookup order hf
  obtain rfl := Option.some.inj (hg'.symm.trans h)
  exact hclean (Or.inr (horder.mem_of_lookup hf))

/-- All writes of a flush of these pages succeed. -/
def FlushSucceeds (s : BufferPool) (order : List PageId) : Prop :=
  ∀ before p after, order = before++p::after →
    (s.flushAll before).WriteSucceeds ((s.flushAll before).dirtyImage p)

theorem WrittenBack.flushAll {s : BufferPool} (h : WrittenBack s) {order : List PageId}
    (hok : s.FlushSucceeds order) : WrittenBack (s.flushAll order) := by
  induction order generalizing s with
  | nil => exact h
  | cons p order ih =>
    refine ih (h.flushPage (hok [] p order rfl)) ?_
    intro before q after horder
    exact hok (p::before) q after (by rw [horder]; rfl)

/-- What all pages are discarded from is on disk. -/
theorem WrittenBack.discardAll {s : BufferPool} (h : WrittenBack s) {order : List PageId}
    (horder : s.Enumerates order) (hok : s.FlushSucceeds order) :
    WrittenBack (s.discardAll order) ∧ DropsNothingElse s (s.discardAll order) := by
  have hflush := h.flushAll hok
  have hempty : (s.discardAll order).frames = ∅ := rfl
  constructor
  · constructor <;> simp [hempty]
  · intro p f hf _
    have hmem := horder.mem_of_lookup hf
    obtain ⟨g,hg,hpage,hclean⟩ := flushAll_lookup order hf
    have hholds := hflush.clean p g hg (hclean (Or.inr hmem))
    exact (Disk.holds_congr hpage).mp hholds

end Steps

section Runs

/-- Every write that a call makes succeeds. -/
def WritesSucceed (s : BufferPool) : PoolOp → Prop
  | .fetchPage _ p _ => p ∉ s.frames → LoopSucceeds s.poolSize s
  | .createNewPage _ _ => LoopSucceeds s.poolSize s
  | .unpinPage _ _ => True
  | .flushPage p => s.WriteSucceeds (s.dirtyImage p)
  | .flushAll order => s.FlushSucceeds order
  | .discardPage p => s.WriteSucceeds (s.dirtyImage p)
  | .discardAll order => s.FlushSucceeds order
  | .setPoolSize n => LoopSucceeds (min n maxPoolSize+1) s

/-- The image that a fetch finds in the file, once it has made room, carries the ids it is asked for
under. -/
def ReadsOwn (s : BufferPool) : PoolOp → Prop
  | .fetchPage t p _ => p ∉ s.frames → ∀ fuel e i, BufferPool.evictWhile s.poolSize fuel s = some e →
      e.disk.images t p = some i → IsPage i t p
  | _ => True

/-- The states before and after each drop of frames in a call: an eviction, a discarded page, or
the discard of all. -/
def Drops (s : BufferPool) : PoolOp → BufferPool → BufferPool → Prop
  | .fetchPage _ p _, s₁, s₂ => p ∉ s.frames ∧ EvictsIn s.poolSize s s₁ s₂
  | .createNewPage _ _, s₁, s₂ => EvictsIn s.poolSize s s₁ s₂
  | .discardPage p, s₁, s₂ => s₁ = s ∧ s₂ = s.discardPage p
  | .discardAll order, s₁, s₂ => s.Enumerates order ∧ s₁ = s ∧ s₂ = s.discardAll order
  | .setPoolSize n, s₁, s₂ => EvictsIn (min n maxPoolSize+1) s s₁ s₂
  | _, _, _ => False

theorem WrittenBack.discardPage {s : BufferPool} (h : WrittenBack s) {p : PageId}
    (hok : s.WriteSucceeds (s.dirtyImage p)) :
    WrittenBack (s.discardPage p) ∧ DropsNothingElse s (s.discardPage p) := by
  rcases discardPage_cases s p with hnop | ⟨f,hlook,hdiscard⟩
  · rw [hnop]
    exact ⟨h,fun q f hf hgone => absurd (Finmap.mem_of_lookup_eq_some hf) hgone⟩
  · rw [hdiscard]
    exact h.dropWritten hlook hok

theorem WrittenBack.drops {s : BufferPool} (h : WrittenBack s) {op : PoolOp}
    (hok : s.WritesSucceed op) {s₁ s₂ : BufferPool} (hdrops : s.Drops op s₁ s₂) :
    DropsNothingElse s₁ s₂ := by
  cases op with
  | fetchPage t p mode => exact h.evictsIn (hok hdrops.1) hdrops.2
  | createNewPage t type => exact h.evictsIn hok hdrops
  | unpinPage p dirty => cases hdrops
  | flushPage p => cases hdrops
  | flushAll order => cases hdrops
  | discardPage p =>
    obtain ⟨rfl,rfl⟩ := hdrops
    exact (h.discardPage hok).2
  | discardAll order =>
    obtain ⟨horder,rfl,rfl⟩ := hdrops
    exact (h.discardAll horder hok).2
  | setPoolSize n => exact h.evictsIn hok hdrops

theorem WrittenBack.exec {fuel : ℕ} {s s' : BufferPool} {op : PoolOp} {r : Option Page}
    (h : WrittenBack s) (hok : s.WritesSucceed op) (hread : s.ReadsOwn op)
    (hexec : s.exec fuel op = some (r,s')) : WrittenBack s' := by
  cases op with
  | fetchPage t p mode =>
    rcases fetchPage_cases hexec with ⟨f,hlook,_,rfl⟩ | ⟨hnone,e,hevict,hcases⟩
    · have hdirty : (f.touch mode).dirty = false → f.dirty = false := by
        intro hclean
        exact (Bool.or_eq_false_iff.mp hclean).1
      exact h.insert (f := f.touch mode) (h.keyed p f hlook)
        (fun hclean => h.clean p f hlook (hdirty hclean)) rfl rfl
    · have hmiss : p ∉ s.frames := Finmap.lookup_eq_none.mp hnone
      have he : WrittenBack e := h.evictWhile (hok hmiss) hevict
      have hd : WrittenBack { e with disk := (e.disk.readPage t p).2 } := he.of_disk rfl rfl
      rcases hcases with ⟨_,rfl⟩ | ⟨i,hi,rfl,rfl⟩
      · exact hd
      · have hown : IsPage i.clearDirty t p := hread hmiss fuel e i hevict hi
        have hholds : e.disk.Holds i.clearDirty := by
          rw [Disk.Holds,hown.1,hown.2,hi]
          rfl
        exact hd.insert (f := BufferFrame.make i.clearDirty false mode) rfl (fun _ => hholds)
          rfl rfl
  | createNewPage t type =>
    obtain ⟨e,hevict,_,rfl⟩ := createNewPage_cases hexec
    have he : WrittenBack e := h.evictWhile hok hevict
    exact he.insert
      (f := BufferFrame.make ((Page.new s.nextPageId t).setType type) true .read) rfl
      (fun hclean => by cases hclean) rfl rfl
  | unpinPage p dirty =>
    obtain rfl := (Prod.mk.inj (Option.some.inj hexec)).2
    rcases unpinPage_cases s p dirty with hnop | ⟨f,hlook,hunpin⟩
    · rwa [hnop]
    · rw [hunpin]
      exact h.insert (f := { f with pinCount := f.pinCount-1, dirty := f.dirty || dirty })
        (h.keyed p f hlook)
        (fun hclean => h.clean p f hlook (Bool.or_eq_false_iff.mp hclean).1) rfl rfl
  | flushPage p =>
    obtain rfl := (Prod.mk.inj (Option.some.inj hexec)).2
    exact h.flushPage hok
  | flushAll order =>
    obtain ⟨_,_,rfl⟩ := exec_flushAll hexec
    exact h.flushAll hok
  | discardPage p =>
    obtain rfl := (Prod.mk.inj (Option.some.inj hexec)).2
    exact (h.discardPage hok).1
  | discardAll order =>
    obtain ⟨horder,_,rfl⟩ := exec_discardAll hexec
    exact (h.discardAll horder hok).1
  | setPoolSize n =>
    obtain ⟨e,hevict,_,rfl⟩ := exec_setPoolSize hexec
    exact (h.evictWhile hok hevict).of_disk rfl rfl

/-- A write through a pointer to a page that is marked dirty changes no frame that is clean. -/
theorem WrittenBack.modifyPage {s : BufferPool} (h : WrittenBack s) {p : PageId} {f : BufferFrame}
    (hf : s.frames.lookup p = some f) (hdirty : f.dirty = true) {change : Page → Page}
    (hid : (change f.page).getPageId = f.page.getPageId) :
    WrittenBack (Engine.modifyPage s p change) := by
  simp only [Engine.modifyPage,hf]
  exact h.insert (f := { f with page := change f.page }) (hid.trans (h.keyed p f hf))
    (fun hclean => by rw [hdirty] at hclean; cases hclean) rfl rfl

/-- A run of calls whose writes succeed and that read pages with their own ids. In between, clients
change pages that they have marked dirty. -/
inductive SuccessfulRun (start : BufferPool) : BufferPool → Prop
  | start : SuccessfulRun start start
  | call {s s' : BufferPool} {fuel : ℕ} {op : PoolOp} {r : Option Page} :
      SuccessfulRun start s → s.WritesSucceed op → s.ReadsOwn op →
      s.exec fuel op = some (r,s') → SuccessfulRun start s'
  | modify {s : BufferPool} {p : PageId} {f : BufferFrame} {change : Page → Page} :
      SuccessfulRun start s → s.frames.lookup p = some f → f.dirty = true →
      (change f.page).getPageId = f.page.getPageId →
      SuccessfulRun start (Engine.modifyPage s p change)

theorem SuccessfulRun.writtenBack {start s : BufferPool} (h : SuccessfulRun start s)
    (hstart : WrittenBack start) : WrittenBack s := by
  induction h with
  | start => exact hstart
  | call _ hok hread hexec ih => exact ih.exec hok hread hexec
  | modify _ hf hdirty hid ih => exact ih.modifyPage hf hdirty hid

theorem writtenBack_new (n : ℕ) (disk : Disk) (next : PageId) : WrittenBack (new n disk next) := by
  constructor <;> simp [new]

/-- Where the writes succeed, the disk holds in every state what is cached and not dirty, and after
every drop what was dropped. -/
theorem clean_or_dropped_on_disk (n : ℕ) (disk : Disk) (next : PageId) (s : BufferPool)
    (h : SuccessfulRun (new n disk next) s) :
    (∀ p f, s.frames.lookup p = some f → f.dirty = false → s.disk.Holds f.page) ∧
      ∀ op, s.WritesSucceed op → ∀ s₁ s₂, s.Drops op s₁ s₂ →
        ∀ p f, s₁.frames.lookup p = some f → p ∉ s₂.frames → s₂.disk.Holds f.page := by
  have hs := h.writtenBack (writtenBack_new n disk next)
  exact ⟨hs.clean,fun op hok s₁ s₂ hdrops => hs.drops hok hdrops⟩

theorem clean_or_dropped_on_disk_after_flush :
    ∃ s f, SuccessfulRun (new 2 Disk.empty 1) s ∧ s.frames.lookup 1 = some f ∧
      f.dirty = false ∧ s.disk.Holds f.page := by
  have hroom : (new 2 Disk.empty 1).WritesSucceed (.createNewPage 7 .dataPage) := by
    rintro s₁ s₂ ⟨k,hfull,_⟩
    exact absurd (hfull 0 (Nat.zero_le k)) (by decide)
  have hcreate : (new 2 Disk.empty 1).exec 1 (.createNewPage 7 .dataPage) = some (some _,_) := rfl
  have hcreated := SuccessfulRun.call .start hroom trivial hcreate
  have hflushed :=
    @SuccessfulRun.call _ _ _ 0 (.flushPage 1) _ hcreated (fun _ => rfl) trivial rfl
  have hdisk := (clean_or_dropped_on_disk 2 Disk.empty 1 _ hflushed).1 1 _ rfl rfl
  exact ⟨_,_,hflushed,rfl,rfl,hdisk⟩

/-- A new page is flushed, the write fails, and the page counts as clean. -/
theorem flushed_page_lost :
    ∃ r s r' s' f,
      (new 2 { Disk.empty with outcomes := fun _ => false } 1).exec 1
        (.createNewPage 7 .dataPage) = some (r,s) ∧
      s.exec 0 (.flushPage 1) = some (r',s') ∧ s'.frames.lookup 1 = some f ∧ f.dirty = false ∧
      ¬s'.disk.Holds f.page := by
  refine ⟨_,_,_,_,_,rfl,rfl,rfl,rfl,?_⟩
  intro h
  cases h

end Runs

end BufferPool
end OrangeSQL
