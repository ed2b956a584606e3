import OrangeSQL.WriteBack

/-! The pool as a memory of pages. As long as writes succeed, evictions and flushes are not seen: a
page reads as it was last changed, whether its frame is cached or came back from its file. -/
namespace OrangeSQL

open Page

section Files

/-- What the place of a page in its file has, but for the mark in the header. -/
def Disk.content (d : Disk) (t : TableId) (p : PageId) : Option Page := (d.images t p).map clearDirty

/-- A write leaves all other pages of the files as they are. -/
theorem Disk.content_writePage {d : Disk} {t : TableId} {p : PageId} {pg q : Page}
    (h : d.content t p = some pg) (hother : ¬ (t = q.getTableId ∧ p = q.getPageId)) :
    (d.writePage q).content t p = some pg := by
  obtain ⟨image,himage,hclear⟩ := Option.map_eq_some_iff.mp h
  rw [Disk.content,Disk.writePage]
  by_cases hout : d.outcomes 0 = true
  · simp only [hout,if_true]
    by_cases ht : t = q.getTableId
    · have hp : p ≠ q.getPageId := fun hp => hother ⟨ht,hp⟩
      rw [← ht,Function.update_self,Disk.grown,if_neg hp,himage,Option.getD_some]
      split_ifs <;> exact congrArg some hclear
    · rw [Function.update_of_ne ht,himage,Option.map_some,hclear]
  · simp only [hout,Bool.false_eq_true,if_false]
    exact h

end Files

namespace BufferPool

section Contents

/-- A page as the pool has it: in a frame of its own, or else in the files. -/
def content (s : BufferPool) (t : TableId) (p : PageId) : Option Page :=
  match s.frames.lookup p with
  | some f => if f.page.getTableId = t then some f.page.clearDirty else s.disk.content t p
  | none => s.disk.content t p

variable {s s' : BufferPool} {t : TableId} {p : PageId} {f : BufferFrame}

theorem content_frame (h : s.frames.lookup p = some f) (ht : f.page.getTableId = t) :
    s.content t p = some f.page.clearDirty := by
  simp only [content,h,ht,if_true]

theorem content_disk (h : ∀ f, s.frames.lookup p = some f → f.page.getTableId ≠ t) :
    s.content t p = s.disk.content t p := by
  unfold content
  cases hlook : s.frames.lookup p with
  | none => rfl
  | some f => simp only [h f hlook,if_false]

/-- No page that there was is lost or changed. -/
def Keeps (s s' : BufferPool) : Prop :=
  ∀ t p pg, s.content t p = some pg → s'.content t p = some pg

theorem Keeps.refl (s : BufferPool) : Keeps s s := fun _ _ _ h => h

theorem Keeps.trans {s'' : BufferPool} (h : Keeps s s') (h' : Keeps s' s'') : Keeps s s'' :=
  fun t p pg hc => h' t p pg (h t p pg hc)

theorem keeps_of_same (hframes : s'.frames = s.frames) (hdisk : s'.disk.images = s.disk.images) :
    Keeps s s' := by
  intro t p pg h
  have hsame : s'.content t p = s.content t p := by
    simp only [content,hframes,Disk.content,hdisk]
  rwa [hsame]

/-- A frame stored over one with the same page, or for a page that the files have so. -/
theorem keeps_insert (f' : BufferFrame) (hframes : s'.frames = s.frames.insert p f')
    (hdisk : s'.disk.images = s.disk.images)
    (hpage : s.content f'.page.getTableId p = some f'.page.clearDirty)
    (halone : ∀ f, s.frames.lookup p = some f → f.page.getTableId = f'.page.getTableId) :
    Keeps s s' := by
  intro t q pg h
  have hlook : ∀ r, r ≠ p → s'.frames.lookup r = s.frames.lookup r := by
    intro r hr
    rw [hframes,Finmap.lookup_insert_of_ne _ hr]
  have hfiles : ∀ t q, s'.disk.content t q = s.disk.content t q := by
    intro t q
    rw [Disk.content,Disk.content,hdisk]
  by_cases hq : q = p
  · subst hq
    have hnew : s'.frames.lookup q = some f' := by rw [hframes,Finmap.lookup_insert]
    by_cases ht : f'.page.getTableId = t
    · subst ht
      rw [content_frame hnew rfl,← hpage,h]
    · rw [content_disk fun f hf => ?_] at h
      · rw [content_disk fun f hf => ?_,hfiles,h]
        obtain rfl := Option.some.inj (hnew.symm.trans hf)
        exact ht
      · rw [halone f hf]
        exact ht
  · have hsame : s'.content t q = s.content t q := by
      simp only [content,hlook q hq,hfiles]
    rwa [hsame]

/-- Writing a frame back changes no page, whether or not it succeeds. -/
theorem keeps_writeIfDirty (hkeyed : f.page.getPageId = p) (hf : s.frames.lookup p = some f) :
    Keeps s (s.writeIfDirty f) := by
  intro t q pg h
  have hframes : (s.writeIfDirty f).frames = s.frames := writeIfDirty_frames s f
  by_cases hcached : ∃ g, s.frames.lookup q = some g ∧ g.page.getTableId = t
  · obtain ⟨g,hg,ht⟩ := hcached
    rw [content_frame hg ht] at h
    rw [content_frame (s := s.writeIfDirty f) (by rw [hframes]; exact hg) ht,h]
  · push Not at hcached
    rw [content_disk hcached] at h
    rw [content_disk (by rw [hframes]; exact hcached)]
    unfold BufferPool.writeIfDirty
    split_ifs
    · refine Disk.content_writePage h ?_
      rintro ⟨ht,hq⟩
      exact hcached f (by rw [hq,hkeyed,hf]) ht.symm
    · exact h

/-- A frame whose page is on disk may be dropped. -/
theorem keeps_dropFrame (hkeyed : f.page.getPageId = p) (hf : s.frames.lookup p = some f)
    (hholds : s.disk.Holds f.page) : Keeps s (s.dropFrame p) := by
  intro t q pg h
  by_cases hq : q = p
  · subst hq
    have hgone : (s.dropFrame q).frames.lookup q = none := Finmap.lookup_erase q s.frames
    rw [content_disk fun g hg => by rw [hgone] at hg; cases hg]
    by_cases ht : f.page.getTableId = t
    · rw [content_frame hf ht] at h
      subst ht
      rw [← h,← hkeyed]
      exact hholds
    · rw [content_disk fun g hg => ?_] at h
      · exact h
      · obtain rfl := Option.some.inj (hf.symm.trans hg)
        exact ht
  · have hlook : (s.dropFrame p).frames.lookup q = s.frames.lookup q := Finmap.lookup_erase_ne hq
    have hsame : (s.dropFrame p).content t q = s.content t q := by
      simp only [content,hlook]
      rfl
    rwa [hsame]

end Contents

section Steps

variable {s s' : BufferPool}

theorem WrittenBack.keeps_dropWritten (h : WrittenBack s) {p : PageId} {f : BufferFrame}
    (hf : s.frames.lookup p = some f) (hok : s.WriteSucceeds (s.dirtyImage p)) :
    Keeps s ((s.writeIfDirty f).dropFrame p) := by
  obtain ⟨_,hholds⟩ := h.writeIfDirty hf hok
  have hkeyed := h.keyed p f hf
  exact (keeps_writeIfDirty hkeyed hf).trans
    (keeps_dropFrame hkeyed ((congrArg (Finmap.lookup p) (writeIfDirty_frames s f)).trans hf) hholds)

theorem WrittenBack.keeps_evictPage (h : WrittenBack s) (hok : s.WriteSucceeds s.evictImage) :
    Keeps s s.evictPage := by
  rcases evictPage_image_cases s with hnop | ⟨v,f,hf,himage,hevict⟩
  · rw [hnop]
    exact Keeps.refl s
  · rw [hevict]
    exact h.keeps_dropWritten hf (himage ▸ hok)

theorem WrittenBack.keeps_evictWhile {limit fuel : ℕ} (h : WrittenBack s)
    (hok : LoopSucceeds limit s) (hloop : BufferPool.evictWhile limit fuel s = some s') :
    Keeps s s' := by
  induction fuel generalizing s with
  | zero => cases hloop
  | succ fuel ih =>
    simp only [BufferPool.evictWhile] at hloop
    split_ifs at hloop with hfull
    · have hfirst : EvictsIn limit s s s.evictPage := by
        refine ⟨0,fun j hj => ?_,rfl,rfl⟩
        rw [Nat.le_zero.mp hj]
        exact hfull
      have hwrite := hok _ _ hfirst
      exact (h.keeps_evictPage hwrite).trans (ih (h.evictPage hwrite).1
        (fun s₁ s₂ hevicts => hok s₁ s₂ (hevicts.next hfull)) hloop)
    · obtain rfl := Option.some.inj hloop
      exact Keeps.refl s

theorem WrittenBack.keeps_flushPage (h : WrittenBack s) (p : PageId) : Keeps s (s.flushPage p) := by
  rcases flushPage_cases s p with hnop | ⟨f,hf,_,hflush⟩
  · rw [hnop]
    exact Keeps.refl s
  · rw [hflush]
    have hframes := writeIfDirty_frames s f
    refine (keeps_writeIfDirty (h.keyed p f hf) hf).trans (keeps_insert
      { f with page := f.page.clearDirty, dirty := false } (by rw [hframes]) rfl ?_ ?_)
    · exact content_frame (f := f) (by rw [hframes]; exact hf) rfl
    · intro g hg
      rw [hframes] at hg
      obtain rfl := Option.some.inj (hf.symm.trans hg)
      rfl

theorem WrittenBack.keeps_flushAll (h : WrittenBack s) {order : List PageId}
    (hok : s.FlushSucceeds order) : Keeps s (s.flushAll order) := by
  induction order generalizing s with
  | nil => exact Keeps.refl s
  | cons p order ih =>
    refine (h.keeps_flushPage p).trans (ih (h.flushPage (hok [] p order rfl)) ?_)
    intro before q after horder
    exact hok (p::before) q after (by rw [horder]; rfl)

theorem WrittenBack.keeps_discardAll (h : WrittenBack s) {order : List PageId}
    (horder : s.Enumerates order) (hok : s.FlushSucceeds order) : Keeps s (s.discardAll order) := by
  refine (h.keeps_flushAll hok).trans fun t p pg hc => ?_
  have hempty : (s.discardAll order).frames.lookup p = none := Finmap.lookup_empty p
  rw [content_disk fun g hg => by rw [hempty] at hg; cases hg]
  by_cases hcached : ∃ g, (s.flushAll order).frames.lookup p = some g ∧ g.page.getTableId = t
  · obtain ⟨g,hg,rfl⟩ := hcached
    have hwritten := h.flushAll hok
    have hholds := hwritten.clean p g hg (flushAll_clean horder hg)
    rw [content_frame hg rfl] at hc
    rw [← hc,← hwritten.keyed p g hg]
    exact hholds
  · push Not at hcached
    rwa [content_disk hcached] at hc

/-- Every call but the creation of a page keeps the pages. -/
theorem WrittenBack.keeps_exec {fuel : ℕ} {op : PoolOp} {r : Option Page} (h : WrittenBack s)
    (hok : s.WritesSucceed op) (hread : s.ReadsOwn op) (hexec : s.exec fuel op = some (r,s'))
    (hcreate : ∀ t type, op ≠ .createNewPage t type) : Keeps s s' := by
  cases op with
  | fetchPage t p mode =>
    rcases fetchPage_cases hexec with ⟨f,hf,_,rfl⟩ | ⟨hnone,e,hevict,hcases⟩
    · refine keeps_insert (f.touch mode) rfl rfl (content_frame (f := f) hf rfl) fun g hg => ?_
      obtain rfl := Option.some.inj (hf.symm.trans hg)
      rfl
    · have hmiss : p ∉ s.frames := Finmap.lookup_eq_none.mp hnone
      have hroom := h.keeps_evictWhile (hok hmiss) hevict
      rcases hcases with ⟨_,rfl⟩ | ⟨i,hi,_,rfl⟩
      · exact hroom.trans (keeps_of_same rfl rfl)
      · obtain ⟨htable,hpid⟩ := hread hmiss fuel e i hevict hi
        have hgone : e.frames.lookup p = none := by
          rw [Finmap.lookup_eq_none]
          exact fun hmem => hmiss (evictWhile_inv (P := fun x => p ∈ x.frames → p ∈ s.frames)
            (fun x hx hin => hx (evictPage_frames_subset x hin)) id hevict hmem)
        refine hroom.trans (keeps_insert (p := p) (BufferFrame.make i.clearDirty false mode)
          ?_ rfl ?_ fun g hg => ?_)
        · rw [← hpid]
          rfl
        · rw [content_disk fun g hg => ?_,Disk.content]
          swap
          · rw [hgone] at hg
            cases hg
          have hplace : e.disk.images i.getTableId p = some i := by rw [htable,hi]
          exact congrArg (Option.map clearDirty) hplace
        · rw [hgone] at hg
          cases hg
  | createNewPage t type => exact absurd rfl (hcreate t type)
  | unpinPage p dirty =>
    obtain ⟨_,rfl⟩ := Prod.mk.inj (Option.some.inj hexec)
    rcases unpinPage_cases s p dirty with hnop | ⟨f,hf,hunpin⟩
    · rw [hnop]
      exact Keeps.refl s
    · rw [hunpin]
      refine keeps_insert { f with pinCount := f.pinCount-1, dirty := f.dirty || dirty }
        rfl rfl (content_frame (f := f) hf rfl) fun g hg => ?_
      obtain rfl := Option.some.inj (hf.symm.trans hg)
      rfl
  | flushPage p =>
    obtain ⟨_,rfl⟩ := Prod.mk.inj (Option.some.inj hexec)
    exact h.keeps_flushPage p
  | flushAll order =>
    obtain ⟨_,_,rfl⟩ := exec_flushAll hexec
    exact h.keeps_flushAll hok
  | discardPage p =>
    obtain ⟨_,rfl⟩ := Prod.mk.inj (Option.some.inj hexec)
    rcases discardPage_cases s p with hnop | ⟨f,hf,hdiscard⟩
    · rw [hnop]
      exact Keeps.refl s
    · rw [hdiscard]
      exact h.keeps_dropWritten hf hok
  | discardAll order =>
    obtain ⟨horder,_,rfl⟩ := exec_discardAll hexec
    exact h.keeps_discardAll horder hok
  | setPoolSize n =>
    obtain ⟨e,hevict,_,rfl⟩ := exec_setPoolSize hexec
    exact (h.keeps_evictWhile hok hevict).trans (keeps_of_same rfl rfl)

end Steps

section Sessions

/-- The pages as the clients of a pool know them. -/
abbrev Memory := TableId → PageId → Option Page

def Memory.set (m : Memory) (t : TableId) (p : PageId) (pg : Page) : Memory :=
  fun t' p' => if t' = t ∧ p' = p then some pg else m t' p'

/-- The pool has the pages of the memory. -/
def Has (s : BufferPool) (m : Memory) : Prop := ∀ t p pg, m t p = some pg → s.content t p = some pg

/-- What a call does to the memory: a new page is written to it, and nothing else. -/
def effect (s : BufferPool) (m : Memory) : PoolOp → Memory
  | .createNewPage t type =>
    m.set t s.nextPageId ((Page.new s.nextPageId t).setType type).clearDirty
  | _ => m

/-- A session of calls and of changes to pages that are marked dirty, with the memory of the clients.
The writes succeed, pages are read with their own ids, and a new page gets an id that no cached page
has. -/
inductive Session (disk : Disk) (n : ℕ) (next : PageId) : BufferPool → Memory → Prop
  | start : Session disk n next (new n disk next) disk.content
  | call {s s' : BufferPool} {m : Memory} {fuel : ℕ} {op : PoolOp} {r : Option Page} :
      Session disk n next s m → s.WritesSucceed op → s.ReadsOwn op →
      ((∃ t type, op = .createNewPage t type) → s.nextPageId ∉ s.frames) →
      s.exec fuel op = some (r,s') → Session disk n next s' (s.effect m op)
  | modify {s : BufferPool} {m : Memory} {p : PageId} {f : BufferFrame} {change : Page → Page} :
      Session disk n next s m → s.frames.lookup p = some f → f.dirty = true →
      IsPage (change f.page) f.page.getTableId f.page.getPageId →
      Session disk n next (Engine.modifyPage s p change)
        (m.set f.page.getTableId p (change f.page).clearDirty)

variable {s s' : BufferPool} {m : Memory}

/-- A frame with another page under an id that no page of another table is cached under. -/
theorem Has.set (h : s.Has m) {p : PageId} {f : BufferFrame} (hframes : s'.frames = s.frames.insert p f)
    (hdisk : s'.disk.images = s.disk.images)
    (halone : ∀ g, s.frames.lookup p = some g → g.page.getTableId = f.page.getTableId) :
    s'.Has (m.set f.page.getTableId p f.page.clearDirty) := by
  intro t q pg hm
  have hfiles : ∀ t q, s'.disk.content t q = s.disk.content t q := by
    intro t q
    rw [Disk.content,Disk.content,hdisk]
  unfold Memory.set at hm
  by_cases hq : q = p
  · subst hq
    have hnew : s'.frames.lookup q = some f := by rw [hframes,Finmap.lookup_insert]
    by_cases ht : t = f.page.getTableId
    · subst ht
      rw [if_pos ⟨rfl,rfl⟩] at hm
      rw [content_frame hnew rfl,hm]
    · rw [if_neg fun hand => ht hand.1] at hm
      have hold := h t q pg hm
      rw [content_disk fun g hg => ?_] at hold
      · rw [content_disk fun g hg => ?_,hfiles,hold]
        obtain rfl := Option.some.inj (hnew.symm.trans hg)
        exact fun heq => ht heq.symm
      · rw [halone g hg]
        exact fun heq => ht heq.symm
  · rw [if_neg fun hand => hq hand.2] at hm
    have hlook : s'.frames.lookup q = s.frames.lookup q := by
      rw [hframes,Finmap.lookup_insert_of_ne _ hq]
    have hsame : s'.content t q = s.content t q := by
      simp only [content,hlook,hfiles]
    rw [hsame]
    exact h t q pg hm

/-- In every state of a session the pool has the pages of the clients. -/
theorem Session.has {disk : Disk} {n : ℕ} {next : PageId} (h : Session disk n next s m) :
    WrittenBack s ∧ s.Has m := by
  induction h with
  | start =>
    refine ⟨writtenBack_new n disk next,fun t p pg hm => ?_⟩
    rw [content_disk fun f hf => by cases hf]
    exact hm
  | @call s s' m fuel op r _ hok hread hfresh hexec ih =>
    obtain ⟨hwritten,hhas⟩ := ih
    refine ⟨hwritten.exec hok hread hexec,?_⟩
    by_cases hcreate : ∃ t type, op = .createNewPage t type
    · have hnew := hfresh hcreate
      obtain ⟨t,type,rfl⟩ := hcreate
      obtain ⟨e,hevict,_,rfl⟩ := createNewPage_cases hexec
      have hkept : e.Has m := fun t p pg hm =>
        hwritten.keeps_evictWhile hok hevict t p pg (hhas t p pg hm)
      refine hkept.set (f := BufferFrame.make ((Page.new s.nextPageId t).setType type) true .read)
        rfl rfl fun g hg => ?_
      have hin := evictWhile_inv (P := fun x => s.nextPageId ∈ x.frames → s.nextPageId ∈ s.frames)
        (fun x hx hin => hx (evictPage_frames_subset x hin)) id hevict
      exact absurd (hin (Finmap.mem_of_lookup_eq_some hg)) hnew
    · have hsame : s.effect m op = m := by
        cases op with
        | createNewPage t type => exact absurd ⟨t,type,rfl⟩ hcreate
        | _ => rfl
      rw [hsame]
      intro t p pg hm
      exact hwritten.keeps_exec hok hread hexec (fun t type heq => hcreate ⟨t,type,heq⟩) t p pg
        (hhas t p pg hm)
  | @modify s m p f change _ hf hdirty hid ih =>
    obtain ⟨hwritten,hhas⟩ := ih
    refine ⟨hwritten.modifyPage hf hdirty hid.2,?_⟩
    have hset : (Engine.modifyPage s p change).Has _ := hhas.set (p := p)
      (f := { f with page := change f.page }) (by simp only [Engine.modifyPage,hf])
      (by simp only [Engine.modifyPage,hf]) (fun g hg => ?_)
    · rw [show ({ f with page := change f.page } : BufferFrame).page.getTableId =
        f.page.getTableId from hid.1] at hset
      exact hset
    · obtain rfl := Option.some.inj (hf.symm.trans hg)
      exact hid.1.symm

/-- A fetch of a page that is not cached. -/
theorem fetchPage_miss {fuel : ℕ} {t : TableId} {p : PageId} {mode : FetchMode} {r : Option Page}
    (hlook : s.frames.lookup p = none) (h : s.exec fuel (.fetchPage t p mode) = some (r,s')) :
    ∃ e, evictWhile s.poolSize fuel s = some e ∧ r = (e.disk.readPage t p).1.map clearDirty := by
  simp only [BufferPool.exec,BufferPool.fetchPage,hlook,Option.bind_eq_bind,
    Option.bind_eq_some_iff] at h
  obtain ⟨e,hevict,hread⟩ := h
  refine ⟨e,hevict,?_⟩
  cases himage : (e.disk.readPage t p).1 with
  | none =>
    rw [himage] at hread
    exact (Prod.mk.inj (Option.some.inj hread)).1.symm
  | some i =>
    rw [himage] at hread
    exact (Prod.mk.inj (Option.some.inj hread)).1.symm

/-- In a session a fetch that is not answered with a page of another table returns the page as it was
last changed, unless its read fails; and a discard of all pages, as at shutdown, leaves them all in
the files. -/
theorem session_transparent {disk : Disk} {n : ℕ} {next : PageId} (h : Session disk n next s m) :
    (∀ t p pg mode fuel r s', m t p = some pg → s.WritesSucceed (.fetchPage t p mode) →
      (∀ f, s.frames.lookup p = some f → f.page.getTableId = t) →
      s.exec fuel (.fetchPage t p mode) = some (r,s') →
      r.map clearDirty = some pg ∨ r = none ∧ ∃ e, evictWhile s.poolSize fuel s = some e ∧
        e.disk.outcomes 0 = false) ∧
    ∀ order fuel r s', s.WritesSucceed (.discardAll order) →
      s.exec fuel (.discardAll order) = some (r,s') →
      ∀ t p pg, m t p = some pg → s'.disk.content t p = some pg := by
  obtain ⟨hwritten,hhas⟩ := h.has
  constructor
  · intro t p pg mode fuel r s' hm hok htable hexec
    have hcontent := hhas t p pg hm
    cases hlook : s.frames.lookup p with
    | some f =>
      rcases fetchPage_cases hexec with ⟨g,hg,rfl,_⟩ | ⟨hnone,_⟩
      · rw [content_frame hg (htable g hg)] at hcontent
        exact Or.inl hcontent
      · exact absurd (hnone.symm.trans hlook) (Option.some_ne_none f).symm
    | none =>
      obtain ⟨e,hevict,hread⟩ := fetchPage_miss hlook hexec
      have hroom := hwritten.keeps_evictWhile (hok (Finmap.lookup_eq_none.mp hlook)) hevict
      have hkept := hroom t p pg hcontent
      rw [content_disk fun g hg => ?_] at hkept
      · cases hout : e.disk.outcomes 0 with
        | false =>
          simp only [Disk.readPage,hout,Bool.false_eq_true,if_false] at hread
          exact Or.inr ⟨hread,e,hevict,hout⟩
        | true =>
          simp only [Disk.readPage,hout,if_true] at hread
          refine Or.inl ?_
          rw [hread,← hkept,Disk.content,Option.map_map]
          rfl
      · have hin := evictWhile_inv (P := fun x => p ∈ x.frames → p ∈ s.frames)
          (fun x hx hin => hx (evictPage_frames_subset x hin)) id hevict
        exact absurd (hin (Finmap.mem_of_lookup_eq_some hg)) (Finmap.lookup_eq_none.mp hlook)
  · intro order fuel r s' hok hexec t p pg hm
    obtain ⟨horder,_,rfl⟩ := exec_discardAll hexec
    have hkept := hwritten.keeps_discardAll horder hok t p pg (hhas t p pg hm)
    rwa [content_disk fun g hg => by cases hg] at hkept

/-- A disk on which every file operation succeeds stays one. -/
theorem loopSucceeds_of_always (h : ∀ k, s.disk.outcomes k = true) (limit : ℕ) :
    LoopSucceeds limit s := by
  rintro s₁ s₂ ⟨k,_,rfl,_⟩ _
  refine iterate_evictPage_inv (P := fun x => ∀ k, x.disk.outcomes k = true) (fun x hx => ?_) h k 0
  rcases evictPage_image_cases x with hnop | ⟨v,f,_,_,hevict⟩
  · rw [hnop]
    exact hx
  · rw [hevict]
    unfold BufferPool.dropFrame BufferPool.writeIfDirty
    split_ifs
    · exact fun k => hx (k+1)
    · exact hx

/-- The state after a call with fuel enough for one eviction. -/
def after (s : BufferPool) (op : PoolOp) : BufferPool := (s.exec 2 op).elim s Prod.snd

/-- A pool of one frame: a page is created and changed. -/
def changedPool : BufferPool :=
  Engine.modifyPage ((new 1 Disk.empty 1).after (.createNewPage 7 .dataPage)) 1 fun p =>
    p.setType .indexPage

theorem changedPool_session : ∃ m, Session Disk.empty 1 1 changedPool m ∧
    m 7 1 = some (((Page.new 1 7).setType .dataPage).setType .indexPage).clearDirty := by
  have hone : Session Disk.empty 1 1 ((new 1 Disk.empty 1).after (.createNewPage 7 .dataPage)) _ :=
    @Session.call Disk.empty 1 1 _ _ _ 2 (.createNewPage 7 .dataPage) _ .start
      (loopSucceeds_of_always (fun _ => rfl) _) trivial (fun _ => Finmap.notMem_empty) rfl
  exact ⟨_,hone.modify rfl rfl ⟨rfl,rfl⟩,if_pos ⟨rfl,rfl⟩⟩

/-- Another page pushes the changed one out, and it is fetched again. -/
theorem session_transparent_one_frame :
    ((changedPool.after (.createNewPage 7 .dataPage)).exec 2 (.fetchPage 7 1 .read)).bind
      (fun r => r.1.map clearDirty) = some (((Page.new 1 7).setType .dataPage).setType .indexPage).clearDirty := by
  obtain ⟨m,hsession,hm⟩ := changedPool_session
  have hnext : Session Disk.empty 1 1 (changedPool.after (.createNewPage 7 .dataPage)) _ :=
    @Session.call _ _ _ _ _ _ 2 (.createNewPage 7 .dataPage) _ hsession
      (loopSucceeds_of_always (fun _ => rfl) _) trivial (fun _ => by decide) rfl
  have halways : ∀ k, (changedPool.after (.createNewPage 7 .dataPage)).disk.outcomes k = true :=
    fun _ => rfl
  have hgone : (changedPool.after (.createNewPage 7 .dataPage)).frames.lookup 1 = none := rfl
  have hread : ∃ p s', (changedPool.after (.createNewPage 7 .dataPage)).exec 2 (.fetchPage 7 1 .read) =
      some (some p,s') := ⟨_,_,rfl⟩
  obtain ⟨p,s',hread⟩ := hread
  rcases (session_transparent hnext).1 7 1 _ .read 2 _ _ hm
    (fun _ => loopSucceeds_of_always halways _) (fun f hf => by rw [hgone] at hf; cases hf) hread
    with hpage | ⟨hnone,_⟩
  · rw [hread]
    exact hpage
  · cases hnone

end Sessions

end BufferPool
end OrangeSQL
