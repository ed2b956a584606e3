import OrangeSQL.BufferPoolSteps

/-! A rule for the invariants of the buffer pool. What the few changes that the calls are made of
keep, the calls keep; a frame for another page comes in by a fetch that reads a file, or with a new
page. -/
namespace OrangeSQL
namespace BufferPool

open Page

@[simp] theorem writeIfDirty_padding (s : BufferPool) (f : BufferFrame) :
    (s.writeIfDirty f).disk.padding = s.disk.padding := by
  unfold writeIfDirty
  split <;> rfl

/-- Kept by all that the pool does to its frames: a frame is written and dropped, written and marked
clean, or touched; a file is read; the size is changed. -/
structure Stable (P : BufferPool → Prop) : Prop where
  drop : ∀ {s : BufferPool} {p : PageId} {f : BufferFrame}, P s → s.frames.lookup p = some f →
    P ((s.writeIfDirty f).dropFrame p)
  flush : ∀ {s : BufferPool} {p : PageId} {f : BufferFrame}, P s → s.frames.lookup p = some f →
    f.dirty = true → P { s.writeIfDirty f with
      frames := s.frames.insert p { f with page := f.page.clearDirty, dirty := false } }
  touch : ∀ {s s' : BufferPool} {p : PageId} {f g : BufferFrame}, P s →
    s.frames.lookup p = some f → g.page = f.page → (f.dirty = true → g.dirty = true) →
    s'.frames = s.frames.insert p g → s'.disk = s.disk → s'.nextPageId = s.nextPageId → P s'
  read : ∀ {s : BufferPool} (t : TableId) (p : PageId), P s →
    P { s with disk := (s.disk.readPage t p).2 }
  resize : ∀ {s : BufferPool} (n : ℕ), P s → P { s with poolSize := n }

namespace Stable

variable {P : BufferPool → Prop} {s s' : BufferPool} {fuel : ℕ} {r : Option Page}

theorem evictPage (h : Stable P) (hs : P s) : P s.evictPage := by
  rcases evictPage_cases s with hnop | ⟨v,f,hv,hevict⟩
  · rwa [hnop]
  · rw [hevict]
    exact h.drop hs hv.1

theorem evictWhile (h : Stable P) (hs : P s) {limit : ℕ}
    (hevict : BufferPool.evictWhile limit fuel s = some s') : P s' :=
  evictWhile_inv (P := P) (fun _ hx => h.evictPage hx) hs hevict

theorem flushPage (h : Stable P) (hs : P s) (p : PageId) : P (s.flushPage p) := by
  rcases flushPage_cases s p with hnop | ⟨f,hlook,hdirty,hflush⟩
  · rwa [hnop]
  · rw [hflush]
    exact h.flush hs hlook hdirty

theorem flushAll (h : Stable P) (hs : P s) (order : List PageId) : P (s.flushAll order) :=
  flushAll_inv (P := P) (fun _ p hx => h.flushPage hx p) hs order

theorem discardPage (h : Stable P) (hs : P s) (p : PageId) : P (s.discardPage p) := by
  rcases discardPage_cases s p with hnop | ⟨f,hlook,hdiscard⟩
  · rwa [hnop]
  · rw [hdiscard]
    exact h.drop hs hlook

theorem unpinPage (h : Stable P) (hs : P s) (p : PageId) (dirty : Bool) :
    P (s.unpinPage p dirty) := by
  rcases unpinPage_cases s p dirty with hnop | ⟨f,hlook,hunpin⟩
  · rwa [hnop]
  · rw [hunpin]
    refine h.touch hs hlook ?_ ?_ rfl rfl rfl
    · rfl
    · intro hdirty
      simp [hdirty]

theorem setPoolSize (h : Stable P) (hs : P s) {n : ℕ}
    (hexec : s.exec fuel (.setPoolSize n) = some (r,s')) : P s' := by
  obtain ⟨e,hevict,_,rfl⟩ := exec_setPoolSize hexec
  exact h.resize _ (h.evictWhile hs hevict)

/-- A fetch adds no frame, or it adds the one for the page it has read. -/
theorem fetchPage (h : Stable P) (hs : P s) {t : TableId} {p : PageId} {mode : FetchMode}
    (hfetch : s.fetchPage fuel t p mode = some (r,s')) :
    (P s' ∧ ∀ q, r = some q → ∃ f, s.frames.lookup p = some f ∧ q = f.page) ∨
      ∃ e i, P e ∧ e.frames.lookup p = none ∧ e.disk.images t p = some i ∧
        r = some i.clearDirty ∧
        s' = e.addFrame i.getPageId (BufferFrame.make i.clearDirty false mode) := by
  rcases fetchPage_cases hfetch with ⟨f,hlook,rfl,rfl⟩ | ⟨hnone,e,hevict,hread⟩
  · refine Or.inl ⟨h.touch hs hlook ?_ ?_ rfl rfl rfl,?_⟩
    · rfl
    · intro hdirty
      simp [BufferFrame.touch,hdirty]
    · intro q hq
      exact ⟨f,hlook,(Option.some.inj hq).symm⟩
  · have he := h.read t p (h.evictWhile hs hevict)
    have hgone : e.frames.lookup p = none := by
      cases hf : e.frames.lookup p with
      | none => rfl
      | some f =>
        rw [evictWhile_lookup hevict hf] at hnone
        cases hnone
    rcases hread with ⟨rfl,rfl⟩ | ⟨i,hi,rfl,rfl⟩
    · exact Or.inl ⟨he,fun q hq => by cases hq⟩
    · exact Or.inr ⟨_,i,he,hgone,hi,rfl,rfl⟩

theorem createNewPage (h : Stable P) (hs : P s) {t : TableId} {type : PageType}
    (hcreate : s.createNewPage fuel t type = some (r,s')) :
    ∃ e, P e ∧ e.nextPageId = s.nextPageId ∧
      r = some ((Page.new s.nextPageId t).setType type) ∧
      s' = { e with nextPageId := s.nextPageId+1 }.addFrame s.nextPageId
        (BufferFrame.make ((Page.new s.nextPageId t).setType type) true .read) := by
  obtain ⟨e,hevict,hr,rfl⟩ := createNewPage_cases hcreate
  have hnext : e.nextPageId = s.nextPageId :=
    evictWhile_inv (P := fun x => x.nextPageId = s.nextPageId)
      (fun x hx => by rw [evictPage_nextPageId,hx]) rfl hevict
  exact ⟨e,h.evictWhile hs hevict,hnext,hr,rfl⟩

/-- The calls that bring no frame into the pool. -/
theorem exec (h : Stable P) (hs : P s)
    (hclear : ∀ order, P (s.flushAll order) → P (s.discardAll order)) {op : PoolOp}
    (hfetch : ∀ t p mode, op ≠ .fetchPage t p mode) (hcreate : ∀ t type, op ≠ .createNewPage t type)
    (hexec : s.exec fuel op = some (r,s')) : P s' := by
  cases op with
  | fetchPage t p mode => exact absurd rfl (hfetch t p mode)
  | createNewPage t type => exact absurd rfl (hcreate t type)
  | unpinPage p dirty =>
    obtain rfl := (Prod.mk.inj (Option.some.inj hexec)).2
    exact h.unpinPage hs p dirty
  | flushPage p =>
    obtain rfl := (Prod.mk.inj (Option.some.inj hexec)).2
    exact h.flushPage hs p
  | flushAll order =>
    obtain ⟨_,_,rfl⟩ := exec_flushAll hexec
    exact h.flushAll hs order
  | discardPage p =>
    obtain rfl := (Prod.mk.inj (Option.some.inj hexec)).2
    exact h.discardPage hs p
  | discardAll order =>
    obtain ⟨_,_,rfl⟩ := exec_discardAll hexec
    exact hclear order (h.flushAll hs order)
  | setPoolSize n => exact h.setPoolSize hs hexec

end Stable

end BufferPool
end OrangeSQL
