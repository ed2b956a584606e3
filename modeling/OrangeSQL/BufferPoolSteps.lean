import OrangeSQL.BufferPool

/-! What one call of the buffer pool can do: an eviction takes out one unpinned page, an eviction
loop is some number of evictions, and every call is evictions followed by one update. -/
namespace OrangeSQL
namespace BufferPool

open Page

@[simp] theorem writeIfDirty_frames (s : BufferPool) (f : BufferFrame) :
    (s.writeIfDirty f).frames = s.frames := by unfold writeIfDirty; split <;> rfl
@[simp] theorem writeIfDirty_lruList (s : BufferPool) (f : BufferFrame) :
    (s.writeIfDirty f).lruList = s.lruList := by unfold writeIfDirty; split <;> rfl
@[simp] theorem writeIfDirty_lruIterators (s : BufferPool) (f : BufferFrame) :
    (s.writeIfDirty f).lruIterators = s.lruIterators := by unfold writeIfDirty; split <;> rfl
@[simp] theorem writeIfDirty_poolSize (s : BufferPool) (f : BufferFrame) :
    (s.writeIfDirty f).poolSize = s.poolSize := by unfold writeIfDirty; split <;> rfl
@[simp] theorem writeIfDirty_nextPageId (s : BufferPool) (f : BufferFrame) :
    (s.writeIfDirty f).nextPageId = s.nextPageId := by unfold writeIfDirty; split <;> rfl

/-- The page that `evictPage` takes out: unpinned, and the last such page of the list. -/
def Victim (s : BufferPool) (v : PageId) (f : BufferFrame) : Prop :=
  s.frames.lookup v = some f ∧ f.isPinned = false ∧
    s.lruList.values.reverse.find?
      (fun p => (s.frames.lookup p).any fun f => !f.isPinned) = some v

/-- An eviction does nothing or takes out one victim, written back if dirty. -/
theorem evictPage_cases (s : BufferPool) :
    s.evictPage = s ∨ ∃ v f, Victim s v f ∧ s.evictPage = (s.writeIfDirty f).dropFrame v := by
  unfold evictPage selectVictim
  cases hfind : s.lruList.values.reverse.find?
      (fun p => (s.frames.lookup p).any fun f => !f.isPinned) with
  | none => exact Or.inl (by simp)
  | some v =>
    have hany := List.find?_some hfind
    cases hlook : s.frames.lookup v with
    | none => simp [hlook] at hany
    | some f =>
      simp only [Option.getD_some,hlook]
      split
      · refine Or.inr ⟨v,f,⟨hlook,?_,hfind⟩,rfl⟩
        simpa [hlook] using hany
      · exact Or.inl rfl

theorem lookup_dropFrame {s : BufferPool} {v p : PageId} {f : BufferFrame}
    (h : (s.dropFrame v).frames.lookup p = some f) : s.frames.lookup p = some f := by
  by_cases hp : p = v
  · subst hp
    simp [dropFrame] at h
  · rwa [dropFrame,Finmap.lookup_erase_ne hp] at h

theorem evictPage_frames_subset (s : BufferPool) {p : PageId} (h : p ∈ s.evictPage.frames) :
    p ∈ s.frames := by
  rcases evictPage_cases s with hnop | ⟨v,f,_,hevict⟩
  · rwa [hnop] at h
  · rw [hevict] at h
    obtain ⟨g,hg⟩ := Finmap.mem_iff.mp h
    have hold := lookup_dropFrame hg
    rw [writeIfDirty_frames] at hold
    exact Finmap.mem_of_lookup_eq_some hold

theorem evictPage_nextPageId (s : BufferPool) : s.evictPage.nextPageId = s.nextPageId := by
  rcases evictPage_cases s with hnop | ⟨v,f,_,hevict⟩
  · rw [hnop]
  · rw [hevict]
    simp [dropFrame]

theorem evictPage_poolSize (s : BufferPool) : s.evictPage.poolSize = s.poolSize := by
  rcases evictPage_cases s with hnop | ⟨v,f,_,hevict⟩
  · rw [hnop]
  · rw [hevict]
    simp [dropFrame]

/-- A terminated eviction loop has made some number of evictions and reached its bound. -/
theorem evictWhile_eq_iterate {limit fuel : ℕ} {s s' : BufferPool}
    (h : evictWhile limit fuel s = some s') :
    (∃ k, s' = evictPage^[k] s) ∧ s'.size < limit := by
  induction fuel generalizing s with
  | zero => simp [evictWhile] at h
  | succ fuel ih =>
    simp only [evictWhile] at h
    split_ifs at h with hfull
    · obtain ⟨⟨k,hk⟩,hsize⟩ := ih h
      exact ⟨⟨k+1,by rw [Function.iterate_succ_apply,hk]⟩,hsize⟩
    · obtain rfl := Option.some.inj h
      exact ⟨⟨0,rfl⟩,Nat.lt_of_not_le hfull⟩

theorem evictWhile_unique {limit fuel fuel' : ℕ} {s e e' : BufferPool}
    (h : evictWhile limit fuel s = some e) (h' : evictWhile limit fuel' s = some e') : e = e' := by
  induction fuel generalizing s fuel' with
  | zero => simp [evictWhile] at h
  | succ fuel ih =>
    cases fuel' with
    | zero => simp [evictWhile] at h'
    | succ fuel' =>
      simp only [evictWhile] at h h'
      split_ifs at h h' with hfull
      · exact ih h h'
      · exact Option.some.inj (h.symm.trans h')

/-- What every eviction preserves, any number of evictions preserves. -/
theorem iterate_evictPage_inv {P : BufferPool → Prop} (hstep : ∀ s, P s → P s.evictPage)
    {s : BufferPool} (hs : P s) (k : ℕ) : P (evictPage^[k] s) := by
  induction k with
  | zero => exact hs
  | succ k ih =>
    rw [Function.iterate_succ_apply']
    exact hstep _ ih

theorem evictWhile_inv {P : BufferPool → Prop} (hstep : ∀ s, P s → P s.evictPage)
    {limit fuel : ℕ} {s s' : BufferPool} (hs : P s)
    (h : evictWhile limit fuel s = some s') : P s' := by
  obtain ⟨⟨k,rfl⟩,_⟩ := evictWhile_eq_iterate h
  exact iterate_evictPage_inv hstep hs k

theorem evictPage_lookup {s : BufferPool} {p : PageId} {f : BufferFrame}
    (h : s.evictPage.frames.lookup p = some f) : s.frames.lookup p = some f := by
  rcases evictPage_cases s with hnop | ⟨v,g,_,hevict⟩
  · rwa [hnop] at h
  · rw [hevict] at h
    simpa using lookup_dropFrame h

theorem evictWhile_lookup {limit fuel : ℕ} {s e : BufferPool}
    (hevict : evictWhile limit fuel s = some e) {p : PageId} {f : BufferFrame}
    (h : e.frames.lookup p = some f) : s.frames.lookup p = some f := by
  have hall : ∀ q g, e.frames.lookup q = some g → s.frames.lookup q = some g :=
    evictWhile_inv (P := fun x => ∀ q g, x.frames.lookup q = some g → s.frames.lookup q = some g)
      (fun _ hx q g hg => hx q g (evictPage_lookup hg)) (fun _ _ hg => hg) hevict
  exact hall p f h

/-- A page in a file after a write was there before, is the page written, or lies in a gap before it
that the file has grown over. -/
theorem writePage_images_cases {d : Disk} {p i : Page} {t : TableId} {q : PageId}
    (h : (d.writePage p).images t q = some i) :
    d.images t q = some i ∨ (i = p ∧ p.getTableId = t ∧ p.getPageId = q) ∨
      (i = d.padding t q ∧ q < p.getPageId) := by
  simp only [Disk.writePage] at h
  split_ifs at h
  · by_cases ht : t = p.getTableId
    · subst ht
      rw [Function.update_self,Disk.grown] at h
      split_ifs at h with heq hlt
      · obtain rfl := Option.some.inj h
        exact Or.inr (Or.inl ⟨rfl,rfl,heq.symm⟩)
      · cases hold : d.images p.getTableId q with
        | none =>
          rw [hold] at h
          exact Or.inr (Or.inr ⟨(Option.some.inj h).symm,hlt⟩)
        | some j =>
          rw [hold] at h
          exact Or.inl h
      · exact Or.inl h
    · rw [Function.update_of_ne ht] at h
      exact Or.inl h
  · exact Or.inl h

theorem writeIfDirty_images_cases {s : BufferPool} {f : BufferFrame} {i : Page} {t : TableId}
    {q : PageId} (h : (s.writeIfDirty f).disk.images t q = some i) :
    s.disk.images t q = some i ∨ (i = f.page ∧ f.page.getTableId = t ∧ f.page.getPageId = q) ∨
      (i = s.disk.padding t q ∧ q < f.page.getPageId) := by
  unfold writeIfDirty at h
  split at h
  · exact writePage_images_cases h
  · exact Or.inl h

/-- A fetch finds the page cached, finds nothing on disk, or caches the image it read. -/
theorem fetchPage_cases {fuel : ℕ} {s s' : BufferPool} {t : TableId} {p : PageId}
    {mode : FetchMode} {r : Option Page} (h : s.fetchPage fuel t p mode = some (r,s')) :
    (∃ f, s.frames.lookup p = some f ∧ r = some f.page ∧
      s' = { s with frames := s.frames.insert p (f.touch mode) }.updateLRU p) ∨
    s.frames.lookup p = none ∧ ∃ e, evictWhile s.poolSize fuel s = some e ∧
      (r = none ∧ s' = { e with disk := (e.disk.readPage t p).2 } ∨
        ∃ i, e.disk.images t p = some i ∧ r = some i.clearDirty ∧
          s' = { e with disk := (e.disk.readPage t p).2 }.addFrame i.getPageId
            (BufferFrame.make i.clearDirty false mode)) := by
  unfold fetchPage at h
  cases hlook : s.frames.lookup p with
  | some f =>
    simp only [hlook] at h
    split_ifs at h
    have h' := Prod.mk.inj (Option.some.inj h)
    exact Or.inl ⟨f,rfl,h'.1.symm,h'.2.symm⟩
  | none =>
    simp only [hlook,Option.bind_eq_bind,Option.bind_eq_some_iff] at h
    obtain ⟨e,hevict,h⟩ := h
    refine Or.inr ⟨rfl,e,hevict,?_⟩
    cases himage : (e.disk.readPage t p).1 with
    | none =>
      simp only [himage] at h
      have h' := Prod.mk.inj (Option.some.inj h)
      exact Or.inl ⟨h'.1.symm,h'.2.symm⟩
    | some i =>
      simp only [himage] at h
      have h' := Prod.mk.inj (Option.some.inj h)
      refine Or.inr ⟨i,?_,h'.1.symm,h'.2.symm⟩
      simp only [Disk.readPage] at himage
      split_ifs at himage
      exact himage

theorem createNewPage_cases {fuel : ℕ} {s s' : BufferPool} {t : TableId} {type : PageType}
    {r : Option Page} (h : s.createNewPage fuel t type = some (r,s')) :
    ∃ e, evictWhile s.poolSize fuel s = some e ∧
      r = some ((Page.new s.nextPageId t).setType type) ∧
      s' = { e with nextPageId := s.nextPageId+1 }.addFrame s.nextPageId
        (BufferFrame.make ((Page.new s.nextPageId t).setType type) true .read) := by
  simp only [createNewPage,Option.bind_eq_bind,Option.bind_eq_some_iff] at h
  obtain ⟨e,hevict,h⟩ := h
  have h' := Prod.mk.inj (Option.some.inj h)
  exact ⟨e,hevict,h'.1.symm,h'.2.symm⟩

theorem exec_setPoolSize {fuel : ℕ} {s s' : BufferPool} {n : ℕ} {r : Option Page}
    (h : s.exec fuel (.setPoolSize n) = some (r,s')) :
    ∃ e, evictWhile (min n maxPoolSize+1) fuel s = some e ∧ r = none ∧
      s' = { e with poolSize := min n maxPoolSize } := by
  simp only [exec,setPoolSize,Option.map_eq_some_iff,Option.bind_eq_bind,
    Option.bind_eq_some_iff] at h
  obtain ⟨x,⟨e,hevict,hx⟩,hr⟩ := h
  obtain ⟨rfl,rfl⟩ := Prod.mk.inj hr
  exact ⟨e,hevict,rfl,(Option.some.inj hx).symm⟩

theorem unpinPage_cases (s : BufferPool) (p : PageId) (dirty : Bool) :
    s.unpinPage p dirty = s ∨ ∃ f, s.frames.lookup p = some f ∧ s.unpinPage p dirty =
      { s with frames :=
          s.frames.insert p { f with pinCount := f.pinCount-1, dirty := f.dirty || dirty } } := by
  unfold unpinPage
  cases hlook : s.frames.lookup p with
  | none => exact Or.inl rfl
  | some f => exact Or.inr ⟨f,rfl,rfl⟩

/-- A flush writes a dirty page and marks it clean. -/
theorem flushPage_cases (s : BufferPool) (p : PageId) :
    s.flushPage p = s ∨ ∃ f, s.frames.lookup p = some f ∧ f.dirty = true ∧ s.flushPage p =
      { s.writeIfDirty f with
        frames := s.frames.insert p { f with page := f.page.clearDirty, dirty := false } } := by
  unfold flushPage
  cases hlook : s.frames.lookup p with
  | none => exact Or.inl rfl
  | some f =>
    cases hdirty : f.dirty with
    | false => exact Or.inl (by simp [hdirty])
    | true => exact Or.inr ⟨f,rfl,hdirty,by simp [hdirty]⟩

/-- What every flush of a page preserves, the flush of many pages preserves. -/
theorem flushAll_inv {P : BufferPool → Prop} (hstep : ∀ s p, P s → P (s.flushPage p))
    {s : BufferPool} (hs : P s) (order : List PageId) : P (s.flushAll order) := by
  induction order generalizing s with
  | nil => exact hs
  | cons p order ih => exact ih (hstep s p hs)

theorem Enumerates.mem_of_lookup {s : BufferPool} {order : List PageId} (h : s.Enumerates order)
    {p : PageId} {f : BufferFrame} (hf : s.frames.lookup p = some f) : p ∈ order := by
  rw [← List.mem_toFinset,h.2,Finmap.mem_keys]
  exact Finmap.mem_of_lookup_eq_some hf

theorem discardPage_cases (s : BufferPool) (p : PageId) :
    s.discardPage p = s ∨ ∃ f, s.frames.lookup p = some f ∧
      s.discardPage p = (s.writeIfDirty f).dropFrame p := by
  unfold discardPage
  cases hlook : s.frames.lookup p with
  | none => exact Or.inl rfl
  | some f => exact Or.inr ⟨f,rfl,rfl⟩

theorem exec_flushAll {fuel : ℕ} {s s' : BufferPool} {order : List PageId} {r : Option Page}
    (h : s.exec fuel (.flushAll order) = some (r,s')) :
    s.Enumerates order ∧ r = none ∧ s' = s.flushAll order := by
  simp only [exec] at h
  split_ifs at h with horder
  obtain ⟨rfl,rfl⟩ := Prod.mk.inj (Option.some.inj h)
  exact ⟨horder,rfl,rfl⟩

theorem exec_discardAll {fuel : ℕ} {s s' : BufferPool} {order : List PageId} {r : Option Page}
    (h : s.exec fuel (.discardAll order) = some (r,s')) :
    s.Enumerates order ∧ r = none ∧ s' = s.discardAll order := by
  simp only [exec] at h
  split_ifs at h with horder
  obtain ⟨rfl,rfl⟩ := Prod.mk.inj (Option.some.inj h)
  exact ⟨horder,rfl,rfl⟩

end BufferPool
end OrangeSQL
