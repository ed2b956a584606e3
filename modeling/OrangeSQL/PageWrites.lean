import OrangeSQL.BufferPoolSteps

/-! Which page images a call of the buffer pool writes: those of the dirty pages it flushes,
discards or evicts. -/
namespace OrangeSQL
namespace BufferPool

open Page

/-- The image of a cached page that is dirty. -/
def dirtyImage (s : BufferPool) (p : PageId) : Option Page :=
  (s.frames.lookup p).bind fun f => if f.dirty then some f.page else none

/-- The image that an eviction writes. -/
def evictImage (s : BufferPool) : Option Page :=
  if s.selectVictim ≠ invalidPageId then s.dirtyImage s.selectVictim else none

theorem writeIfDirty_written {s : BufferPool} {p : PageId} {f : BufferFrame}
    (h : s.frames.lookup p = some f) :
    (s.writeIfDirty f).disk.written = (s.dirtyImage p).toList++s.disk.written := by
  cases hdirty : f.dirty with
  | false => simp [writeIfDirty,dirtyImage,h,hdirty]
  | true => simp [writeIfDirty,dirtyImage,h,hdirty,Disk.writePage]

theorem flushPage_written (s : BufferPool) (p : PageId) :
    (s.flushPage p).disk.written = (s.dirtyImage p).toList++s.disk.written := by
  unfold flushPage
  cases hlook : s.frames.lookup p with
  | none => simp [dirtyImage,hlook]
  | some f =>
    cases hdirty : f.dirty with
    | false => simp [dirtyImage,hlook,hdirty]
    | true => simpa [hdirty] using writeIfDirty_written hlook

/-- The other pages stay as they are. -/
theorem dirtyImage_flushPage_of_ne (s : BufferPool) {p q : PageId} (h : q ≠ p) :
    (s.flushPage p).dirtyImage q = s.dirtyImage q := by
  rcases flushPage_cases s p with hnop | ⟨f,_,_,hflush⟩
  · rw [hnop]
  · rw [hflush,dirtyImage,Finmap.lookup_insert_of_ne _ h,dirtyImage]

theorem flushAll_written {s : BufferPool} {order : List PageId} (h : order.Nodup) :
    ∃ ws, (s.flushAll order).disk.written = ws++s.disk.written ∧
      ∀ i, i ∈ ws ↔ ∃ p ∈ order, s.dirtyImage p = some i := by
  induction order generalizing s with
  | nil => exact ⟨[],rfl,by simp⟩
  | cons p order ih =>
    obtain ⟨hp,horder⟩ := List.nodup_cons.mp h
    obtain ⟨ws,hws,hmem⟩ := ih (s := s.flushPage p) horder
    refine ⟨ws++(s.dirtyImage p).toList,?_,?_⟩
    · rw [List.append_assoc,← flushPage_written]
      exact hws
    · intro i
      have hrest : (∃ q ∈ order, (s.flushPage p).dirtyImage q = some i) ↔
          ∃ q ∈ order, s.dirtyImage q = some i := by
        refine exists_congr fun q => and_congr_right fun hq => ?_
        have hne : q ≠ p := by
          rintro rfl
          exact hp hq
        rw [dirtyImage_flushPage_of_ne s hne]
      rw [List.mem_append,hmem,hrest,Option.mem_toList,List.exists_mem_cons_iff,or_comm]

theorem discardPage_written (s : BufferPool) (p : PageId) :
    (s.discardPage p).disk.written = (s.dirtyImage p).toList++s.disk.written := by
  unfold discardPage
  cases hlook : s.frames.lookup p with
  | none => simp [dirtyImage,hlook]
  | some f => exact writeIfDirty_written hlook

theorem evictPage_written (s : BufferPool) :
    s.evictPage.disk.written = s.evictImage.toList++s.disk.written := by
  by_cases hvictim : s.selectVictim = invalidPageId
  · simp [evictPage,evictImage,hvictim]
  · simp only [evictPage,evictImage,ne_eq,hvictim,not_false_eq_true,if_true]
    cases hlook : s.frames.lookup s.selectVictim with
    | none => simp [dirtyImage,hlook]
    | some f => exact writeIfDirty_written hlook

/-- The images written by an eviction loop with this limit. -/
def Evicted (limit : ℕ) (s : BufferPool) (i : Page) : Prop :=
  ∃ k, (∀ j ≤ k, limit ≤ (evictPage^[j] s).size) ∧ (evictPage^[k] s).evictImage = some i

theorem evicted_of_lt {limit : ℕ} {s : BufferPool} (h : s.size < limit) (i : Page) :
    ¬ Evicted limit s i := by
  rintro ⟨k,hsize,_⟩
  exact absurd (hsize 0 (Nat.zero_le k)) (Nat.not_le.mpr h)

/-- The first eviction writes its image, the others are those of the loop from there on. -/
theorem evicted_iff_of_le {limit : ℕ} {s : BufferPool} (h : limit ≤ s.size) (i : Page) :
    Evicted limit s i ↔ s.evictImage = some i ∨ Evicted limit s.evictPage i := by
  constructor
  · rintro ⟨k,hsize,himage⟩
    cases k with
    | zero => exact Or.inl himage
    | succ k =>
      refine Or.inr ⟨k,?_,by rwa [← Function.iterate_succ_apply]⟩
      intro j hj
      rw [← Function.iterate_succ_apply]
      exact hsize (j+1) (Nat.succ_le_succ hj)
  · rintro (himage | ⟨k,hsize,himage⟩)
    · refine ⟨0,?_,himage⟩
      intro j hj
      obtain rfl := Nat.le_zero.mp hj
      exact h
    · refine ⟨k+1,?_,by rwa [Function.iterate_succ_apply]⟩
      intro j hj
      cases j with
      | zero => exact h
      | succ j =>
        rw [Function.iterate_succ_apply]
        exact hsize j (Nat.le_of_succ_le_succ hj)

theorem evictWhile_written {limit fuel : ℕ} {s s' : BufferPool}
    (h : evictWhile limit fuel s = some s') :
    ∃ ws, s'.disk.written = ws++s.disk.written ∧ ∀ i, i ∈ ws ↔ Evicted limit s i := by
  induction fuel generalizing s with
  | zero => simp [evictWhile] at h
  | succ fuel ih =>
    simp only [evictWhile] at h
    by_cases hfull : limit ≤ s.size
    · rw [if_pos hfull] at h
      obtain ⟨ws,hws,hmem⟩ := ih h
      refine ⟨ws++s.evictImage.toList,?_,?_⟩
      · rw [hws,List.append_assoc,← evictPage_written]
      · intro i
        rw [evicted_iff_of_le hfull,List.mem_append,hmem,Option.mem_toList,or_comm]
    · rw [if_neg hfull] at h
      obtain rfl := Option.some.inj h
      refine ⟨[],rfl,?_⟩
      intro i
      simp [evicted_of_lt (Nat.lt_of_not_le hfull) i]

/-- The images that a call writes. -/
def Writes (s : BufferPool) : PoolOp → Page → Prop
  | .fetchPage _ p _, i => p ∉ s.frames ∧ Evicted s.poolSize s i
  | .createNewPage _ _, i => Evicted s.poolSize s i
  | .unpinPage _ _, _ => False
  | .flushPage p, i => s.dirtyImage p = some i
  | .flushAll _, i => ∃ p, s.dirtyImage p = some i
  | .discardPage p, i => s.dirtyImage p = some i
  | .discardAll _, i => ∃ p, s.dirtyImage p = some i
  | .setPoolSize n, i => Evicted (min n maxPoolSize+1) s i

theorem mem_order_of_dirtyImage {s : BufferPool} {order : List PageId} (h : s.Enumerates order)
    {p : PageId} {i : Page} (hi : s.dirtyImage p = some i) : p ∈ order := by
  obtain ⟨f,hlook,_⟩ := Option.bind_eq_some_iff.mp hi
  exact h.mem_of_lookup hlook

theorem flushAll_written_all {s : BufferPool} {order : List PageId} (h : s.Enumerates order) :
    ∃ ws, (s.flushAll order).disk.written = ws++s.disk.written ∧
      ∀ i, i ∈ ws ↔ ∃ p, s.dirtyImage p = some i := by
  obtain ⟨ws,hws,hmem⟩ := flushAll_written h.1 (s := s)
  refine ⟨ws,hws,?_⟩
  intro i
  rw [hmem]
  constructor
  · rintro ⟨p,_,hi⟩
    exact ⟨p,hi⟩
  · rintro ⟨p,hi⟩
    exact ⟨p,mem_order_of_dirtyImage h hi,hi⟩

/-- A call writes exactly these images. -/
theorem exec_written {fuel : ℕ} {s s' : BufferPool} {op : PoolOp} {r : Option Page}
    (h : s.exec fuel op = some (r,s')) :
    ∃ ws, s'.disk.written = ws++s.disk.written ∧ ∀ i, i ∈ ws ↔ s.Writes op i := by
  cases op with
  | fetchPage t p mode =>
    rcases fetchPage_cases h with ⟨f,hlook,_,rfl⟩ | ⟨hnone,e,hevict,hread⟩
    · have hmem : p ∈ s.frames := Finmap.mem_of_lookup_eq_some hlook
      exact ⟨[],rfl,by simp [Writes,hmem]⟩
    · have hmem : p ∉ s.frames := Finmap.lookup_eq_none.mp hnone
      obtain ⟨ws,hws,hevicted⟩ := evictWhile_written hevict
      refine ⟨ws,?_,by simp [Writes,hmem,hevicted]⟩
      rcases hread with ⟨_,rfl⟩ | ⟨i,_,_,rfl⟩
      · exact hws
      · exact hws
  | createNewPage t type =>
    obtain ⟨e,hevict,_,rfl⟩ := createNewPage_cases h
    obtain ⟨ws,hws,hevicted⟩ := evictWhile_written hevict
    exact ⟨ws,hws,hevicted⟩
  | unpinPage p dirty =>
    obtain rfl := (Prod.mk.inj (Option.some.inj h)).2
    refine ⟨[],?_,by simp [Writes]⟩
    rcases unpinPage_cases s p dirty with hnop | ⟨f,_,hunpin⟩
    · rw [hnop]
      rfl
    · rw [hunpin]
      rfl
  | flushPage p =>
    obtain rfl := (Prod.mk.inj (Option.some.inj h)).2
    exact ⟨_,s.flushPage_written p,by simp [Writes]⟩
  | flushAll order =>
    obtain ⟨horder,_,rfl⟩ := exec_flushAll h
    exact flushAll_written_all horder
  | discardPage p =>
    obtain rfl := (Prod.mk.inj (Option.some.inj h)).2
    exact ⟨_,s.discardPage_written p,by simp [Writes]⟩
  | discardAll order =>
    obtain ⟨horder,_,rfl⟩ := exec_discardAll h
    exact flushAll_written_all horder
  | setPoolSize n =>
    obtain ⟨e,hevict,_,rfl⟩ := exec_setPoolSize h
    obtain ⟨ws,hws,hevicted⟩ := evictWhile_written hevict
    exact ⟨ws,hws,hevicted⟩

end BufferPool
end OrangeSQL
