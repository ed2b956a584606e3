import Mathlib.Data.List.TakeWhile
import OrangeSQL.PoolRules
import OrangeSQL.Library.Recency

/-! Which calls of the buffer pool return. An eviction loop goes on until there is room, and an
eviction that finds no victim does nothing, so that what decides is how many frames the evictions
leave. -/
namespace OrangeSQL
namespace BufferPool

open Page Recency FiniteMap

/-- The states reached by calls that return, whatever the files hold. -/
inductive Reached (start : BufferPool) : BufferPool → Prop
  | start : Reached start start
  | call {s s' : BufferPool} {fuel : ℕ} {op : PoolOp} {r : Option Page} :
      Reached start s → s.exec fuel op = some (r,s') → Reached start s'

/-- The call returns: it has a result with some fuel. -/
def Terminates (s : BufferPool) (op : PoolOp) : Prop := ∃ fuel r, s.exec fuel op = some r

/-- The pages that evictions take out one after the other: the unpinned ones from the end of the
recency list on. The search cannot tell a page with the invalid id from no page, and stays there. -/
def evictable (s : BufferPool) : List PageId :=
  (s.lruList.values.reverse.filter fun p =>
    (s.frames.lookup p).any fun f => !f.isPinned).takeWhile fun p => p ≠ invalidPageId

/-- The cached pages that no eviction takes out. -/
def unevictable (s : BufferPool) : Finset PageId := s.frames.keys \ s.evictable.toFinset

section Evictions

theorem mem_evictable {s : BufferPool} {p : PageId} (h : p ∈ s.evictable) :
    p ∈ s.frames ∧ p ≠ invalidPageId := by
  have hunpinned := List.of_mem_filter ((List.takeWhile_sublist _).subset h)
  have hvalid := List.mem_takeWhile_imp h
  refine ⟨?_,by simpa using hvalid⟩
  cases hlook : s.frames.lookup p with
  | none => simp [hlook] at hunpinned
  | some f => exact Finmap.mem_of_lookup_eq_some hlook

theorem selectVictim_eq (s : BufferPool) : s.selectVictim = s.evictable.headD invalidPageId := by
  rw [selectVictim,evictable,List.headD_eq_head?_getD,List.head?_takeWhile,List.head?_filter]
  cases s.lruList.values.reverse.find? fun p =>
      (s.frames.lookup p).any fun f => !f.isPinned with
  | none => rfl
  | some v =>
    by_cases hv : v = invalidPageId
    · rw [Option.filter_some,if_neg (by simpa using hv),Option.getD_some,hv]
      rfl
    · rw [Option.filter_some,if_pos (by simpa using hv)]

/-- An eviction takes out the first page that can be taken out, if there is one. -/
theorem evictPage_eq (s : BufferPool) :
    s.evictable = [] ∧ s.evictPage = s ∨
      ∃ v f rest, s.evictable = v::rest ∧ s.frames.lookup v = some f ∧
        s.evictPage = (s.writeIfDirty f).dropFrame v := by
  cases hlist : s.evictable with
  | nil =>
    have hnone : s.selectVictim = invalidPageId := by rw [selectVictim_eq,hlist]; rfl
    exact Or.inl ⟨rfl,by simp [evictPage,hnone]⟩
  | cons v rest =>
    obtain ⟨hmem,hvalid⟩ := mem_evictable (hlist ▸ List.mem_cons_self : v ∈ s.evictable)
    obtain ⟨f,hf⟩ := Finmap.mem_iff.mp hmem
    have hvictim : s.selectVictim = v := by rw [selectVictim_eq,hlist]; rfl
    refine Or.inr ⟨v,f,rest,rfl,hf,?_⟩
    unfold evictPage
    rw [hvictim]
    simp only [if_pos hvalid,hf]

/-- The pages that can still be taken out behind an eviction are the others. -/
theorem evictable_dropFrame {s : BufferPool} (h : Points s.lruList s.lruIterators) {v : PageId}
    (hv : v ≠ invalidPageId) : (s.dropFrame v).evictable = s.evictable.filter (· ≠ v) := by
  have hfilter : ∀ l : List PageId, (l.filter fun p =>
      ((s.frames.erase v).lookup p).any fun f => !f.isPinned) =
        (l.filter (· ≠ v)).filter fun p => (s.frames.lookup p).any fun f => !f.isPinned := by
    intro l
    rw [List.filter_filter]
    apply List.filter_congr
    intro p _
    rw [lookup_erase_eq]
    by_cases hp : p = v
    · simp [hp]
    · simp [hp]
  have hbefore : ∀ x : PageId, ((!decide (x ≠ v)) || decide (x ≠ invalidPageId)) =
      decide (x ≠ invalidPageId) := by
    intro x
    by_cases hx : x = v
    · simp [hx,hv]
    · simp [hx]
  rw [evictable,evictable,dropFrame,hfilter,List.filter_reverse,h.filter_drop v,
    ← List.filter_reverse,List.filter_filter]
  simp only [Bool.and_comm]
  rw [← List.filter_filter,List.takeWhile_filter]
  simp only [hbefore]

theorem writeIfDirty_evictable (s : BufferPool) (f : BufferFrame) :
    (s.writeIfDirty f).evictable = s.evictable := by
  simp only [evictable,writeIfDirty_frames,writeIfDirty_lruList]

/-- No eviction changes which pages stay. -/
theorem unevictable_evictPage {s : BufferPool} (h : Points s.lruList s.lruIterators) :
    s.evictPage.unevictable = s.unevictable := by
  rcases evictPage_eq s with ⟨_,hnop⟩ | ⟨v,f,rest,hlist,hf,hevict⟩
  · rw [hnop]
  · obtain ⟨_,hvalid⟩ := mem_evictable (hlist ▸ List.mem_cons_self : v ∈ s.evictable)
    have hpoints : Points (s.writeIfDirty f).lruList (s.writeIfDirty f).lruIterators := by
      simpa using h
    rw [hevict,unevictable,unevictable,evictable_dropFrame hpoints hvalid,writeIfDirty_evictable,
      dropFrame,writeIfDirty_frames,Finmap.keys_erase]
    ext p
    simp only [Finset.mem_sdiff,Finset.mem_erase,List.mem_toFinset,List.mem_filter,
      decide_eq_true_eq,not_and,ne_eq]
    constructor
    · rintro ⟨⟨hne,hp⟩,hnot⟩
      exact ⟨hp,fun hmem => hnot hmem hne⟩
    · rintro ⟨hp,hnot⟩
      have hne : p ≠ v := by
        rintro rfl
        exact hnot (hlist ▸ List.mem_cons_self)
      exact ⟨⟨hne,hp⟩,fun hmem => absurd hmem hnot⟩

theorem points_evictPage {s : BufferPool} (h : Points s.lruList s.lruIterators) :
    Points s.evictPage.lruList s.evictPage.lruIterators := by
  rcases evictPage_cases s with hnop | ⟨v,f,_,hevict⟩
  · rwa [hnop]
  · have hdrop := h.drop v
    rw [hevict]
    simpa [dropFrame] using hdrop

theorem size_evictPage_lt {s : BufferPool} (h : s.evictable ≠ []) :
    s.evictPage.size < s.size := by
  rcases evictPage_eq s with ⟨hnone,_⟩ | ⟨v,f,rest,_,hf,hevict⟩
  · exact absurd hnone h
  · have hmem : v ∈ s.frames.keys := Finmap.mem_keys.mpr (Finmap.mem_of_lookup_eq_some hf)
    rw [hevict,size,dropFrame,writeIfDirty_frames,Finmap.keys_erase,size]
    exact Finset.card_erase_lt_of_mem hmem

/-- The loop ends exactly when the pages that stay leave room. -/
theorem evictWhile_some_iff {s : BufferPool} (h : Points s.lruList s.lruIterators) (limit : ℕ) :
    (∃ fuel e, evictWhile limit fuel s = some e) ↔ s.unevictable.card < limit := by
  constructor
  · rintro ⟨fuel,e,he⟩
    obtain ⟨_,hsame⟩ := evictWhile_inv (P := fun x => Points x.lruList x.lruIterators ∧
        x.unevictable = s.unevictable)
      (fun x hx => ⟨points_evictPage hx.1,(unevictable_evictPage hx.1).trans hx.2⟩) ⟨h,rfl⟩ he
    have hroom := (evictWhile_eq_iterate he).2
    rw [← hsame]
    exact (Finset.card_le_card Finset.sdiff_subset).trans_lt hroom
  · intro hlt
    induction hsize : s.size using Nat.strong_induction_on generalizing s with
    | _ n ih =>
      by_cases hfull : limit ≤ s.size
      · have hsome : s.evictable ≠ [] := by
          intro hnone
          rw [unevictable,hnone,List.toFinset_nil,Finset.sdiff_empty] at hlt
          exact absurd hfull (Nat.not_le.mpr hlt)
        obtain ⟨fuel,e,he⟩ := ih _ (hsize ▸ size_evictPage_lt hsome) (points_evictPage h)
          (by rwa [unevictable_evictPage h]) rfl
        exact ⟨fuel+1,e,by rw [evictWhile,if_pos hfull,he]⟩
      · exact ⟨1,s,by rw [evictWhile,if_neg hfull]⟩

end Evictions

section Reachable

/-- What every call keeps, also where a page that was read has the id of another one. -/
structure Listed (s : BufferPool) : Prop where
  points : Points s.lruList s.lruIterators
  cached : ∀ p ∈ s.frames, p ∈ s.lruIterators
  unlatched : ∀ p f, s.frames.lookup p = some f → f.latched = false

theorem listed_new (n : ℕ) (disk : Disk) (next : PageId) : Listed (BufferPool.new n disk next) :=
  ⟨points_empty,fun _ hp => hp,by simp [BufferPool.new]⟩

namespace Listed

/-- Updates that keep the recency list and the cached pages. -/
theorem congr {s s' : BufferPool} (h : Listed s) (hlist : s'.lruList = s.lruList)
    (hits : s'.lruIterators = s.lruIterators) (hkeys : s'.frames.keys = s.frames.keys)
    (hunlatched : ∀ p f, s'.frames.lookup p = some f → f.latched = false) : Listed s' := by
  refine ⟨?_,?_,hunlatched⟩
  · rw [hlist,hits]
    exact h.points
  · intro p hp
    rw [hits]
    exact h.cached p (by rwa [← Finmap.mem_keys,← hkeys,Finmap.mem_keys])

theorem unlatched_insert {s : BufferPool} (h : Listed s) {p q : PageId} {f g : BufferFrame}
    (hg : g.latched = false) (hf : (s.frames.insert p g).lookup q = some f) :
    f.latched = false := by
  rcases lookup_insert_cases hf with ⟨_,rfl⟩ | hold
  · exact hg
  · exact h.unlatched q f hold

theorem replaced {s s' : BufferPool} (h : Listed s) {p : PageId} {f g : BufferFrame}
    (hf : s.frames.lookup p = some f) (hframes : s'.frames = s.frames.insert p g)
    (hg : g.latched = f.latched) (hlist : s'.lruList = s.lruList)
    (hits : s'.lruIterators = s.lruIterators) : Listed s' := by
  have hmem : p ∈ s.frames.keys := Finmap.mem_keys.mpr (Finmap.mem_of_lookup_eq_some hf)
  refine h.congr hlist hits ?_ ?_
  · rw [hframes,keys_insert,Finset.insert_eq_of_mem hmem]
  · intro q e he
    rw [hframes] at he
    exact h.unlatched_insert (by rw [hg,h.unlatched p f hf]) he

theorem dropped {s : BufferPool} (h : Listed s) (p : PageId) : Listed (s.dropFrame p) := by
  refine ⟨h.points.drop p,?_,?_⟩
  · intro q hq
    obtain ⟨hne,hold⟩ := Finmap.mem_erase.mp hq
    exact Finmap.mem_erase.mpr ⟨hne,h.cached q hold⟩
  · intro q f hf
    exact h.unlatched q f (lookup_dropFrame hf)

theorem added {s : BufferPool} (h : Listed s) (p : PageId) {f : BufferFrame}
    (hf : f.latched = false) : Listed (s.addFrame p f) := by
  refine ⟨h.points.push p,?_,fun q g hg => h.unlatched_insert hf hg⟩
  intro q hq
  rcases Finmap.mem_insert.mp hq with rfl | hold
  · exact Finmap.mem_insert.mpr (Or.inl rfl)
  · exact Finmap.mem_insert.mpr (Or.inr (h.cached q hold))

theorem touched {s : BufferPool} (h : Listed s) (p : PageId) : Listed (s.updateLRU p) := by
  refine ⟨h.points.touch p,?_,h.unlatched⟩
  intro q hq
  exact Finmap.mem_insert.mpr (Or.inr (h.cached q hq))

theorem written {s : BufferPool} (h : Listed s) (f : BufferFrame) : Listed (s.writeIfDirty f) :=
  h.congr (by simp) (by simp) (by simp) (by simpa using h.unlatched)

theorem evicted {s : BufferPool} (h : Listed s) : Listed s.evictPage := by
  rcases evictPage_cases s with hnop | ⟨v,f,_,hevict⟩
  · rwa [hnop]
  · rw [hevict]
    exact (h.written f).dropped v

theorem flushed {s : BufferPool} (h : Listed s) (p : PageId) : Listed (s.flushPage p) := by
  rcases flushPage_cases s p with hnop | ⟨f,hf,_,hflush⟩
  · rwa [hnop]
  · rw [hflush]
    exact h.replaced hf rfl rfl (by simp) (by simp)

theorem evictedBelow {s e : BufferPool} (h : Listed s) {limit fuel : ℕ}
    (hevict : evictWhile limit fuel s = some e) : Listed e :=
  evictWhile_inv (P := Listed) (fun _ hx => hx.evicted) h hevict

theorem exec {fuel : ℕ} {s s' : BufferPool} {op : PoolOp} {r : Option Page} (h : Listed s)
    (hexec : s.exec fuel op = some (r,s')) : Listed s' := by
  cases op with
  | fetchPage t p mode =>
    rcases fetchPage_cases hexec with ⟨f,hf,_,rfl⟩ | ⟨_,e,hevict,hread⟩
    · have hset : Listed { s with frames := s.frames.insert p (f.touch mode) } :=
        h.replaced hf rfl rfl rfl rfl
      exact hset.touched p
    · have he := h.evictedBelow hevict
      have hd : Listed { e with disk := (e.disk.readPage t p).2 } :=
        ⟨he.points,he.cached,he.unlatched⟩
      rcases hread with ⟨_,rfl⟩ | ⟨i,_,_,rfl⟩
      · exact hd
      · exact hd.added _ rfl
  | createNewPage t type =>
    obtain ⟨e,hevict,_,rfl⟩ := createNewPage_cases hexec
    have he := h.evictedBelow hevict
    have hn : Listed { e with nextPageId := s.nextPageId+1 } :=
      ⟨he.points,he.cached,he.unlatched⟩
    exact hn.added _ rfl
  | unpinPage p dirty =>
    obtain rfl := (Prod.mk.inj (Option.some.inj hexec)).2
    rcases unpinPage_cases s p dirty with hnop | ⟨f,hf,hunpin⟩
    · rwa [hnop]
    · rw [hunpin]
      exact h.replaced hf rfl rfl rfl rfl
  | flushPage p =>
    obtain rfl := (Prod.mk.inj (Option.some.inj hexec)).2
    exact h.flushed p
  | flushAll order =>
    obtain ⟨_,_,rfl⟩ := exec_flushAll hexec
    exact flushAll_inv (P := Listed) (fun _ p hx => hx.flushed p) h order
  | discardPage p =>
    obtain rfl := (Prod.mk.inj (Option.some.inj hexec)).2
    rcases discardPage_cases s p with hnop | ⟨f,_,hdiscard⟩
    · rwa [hnop]
    · rw [hdiscard]
      exact (h.written f).dropped p
  | discardAll order =>
    obtain ⟨_,_,rfl⟩ := exec_discardAll hexec
    exact ⟨points_empty,fun _ hp => hp,by simp [discardAll]⟩
  | setPoolSize n =>
    obtain ⟨e,hevict,_,rfl⟩ := exec_setPoolSize hexec
    have he := h.evictedBelow hevict
    exact ⟨he.points,he.cached,he.unlatched⟩

end Listed

theorem Reached.listed {n : ℕ} {disk : Disk} {next : PageId} {s : BufferPool}
    (h : Reached (BufferPool.new n disk next) s) : Listed s := by
  induction h with
  | start => exact listed_new n disk next
  | call _ hexec ih => exact ih.exec hexec

/-- Where no page with the invalid id is cached, the pages that stay are the pinned ones. -/
theorem Listed.mem_unevictable {s : BufferPool} (h : Listed s) (hvalid : invalidPageId ∉ s.frames)
    (p : PageId) :
    p ∈ s.unevictable ↔ ∃ f, s.frames.lookup p = some f ∧ f.isPinned = true := by
  have hall : s.evictable = s.lruList.values.reverse.filter fun p =>
      (s.frames.lookup p).any fun f => !f.isPinned := by
    rw [evictable,List.takeWhile_eq_self_iff]
    intro q hq
    have hunpinned := List.of_mem_filter hq
    have hne : q ≠ invalidPageId := by
      rintro rfl
      rw [Finmap.lookup_eq_none.mpr hvalid] at hunpinned
      cases hunpinned
    simpa using hne
  rw [unevictable,Finset.mem_sdiff,List.mem_toFinset,hall,List.mem_filter,List.mem_reverse,
    Finmap.mem_keys]
  cases hlook : s.frames.lookup p with
  | none => simp [Finmap.lookup_eq_none.mp hlook]
  | some f =>
    have hmem : p ∈ s.frames := Finmap.mem_of_lookup_eq_some hlook
    obtain ⟨it,hit⟩ := Finmap.mem_iff.mp (h.cached p hmem)
    have hlisted : p ∈ s.lruList.values := List.mem_map.mpr ⟨_,h.points p it hit,rfl⟩
    simp [hmem,hlisted]

end Reachable

section Calls

theorem terminates_fetchPage_iff {s : BufferPool} (h : Listed s) (t : TableId) (p : PageId)
    (mode : FetchMode) : Terminates s (.fetchPage t p mode) ↔
      p ∈ s.frames ∨ s.unevictable.card < s.poolSize := by
  cases hlook : s.frames.lookup p with
  | some f =>
    have hmem : p ∈ s.frames := Finmap.mem_of_lookup_eq_some hlook
    refine iff_of_true ⟨0,?_⟩ (Or.inl hmem)
    simp only [exec,fetchPage,hlook,h.unlatched p f hlook]
    exact ⟨_,rfl⟩
  | none =>
    have hout : p ∉ s.frames := Finmap.lookup_eq_none.mp hlook
    rw [or_iff_right hout,← evictWhile_some_iff h.points]
    constructor
    · rintro ⟨fuel,⟨r,s'⟩,hexec⟩
      rcases fetchPage_cases hexec with ⟨f,hf,_⟩ | ⟨_,e,hevict,_⟩
      · rw [hlook] at hf
        cases hf
      · exact ⟨fuel,e,hevict⟩
    · rintro ⟨fuel,e,hevict⟩
      refine ⟨fuel,?_⟩
      simp only [exec,fetchPage,hlook,hevict,Option.bind_eq_bind,Option.bind_some]
      cases (e.disk.readPage t p).1 with
      | none => exact ⟨_,rfl⟩
      | some i => exact ⟨_,rfl⟩

theorem terminates_createNewPage_iff {s : BufferPool} (h : Listed s) (t : TableId)
    (type : PageType) :
    Terminates s (.createNewPage t type) ↔ s.unevictable.card < s.poolSize := by
  rw [← evictWhile_some_iff h.points]
  constructor
  · rintro ⟨fuel,⟨r,s'⟩,hexec⟩
    obtain ⟨e,hevict,_⟩ := createNewPage_cases hexec
    exact ⟨fuel,e,hevict⟩
  · rintro ⟨fuel,e,hevict⟩
    refine ⟨fuel,?_⟩
    simp only [exec,createNewPage,hevict,Option.bind_eq_bind,Option.bind_some]
    exact ⟨_,rfl⟩

theorem terminates_setPoolSize_iff {s : BufferPool} (h : Listed s) (n : ℕ) :
    Terminates s (.setPoolSize n) ↔ s.unevictable.card ≤ min n maxPoolSize := by
  rw [← Nat.lt_succ_iff,← evictWhile_some_iff h.points]
  constructor
  · rintro ⟨fuel,⟨r,s'⟩,hexec⟩
    obtain ⟨e,hevict,_⟩ := exec_setPoolSize hexec
    exact ⟨fuel,e,hevict⟩
  · rintro ⟨fuel,e,hevict⟩
    refine ⟨fuel,?_⟩
    simp only [exec,setPoolSize,hevict,Option.bind_eq_bind,Option.bind_some]
    exact ⟨_,rfl⟩

/-- In every reachable state a request returns exactly if it needs no room or the frames that no
eviction takes out leave some. -/
theorem terminates_iff (n : ℕ) (disk : Disk) (next : PageId) {s : BufferPool}
    (h : Reached (BufferPool.new n disk next) s) :
    (∀ t p mode, Terminates s (.fetchPage t p mode) ↔
      p ∈ s.frames ∨ s.unevictable.card < s.poolSize) ∧
    (∀ t type, Terminates s (.createNewPage t type) ↔ s.unevictable.card < s.poolSize) ∧
    ∀ n, Terminates s (.setPoolSize n) ↔ s.unevictable.card ≤ min n maxPoolSize :=
  ⟨fun t p mode => terminates_fetchPage_iff h.listed t p mode,
    fun t type => terminates_createNewPage_iff h.listed t type,
    fun n => terminates_setPoolSize_iff h.listed n⟩

/-- A pool of one frame, whose page is pinned by a fetch. -/
theorem exists_pinned : ∃ s, Reached (BufferPool.new 1 Disk.empty 1) s ∧ s.poolSize = 1 ∧
    s.unevictable = {1} := by
  have hfirst : (BufferPool.new 1 Disk.empty 1).exec 1 (.createNewPage 1 .dataPage) =
      some (_,_) := rfl
  have h1 := Reached.call .start hfirst
  have h2 := Reached.call h1 (show exec 1 _ (.fetchPage 1 1 .pin) = some (_,_) from rfl)
  exact ⟨_,h2,rfl,by decide⟩

/-- The size can be set to the one that the pool has. -/
theorem terminates_iff_pinned : ∃ s, Reached (BufferPool.new 1 Disk.empty 1) s ∧
    Terminates s (.setPoolSize 1) ∧ ¬Terminates s (.setPoolSize 0) := by
  obtain ⟨s,hs,_,hstay⟩ := exists_pinned
  obtain ⟨_,_,hset⟩ := terminates_iff 1 Disk.empty 1 hs
  refine ⟨s,hs,(hset 1).mpr ?_,fun h => ?_⟩
  · rw [hstay]
    decide
  · have hle := (hset 0).mp h
    rw [hstay] at hle
    revert hle
    decide

/-- The next page that is asked for never comes. -/
theorem not_terminates_pinned : ∃ s, Reached (BufferPool.new 1 Disk.empty 1) s ∧
    ¬Terminates s (.createNewPage 1 .dataPage) := by
  obtain ⟨s,hs,hsize,hstay⟩ := exists_pinned
  refine ⟨s,hs,?_⟩
  rw [terminates_createNewPage_iff hs.listed,hsize,hstay]
  decide

end Calls

end BufferPool
end OrangeSQL
