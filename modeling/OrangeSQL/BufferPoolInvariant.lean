import OrangeSQL.Library.Recency
import OrangeSQL.PoolRules

/-! The representation invariant of the buffer pool. The recency list, its iterators and the
frame map stay in step along every run, the pool keeps its size bound, and a page that is
evicted is the least recently used of the unpinned ones. -/
namespace OrangeSQL
namespace BufferPool

open Page Recency FiniteMap

section Labels

/-- Cached pages carry the page id they are stored under, and the page counter is above all ids of
pages cached or in a file. -/
structure LabelsOk (s : BufferPool) : Prop where
  frames : ∀ p f, s.frames.lookup p = some f → f.page.getPageId = p ∧ p < s.nextPageId
  images : ∀ t p i, s.disk.images t p = some i → p < s.nextPageId

/-- A page that a fetch reads from a file has in its header the id it is asked for under. -/
def ReadLabelled (s : BufferPool) : PoolOp → Option Page → Prop
  | .fetchPage _ p _, some q => p ∉ s.frames → q.getPageId = p
  | _, _ => True

theorem LabelsOk.writeIfDirty {s : BufferPool} (h : LabelsOk s) {p : PageId} {f : BufferFrame}
    (hf : s.frames.lookup p = some f) : LabelsOk (s.writeIfDirty f) := by
  refine ⟨by simpa using h.frames,?_⟩
  intro t q i hi
  rw [writeIfDirty_nextPageId]
  obtain ⟨hid,hlt⟩ := h.frames p f hf
  rcases writeIfDirty_images_cases hi with hold | ⟨_,_,rfl⟩ | ⟨_,hgap⟩
  · exact h.images t q i hold
  · exact hid ▸ hlt
  · exact (hid ▸ hgap).trans hlt

theorem LabelsOk.dropFrame {s : BufferPool} (h : LabelsOk s) (v : PageId) :
    LabelsOk (s.dropFrame v) :=
  ⟨fun p f hf => h.frames p f (lookup_dropFrame hf),h.images⟩

/-- Storing a frame under the id of its page, below the counter. -/
theorem LabelsOk.insert {s s' : BufferPool} (h : LabelsOk s) {p : PageId} {f : BufferFrame}
    (hid : f.page.getPageId = p) (hlt : p < s'.nextPageId)
    (hframes : s'.frames = s.frames.insert p f) (hdisk : s'.disk.images = s.disk.images)
    (hnext : s.nextPageId ≤ s'.nextPageId) : LabelsOk s' := by
  constructor
  · intro q g hg
    rw [hframes] at hg
    rcases lookup_insert_cases hg with ⟨rfl,rfl⟩ | hold
    · exact ⟨hid,hlt⟩
    · exact ⟨(h.frames q g hold).1,lt_of_lt_of_le (h.frames q g hold).2 hnext⟩
  · intro t q i hi
    rw [hdisk] at hi
    exact lt_of_lt_of_le (h.images t q i hi) hnext

theorem LabelsOk.stable : Stable LabelsOk where
  drop h hf := (h.writeIfDirty hf).dropFrame _
  flush := by
    intro s p f h hf _
    obtain ⟨hid,hlt⟩ := h.frames p f hf
    exact (h.writeIfDirty hf).insert (f := { f with page := f.page.clearDirty, dirty := false })
      hid (by simpa using hlt) (by simp) rfl le_rfl
  touch := by
    intro s s' p f g h hf hpage _ hframes hdisk hnext
    obtain ⟨hid,hlt⟩ := h.frames p f hf
    exact h.insert (by rw [hpage,hid]) (by rw [hnext]; exact hlt) hframes (by rw [hdisk])
      hnext.ge
  read _ _ h := ⟨h.frames,h.images⟩
  resize _ h := ⟨h.frames,h.images⟩

theorem LabelsOk.exec {fuel : ℕ} {s s' : BufferPool} {op : PoolOp} {r : Option Page}
    (h : LabelsOk s) (hread : ReadLabelled s op r) (hexec : s.exec fuel op = some (r,s')) :
    LabelsOk s' := by
  cases op with
  | fetchPage t p mode =>
    rcases fetchPage_cases hexec with ⟨f,hlook,_,rfl⟩ | ⟨hnone,e,hevict,hcases⟩
    · have hf := h.frames p f hlook
      exact h.insert (f := f.touch mode) hf.1 hf.2 rfl rfl le_rfl
    · have he := stable.evictWhile h hevict
      have hd := stable.read t p he
      rcases hcases with ⟨_,rfl⟩ | ⟨i,hi,rfl,rfl⟩
      · exact hd
      · have hid : i.getPageId = p := hread (Finmap.lookup_eq_none.mp hnone)
        have hlt : i.getPageId < e.nextPageId := by rw [hid]; exact he.images t p i hi
        exact hd.insert (f := BufferFrame.make i.clearDirty false mode) rfl hlt rfl rfl le_rfl
  | createNewPage t type =>
    obtain ⟨e,he,hsame,_,rfl⟩ := stable.createNewPage h hexec
    have hnext : e.nextPageId ≤ s.nextPageId+1 := by rw [hsame]; exact Nat.le_succ _
    exact he.insert (p := s.nextPageId)
      (f := BufferFrame.make ((Page.new s.nextPageId t).setType type) true .read)
      rfl (Nat.lt_succ_self _) rfl rfl hnext
  | _ =>
    refine stable.exec h ?_ (by simp) (by simp) hexec
    exact fun _ hflushed => ⟨by simp [discardAll],hflushed.images⟩

end Labels

/-- The recency list indexes the cached pages in the order of their last uses, and the pool keeps
within its size. -/
structure PoolInv (s : BufferPool) (uses : List PageId) : Prop where
  indexed : Indexes s.lruList s.lruIterators s.frames.keys
  ordered : Ordered s.lruList.values uses
  seen : ∀ p ∈ s.frames.keys, p ∈ uses
  size_le : s.size ≤ s.poolSize

namespace PoolInv

theorem of_new (n : ℕ) (disk : Disk) (next : PageId) : PoolInv (BufferPool.new n disk next) [] :=
  ⟨indexes_empty,ordered_nil [],by simp [BufferPool.new],Nat.zero_le _⟩

/-- Updates that keep the keys of the frame map and the recency list. -/
theorem congr {s s' : BufferPool} {uses : List PageId} (h : PoolInv s uses)
    (hlist : s'.lruList = s.lruList) (hits : s'.lruIterators = s.lruIterators)
    (hkeys : s'.frames.keys = s.frames.keys) (hsize : s'.poolSize = s.poolSize) :
    PoolInv s' uses := by
  refine ⟨?_,?_,hkeys ▸ h.seen,?_⟩
  · rw [hlist,hits,hkeys]
    exact h.indexed
  · rw [hlist]
    exact h.ordered
  · rw [size,hkeys,hsize]
    exact h.size_le

theorem keys_insert_cached {s : BufferPool} {p : PageId} {f : BufferFrame}
    (hlook : s.frames.lookup p = some f) (g : BufferFrame) :
    (s.frames.insert p g).keys = s.frames.keys := by
  rw [keys_insert]
  exact Finset.insert_eq_of_mem (Finmap.mem_keys.mpr (Finmap.mem_of_lookup_eq_some hlook))

theorem dropped {s : BufferPool} {uses : List PageId} (h : PoolInv s uses) {p : PageId}
    (hp : p ∈ s.frames) : PoolInv (s.dropFrame p) uses := by
  have hkeys : (s.dropFrame p).frames.keys = s.frames.keys.erase p := Finmap.keys_erase p s.frames
  refine ⟨?_,?_,?_,?_⟩
  · rw [hkeys]
    exact h.indexed.drop (Finmap.mem_keys.mpr hp)
  · apply h.ordered.sublist
    unfold dropFrame
    cases s.lruIterators.lookup p with
    | none => exact List.Sublist.refl _
    | some it => exact s.lruList.values_erase_sublist it
  · intro q hq
    rw [hkeys] at hq
    exact h.seen q (Finset.mem_of_mem_erase hq)
  · calc (s.dropFrame p).size = (s.frames.keys.erase p).card := by rw [size,hkeys]
      _ ≤ s.frames.keys.card := Finset.card_erase_le
      _ ≤ s.poolSize := h.size_le

theorem added {s : BufferPool} {uses : List PageId} (h : PoolInv s uses) {p : PageId}
    (hp : p ∉ s.frames) (hroom : s.size < s.poolSize) (f : BufferFrame) :
    PoolInv (s.addFrame p f) (p::uses) := by
  have hkeys : (s.addFrame p f).frames.keys = insert p s.frames.keys := keys_insert s.frames p f
  have hp' : p ∉ s.frames.keys := fun hmem => hp (Finmap.mem_keys.mp hmem)
  refine ⟨?_,?_,?_,?_⟩
  · rw [hkeys]
    exact h.indexed.push hp'
  · exact h.ordered.use fun hmem => hp' ((h.indexed.mem_iff p).mp hmem)
  · intro q hq
    rw [hkeys,Finset.mem_insert] at hq
    exact List.mem_cons.mpr (hq.imp_right (h.seen q))
  · rw [size,hkeys,Finset.card_insert_of_notMem hp']
    exact hroom

/-- A hit takes the page out of the list and pushes it to the front. -/
theorem touched {s : BufferPool} {uses : List PageId} (h : PoolInv s uses) {p : PageId}
    (hp : p ∈ s.frames) : PoolInv (s.updateLRU p) (p::uses) := by
  have hp' : p ∈ s.frames.keys := Finmap.mem_keys.mpr hp
  have hdrop := h.dropped hp
  have hgone := h.indexed.drop hp'
  refine ⟨h.indexed.touch hp',?_,fun q hq => List.mem_cons_of_mem p (h.seen q hq),h.size_le⟩
  exact hdrop.ordered.use fun hmem => Finset.notMem_erase p _ ((hgone.mem_iff p).mp hmem)

theorem written {s : BufferPool} {uses : List PageId} (h : PoolInv s uses) (f : BufferFrame) :
    PoolInv (s.writeIfDirty f) uses :=
  h.congr (by simp) (by simp) (by simp) (by simp)

theorem evicted {s : BufferPool} {uses : List PageId} (h : PoolInv s uses) :
    PoolInv s.evictPage uses := by
  rcases evictPage_cases s with hnop | ⟨v,f,hv,hevict⟩
  · rwa [hnop]
  · rw [hevict]
    exact (h.written f).dropped (by simpa using Finmap.mem_of_lookup_eq_some hv.1)

/-- After the loop there is room for one more frame, and no page has come into the pool. -/
theorem evicted_below {s e : BufferPool} {uses : List PageId} (h : PoolInv s uses)
    {limit fuel : ℕ} (hevict : evictWhile limit fuel s = some e) {p : PageId}
    (hp : p ∉ s.frames) :
    PoolInv e uses ∧ p ∉ e.frames ∧ e.poolSize = s.poolSize ∧ e.size < limit := by
  have hinv := evictWhile_inv (P := fun x => PoolInv x uses) (fun _ hx => hx.evicted) h hevict
  have hout := evictWhile_inv (P := fun x => p ∉ x.frames) (fun x hx => ?_) hp hevict
  have hsize := evictWhile_inv (P := fun x => x.poolSize = s.poolSize)
    (fun x hx => by rw [evictPage_poolSize,hx]) rfl hevict
  · exact ⟨hinv,hout,hsize,(evictWhile_eq_iterate hevict).2⟩
  · exact fun hmem => hx (evictPage_frames_subset x hmem)

theorem flushed {s : BufferPool} {uses : List PageId} (h : PoolInv s uses) (p : PageId) :
    PoolInv (s.flushPage p) uses := by
  rcases flushPage_cases s p with hnop | ⟨f,hlook,_,hflush⟩
  · rwa [hnop]
  · rw [hflush]
    exact h.congr (by simp) (by simp) (keys_insert_cached hlook _) (by simp)

end PoolInv

/-- The pages that a call fetched or created. -/
def used : PoolOp → Option Page → List PageId
  | .fetchPage _ p _, some _ => [p]
  | .createNewPage _ _, some q => [q.getPageId]
  | _, _ => []

theorem PoolInv.exec {fuel : ℕ} {s s' : BufferPool} {op : PoolOp} {r : Option Page}
    {uses : List PageId} (h : PoolInv s uses) (hlabels : LabelsOk s) (hread : ReadLabelled s op r)
    (hexec : s.exec fuel op = some (r,s')) : PoolInv s' (used op r++uses) := by
  cases op with
  | fetchPage t p mode =>
    rcases fetchPage_cases hexec with ⟨f,hlook,rfl,rfl⟩ | ⟨hnone,e,hevict,hcases⟩
    · have hset : PoolInv { s with frames := s.frames.insert p (f.touch mode) } uses :=
        h.congr rfl rfl (keys_insert_cached hlook _) rfl
      exact hset.touched (Finmap.mem_insert.mpr (Or.inl rfl))
    · have hp : p ∉ s.frames := Finmap.lookup_eq_none.mp hnone
      obtain ⟨he,hout,hsize,hroom⟩ := h.evicted_below hevict hp
      have hd : PoolInv { e with disk := (e.disk.readPage t p).2 } uses :=
        he.congr rfl rfl rfl rfl
      rcases hcases with ⟨rfl,rfl⟩ | ⟨i,_,rfl,rfl⟩
      · exact hd
      · have hid : i.getPageId = p := hread hp
        rw [hid]
        exact hd.added hout (by rw [← hsize] at hroom; exact hroom) _
  | createNewPage t type =>
    obtain ⟨e,hevict,rfl,rfl⟩ := createNewPage_cases hexec
    have hp : s.nextPageId ∉ s.frames := by
      intro hmem
      obtain ⟨f,hf⟩ := Finmap.mem_iff.mp hmem
      exact Nat.lt_irrefl _ (hlabels.frames _ f hf).2
    obtain ⟨he,hout,hsize,hroom⟩ := h.evicted_below hevict hp
    have hn : PoolInv { e with nextPageId := s.nextPageId+1 } uses := he.congr rfl rfl rfl rfl
    exact hn.added hout (by rw [← hsize] at hroom; exact hroom) _
  | unpinPage p dirty =>
    obtain ⟨rfl,rfl⟩ := Prod.mk.inj (Option.some.inj hexec)
    rcases unpinPage_cases s p dirty with hnop | ⟨f,hlook,hunpin⟩
    · rwa [hnop]
    · rw [hunpin]
      exact h.congr rfl rfl (keys_insert_cached hlook _) rfl
  | flushPage p =>
    obtain ⟨rfl,rfl⟩ := Prod.mk.inj (Option.some.inj hexec)
    exact h.flushed p
  | flushAll order =>
    obtain ⟨_,rfl,rfl⟩ := exec_flushAll hexec
    exact flushAll_inv (P := fun x => PoolInv x uses) (fun _ p hx => hx.flushed p) h order
  | discardPage p =>
    obtain ⟨rfl,rfl⟩ := Prod.mk.inj (Option.some.inj hexec)
    rcases discardPage_cases s p with hnop | ⟨f,hlook,hdiscard⟩
    · rwa [hnop]
    · rw [hdiscard]
      exact (h.written f).dropped (by simpa using Finmap.mem_of_lookup_eq_some hlook)
  | discardAll order =>
    obtain ⟨_,rfl,rfl⟩ := exec_discardAll hexec
    exact ⟨indexes_empty,ordered_nil _,by simp [discardAll],Nat.zero_le _⟩
  | setPoolSize n =>
    obtain ⟨e,hevict,rfl,rfl⟩ := exec_setPoolSize hexec
    have he := evictWhile_inv (P := fun x => PoolInv x uses) (fun _ hx => hx.evicted) h hevict
    exact ⟨he.indexed,he.ordered,he.seen,Nat.le_of_lt_succ (evictWhile_eq_iterate hevict).2⟩

/-- The states reached from a start state, with the pages fetched or created on the way, latest
first. Each call is one that returned and read no page with a wrong id. -/
inductive Reaches (start : BufferPool) : BufferPool → List PageId → Prop
  | start : Reaches start start []
  | call {s s' : BufferPool} {uses : List PageId} {fuel : ℕ} {op : PoolOp} {r : Option Page} :
      Reaches start s uses → s.exec fuel op = some (r,s') → ReadLabelled s op r →
      Reaches start s' (used op r++uses)

theorem Reaches.inv {start s : BufferPool} {uses : List PageId} (h : Reaches start s uses)
    (hstart : PoolInv start []) (hlabels : LabelsOk start) : PoolInv s uses ∧ LabelsOk s := by
  induction h with
  | start => exact ⟨hstart,hlabels⟩
  | call _ hexec hread ih => exact ⟨ih.1.exec ih.2 hread hexec,ih.2.exec hread hexec⟩

/-- A page that one eviction takes out is unpinned and least recently used among the unpinned. -/
theorem PoolInv.evicted_least {s : BufferPool} {uses : List PageId} (h : PoolInv s uses)
    {v : PageId} {f : BufferFrame} (hv : s.frames.lookup v = some f)
    (hgone : v ∉ s.evictPage.frames) :
    f.isPinned = false ∧ v ∈ uses ∧ ∀ q g, s.frames.lookup q = some g → g.isPinned = false →
      q ≠ v → uses.idxOf q < uses.idxOf v := by
  have hmem : v ∈ s.frames := Finmap.mem_of_lookup_eq_some hv
  rcases evictPage_cases s with hnop | ⟨w,g,⟨hw,hfree,hfind⟩,hevict⟩
  · rw [hnop] at hgone
    exact absurd hmem hgone
  · have hsame : v = w := by
      by_contra hne
      apply hgone
      rw [hevict,dropFrame,writeIfDirty_frames]
      exact Finmap.mem_erase.mpr ⟨hne,hmem⟩
    subst hsame
    obtain rfl : f = g := Option.some.inj (hv.symm.trans hw)
    refine ⟨hfree,h.seen v (Finmap.mem_keys.mpr hmem),?_⟩
    intro q g hq hunpinned hne
    have hlisted : q ∈ s.lruList.values :=
      (h.indexed.mem_iff q).mpr (Finmap.mem_keys.mpr (Finmap.mem_of_lookup_eq_some hq))
    exact h.ordered.find_reverse hfind hlisted (by simp [hq,hunpinned]) hne

/-- In every reachable state the recency list and its iterators index exactly the cached pages and
the pool is within its size; and `evictPage^[k] s` being the states in which the eviction loop of
a call evicts, each page evicted is unpinned and least recently used among the unpinned. -/
theorem reaches_representation (n : ℕ) (disk : Disk) (next : PageId)
    (hcounter : ∀ t p i, disk.images t p = some i → p < next)
    {s : BufferPool} {uses : List PageId}
    (h : Reaches (BufferPool.new n disk next) s uses) :
    Indexes s.lruList s.lruIterators s.frames.keys ∧
    (1 ≤ s.poolSize → s.size ≤ s.poolSize) ∧
    ∀ k v f, (evictPage^[k] s).frames.lookup v = some f → v ∉ (evictPage^[k+1] s).frames →
      f.isPinned = false ∧ v ∈ uses ∧
      ∀ q g, (evictPage^[k] s).frames.lookup q = some g → g.isPinned = false → q ≠ v →
        uses.idxOf q < uses.idxOf v := by
  have hstart : LabelsOk (BufferPool.new n disk next) := ⟨by simp [BufferPool.new],hcounter⟩
  obtain ⟨hinv,_⟩ := h.inv (PoolInv.of_new n disk next) hstart
  refine ⟨hinv.indexed,fun _ => hinv.size_le,?_⟩
  intro k v f hv hgone
  have hk : PoolInv (evictPage^[k] s) uses :=
    iterate_evictPage_inv (P := fun x => PoolInv x uses) (fun _ hx => hx.evicted) hinv k
  rw [Function.iterate_succ_apply'] at hgone
  exact hk.evicted_least hv hgone

/-- An empty disk and a pool of one frame: creating two pages evicts the first. -/
theorem reaches_representation_two_pages :
    ∃ s, Reaches (BufferPool.new 1 Disk.empty 1) s [2,1] ∧
      Indexes s.lruList s.lruIterators s.frames.keys ∧ s.lruList.values = [2] := by
  have hfirst : (BufferPool.new 1 Disk.empty 1).exec 1 (.createNewPage 1 .dataPage) =
      some (_,_) := rfl
  have h1 := Reaches.call .start hfirst trivial
  have h2 := Reaches.call h1
    (show exec 2 _ (.createNewPage 1 .dataPage) = some (_,_) from rfl) trivial
  have hrep := reaches_representation 1 Disk.empty 1 (by simp [Disk.empty]) h2
  exact ⟨_,h2,hrep.1,rfl⟩

end BufferPool
end OrangeSQL
