import OrangeSQL.BufferPoolLookup
import OrangeSQL.Engine

/-! Page numbers over several lifetimes of the process. The counter for new pages begins at 1 in
each of them, whatever is in the files, and a page that was fetched sits in the pool under its
number before the counter comes to it. -/
namespace OrangeSQL
namespace BufferPool

open Page FiniteMap

/-- The calls so far: the pages that earlier processes have created, those that this one has
created, and the numbers of the pages that this one has fetched. -/
structure Past where
  earlier : List (TableId × PageId)
  created : List (TableId × PageId)
  fetched : List PageId

namespace Past

def next (past : Past) (s : BufferPool) : PoolOp → Past
  | .fetchPage _ p _ => { past with fetched := p::past.fetched }
  | .createNewPage t _ => { past with created := (t,s.nextPageId)::past.created }
  | _ => past

def restarted (past : Past) : Past := ⟨past.created++past.earlier,[],[]⟩

/-- No earlier process has given the number to a page of the table, and this one has not fetched a
page with it. -/
def Unused (past : Past) (t : TableId) (p : PageId) : Prop :=
  (t,p) ∉ past.earlier ∧ p ∉ past.fetched

/-- The page was created, or is a gap that reads as zeros. -/
def Knows (past : Past) (q : Page) : Prop :=
  (q.getTableId,q.getPageId) ∈ past.earlier ∨ (q.getTableId,q.getPageId) ∈ past.created ∨
    q.getPageId = 0

end Past

/-- The file of the table holds a page that was flushed there. -/
def HoldsFlushed (d : Disk) (t : TableId) (p : PageId) : Prop :=
  ∃ q ∈ d.written, IsPage q t p ∧ d.images t p = some q

/-- A call of `createNewPage` that returned a page, with the pool and the calls before it. -/
structure Creation where
  table : TableId
  page : Page
  pool : BufferPool
  past : Past

namespace Creation

/-- The number in turn is not in use. -/
def Unused (c : Creation) : Prop := c.past.Unused c.table c.pool.nextPageId

def Collides (c : Creation) : Prop :=
  HoldsFlushed c.pool.disk c.table c.page.getPageId ∨ c.page.getPageId ∈ c.pool.frames

end Creation

def creations (s : BufferPool) (past : Past) : PoolOp → Option Page → List Creation
  | .createNewPage t _, some q => [⟨t,q,s,past⟩]
  | _, _ => []

/-- Lifetimes of the process one after the other, the first with empty files. Between the calls
clients change the pages they point to, and at any time the process may end, with or without a
flush; the pool and its counter are then built anew over the files. -/
inductive Lifetimes (outcomes : ℕ → Bool) : BufferPool → Past → List Creation → Prop
  | start (n : ℕ) :
      Lifetimes outcomes (new n { Disk.empty with outcomes := outcomes } 1) ⟨[],[],[]⟩ []
  | call {s s' : BufferPool} {past : Past} {made : List Creation} {fuel : ℕ} {op : PoolOp}
      {r : Option Page} : Lifetimes outcomes s past made → s.exec fuel op = some (r,s') →
      Lifetimes outcomes s' (past.next s op) (creations s past op r++made)
  | modify {s : BufferPool} {past : Past} {made : List Creation} {p : PageId} {f : BufferFrame}
      {change : Page → Page} : Lifetimes outcomes s past made → s.frames.lookup p = some f →
      (change f.page).getPageId = f.page.getPageId →
      (change f.page).getTableId = f.page.getTableId →
      Lifetimes outcomes (Engine.modifyPage s p change) past made
  | restart {s : BufferPool} {past : Past} {made : List Creation} (n : ℕ) :
      Lifetimes outcomes s past made → Lifetimes outcomes (new n s.disk 1) past.restarted made

/-- Where the pages of the pool and of the files come from. -/
structure Traced (past : Past) (s : BufferPool) : Prop where
  keyed : ∀ p f, s.frames.lookup p = some f → f.page.getPageId = p
  known : ∀ p f, s.frames.lookup p = some f → past.Knows f.page
  source : ∀ p f, s.frames.lookup p = some f →
    (∃ t, (t,p) ∈ past.created) ∨ p ∈ past.fetched ∨ p = 0
  images : ∀ t p i, s.disk.images t p = some i → past.Knows i ∧ (IsPage i t p ∨ i.getPageId = 0)
  padding : ∀ t p, (s.disk.padding t p).getPageId = 0
  counter : ∀ t p, (t,p) ∈ past.created → p < s.nextPageId
  positive : 1 ≤ s.nextPageId

namespace Traced

variable {past : Past} {s s' : BufferPool}

theorem writeIfDirty (h : Traced past s) {p : PageId} {f : BufferFrame}
    (hf : s.frames.lookup p = some f) : Traced past (s.writeIfDirty f) := by
  refine ⟨by simpa using h.keyed,by simpa using h.known,by simpa using h.source,?_,
    by simpa using h.padding,by simpa using h.counter,by simpa using h.positive⟩
  intro t q i hi
  rcases writeIfDirty_images_cases hi with hold | ⟨rfl,hpage⟩ | ⟨rfl,_⟩
  · exact h.images t q i hold
  · exact ⟨h.known p f hf,Or.inl hpage⟩
  · exact ⟨Or.inr (Or.inr (h.padding t q)),Or.inr (h.padding t q)⟩

theorem dropFrame (h : Traced past s) (v : PageId) : Traced past (s.dropFrame v) :=
  ⟨fun p f hf => h.keyed p f (lookup_dropFrame hf),fun p f hf => h.known p f (lookup_dropFrame hf),
    fun p f hf => h.source p f (lookup_dropFrame hf),h.images,h.padding,h.counter,h.positive⟩

/-- A frame for a page of known origin, under its number. -/
theorem insert (h : Traced past s) {p : PageId} {f : BufferFrame} (hid : f.page.getPageId = p)
    (hknown : past.Knows f.page)
    (hsource : (∃ t, (t,p) ∈ past.created) ∨ p ∈ past.fetched ∨ p = 0)
    (hframes : s'.frames = s.frames.insert p f) (hdisk : s'.disk = s.disk)
    (hnext : s'.nextPageId = s.nextPageId) : Traced past s' := by
  refine ⟨?_,?_,?_,by rw [hdisk]; exact h.images,by rw [hdisk]; exact h.padding,
    by rw [hnext]; exact h.counter,by rw [hnext]; exact h.positive⟩
  all_goals
    intro q g hg
    rw [hframes] at hg
    rcases lookup_insert_cases hg with ⟨rfl,rfl⟩ | hold
  · exact hid
  · exact h.keyed q g hold
  · exact hknown
  · exact h.known q g hold
  · exact hsource
  · exact h.source q g hold

theorem stable (past : Past) : Stable (Traced past) where
  drop h hf := (h.writeIfDirty hf).dropFrame _
  flush := by
    intro s p f h hf _
    exact (h.writeIfDirty hf).insert (f := { f with page := f.page.clearDirty, dirty := false })
      (h.keyed p f hf) (h.known p f hf) (h.source p f hf) (by simp) rfl rfl
  touch := by
    intro s s' p f g h hf hpage _ hframes hdisk hnext
    refine h.insert ?_ ?_ (h.source p f hf) hframes hdisk hnext
    · rw [hpage]
      exact h.keyed p f hf
    · rw [hpage]
      exact h.known p f hf
  read _ _ h := ⟨h.keyed,h.known,h.source,h.images,h.padding,h.counter,h.positive⟩
  resize _ h := ⟨h.keyed,h.known,h.source,h.images,h.padding,h.counter,h.positive⟩

/-- What was known stays known when more calls are made. -/
theorem mono (h : Traced past s) {past' : Past} (hearlier : past'.earlier = past.earlier)
    (hcreated : past'.created = past.created) (hfetched : ∀ p ∈ past.fetched, p ∈ past'.fetched) :
    Traced past' s := by
  have hknows : ∀ q, past.Knows q → past'.Knows q := by
    intro q hq
    unfold Past.Knows at hq ⊢
    rwa [hearlier,hcreated]
  refine ⟨h.keyed,fun p f hf => hknows _ (h.known p f hf),?_,?_,h.padding,
    by rw [hcreated]; exact h.counter,h.positive⟩
  · intro p f hf
    rw [hcreated]
    rcases h.source p f hf with hown | hfetch | hzero
    · exact Or.inl hown
    · exact Or.inr (Or.inl (hfetched p hfetch))
    · exact Or.inr (Or.inr hzero)
  · intro t p i hi
    exact ⟨hknows i (h.images t p i hi).1,(h.images t p i hi).2⟩

theorem fetchPage (h : Traced past s) {fuel : ℕ} {t : TableId} {p : PageId} {mode : FetchMode}
    {r : Option Page} (hfetch : s.fetchPage fuel t p mode = some (r,s')) :
    Traced { past with fetched := p::past.fetched } s' := by
  have hmono : Traced { past with fetched := p::past.fetched } s :=
    h.mono rfl rfl fun q hq => List.mem_cons_of_mem p hq
  rcases (stable _).fetchPage hmono hfetch with ⟨hs',_⟩ | ⟨e,i,he,_,hi,_,rfl⟩
  · exact hs'
  · obtain ⟨hknown,hplace⟩ := he.images t p i hi
    refine he.insert (f := BufferFrame.make i.clearDirty false mode) rfl hknown ?_ rfl rfl rfl
    rcases hplace with ⟨_,rfl⟩ | hzero
    · exact Or.inr (Or.inl List.mem_cons_self)
    · exact Or.inr (Or.inr hzero)

theorem createNewPage (h : Traced past s) {fuel : ℕ} {t : TableId} {type : PageType}
    {r : Option Page} (hcreate : s.createNewPage fuel t type = some (r,s')) :
    Traced { past with created := (t,s.nextPageId)::past.created } s' := by
  obtain ⟨e,he,_,_,rfl⟩ := (stable past).createNewPage h hcreate
  have hknows : ∀ q, past.Knows q →
      ({ past with created := (t,s.nextPageId)::past.created } : Past).Knows q := by
    rintro q (hearlier | hcreated | hzero)
    · exact Or.inl hearlier
    · exact Or.inr (Or.inl (List.mem_cons_of_mem _ hcreated))
    · exact Or.inr (Or.inr hzero)
  have hnext : Traced { past with created := (t,s.nextPageId)::past.created }
      { e with nextPageId := s.nextPageId+1 } := by
    refine ⟨he.keyed,fun p f hf => hknows _ (he.known p f hf),?_,?_,he.padding,?_,Nat.succ_pos _⟩
    · intro p f hf
      rcases he.source p f hf with ⟨t',hown⟩ | hrest
      · exact Or.inl ⟨t',List.mem_cons_of_mem _ hown⟩
      · exact Or.inr hrest
    · intro t' p i hi
      exact ⟨hknows i (he.images t' p i hi).1,(he.images t' p i hi).2⟩
    · intro t' p hmem
      rcases List.mem_cons.mp hmem with heq | hold
      · obtain ⟨_,rfl⟩ := Prod.mk.inj heq
        exact Nat.lt_succ_self _
      · exact (h.counter t' p hold).trans (Nat.lt_succ_self _)
  exact hnext.insert (p := s.nextPageId)
    (f := BufferFrame.make ((Page.new s.nextPageId t).setType type) true .read) rfl
    (Or.inr (Or.inl List.mem_cons_self)) (Or.inl ⟨t,List.mem_cons_self⟩) rfl rfl rfl

theorem exec (h : Traced past s) {fuel : ℕ} {op : PoolOp} {r : Option Page}
    (hexec : s.exec fuel op = some (r,s')) : Traced (past.next s op) s' := by
  cases op with
  | fetchPage t p mode => exact h.fetchPage hexec
  | createNewPage t type => exact h.createNewPage hexec
  | _ =>
    refine (stable past).exec h ?_ (by simp) (by simp) hexec
    exact fun _ hflushed => ⟨by simp [discardAll],by simp [discardAll],by simp [discardAll],
      hflushed.images,hflushed.padding,hflushed.counter,hflushed.positive⟩

theorem modifyPage (h : Traced past s) {p : PageId} {f : BufferFrame} {change : Page → Page}
    (hf : s.frames.lookup p = some f) (hid : (change f.page).getPageId = f.page.getPageId)
    (htable : (change f.page).getTableId = f.page.getTableId) :
    Traced past (Engine.modifyPage s p change) := by
  simp only [Engine.modifyPage,hf]
  refine h.insert (f := { f with page := change f.page }) (hid.trans (h.keyed p f hf)) ?_
    (h.source p f hf) rfl rfl rfl
  unfold Past.Knows
  rw [hid,htable]
  exact h.known p f hf

theorem restarted (h : Traced past s) (n : ℕ) : Traced past.restarted (new n s.disk 1) := by
  refine ⟨by simp [new],by simp [new],by simp [new],?_,h.padding,by simp [Past.restarted],le_rfl⟩
  intro t p i hi
  refine ⟨?_,(h.images t p i hi).2⟩
  rcases (h.images t p i hi).1 with hearlier | hcreated | hzero
  · exact Or.inl (List.mem_append_right _ hearlier)
  · exact Or.inl (List.mem_append_left _ hcreated)
  · exact Or.inr (Or.inr hzero)

/-- A number that is not in use belongs to no page. -/
theorem not_held (h : Traced past s) {t : TableId} (hunused : past.Unused t s.nextPageId) :
    ¬HoldsFlushed s.disk t s.nextPageId ∧ s.nextPageId ∉ s.frames := by
  have hpos := Nat.one_le_iff_ne_zero.mp h.positive
  constructor
  · rintro ⟨q,_,⟨htable,hid⟩,hq⟩
    rcases (h.images t s.nextPageId q hq).1 with hearlier | hcreated | hzero
    · rw [htable,hid] at hearlier
      exact hunused.1 hearlier
    · rw [htable,hid] at hcreated
      exact lt_irrefl _ (h.counter t s.nextPageId hcreated)
    · exact hpos (hid.symm.trans hzero)
  · intro hmem
    obtain ⟨f,hf⟩ := Finmap.mem_iff.mp hmem
    rcases h.source s.nextPageId f hf with ⟨t',hcreated⟩ | hfetched | hzero
    · exact lt_irrefl _ (h.counter t' s.nextPageId hcreated)
    · exact hunused.2 hfetched
    · exact hpos hzero

end Traced

section Runs

variable {outcomes : ℕ → Bool} {s : BufferPool} {past : Past} {made : List Creation}

theorem Lifetimes.traced (h : Lifetimes outcomes s past made) : Traced past s := by
  induction h with
  | start n =>
    exact ⟨by simp [new],by simp [new],by simp [new],by simp [new,Disk.empty],fun _ _ => rfl,
      by simp,le_rfl⟩
  | call _ hexec ih => exact ih.exec hexec
  | modify _ hf hid htable ih => exact ih.modifyPage hf hid htable
  | restart n _ ih => exact ih.restarted n

/-- In every run over any number of lifetimes, a new page collides with none if its number is not in
use. -/
theorem Lifetimes.new_pages_fresh (h : Lifetimes outcomes s past made) :
    ∀ c ∈ made, c.Unused → ¬c.Collides := by
  induction h with
  | start n => simp
  | @call s s' past made fuel op r hrun hexec ih =>
    intro c hc hunused
    rcases List.mem_append.mp hc with hnew | hold
    · cases op with
      | createNewPage t type =>
        obtain ⟨e,_,rfl,_⟩ := createNewPage_cases hexec
        obtain rfl := List.mem_singleton.mp hnew
        have hheld := hrun.traced.not_held hunused
        rintro (hflushed | hframe)
        · exact hheld.1 hflushed
        · exact hheld.2 hframe
      | _ => simp [creations] at hnew
    · exact ih c hold hunused
  | modify _ _ _ _ ih => exact ih
  | restart n _ ih => exact ih

theorem Lifetimes.new_pages_fresh_first :
    ∃ s past c, Lifetimes (fun _ => true) s past [c] ∧ c.Unused ∧ ¬c.Collides := by
  have hcreate : (new 2 Disk.empty 1).exec 1 (.createNewPage 7 .dataPage) = some (some _,_) := rfl
  have hrun := Lifetimes.call (@Lifetimes.start (fun _ => true) 2) hcreate
  have hunused : (⟨[],[],[]⟩ : Past).Unused 7 1 := ⟨List.not_mem_nil,List.not_mem_nil⟩
  exact ⟨_,_,_,hrun,hunused,hrun.new_pages_fresh _ List.mem_cons_self hunused⟩

/-- A page is created and flushed, the process is started again, and the first page it creates for
the same table has the same number. -/
theorem restarted_counter_collides :
    ∃ s past made, Lifetimes (fun _ => true) s past made ∧ ∃ c ∈ made, c.Collides := by
  have hcreate : (new 2 Disk.empty 1).exec 1 (.createNewPage 7 .dataPage) = some (some _,_) := rfl
  have hcreated := Lifetimes.call (@Lifetimes.start (fun _ => true) 2) hcreate
  have hflushed := @Lifetimes.call _ _ _ _ _ 0 (.flushAll [1]) _ hcreated rfl
  have hagain := @Lifetimes.call _ _ _ _ _ 1 (.createNewPage 7 .dataPage) _
    (hflushed.restart 2) rfl
  refine ⟨_,_,_,hagain,_,List.mem_cons_self,Or.inl ?_⟩
  exact ⟨_,List.mem_cons_self,⟨rfl,rfl⟩,rfl⟩

end Runs

end BufferPool
end OrangeSQL
