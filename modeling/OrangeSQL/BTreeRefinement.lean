import OrangeSQL.BTree

/-! The B-tree against a finite map. The constructor turns the empty leaf it has created into a
node of type ROOT, which is no leaf and has no child, so no call ever gets below the root. -/
namespace OrangeSQL
namespace BTree

section Barren

variable {K V : Type}

theorem run_bind_ok {α β : Type} {x : TreeM K V α} {f : α → TreeM K V β} {t t' : BTree K V} {a : α}
    (h : x.run t = .ok (a,t')) : (x >>= f).run t = (f a).run t' := by
  rw [StateT.run_bind,h]
  rfl

theorem run_get_bind {β : Type} (f : BTree K V → TreeM K V β) (t : BTree K V) :
    (get >>= f).run t = (f t).run t := rfl

theorem releaseNode_run {n : BTreeNode K V} {t : BTree K V} (hdirty : n.dirty = true)
    (hmem : n.pageId ∈ t.store.pages) :
    (releaseNode n).run t =
      .ok ((),{ t with store.pages := t.store.pages.insert n.pageId n.serialize }) := by
  simp only [releaseNode,hdirty,if_true]
  rw [show (modify _ : TreeM K V Unit).run t = .ok ((),_) from rfl,if_pos hmem]

/-- Neither a leaf nor the parent of anything. -/
structure Barren (n : BTreeNode K V) : Prop where
  isLeaf : n.isLeaf = false
  keyCount : n.keyCount = 0
  childCount : n.childCount = 0
  dirty : n.dirty = false

theorem Barren.getChild {n : BTreeNode K V} (h : Barren n) (i : ℕ) :
    n.getChild i = invalidPageId := by
  simp [BTreeNode.getChild,h.childCount]

theorem Barren.isFull {n : BTreeNode K V} (h : Barren n) : n.isFull = false := by
  simp [BTreeNode.isFull,h.keyCount,BTreeNode.maxKeys,BTreeNode.order]

end Barren

section Root

variable {K V : Type} [Inhabited K] [Inhabited V]

theorem getNode_run (pid : PageId) (t : BTree K V) :
    (getNode pid).run t = .ok (if pid = invalidPageId then none
      else (t.store.pages.lookup pid).map (BTreeNode.deserialize pid),t) := by
  by_cases hpid : pid = invalidPageId
  · simp [getNode,hpid]
    rfl
  · simp [getNode,hpid]
    rfl

@[simp] theorem deserialize_header (pid : PageId) (image : NodeImage K V) :
    (BTreeNode.deserialize pid image).header = image.header := by
  unfold BTreeNode.deserialize
  cases image.rest <;> rfl

@[simp] theorem deserialize_dirty (pid : PageId) (image : NodeImage K V) :
    (BTreeNode.deserialize pid image).dirty = false := by
  unfold BTreeNode.deserialize
  cases image.rest <;> rfl

@[simp] theorem deserialize_pageId (pid : PageId) (image : NodeImage K V) :
    (BTreeNode.deserialize pid image).pageId = pid := by
  unfold BTreeNode.deserialize
  cases image.rest <;> rfl

/-- The root cannot be loaded or is an empty node that is no leaf. -/
def BarrenRoot (t : BTree K V) : Prop :=
  ∀ image, t.store.pages.lookup t.rootPageId = some image → t.rootPageId ≠ invalidPageId →
    image.header.type = .root ∧ image.header.keyCount = 0 ∧ image.header.childCount = 0

theorem BarrenRoot.getNode {t : BTree K V} (h : BarrenRoot t) :
    ∃ held, (BTree.getNode t.rootPageId).run t = .ok (held,t) ∧ ∀ n ∈ held, Barren n := by
  refine ⟨_,getNode_run t.rootPageId t,?_⟩
  intro n hn
  by_cases hpid : t.rootPageId = invalidPageId
  · simp [hpid] at hn
  · rw [if_neg hpid] at hn
    obtain ⟨image,hlook,rfl⟩ := Option.map_eq_some_iff.mp hn
    have hroot := h image hlook hpid
    constructor
    · simp [BTreeNode.isLeaf,hroot]
    · simp [BTreeNode.keyCount,hroot]
    · simp [BTreeNode.childCount,hroot]
    · simp

theorem getNode_invalid (t : BTree K V) : (getNode invalidPageId).run t = .ok (none,t) := by
  rw [getNode_run,if_pos rfl]

/-- The new leaf is on its page before the constructor turns it into a root. -/
def withLeaf (config : IndexConfig) (store : PageStore K V) : BTree K V :=
  ⟨config,store.next,
    ⟨store.pages.insert store.next (BTreeNode.new store.next .leaf).serialize,store.next+1⟩⟩

theorem construct_run (config : IndexConfig) (store : PageStore K V) (h0 : 0 ∉ store.pages) :
    construct.run ⟨config,invalidPageId,store⟩ =
      (do
        match ← getNode store.next with
        | some root => releaseNode (root.setType .root)
        | none => pure () : TreeM K V Unit).run (withLeaf config store) := by
  have hzero : (getNode 0).run (⟨config,invalidPageId,store⟩ : BTree K V) =
      .ok (none,⟨config,invalidPageId,store⟩) := by
    rw [getNode_run,Finmap.lookup_eq_none.mpr h0]
    simp
  rw [construct,run_bind_ok hzero]
  rfl

/-- The new root is on a page of its own, and the others stay as they were. -/
theorem construct_barrenRoot (config : IndexConfig) (store : PageStore K V)
    (h0 : 0 ∉ store.pages) :
    ∃ t, construct.run ⟨config,invalidPageId,store⟩ = .ok ((),t) ∧ BarrenRoot t ∧
      ∀ pid, pid ≠ store.next → t.store.pages.lookup pid = store.pages.lookup pid := by
  have hkept : ∀ pid, pid ≠ store.next →
      (withLeaf config store).store.pages.lookup pid = store.pages.lookup pid :=
    fun pid hpid => Finmap.lookup_insert_of_ne _ hpid
  rw [construct_run config store h0]
  by_cases hnext : store.next = invalidPageId
  · refine ⟨withLeaf config store,?_,fun image _ hpid => absurd hnext hpid,hkept⟩
    rw [hnext,run_bind_ok (getNode_invalid _)]
    rfl
  · have hget := getNode_run store.next (withLeaf config store)
    rw [if_neg hnext,withLeaf,Finmap.lookup_insert] at hget
    rw [withLeaf,run_bind_ok hget]
    refine ⟨_,releaseNode_run rfl (by simp [BTreeNode.setType,BTreeNode.markDirty]),?_,?_⟩
    · intro image hlook _
      simp only [BTreeNode.setType,BTreeNode.markDirty,deserialize_pageId,Finmap.lookup_insert,
        Option.some.injEq] at hlook
      subst hlook
      simp [BTreeNode.serialize,BTreeNode.new]
    · intro pid hpid
      simp only [BTreeNode.setType,BTreeNode.markDirty,deserialize_pageId]
      rw [Finmap.lookup_insert_of_ne _ hpid]
      exact hkept pid hpid

end Root

section Calls

variable {K V : Type} [LinearOrder K] [Inhabited K] [Inhabited V]

theorem Barren.insertInternal_run {t : BTree K V} {n : BTreeNode K V} {pid : PageId} (h : Barren n)
    (hget : (getNode pid).run t = .ok (some n,t)) (fuel : ℕ) (key : K) (value : V) :
    (insertInternal (fuel+1) key value pid).run t = .ok (.error,t) := by
  rw [insertInternal,run_bind_ok hget]
  simp only [h.isLeaf,h.getChild]
  rw [if_neg Bool.false_ne_true,run_bind_ok (getNode_invalid t)]
  rfl

theorem BarrenRoot.insertInternal_run {t : BTree K V} (h : BarrenRoot t) (fuel : ℕ) (key : K)
    (value : V) : (insertInternal (fuel+1) key value t.rootPageId).run t = .ok (.error,t) := by
  obtain ⟨held,hget,hbarren⟩ := h.getNode
  cases held with
  | none =>
    rw [insertInternal,run_bind_ok hget]
    rfl
  | some n => exact (hbarren n rfl).insertInternal_run hget fuel key value

theorem BarrenRoot.insert_run {t : BTree K V} (h : BarrenRoot t) (fuel : ℕ) (key : K) (value : V) :
    (insert (fuel+1) key value).run t = .ok (.error,t) := by
  obtain ⟨held,hget,hbarren⟩ := h.getNode
  rw [insert,run_get_bind,run_bind_ok hget]
  cases held with
  | none => rfl
  | some n =>
    have hn := hbarren n rfl
    simp only [hn.isFull,Bool.false_eq_true,if_false,pure_bind]
    rw [run_get_bind,run_bind_ok (h.insertInternal_run fuel key value)]
    simp only [releaseNode,hn.dirty]
    rfl

theorem BarrenRoot.remove_run {t : BTree K V} (h : BarrenRoot t) (fuel : ℕ) (key : K) :
    (remove (fuel+1) key).run t = .ok (.error,t) := by
  have hinternal : (removeInternal (fuel+1) key t.rootPageId).run t = .ok (.error,t) := by
    obtain ⟨held,hget,hbarren⟩ := h.getNode
    rw [removeInternal,run_bind_ok hget]
    cases held with
    | none => rfl
    | some n =>
      have hn := hbarren n rfl
      have hat (pos : ℤ) : n.hasKeyAt pos key = false := by
        simp [BTreeNode.hasKeyAt,hn.keyCount]
      simp only [hn.isLeaf,hn.getChild,hat,Bool.false_eq_true,if_false]
      rw [run_bind_ok (getNode_invalid t)]
      rfl
  rw [remove,run_get_bind,run_bind_ok hinternal]
  rfl

theorem BarrenRoot.find_run {t : BTree K V} (h : BarrenRoot t) (fuel : ℕ) (key : K) :
    (find (fuel+2) key).run t = .ok ((.notFound,none),t) := by
  have hleaf : (findLeaf (fuel+2) key).run t = .ok (none,t) := by
    obtain ⟨held,hget,hbarren⟩ := h.getNode
    rw [findLeaf,run_get_bind,run_bind_ok hget]
    cases held with
    | none => rfl
    | some n =>
      have hn := hbarren n rfl
      simp only [findLeafFrom,hn.isLeaf,hn.getChild,Bool.false_eq_true,if_false]
      rw [run_bind_ok (getNode_invalid t)]
      rfl
  rw [find,run_bind_ok hleaf]
  rfl

/-- A call on a barren root that returns at all has failed. -/
theorem BarrenRoot.insert_error {t t' : BTree K V} (h : BarrenRoot t) {fuel : ℕ} {key : K}
    {value : V} {status : Status} (hrun : (insert fuel key value).run t = .ok (status,t')) :
    status = .error := by
  cases fuel with
  | zero =>
    obtain ⟨held,hget,hbarren⟩ := h.getNode
    rw [insert,run_get_bind,run_bind_ok hget] at hrun
    cases held with
    | none => cases hrun; rfl
    | some n =>
      have hn := hbarren n rfl
      simp only [hn.isFull,Bool.false_eq_true,if_false,pure_bind] at hrun
      cases hrun
  | succ fuel =>
    rw [h.insert_run fuel key value] at hrun
    cases hrun
    rfl

theorem BarrenRoot.remove_state {t t' : BTree K V} (h : BarrenRoot t) {fuel : ℕ} {key : K}
    {status : Status} (hrun : (remove fuel key).run t = .ok (status,t')) : t' = t := by
  cases fuel with
  | zero => cases hrun
  | succ fuel =>
    rw [h.remove_run fuel key] at hrun
    cases hrun
    rfl

end Calls

section Map

variable {K V : Type} [LinearOrder K] [Inhabited K] [Inhabited V]

/-- The calls that change the map. -/
inductive MapOp (K V : Type)
  | insert (key : K) (value : V)
  | remove (key : K)

/-- With enough fuel the call returns, with this result and in this state. -/
def Returns {α : Type} (call : ℕ → TreeM K V α) (t : BTree K V) (a : α) (t' : BTree K V) : Prop :=
  ∃ fuel, (call fuel).run t = .ok (a,t')

/-- What a search has to answer. -/
def answer : Option V → Status × Option V
  | some v => (.ok,some v)
  | none => (.notFound,none)

/-- From this state on the calls return, an insert of a fresh key with OK, and in the end every
search answers as the map does. The map takes no entry from an insert that is refused. -/
def Follows (t : BTree K V) (m : K → Option V) : List (MapOp K V) → Prop
  | [] => ∀ key, ∃ t', Returns (fun fuel => find fuel key) t (answer (m key)) t'
  | .insert key value::ops => ∃ status t',
      Returns (fun fuel => insert fuel key value) t status t' ∧ (m key = none → status = .ok) ∧
      Follows t' (if status = .ok then Function.update m key (some value) else m) ops
  | .remove key::ops => ∃ status t',
      Returns (fun fuel => remove fuel key) t status t' ∧
      Follows t' (Function.update m key none) ops

/-- A tree constructed over the store behaves as a map that starts empty. -/
def RefinesMap (config : IndexConfig) (store : PageStore K V) (ops : List (MapOp K V)) : Prop :=
  ∃ t, construct.run ⟨config,invalidPageId,store⟩ = .ok ((),t) ∧ Follows t (fun _ => none) ops

theorem BarrenRoot.follows_iff {t : BTree K V} (h : BarrenRoot t) (ops : List (MapOp K V)) :
    Follows t (fun _ => none) ops ↔ ∀ key value, MapOp.insert key value ∉ ops := by
  induction ops with
  | nil =>
    constructor
    · intro _ key value hmem
      cases hmem
    · intro _ key
      exact ⟨t,2,h.find_run 0 key⟩
  | cons op ops ih =>
    cases op with
    | insert key value =>
      constructor
      · intro ⟨status,t',⟨fuel,hrun⟩,hok,_⟩
        have herror := h.insert_error hrun
        have hstatus := hok rfl
        rw [herror] at hstatus
        cases hstatus
      · intro hnone
        exact absurd List.mem_cons_self (hnone key value)
    | remove key =>
      have hempty : Function.update (fun _ : K => (none : Option V)) key none = fun _ => none :=
        Function.update_eq_self key _
      have htail : (∀ k v, MapOp.insert k v ∉ MapOp.remove key::ops) ↔
          ∀ k v, MapOp.insert k v ∉ ops := by simp
      rw [htail,← ih]
      constructor
      · intro ⟨status,t',⟨fuel,hrun⟩,hrest⟩
        rwa [h.remove_state hrun,hempty] at hrest
      · intro hrest
        refine ⟨.error,t,⟨1,h.remove_run 0 key⟩,?_⟩
        rwa [hempty]

/-- The tree is a map for exactly the runs without an insert. -/
theorem refinesMap_iff_no_insert (config : IndexConfig) (store : PageStore K V)
    (h0 : 0 ∉ store.pages) (ops : List (MapOp K V)) :
    RefinesMap config store ops ↔ ∀ key value, MapOp.insert key value ∉ ops := by
  obtain ⟨t,hrun,hroot,_⟩ := construct_barrenRoot config store h0
  constructor
  · intro ⟨t',hrun',hfollows⟩
    rw [hrun] at hrun'
    cases hrun'
    exact (hroot.follows_iff ops).mp hfollows
  · intro hnone
    exact ⟨t,hrun,(hroot.follows_iff ops).mpr hnone⟩

/-- The store of a database that has not created a page yet. -/
def emptyStore : PageStore ℤ RecordId := ⟨∅,1⟩

theorem refinesMap_remove_only :
    0 ∉ emptyStore.pages ∧ RefinesMap ⟨false⟩ emptyStore [.remove 5,.remove 7] :=
  ⟨Finmap.notMem_empty,(refinesMap_iff_no_insert ⟨false⟩ emptyStore Finmap.notMem_empty _).mpr
    (by simp)⟩

theorem first_insert_fails :
    0 ∉ emptyStore.pages ∧ ¬RefinesMap ⟨false⟩ emptyStore [.insert 0 0] := by
  refine ⟨Finmap.notMem_empty,?_⟩
  intro ⟨t,hrun,_,_,⟨fuel,hinsert⟩,hok,_⟩
  obtain ⟨t',hrun',hroot,_⟩ := construct_barrenRoot ⟨false⟩ emptyStore Finmap.notMem_empty
  rw [hrun] at hrun'
  cases hrun'
  have hstatus := hok rfl
  rw [hroot.insert_error hinsert] at hstatus
  cases hstatus

end Map

end BTree
end OrangeSQL
