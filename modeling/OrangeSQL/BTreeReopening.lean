import OrangeSQL.BTreeMaps

/-! An index that is opened again. Where its root is, is kept nowhere: the constructor takes page 0 for
it. New pages are numbered from 1 on, so there is no page 0, or there are zero bytes where the file
begins, and in neither case does the index find what it had. -/
namespace OrangeSQL
namespace BTree

variable {K V : Type} [LinearOrder K] [Inhabited K] [Inhabited V]

section Reopening

/-- The header that zero bytes stand for: that of an empty leaf, with page 0 behind it. -/
def zeroHeader : BTreeNodeHeader := ⟨.leaf,0,0,0,0,0,0⟩

/-- Page 0 was never written: it cannot be read, or it is a hole in the file. -/
def Unwritten (store : PageStore K V) : Prop :=
  ∀ image, store.pages.lookup 0 = some image → image.header = zeroHeader

variable {t : BTree K V} {leaves : List (BTreeNode K V)}

omit [LinearOrder K] in
theorem construct_reopens {store : PageStore K V} {n : BTreeNode K V} (hzero : nodeAt store 0 = some n)
    (config : IndexConfig) (root : PageId) :
    construct.run ⟨config,root,store⟩ = .ok ((),⟨config,0,store⟩) := by
  have hget := getNode_nodeAt 0 (⟨config,root,store⟩ : BTree K V)
  rw [hzero] at hget
  rw [construct,run_bind_ok hget]
  rfl

/-- The hole in the file is a tree of one leaf without entries. -/
theorem Unwritten.emptyLeaf {store : PageStore K V} (h : Unwritten store) {image : NodeImage K V}
    (hlook : store.pages.lookup 0 = some image) :
    ∃ n, nodeAt store 0 = some n ∧ Subtree store 0 [n] ∧ entriesOf [n] = [] := by
  have hheader := h image hlook
  have hzero : (0 : PageId) ≠ invalidPageId := by decide
  have hnode : nodeAt store 0 = some (BTreeNode.deserialize 0 image) := by
    rw [nodeAt,if_neg hzero,hlook,Option.map_some]
  have hcount : (BTreeNode.deserialize 0 image).keyCount = 0 := by
    simp [BTreeNode.keyCount,hheader,zeroHeader]
  refine ⟨_,hnode,.leaf hnode (by simp [BTreeNode.isLeaf,hheader,zeroHeader]) ?_,?_⟩
  · intro i j _ hj
    rw [hcount] at hj
    exact absurd hj (Nat.not_lt_zero j)
  · simp [entriesOf,BTreeNode.entries,hcount]

/-- Every search in the index that is opened on such pages ends without a value. -/
theorem Unwritten.construct_run {store : PageStore K V} (h : Unwritten store) (config : IndexConfig) :
    ∃ t', construct.run ⟨config,invalidPageId,store⟩ = .ok ((),t') ∧
      (∀ key, ∃ depth, ∀ fuel ≥ depth, (find fuel key).run t' = .ok (answer none,t')) ∧
      (∀ pid, pid ≠ store.next → t'.store.pages.lookup pid = store.pages.lookup pid) ∧
      (0 ∉ store.pages → ∀ fuel key value, (insert (fuel+1) key value).run t' = .ok (.error,t')) := by
  cases hlook : store.pages.lookup 0 with
  | none =>
    obtain ⟨t',hrun,hbarren,hkept⟩ := construct_barrenRoot config store (Finmap.lookup_eq_none.mp hlook)
    refine ⟨t',hrun,fun key => ⟨2,fun fuel hfuel => ?_⟩,hkept,fun _ => hbarren.insert_run⟩
    obtain ⟨fuel,rfl⟩ := Nat.exists_eq_add_of_le' hfuel
    exact hbarren.find_run fuel key
  | some image =>
    obtain ⟨n,hnode,htree,hnone⟩ := h.emptyLeaf hlook
    refine ⟨_,construct_reopens hnode config invalidPageId,fun key => ?_,fun _ _ => rfl,
      fun habsent => absurd (Finmap.mem_of_lookup_eq_some hlook) habsent⟩
    obtain ⟨depth,r,hfind,hr⟩ := Subtree.find_run (t := ⟨config,0,store⟩) htree key
    obtain rfl : r = none := by
      cases r with
      | none => rfl
      | some v =>
        have hmem := (hr v).mp rfl
        rw [hnone] at hmem
        cases hmem
    exact ⟨depth,hfind⟩

/-- What the tree found is not found any more once its index is opened again, though its pages are
still there but for the one that gets the number of the new root. -/
theorem reopened_finds_nothing (t : BTree K V) (leaves : List (BTreeNode K V)) (h : WellFormed t leaves)
    (hzero : Unwritten t.store) (config : IndexConfig) :
    ∃ t', construct.run ⟨config,invalidPageId,t.store⟩ = .ok ((),t') ∧
      (∀ key, ∃ depth r, (∀ v, r = some v ↔ (key,v) ∈ entriesOf leaves) ∧
        ∀ fuel ≥ depth, (find fuel key).run t = .ok (answer r,t) ∧
          (find fuel key).run t' = .ok (answer none,t')) ∧
      (∀ pid, pid ≠ t.store.next → t'.store.pages.lookup pid = t.store.pages.lookup pid) ∧
      (0 ∉ t.store.pages → ∀ fuel key value, (insert (fuel+1) key value).run t' = .ok (.error,t')) := by
  obtain ⟨t',hrun,hnothing,hkept,hrefused⟩ := hzero.construct_run config
  refine ⟨t',hrun,fun key => ?_,hkept,hrefused⟩
  obtain ⟨depth,r,hfind,hr⟩ := h.tree.find_run key
  obtain ⟨depth',hfind'⟩ := hnothing key
  exact ⟨max depth depth',r,hr,fun fuel hfuel => ⟨hfind fuel (by omega),hfind' fuel (by omega)⟩⟩

/-- The key 6 is in the tree and not in the index that is opened on its pages. -/
theorem reopened_finds_nothing_sample : ∃ t' depth,
    construct.run ⟨⟨true⟩,invalidPageId,sampleTree.store⟩ = .ok ((),t') ∧
    (∀ fuel ≥ depth, (find fuel 6).run sampleTree = .ok ((.ok,some 6),sampleTree) ∧
      (find fuel 6).run t' = .ok ((.notFound,none),t')) ∧
    (∀ fuel, (insert (fuel+1) 6 6).run t' = .ok (.error,t')) := by
  have habsent : 0 ∉ sampleTree.store.pages := by decide
  have hzero : Unwritten sampleTree.store := by
    intro image hlook
    exact absurd (Finmap.mem_of_lookup_eq_some hlook) habsent
  obtain ⟨t',hrun,hfind,_,hrefused⟩ :=
    reopened_finds_nothing sampleTree sampleLeaves sampleTree_wellFormed hzero ⟨true⟩
  obtain ⟨depth,r,hr,hboth⟩ := hfind 6
  obtain rfl := (hr 6).mpr (by decide)
  exact ⟨t',depth,hrun,hboth,fun fuel => hrefused habsent fuel 6 6⟩

end Reopening

end BTree
end OrangeSQL
