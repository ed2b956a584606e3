import OrangeSQL.BTreeRedistribute

/-! Removing a key from the tree. As long as all nodes below the root are half full, nothing changes
on the way down, and the leaf loses one entry. Where an inner node has the key itself, a node is
released twice, or the two children around the key are merged, and what stood below the left one is
gone. -/
namespace OrangeSQL
namespace BTree

variable {K V : Type} [LinearOrder K] [Inhabited K] [Inhabited V]

open BTreeNode (minKeys toIndex)

section Definitions

/-- No node but the root is underfull. -/
def HalfFull (t : BTree K V) : Prop :=
  ∀ q n, Within t.store t.rootPageId q → q ≠ t.rootPageId → nodeAt t.store q = some n →
    minKeys ≤ n.keyCount

/-- What a removal is to do: it finds the key exactly if it is there, and takes out nothing else. -/
def RemovesExactly (t : BTree K V) (key : K) (entries : List (K × V)) : Prop :=
  ∃ depth status t', (∀ fuel ≥ depth, (remove fuel key).run t = .ok (status,t')) ∧
    ((∃ v, (key,v) ∈ entries) → status = .ok) ∧ ((∀ v, (key,v) ∉ entries) → status = .notFound) ∧
    ∃ pages leaves, Reads t'.store t'.rootPageId pages leaves ∧
      entriesOf leaves = entries.filter fun e => decide (e.1 ≠ key)

/-- No inner node that a search for the key comes through has the key for a separator. -/
def SeparatorFree (t : BTree K V) (key : K) : Prop :=
  ∀ nodes leaf, SearchPath t.store key t.rootPageId nodes leaf →
    ∀ n ∈ nodes, n.hasKeyAt (n.findKeyIndex key) key = false

end Definitions

section Trees

variable {s s' : PageStore K V} {pid : PageId} {pages : List PageId} {leaves : List (BTreeNode K V)}

/-- A tree in which every node is half full, except perhaps the one on its own page. -/
structure FullBelow (s : PageStore K V) (pid : PageId) (pages : List PageId)
    (leaves : List (BTreeNode K V)) : Prop where
  tree : Subtree s pid leaves
  nodup : leaves.Nodup
  reads : Reads s pid pages leaves
  full : ∀ q ∈ pages, q ≠ pid → ∀ n, nodeAt s q = some n → minKeys ≤ n.keyCount

omit [LinearOrder K] in
/-- The pages of a walk are pages of the tree. -/
theorem Reads.within (h : Reads s pid pages leaves) {root : PageId} (hroot : Within s root pid) :
    ∀ q ∈ pages, Within s root q := by
  induction h with
  | @leaf pid n page isLeaf =>
    intro q hq
    obtain rfl := List.mem_singleton.mp hq
    exact hroot
  | @inner pid n pages parts page notLeaf below ih =>
    intro q hq
    rcases List.mem_cons.mp hq with rfl | hq
    · exact hroot
    · obtain ⟨i,hi,hq⟩ := List.mem_flatMap.mp hq
      have hle := Nat.lt_succ_iff.mp (List.mem_range.mp hi)
      exact ih i hle (.child hroot page notLeaf hle) q hq

theorem WellFormed.fullBelow {t : BTree K V} (h : WellFormed t leaves) (hfull : HalfFull t) :
    ∃ pages, FullBelow t.store t.rootPageId pages leaves := by
  obtain ⟨pages,hreads⟩ := h.tree.reads
  exact ⟨pages,h.tree,h.nodup,hreads,fun q hq hne n hn => hfull q n (hreads.within .root q hq) hne hn⟩

theorem FullBelow.parentNode (h : FullBelow s pid pages leaves) {n : BTreeNode K V}
    (page : nodeAt s pid = some n) (notLeaf : n.isLeaf = false) : ∃ pages' parts,
      pages = pid::(List.range (n.keyCount+1)).flatMap pages' ∧
      leaves = (List.range (n.keyCount+1)).flatMap parts ∧ ParentNode s pid n pages' parts ∧
      ∀ c ≤ n.keyCount, FullBelow s (n.children c) (pages' c) (parts c) ∧
        ∀ q ∈ pages' c, ∀ m, nodeAt s q = some m → minKeys ≤ m.keyCount := by
  obtain ⟨pages',parts,hleaves,hnode⟩ := h.tree.parentNode h.nodup page notLeaf
  have hpages := ((Reads.inner pages' parts page notLeaf hnode.reads).unique
    (hleaves ▸ h.reads)).1
  have hfull : ∀ c ≤ n.keyCount, ∀ q ∈ pages' c, ∀ m, nodeAt s q = some m → minKeys ≤ m.keyCount := by
    intro c hc q hq
    refine h.full q ?_ (hnode.ne_of_mem hc hq)
    rw [hpages]
    exact List.mem_cons_of_mem _ (mem_flatMap_range hc hq)
  exact ⟨pages',parts,hpages,hleaves,hnode,fun c hc =>
    ⟨⟨hnode.trees c hc,hnode.part_nodup hc,hnode.reads c hc,fun q hq _ => hfull c hc q hq⟩,hfull c hc⟩⟩

theorem FullBelow.frame (h : FullBelow s pid pages leaves)
    (hsame : ∀ q ∈ pages, nodeAt s' q = nodeAt s q) : FullBelow s' pid pages leaves := by
  refine ⟨h.tree.frame_pages h.reads hsame,h.nodup,h.reads.frame hsame,?_⟩
  intro q hq hne n hn
  exact h.full q hq hne n ((hsame q hq).symm.trans hn)

omit [LinearOrder K] in
/-- Below half full nodes there are entries. -/
theorem Reads.entries_le (h : Reads s pid pages leaves)
    (hfull : ∀ q ∈ pages, ∀ n, nodeAt s q = some n → minKeys ≤ n.keyCount) :
    minKeys ≤ (entriesOf leaves).length := by
  induction h with
  | @leaf pid n page isLeaf =>
    rw [entriesOf,List.flatMap_singleton,BTreeNode.length_entries]
    exact hfull pid List.mem_cons_self n page
  | @inner pid n pages parts page notLeaf below ih =>
    have hfirst := ih 0 (Nat.zero_le _) fun q hq => hfull q
      (List.mem_cons_of_mem _ (mem_flatMap_range (Nat.zero_le _) hq))
    rw [entriesOf_around parts (Nat.zero_le n.keyCount)]
    simp only [List.length_append]
    omega

end Trees

section Descent

variable {t : BTree K V} {key : K} {pid : PageId} {pages : List PageId}
  {leaves : List (BTreeNode K V)}

/-- The way down to the leaf, where the key is removed if it is there. -/
theorem removeInternal_path {nodes : List (BTreeNode K V)} {leaf : BTreeNode K V}
    (h : SearchPath t.store key pid nodes leaf) (htree : FullBelow t.store pid pages leaves)
    (hfree : ∀ n ∈ nodes, n.hasKeyAt (n.findKeyIndex key) key = false) {fuel : ℕ}
    (hfuel : nodes.length < fuel) : (removeInternal fuel key pid).run t =
      (if leaf.hasKeyAt (leaf.findKeyIndex key) key then do
        releaseNode (leaf.removeAt (toIndex (leaf.findKeyIndex key))).2
        return .ok
      else return .notFound : TreeM K V Status).run t := by
  induction h generalizing fuel pages leaves with
  | @leaf pid n page isLeaf =>
    obtain ⟨fuel,rfl⟩ := Nat.exists_eq_add_of_le' (show 1 ≤ fuel by omega)
    rw [removeInternal,run_bind_ok (getNode_nodeAt pid t),page]
    simp only [isLeaf,if_true]
  | @inner pid n leaf nodes page notLeaf below ih =>
    obtain ⟨fuel,rfl⟩ := Nat.exists_eq_add_of_le' (show 1 ≤ fuel by omega)
    obtain ⟨pages',parts,rfl,rfl,hnode,hchildren⟩ := htree.parentNode page notLeaf
    obtain ⟨c,hc,hindex,hget,_⟩ := child_of_search hnode.increasing notLeaf hnode.counts key
    rw [hindex,hget] at below ih
    obtain ⟨child,hchild,_⟩ := below.root
    obtain ⟨hbelow,hfull⟩ := hchildren c hc
    have hroom : child.isUnderflow = false :=
      decide_eq_false (not_lt.mpr (hfull _ (hnode.child_mem hc) child hchild))
    have hhas := hfree n List.mem_cons_self
    rw [removeInternal,run_bind_ok (getNode_nodeAt pid t),page]
    simp only [notLeaf,hhas,Bool.false_eq_true,if_false,hindex,hget]
    rw [run_bind_ok (getNode_nodeAt _ t),hchild]
    simp only [hroom,Bool.false_eq_true,if_false]
    exact ih hbelow (fun k hk => hfree k (List.mem_cons_of_mem n hk)) (by simpa using hfuel)

/-- The root of a well-formed tree is not the kind of root that `remove` takes away. -/
theorem WellFormed.root_kept (h : WellFormed t leaves) : ∃ root,
    nodeAt t.store t.rootPageId = some root ∧ ¬ (root.keyCount = 0 ∧ !root.isLeaf) := by
  obtain ⟨root,hroot⟩ := h.tree.root
  refine ⟨root,hroot,?_⟩
  rintro ⟨hzero,hinner⟩
  obtain ⟨_,_,hkeyed,_⟩ := h.tree.eq_inner hroot (by simpa using hinner)
  omega

omit [LinearOrder K] [Inhabited K] [Inhabited V] in
theorem filter_keys_eq_self [DecidableEq K] {es : List (K × V)} (h : ∀ e ∈ es, e.1 ≠ key) :
    (es.filter fun e => decide (e.1 ≠ key)) = es :=
  List.filter_eq_self.mpr fun e he => decide_eq_true (h e he)

theorem KeyLeaf.mem_iff {s : PageStore K V} {nodes before behind : List (BTreeNode K V)}
    {leaf : BTreeNode K V} (h : KeyLeaf s pid leaves key nodes leaf before behind) (v : V) :
    (key,v) ∈ entriesOf leaves ↔ (key,v) ∈ leaf.entries :=
  Found.mem_iff ⟨h.isLeaf,h.increasing,before,behind,h.place,h.before_lt,h.lt_behind⟩ v

theorem KeyLeaf.filter_entries {s : PageStore K V} {nodes before behind : List (BTreeNode K V)}
    {leaf : BTreeNode K V} (h : KeyLeaf s pid leaves key nodes leaf before behind) :
    ((entriesOf leaves).filter fun e => decide (e.1 ≠ key)) =
      entriesOf before++(leaf.entries.filter fun e => decide (e.1 ≠ key))++entriesOf behind := by
  have hcons : entriesOf (leaf::behind) = leaf.entries++entriesOf behind := rfl
  rw [h.place,entriesOf_append,hcons,List.filter_append,List.filter_append,
    filter_keys_eq_self fun e he => (h.before_lt e he).ne,
    filter_keys_eq_self fun e he => (h.lt_behind e he).ne',List.append_assoc]

/-- Without a separator in the way the removal is exact. -/
theorem SeparatorFree.removesExactly (hfree : SeparatorFree t key) (h : WellFormed t leaves)
    (hfull : HalfFull t) : RemovesExactly t key (entriesOf leaves) := by
  obtain ⟨pages,htree⟩ := h.fullBelow hfull
  obtain ⟨nodes,leaf,before,behind,hleaf⟩ := h.tree.keyLeaf h.nodup key
  have hrun := fun fuel (hfuel : fuel ≥ nodes.length+1) =>
    removeInternal_path hleaf.path htree (hfree nodes leaf hleaf.path) hfuel
  have hmem := fun v => (hleaf.mem_iff v).trans (BTreeNode.mem_entries_iff hleaf.increasing key v)
  by_cases hhas : leaf.hasKeyAt (leaf.findKeyIndex key) key = true
  · obtain ⟨i,hi,hkey,hremove⟩ := BTreeNode.remove_present hleaf.isLeaf hhas
    simp only [hhas,if_true,hremove] at hrun
    have hentries := BTreeNode.withoutPair_entries_eq_filter hleaf.increasing hi
    rw [hkey] at hentries
    have hwell := h.withLeafNode (m := leaf.withoutPair i) hleaf rfl rfl hleaf.isLeaf
      (BTreeNode.withoutPair_increasing hleaf.increasing hi) (fun e he => by
        rw [hentries] at he
        exact Or.inr (List.mem_of_mem_filter he))
    obtain ⟨root,hroot,hkept⟩ := hwell.root_kept
    obtain ⟨pages',hreads⟩ := hwell.tree.reads
    have hin : leaf.pageId ∈ t.store.pages := mem_of_nodeAt hleaf.page
    have hrelease := releaseNode_withNode (n := leaf.withoutPair i) rfl hin
    refine ⟨nodes.length+1,.ok,_,?_,fun _ => rfl,?_,pages',_,hreads,?_⟩
    · intro fuel hfuel
      have hinternal := hrun fuel hfuel
      rw [run_bind_ok hrelease] at hinternal
      rw [remove,run_get_bind,run_bind_ok hinternal]
      have hget := getNode_nodeAt (t.withNode (leaf.withoutPair i)).rootPageId
        (t.withNode (leaf.withoutPair i))
      rw [hroot] at hget
      simp only [if_true,run_get_bind]
      rw [run_bind_ok hget]
      simp only [hkept,if_false]
      rfl
    · intro hnone
      exact absurd ((hmem _).mpr ⟨hhas,rfl⟩) (hnone _)
    · have hcons : entriesOf (reread (leaf.withoutPair i)::behind) =
          (leaf.withoutPair i).entries++entriesOf behind := by
        rw [← reread_entries (n := leaf.withoutPair i) hleaf.isLeaf]
        rfl
      rw [hleaf.filter_entries,entriesOf_append,hcons,hentries,List.append_assoc]
  · simp only [hhas,Bool.false_eq_true,if_false] at hrun
    have habsent : ∀ v, (key,v) ∉ entriesOf leaves := fun v hv => hhas ((hmem v).mp hv).1
    refine ⟨nodes.length+1,.notFound,t,?_,?_,fun _ => rfl,pages,leaves,htree.reads,?_⟩
    · intro fuel hfuel
      have hinternal : (removeInternal fuel key t.rootPageId).run t = .ok (.notFound,t) :=
        hrun fuel hfuel
      rw [remove,run_get_bind,run_bind_ok hinternal]
      rfl
    · rintro ⟨v,hv⟩
      exact absurd hv (habsent v)
    · refine (filter_keys_eq_self ?_).symm
      rintro ⟨k,v⟩ he rfl
      exact habsent v he

end Descent

section Losses

variable {t t' : BTree K V} {key : K} {pid : PageId}

omit [LinearOrder K] [Inhabited K] [Inhabited V] in
theorem ok_of_bind {α β : Type} {x : TreeM K V α} {f : α → TreeM K V β} {b : β}
    (h : (x >>= f).run t = .ok (b,t')) :
    ∃ a t₁, x.run t = .ok (a,t₁) ∧ (f a).run t₁ = .ok (b,t') := by
  rw [StateT.run_bind] at h
  cases hx : x.run t with
  | error fault =>
    rw [hx] at h
    cases h
  | ok r =>
    rw [hx] at h
    exact ⟨r.1,r.2,rfl,h⟩

omit [LinearOrder K] [Inhabited K] [Inhabited V] in
theorem length_entriesOf_update (parts : ℕ → List (BTreeNode K V)) (x : List (BTreeNode K V))
    {c m : ℕ} (h : c ≤ m) :
    (entriesOf ((List.range (m+1)).flatMap (Function.update parts c x))).length+
        (entriesOf (parts c)).length =
      (entriesOf ((List.range (m+1)).flatMap parts)).length+(entriesOf x).length := by
  rw [flatMap_update parts x h,entriesOf_around parts h]
  simp only [entriesOf_append,List.length_append]
  omega

/-- The tree after a removal below a page: nothing was written that a walk from there does not come to,
and so many entries at least are gone. -/
structure Shrunk (t t' : BTree K V) (pid : PageId) (pages : List PageId)
    (leaves : List (BTreeNode K V)) (loss : ℕ) : Prop where
  root : t'.rootPageId = t.rootPageId
  serialized : Serialized t'.store
  others : ∀ q ∉ pages, nodeAt t'.store q = nodeAt t.store q
  reads : ∃ pages' leaves', Reads t'.store pid pages' leaves' ∧ (∀ q ∈ pages', q ∈ pages) ∧
    (entriesOf leaves').length+loss ≤ (entriesOf leaves).length

variable {n : BTreeNode K V} {pages : ℕ → List PageId} {parts : ℕ → List (BTreeNode K V)} {c loss : ℕ}

theorem Shrunk.child (h : Shrunk t t' (n.children c) (pages c) (parts c) loss)
    (hnode : ParentNode t.store pid n pages parts) (hc : c ≤ n.keyCount) :
    Shrunk t t' pid (pid::(List.range (n.keyCount+1)).flatMap pages)
      ((List.range (n.keyCount+1)).flatMap parts) loss := by
  obtain ⟨pages',leaves',hreads,hsub,hlength⟩ := h.reads
  constructor
  case root => exact h.root
  case serialized => exact h.serialized
  case others =>
    intro q hq
    exact h.others q fun hmem => hq (List.mem_cons_of_mem _ (mem_flatMap_range hc hmem))
  case reads =>
    have hpage := (h.others pid fun hmem => hnode.ne_of_mem hc hmem rfl).trans hnode.page
    refine ⟨_,_,Reads.replace_child hpage hnode.inner hnode.reads hnode.pages_nodup hc
      (fun q hq _ => h.others q hq) hnode.outside hreads,?_,?_⟩
    · intro q hq
      rcases List.mem_cons.mp hq with rfl | hq
      · exact List.mem_cons_self
      obtain ⟨i,hi,hq⟩ := List.mem_flatMap.mp hq
      have hi' := Nat.lt_succ_iff.mp (List.mem_range.mp hi)
      refine List.mem_cons_of_mem _ ?_
      rcases eq_or_ne i c with rfl | hne
      · rw [Function.update_self] at hq
        exact mem_flatMap_range hi' (hsub q hq)
      · rw [Function.update_of_ne hne] at hq
        exact mem_flatMap_range hi' hq
    · have hupdate := length_entriesOf_update parts leaves' hc
      omega

/-- After two children were merged and the key was removed below the right one, the entries that stood
below the left one are gone. -/
theorem Shrunk.merged {t₂ : BTree K V} {merged m : BTreeNode K V}
    (h : Shrunk (t.withNode merged) t₂ (n.children (c+1)) (pages (c+1)) (parts (c+1)) loss)
    (hnode : ParentNode t.store pid n pages parts) (hc : c < n.keyCount)
    (hm : BTreeNode.KeyRemoved n c m) (hmerged : merged.pageId = n.children c) :
    Shrunk t (t₂.withNode m) pid (pid::(List.range (n.keyCount+1)).flatMap pages)
      ((List.range (n.keyCount+1)).flatMap parts) (entriesOf (parts c)).length := by
  obtain ⟨pages',leaves',hreads,hsub,hlength⟩ := h.reads
  obtain ⟨hvalid,hpageId,_⟩ := nodeAt_some hnode.page
  have hpid : m.pageId = pid := hm.pageId.trans hpageId
  have hothers : ∀ q ≠ pid, q ∉ pages c → q ∉ pages (c+1) →
      nodeAt (t₂.withNode m).store q = nodeAt t.store q := by
    intro q hq hleft hright
    rw [nodeAt_withNode_of_ne (hpid ▸ hq),h.others q hright,nodeAt_withNode_of_ne]
    rintro rfl
    rw [hmerged] at hleft
    exact hleft (hnode.child_mem hc.le)
  have hpage : nodeAt (t₂.withNode m).store pid = some (reread m) := by
    rw [← hpid]
    exact nodeAt_withNode_self (hpid ▸ hvalid)
  have hright := hreads.frame fun q hq => show nodeAt (t₂.withNode m).store q = _ from
    nodeAt_withNode_of_ne (hpid ▸ hnode.ne_of_mem hc (hsub q hq))
  constructor
  case root => exact h.root
  case serialized => exact h.serialized.withNode m
  case others =>
    intro q hq
    rw [List.mem_cons,not_or] at hq
    exact hothers q hq.1 (fun hmem => hq.2 (mem_flatMap_range hc.le hmem))
      fun hmem => hq.2 (mem_flatMap_range hc hmem)
  case reads =>
    refine ⟨_,_,hnode.without hc hm hpage hothers hright,?_,?_⟩
    · intro q hq
      rcases List.mem_cons.mp hq with rfl | hq
      · exact List.mem_cons_self
      refine List.mem_cons_of_mem _ ?_
      obtain ⟨i,hi,hq⟩ : ∃ i ≤ n.keyCount, q ∈ Function.update pages (c+1) pages' i := by
        rcases List.mem_append.mp hq with hq | hq
        · obtain ⟨i,hi,hq⟩ := List.mem_flatMap.mp hq
          have hlt := List.mem_range.mp hi
          exact ⟨i,by omega,hq⟩
        · obtain ⟨i,hi,hq⟩ := List.mem_flatMap.mp hq
          have hlt := (List.mem_range'_1.mp hi).2
          exact ⟨i,by omega,hq⟩
      rcases eq_or_ne i (c+1) with rfl | hne
      · rw [Function.update_self] at hq
        exact mem_flatMap_range hc (hsub q hq)
      · rw [Function.update_of_ne hne] at hq
        exact mem_flatMap_range hi hq
    · have hupdate := length_entriesOf_update parts leaves' (show c+1 ≤ n.keyCount by omega)
      have haround := entriesOf_around (Function.update parts (c+1) leaves') hc.le
      rw [Function.update_of_ne (Nat.ne_of_lt (Nat.lt_succ_self c))] at haround
      rw [haround] at hupdate
      simp only [entriesOf_append,List.length_append] at hupdate ⊢
      omega

/-- Where one of the two children could lend a key, the removal fails; else they are merged, and it
goes on below the right one. -/
theorem removeSeparator_ok {removeBelow : K → PageId → TreeM K V Status} {fuel : ℕ} {status : Status}
    (hnode : ParentNode t.store pid n pages parts) (hc : c < n.keyCount)
    (hrun : (removeSeparator removeBelow fuel n key c).run t = .ok (status,t')) :
    ∃ merged m t₂ status', merged.pageId = n.children c ∧ BTreeNode.KeyRemoved n c m ∧
      (removeBelow key (n.children (c+1))).run (t.withNode merged) = .ok (status',t₂) ∧
      (releaseNode m).run t₂ = .ok ((),t') := by
  obtain ⟨left,hleft⟩ := (hnode.trees c hc.le).root
  obtain ⟨right,hright⟩ := (hnode.trees (c+1) hc).root
  rw [removeSeparator,run_bind_ok (hnode.getNode_child hc.le hleft),
    run_bind_ok (hnode.getNode_child hc hright)] at hrun
  by_cases hlends : minKeys+1 ≤ left.keyCount
  · simp only [hlends,if_true] at hrun
    obtain ⟨_,_,_,hrun⟩ := ok_of_bind hrun
    obtain ⟨_,_,_,hrun⟩ := ok_of_bind hrun
    obtain ⟨_,_,_,hrun⟩ := ok_of_bind hrun
    obtain ⟨_,_,_,hrun⟩ := ok_of_bind hrun
    cases hrun
  by_cases hlends' : minKeys+1 ≤ right.keyCount
  · simp only [hlends,hlends',if_true,if_false] at hrun
    obtain ⟨_,_,_,hrun⟩ := ok_of_bind hrun
    obtain ⟨_,_,_,hrun⟩ := ok_of_bind hrun
    obtain ⟨_,_,_,hrun⟩ := ok_of_bind hrun
    obtain ⟨_,_,_,hrun⟩ := ok_of_bind hrun
    cases hrun
  simp only [hlends,hlends',if_false] at hrun
  have hl : left.keyCount ≤ minKeys := by omega
  have hcounts := hnode.child_counts hc.le hleft
  obtain ⟨m,hremove,hm⟩ := BTreeNode.removeAt_inner hnode.inner hc (by rw [hnode.counts]; omega)
  have hmerge := mergeNodes_run hnode hc hleft hright hl hcounts
  rw [hremove] at hmerge
  rw [run_bind_ok hmerge] at hrun
  have hkeys := hm.childCount
  have hcount := hnode.counts
  have hgoOn : m.getChild c = n.children (c+1) := by
    rw [BTreeNode.getChild_eq (hm.isLeaf.trans hnode.inner) (by omega),hm.children c (by omega),
      if_neg (Nat.lt_irrefl c)]
  obtain ⟨status',t₂,hbelow,hrun⟩ := ok_of_bind hrun
  obtain ⟨_,t₃,hwrite,hrun⟩ := ok_of_bind hrun
  cases hrun
  refine ⟨mergedNode n left right c,m,t₂,status',?_,hm,?_,hwrite⟩
  · exact (mergedNode_header n right c hl hcounts).1.trans (nodeAt_some hleft).2.1
  · rw [← hgoOn]
    exact hbelow

theorem Shrunk.withoutPair {pages : List PageId} {leaves : List (BTreeNode K V)}
    (page : nodeAt t.store pid = some n) (hleaf : n.isLeaf = true)
    (htree : FullBelow t.store pid pages leaves) (hserialized : Serialized t.store)
    (hc : c < n.keyCount) : Shrunk t (t.withNode (n.withoutPair c)) pid pages leaves 0 := by
  obtain ⟨rfl,rfl⟩ := htree.reads.eq_leaf page hleaf
  obtain ⟨hvalid,hpid,_⟩ := nodeAt_some page
  have hpage : nodeAt (t.withNode (n.withoutPair c)).store pid = some (reread (n.withoutPair c)) := by
    rw [← hpid]
    exact nodeAt_withNode_self (n := n.withoutPair c) (hpid ▸ hvalid)
  have hlength : (reread (n.withoutPair c)).entries.length ≤ n.entries.length := by
    rw [reread_entries (n := n.withoutPair c) hleaf,BTreeNode.withoutPair_entries hc]
    exact List.length_eraseIdx_le _ _
  constructor
  case root => rfl
  case serialized => exact hserialized.withNode _
  case others =>
    intro q hq
    exact nodeAt_withNode_of_ne (n := n.withoutPair c) fun heq => hq (by
      rw [heq]
      exact List.mem_singleton.mpr hpid)
  case reads =>
    refine ⟨_,_,.leaf hpage (by rw [reread_isLeaf]; exact hleaf),fun q hq => hq,?_⟩
    simpa [entriesOf] using hlength

/-- A removal that returns has written below its page only and has added nothing. If it came through a
node with the key, then all that stood below one child is gone. -/
theorem removeInternal_shrinks (fuel : ℕ) {pages : List PageId} {leaves : List (BTreeNode K V)}
    {status : Status} (htree : FullBelow t.store pid pages leaves) (hserialized : Serialized t.store)
    (hrun : (removeInternal fuel key pid).run t = .ok (status,t')) :
    ∃ loss, Shrunk t t' pid pages leaves loss ∧ ∀ nodes leaf, SearchPath t.store key pid nodes leaf →
      ∀ n ∈ nodes, n.hasKeyAt (n.findKeyIndex key) key = true → minKeys ≤ loss := by
  induction fuel generalizing t t' pid pages leaves status with
  | zero => cases hrun
  | succ fuel ih =>
    obtain ⟨n,page⟩ := htree.tree.root
    rw [removeInternal,run_bind_ok (getNode_nodeAt pid t),page] at hrun
    cases hleaf : n.isLeaf with
    | true =>
      have hnoPath : ∀ nodes leaf, SearchPath t.store key pid nodes leaf → nodes = [] := by
        intro nodes leaf hpath
        exact ((SearchPath.leaf page hleaf).unique hpath).1
      refine ⟨0,?_,fun nodes leaf hpath k hk => absurd hk (by simp [hnoPath nodes leaf hpath])⟩
      simp only [hleaf,if_true] at hrun
      by_cases hhas : n.hasKeyAt (n.findKeyIndex key) key = true
      · obtain ⟨i,hi,_,hremove⟩ := BTreeNode.remove_present hleaf hhas
        have hin : n.pageId ∈ t.store.pages := mem_of_nodeAt page
        simp only [hhas,if_true,hremove] at hrun
        rw [run_bind_ok (releaseNode_withNode (n := n.withoutPair i) rfl hin)] at hrun
        cases hrun
        exact .withoutPair page hleaf htree hserialized hi
      · simp only [hhas,Bool.false_eq_true,if_false] at hrun
        cases hrun
        exact ⟨rfl,hserialized,fun _ _ => rfl,pages,leaves,htree.reads,fun _ hq => hq,le_rfl⟩
    | false =>
      obtain ⟨pages',parts,rfl,rfl,hnode,hchildren⟩ := htree.parentNode page hleaf
      simp only [hleaf,Bool.false_eq_true,if_false] at hrun
      by_cases hhas : n.hasKeyAt (n.findKeyIndex key) key = true
      · obtain ⟨i,hi,hlt,hkey⟩ := BTreeNode.hasKeyAt_index hhas
        have hindex : toIndex (n.findKeyIndex key) = i := by
          rw [hi,BTreeNode.toIndex_natCast (hlt.trans n.header.keyCount.toNat_lt)]
        simp only [hhas,if_true,hindex] at hrun
        obtain ⟨merged,m,t₂,status',hmerged,hm,hbelow,hwrite⟩ := removeSeparator_ok hnode hlt hrun
        have hsame : ∀ q, q ≠ n.children i →
            nodeAt (t.withNode merged).store q = nodeAt t.store q := fun q hq =>
          nodeAt_withNode_of_ne (hmerged ▸ hq)
        have hright : FullBelow (t.withNode merged).store (n.children (i+1)) (pages' (i+1))
            (parts (i+1)) := by
          refine (hchildren (i+1) hlt).1.frame fun q hq => hsame q ?_
          rintro rfl
          exact hnode.not_mem_of_ne hlt hlt.le (Nat.succ_ne_self i) hq (hnode.child_mem hlt.le)
        obtain ⟨loss,hshrunk,_⟩ := ih hright (hserialized.withNode merged) hbelow
        have hpage : nodeAt t₂.store pid = some n := by
          rw [hshrunk.others pid fun hmem => hnode.ne_of_mem hlt hmem rfl,hsame pid
            (hnode.ne_of_mem hlt.le (hnode.child_mem hlt.le)).symm]
          exact page
        have hin : m.pageId ∈ t₂.store.pages := hm.pageId ▸ mem_of_nodeAt hpage
        rw [releaseNode_withNode hm.dirty hin] at hwrite
        cases hwrite
        refine ⟨_,hshrunk.merged hnode hlt hm hmerged,fun _ _ _ _ _ _ => ?_⟩
        exact (hnode.reads i hlt.le).entries_le (hchildren i hlt.le).2
      · obtain ⟨c,hc,hindex,hget,_⟩ := child_of_search hnode.increasing hleaf hnode.counts key
        obtain ⟨hbelow,hfull⟩ := hchildren c hc
        obtain ⟨child,hchild⟩ := hbelow.tree.root
        have hroom : child.isUnderflow = false :=
          decide_eq_false (not_lt.mpr (hfull _ (hnode.child_mem hc) child hchild))
        simp only [hhas,hindex,hget,Bool.false_eq_true,if_false] at hrun
        rw [run_bind_ok (getNode_nodeAt _ t),hchild] at hrun
        simp only [hroom,Bool.false_eq_true,if_false] at hrun
        obtain ⟨loss,hshrunk,hloss⟩ := ih hbelow hserialized hrun
        refine ⟨loss,hshrunk.child hnode hc,?_⟩
        intro nodes leaf hpath k hk hhas'
        cases hpath with
        | leaf page' isLeaf =>
          cases hk
        | inner page' _ hpath =>
          obtain rfl := Option.some.inj (page.symm.trans page')
          rcases List.mem_cons.mp hk with rfl | hk
          · exact absurd hhas' hhas
          · rw [hindex,hget] at hpath
            exact hloss _ _ hpath k hk hhas'

end Losses

section Roots

variable {t t' : BTree K V} {key : K} {s s' : PageStore K V} {pid : PageId} {pages : List PageId}
  {leaves : List (BTreeNode K V)}

omit [LinearOrder K] in
theorem Reads.of_mem_pages (h : Reads s pid pages leaves) {q : PageId} (hq : q ∈ pages) :
    ∃ pages' leaves', Reads s q pages' leaves' ∧ pages'.length ≤ pages.length := by
  induction h with
  | @leaf pid n page isLeaf =>
    obtain rfl := List.mem_singleton.mp hq
    exact ⟨_,_,.leaf page isLeaf,le_rfl⟩
  | @inner pid n pages parts page notLeaf below ih =>
    rcases List.mem_cons.mp hq with rfl | hq
    · exact ⟨_,_,.inner pages parts page notLeaf below,le_rfl⟩
    · obtain ⟨i,hi,hq⟩ := List.mem_flatMap.mp hq
      have hle := Nat.lt_succ_iff.mp (List.mem_range.mp hi)
      obtain ⟨pages',leaves',hreads,hlength⟩ := ih i hle hq
      refine ⟨pages',leaves',hreads,hlength.trans ?_⟩
      rw [flatMap_split pages hle]
      simp only [List.length_cons,List.length_append]
      omega

omit [LinearOrder K] in
/-- A walk does not come back to the page where it began. -/
theorem Reads.not_mem_below {n : BTreeNode K V} {pages : ℕ → List PageId}
    {parts : ℕ → List (BTreeNode K V)} (page : nodeAt s pid = some n) (notLeaf : n.isLeaf = false)
    (below : ∀ i ≤ n.keyCount, Reads s (n.children i) (pages i) (parts i)) {i : ℕ}
    (hi : i ≤ n.keyCount) : pid ∉ pages i := by
  intro hmem
  obtain ⟨pages',leaves',hreads,hlength⟩ := (below i hi).of_mem_pages hmem
  obtain ⟨rfl,_⟩ := (Reads.inner pages parts page notLeaf below).unique hreads
  rw [flatMap_split pages hi] at hlength
  simp only [List.length_cons,List.length_append] at hlength
  omega

omit [LinearOrder K] in
/-- Another type on the page where the walk begins does not change where it goes. -/
theorem Reads.of_same_children (h : Reads s' pid pages leaves) {n n' : BTreeNode K V}
    (page : nodeAt s pid = some n) (page' : nodeAt s' pid = some n') (notLeaf : n.isLeaf = false)
    (notLeaf' : n'.isLeaf = false) (keyCount : n'.keyCount = n.keyCount)
    (children : n'.children = n.children) (hothers : ∀ q ≠ pid, nodeAt s' q = nodeAt s q) :
    Reads s pid pages leaves := by
  obtain ⟨pages',parts,rfl,rfl,hbelow⟩ := h.eq_inner page' notLeaf'
  rw [keyCount]
  refine .inner pages' parts page notLeaf fun i hi => ?_
  have hi' : i ≤ n'.keyCount := keyCount ▸ hi
  rw [← children]
  refine (hbelow i hi').frame fun q hq => (hothers q ?_).symm
  rintro rfl
  exact Reads.not_mem_below page' notLeaf' hbelow hi' hq

omit [LinearOrder K] in
/-- A node of type ROOT has the same leaves below it as the node it was, if there are any: a leaf that
is made the root has no children. -/
theorem promoted_reads {q : PageId} {newRoot : BTreeNode K V} (hserialized : Serialized t.store)
    (page : nodeAt t.store q = some newRoot) (hreads : Reads t.store q pages leaves)
    {pages' : List PageId} {leaves' : List (BTreeNode K V)}
    (hreads' : Reads (t.withNode ((newRoot.setType .root).setParentId invalidPageId)).store q pages'
      leaves') : leaves' = leaves := by
  obtain ⟨hvalid,hpid,_⟩ := nodeAt_some page
  let promoted := (newRoot.setType .root).setParentId invalidPageId
  have hpage : nodeAt (t.withNode promoted).store q = some (reread promoted) := by
    rw [← hpid]
    exact nodeAt_withNode_self (n := promoted) (hpid ▸ hvalid)
  have hinner : promoted.isLeaf = false := rfl
  have hinner' : (reread promoted).isLeaf = false := (reread_isLeaf promoted).trans hinner
  have hchildren : (reread promoted).children = newRoot.children := reread_children hinner
  cases hleaf : newRoot.isLeaf with
  | true =>
    obtain ⟨_,_,_,_,hbelow⟩ := hreads'.eq_inner hpage hinner'
    obtain ⟨n,hn⟩ := (hbelow 0 (Nat.zero_le _)).root
    rw [hchildren,hserialized.leaf_children page hleaf] at hn
    exact absurd rfl (nodeAt_some hn).1
  | false =>
    have hback := hreads'.of_same_children page hpage hleaf hinner' (reread_keyCount promoted) hchildren
      fun r hr => nodeAt_withNode_of_ne (n := promoted) (hpid ▸ hr)
    exact (hreads.unique hback).2

/-- What a walk from the root finds after a removal is what the recursion left there. -/
theorem remove_reads {fuel : ℕ} {status : Status} (hrun : (remove fuel key).run t = .ok (status,t')) :
    ∃ status₀ t₁, (removeInternal fuel key t.rootPageId).run t = .ok (status₀,t₁) ∧
      ∀ pages leaves pages' leaves', Serialized t₁.store → Reads t₁.store t₁.rootPageId pages leaves →
        Reads t'.store t'.rootPageId pages' leaves' → leaves' = leaves := by
  rw [remove,run_get_bind] at hrun
  obtain ⟨status₀,t₁,hinternal,hrun⟩ := ok_of_bind hrun
  refine ⟨status₀,t₁,hinternal,?_⟩
  intro pages leaves pages' leaves' hserialized hreads hreads'
  by_cases hok : status₀ = .ok
  · obtain ⟨root,hroot⟩ := hreads.root
    have hget := getNode_nodeAt t₁.rootPageId t₁
    rw [hroot] at hget
    simp only [hok,if_true,run_get_bind] at hrun
    rw [run_bind_ok hget] at hrun
    by_cases hempty : root.keyCount = 0 ∧ !root.isLeaf
    · obtain ⟨_,parts,_,rfl,hbelow⟩ := hreads.eq_inner hroot (by simpa using hempty.2)
      have hmodify : (modify fun t => { t with rootPageId := root.getChild 0 } :
          TreeM K V Unit).run t₁ = .ok ((),{ t₁ with rootPageId := root.getChild 0 }) := rfl
      change StateT.run (if root.keyCount = 0 ∧ (!root.isLeaf) = true then _ else _) t₁ = _ at hrun
      rw [if_pos hempty,run_bind_ok hmodify,run_bind_ok (getNode_nodeAt _ _)] at hrun
      rw [hempty.1]
      simp only [Nat.zero_add,List.range_one,List.flatMap_singleton]
      cases hnew : nodeAt t₁.store (root.getChild 0) with
      | none =>
        simp only [hnew] at hrun
        cases hrun
        obtain ⟨n,hn⟩ := hreads'.root
        exact absurd (hnew.symm.trans hn) (by simp)
      | some newRoot =>
        have hvalid := (nodeAt_some hnew).1
        have hchild : root.getChild 0 = root.children 0 := by
          unfold BTreeNode.getChild at hvalid ⊢
          split_ifs at hvalid ⊢ <;> first | rfl | exact absurd rfl hvalid
        have hmem : newRoot.pageId ∈ t₁.store.pages := mem_of_nodeAt hnew
        have hrelease := releaseNode_withNode (t := { t₁ with rootPageId := root.getChild 0 })
          (n := (newRoot.setType .root).setParentId invalidPageId) rfl hmem
        simp only [hnew] at hrun
        rw [run_bind_ok hrelease] at hrun
        cases hrun
        have hfirst := hbelow 0 (Nat.zero_le _)
        rw [← hchild] at hfirst
        exact promoted_reads (t := { t₁ with rootPageId := root.getChild 0 }) hserialized hnew hfirst
          hreads'
    · change StateT.run (if root.keyCount = 0 ∧ (!root.isLeaf) = true then _ else _) t₁ = _ at hrun
      rw [if_neg hempty] at hrun
      cases hrun
      exact (hreads.unique hreads').2
  · simp only [hok,if_false] at hrun
    cases hrun
    exact (hreads.unique hreads').2

omit [Inhabited K] [Inhabited V] in
/-- In an increasing list one entry at most has the key. -/
theorem length_le_filter (key : K) {l : List (K × V)} (h : l.Pairwise fun a b => a.1 < b.1) :
    l.length ≤ (l.filter fun e => decide (e.1 ≠ key)).length+1 := by
  induction l with
  | nil => exact Nat.zero_le _
  | cons a l ih =>
    obtain ⟨hfirst,hrest⟩ := List.pairwise_cons.mp h
    by_cases ha : a.1 = key
    · rw [List.filter_cons_of_neg (by simpa using ha),
        filter_keys_eq_self fun e he => (ha ▸ hfirst e he).ne',List.length_cons]
    · have hle := ih hrest
      rw [List.filter_cons_of_pos (by simpa using ha),List.length_cons,List.length_cons]
      omega

/-- A removal that comes through a node with the key takes out more than the key. -/
theorem RemovesExactly.separatorFree (h : RemovesExactly t key (entriesOf leaves))
    (hwell : WellFormed t leaves) (hserialized : Serialized t.store) (hfull : HalfFull t) :
    SeparatorFree t key := by
  intro nodes leaf hpath n hn
  by_contra hhas
  obtain ⟨depth,status,t',hrun,_,_,pages',leaves',hreads',hentries⟩ := h
  obtain ⟨pages,htree⟩ := hwell.fullBelow hfull
  obtain ⟨status₀,t₁,hinternal,hsame⟩ := remove_reads (hrun depth le_rfl)
  obtain ⟨loss,hshrunk,hloss⟩ := removeInternal_shrinks depth htree hserialized hinternal
  have hlost : 63 ≤ loss := hloss nodes leaf hpath n hn (by simpa using hhas)
  obtain ⟨pages₁,leaves₁,hreads₁,_,hlength⟩ := hshrunk.reads
  rw [← hshrunk.root] at hreads₁
  obtain rfl := hsame _ _ _ _ hshrunk.serialized hreads₁ hreads'
  have hfew := length_le_filter key hwell.tree.pairwise
  rw [← hentries] at hfew
  omega

/-- A removal takes out the key and nothing else exactly if no inner node on the way has the key. -/
theorem remove_exact_iff (hwell : WellFormed t leaves) (hserialized : Serialized t.store)
    (hfull : HalfFull t) (key : K) :
    RemovesExactly t key (entriesOf leaves) ↔ SeparatorFree t key :=
  ⟨fun h => h.separatorFree hwell hserialized hfull,fun h => h.removesExactly hwell hfull⟩

end Roots

section Sample

/-- A leaf with 63 keys from `first` on, each with itself as its value. -/
def halfLeaf (pid next prev : PageId) (first : ℕ) : BTreeNode ℤ RecordId :=
  ⟨pid,⟨.leaf,63,0,1,next,prev,0⟩,fun i => first+i,fun i => first+i,fun _ => invalidPageId,false⟩

def halfRoot : BTreeNode ℤ RecordId :=
  ⟨1,⟨.root,1,2,invalidPageId,invalidPageId,invalidPageId,1⟩,fun _ => 63,fun _ => 0,fun i => i+2,
    false⟩

def halfLeaves : List (BTreeNode ℤ RecordId) :=
  [halfLeaf 2 3 invalidPageId 0,halfLeaf 3 invalidPageId 2 63]

/-- A root above two leaves that are just half full. -/
def halfTree : BTree ℤ RecordId where
  config := ⟨true⟩
  rootPageId := 1
  store := ⟨(((∅ : Finmap fun _ : PageId => NodeImage ℤ RecordId).insert 1
    halfRoot.serialize).insert 2 (halfLeaf 2 3 invalidPageId 0).serialize).insert 3
    (halfLeaf 3 invalidPageId 2 63).serialize,4⟩

theorem mem_halfLeaf {pid next prev : PageId} {first : ℕ} {e : ℤ × RecordId}
    (h : e ∈ entriesOf [halfLeaf pid next prev first]) :
    (first : ℤ) ≤ e.1 ∧ e.1 < first+63 := by
  rw [entriesOf,List.flatMap_singleton] at h
  obtain ⟨i,hi,rfl⟩ := BTreeNode.mem_entries.mp h
  have hlt : i < 63 := hi
  change (first : ℤ) ≤ first+i ∧ (first : ℤ)+i < first+63
  omega

theorem halfLeaf_subtree (pid next prev : PageId) (first : ℕ)
    (h : nodeAt halfTree.store pid = some (halfLeaf pid next prev first)) :
    Subtree halfTree.store pid [halfLeaf pid next prev first] := by
  refine .leaf h rfl ?_
  intro i j hij _
  change (first : ℤ)+i < first+j
  omega

theorem halfTree_wellFormed : WellFormed halfTree halfLeaves := by
  have hroot : nodeAt halfTree.store 1 = some halfRoot := rfl
  exact wellFormed_two_leaves hroot rfl rfl rfl (halfLeaf_subtree 2 3 invalidPageId 0 rfl)
    (halfLeaf_subtree 3 invalidPageId 2 63 rfl) (fun e he => (mem_halfLeaf he).2)
    (fun e he => (mem_halfLeaf he).1) ⟨rfl,rfl⟩

theorem halfTree_serialized : Serialized halfTree.store :=
  (((serialized_empty 1).insert 1 1 halfRoot).insert 2 1 (halfLeaf 2 3 invalidPageId 0)).insert 3 4
    (halfLeaf 3 invalidPageId 2 63)

theorem halfTree_halfFull : HalfFull halfTree := by
  intro q n _ hne hn
  change q ≠ 1 at hne
  unfold nodeAt halfTree at hn
  split_ifs at hn
  rcases eq_or_ne q 3 with rfl | h3
  · rw [Finmap.lookup_insert] at hn
    obtain rfl := Option.some.inj hn
    decide
  rcases eq_or_ne q 2 with rfl | h2
  · rw [Finmap.lookup_insert_of_ne _ h3,Finmap.lookup_insert] at hn
    obtain rfl := Option.some.inj hn
    decide
  · rw [Finmap.lookup_insert_of_ne _ h3,Finmap.lookup_insert_of_ne _ h2,
      Finmap.lookup_insert_of_ne _ hne] at hn
    cases hn

theorem halfTree_path (key : ℤ) (pid next prev : PageId) (first : ℕ)
    (hchild : halfRoot.getChild (toIndex (halfRoot.findChildIndex key)) = pid)
    (h : nodeAt halfTree.store pid = some (halfLeaf pid next prev first)) :
    SearchPath halfTree.store key 1 [halfRoot] (halfLeaf pid next prev first) := by
  refine .inner rfl rfl ?_
  rw [hchild]
  exact .leaf h rfl

/-- The removal of the key that the root has. -/
theorem halfTree_remove_loses : WellFormed halfTree halfLeaves ∧ HalfFull halfTree ∧
    ¬ RemovesExactly halfTree 63 (entriesOf halfLeaves) := by
  refine ⟨halfTree_wellFormed,halfTree_halfFull,fun h => ?_⟩
  have hfree := h.separatorFree halfTree_wellFormed halfTree_serialized halfTree_halfFull
  have hpath := halfTree_path 63 3 invalidPageId 2 63 (by decide +kernel) rfl
  exact absurd (hfree _ _ hpath halfRoot (List.mem_singleton.mpr rfl)) (by decide +kernel)

theorem remove_exact_half : RemovesExactly halfTree 5 (entriesOf halfLeaves) := by
  refine (remove_exact_iff halfTree_wellFormed halfTree_serialized halfTree_halfFull 5).mpr ?_
  intro nodes leaf hpath n hn
  obtain ⟨rfl,_⟩ := (halfTree_path 5 2 3 invalidPageId 0 (by decide +kernel) rfl).unique hpath
  obtain rfl := List.mem_singleton.mp hn
  decide +kernel

end Sample

end BTree
end OrangeSQL
