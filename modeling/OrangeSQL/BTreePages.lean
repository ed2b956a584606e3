import OrangeSQL.BTreeLeaf
import OrangeSQL.BTreeSplit

/-! The pages below a node, and what a change of some of them does to the tree. A walk over all
children needs no order of the keys, so that it also describes what a wrong step leaves behind. In a
well-formed tree the walk comes to no page twice: whatever is written below one child, the others
stay. -/
namespace OrangeSQL
namespace BTree

variable {K V : Type}

section Lists

variable {α : Type}

/-- One block of a concatenation is exchanged. -/
theorem flatMap_update (parts : ℕ → List α) (x : List α) {c m : ℕ} (h : c ≤ m) :
    (List.range (m+1)).flatMap (Function.update parts c x) =
      (List.range c).flatMap parts++x++(List.range' (c+1) (m-c)).flatMap parts := by
  have hlow : (List.range c).flatMap (Function.update parts c x) = (List.range c).flatMap parts := by
    refine List.flatMap_congr fun i hi => ?_
    rw [Function.update_of_ne (List.mem_range.mp hi).ne]
  have hhigh : (List.range' (c+1) (m-c)).flatMap (Function.update parts c x) =
      (List.range' (c+1) (m-c)).flatMap parts := by
    refine List.flatMap_congr fun i hi => ?_
    have hlt := (List.mem_range'_1.mp hi).1
    rw [Function.update_of_ne (by omega)]
  rw [range_split h,List.flatMap_append,List.flatMap_cons,hlow,hhigh,Function.update_self]
  simp only [List.append_assoc]

theorem flatMap_split (parts : ℕ → List α) {c m : ℕ} (h : c ≤ m) :
    (List.range (m+1)).flatMap parts =
      (List.range c).flatMap parts++parts c++(List.range' (c+1) (m-c)).flatMap parts := by
  have hsame := flatMap_update parts (parts c) h
  rwa [Function.update_eq_self] at hsame

theorem mem_flatMap_range {parts : ℕ → List α} {a : α} {i m : ℕ} (hi : i ≤ m) (ha : a ∈ parts i) :
    a ∈ (List.range (m+1)).flatMap parts :=
  List.mem_flatMap.mpr ⟨i,List.mem_range.mpr (Nat.lt_succ_of_le hi),ha⟩

/-- Two blocks of a concatenation without repetitions have nothing in common. -/
theorem disjoint_of_nodup {parts : ℕ → List α} {m i j : ℕ}
    (h : ((List.range (m+1)).flatMap parts).Nodup) (hi : i ≤ m) (hj : j ≤ m) (hne : i ≠ j) :
    ∀ a ∈ parts i, a ∉ parts j := by
  have hdisjoint := (List.nodup_flatMap.mp h).2
  intro a ha ha'
  have hmem : ∀ k ≤ m, k ∈ List.range (m+1) := fun k hk => List.mem_range.mpr (by omega)
  have hsym : Std.Symm (Function.onFun (List.Disjoint (α := α)) parts) := ⟨fun _ _ h => h.symm⟩
  exact hdisjoint.forall (hmem i hi) (hmem j hj) hne ha ha'

end Lists

section Walks

variable [Inhabited K] [Inhabited V]

/-- The pages met and the leaves found when the children of every node are visited in turn. -/
inductive Reads (s : PageStore K V) : PageId → List PageId → List (BTreeNode K V) → Prop
  | leaf {pid : PageId} {n : BTreeNode K V} (page : nodeAt s pid = some n)
      (isLeaf : n.isLeaf = true) : Reads s pid [pid] [n]
  | inner {pid : PageId} {n : BTreeNode K V} (pages : ℕ → List PageId)
      (parts : ℕ → List (BTreeNode K V)) (page : nodeAt s pid = some n) (notLeaf : n.isLeaf = false)
      (below : ∀ i ≤ n.keyCount, Reads s (n.children i) (pages i) (parts i)) :
      Reads s pid (pid::(List.range (n.keyCount+1)).flatMap pages)
        ((List.range (n.keyCount+1)).flatMap parts)

variable {s s' : PageStore K V} {pid : PageId} {pages : List PageId} {leaves : List (BTreeNode K V)}

theorem Reads.eq_leaf (h : Reads s pid pages leaves) {n : BTreeNode K V}
    (page : nodeAt s pid = some n) (isLeaf : n.isLeaf = true) : pages = [pid] ∧ leaves = [n] := by
  cases h with
  | @leaf _ m page' isLeaf' =>
    obtain rfl := Option.some.inj (page.symm.trans page')
    exact ⟨rfl,rfl⟩
  | @inner _ m pages parts page' notLeaf below =>
    obtain rfl := Option.some.inj (page.symm.trans page')
    exact absurd isLeaf (by simp [notLeaf])

theorem Reads.eq_inner (h : Reads s pid pages leaves) {n : BTreeNode K V}
    (page : nodeAt s pid = some n) (notLeaf : n.isLeaf = false) :
    ∃ pages' parts, pages = pid::(List.range (n.keyCount+1)).flatMap pages' ∧
      leaves = (List.range (n.keyCount+1)).flatMap parts ∧
      ∀ i ≤ n.keyCount, Reads s (n.children i) (pages' i) (parts i) := by
  cases h with
  | @leaf _ m page' isLeaf =>
    obtain rfl := Option.some.inj (page.symm.trans page')
    exact absurd isLeaf (by simp [notLeaf])
  | @inner _ m pages parts page' notLeaf' below =>
    obtain rfl := Option.some.inj (page.symm.trans page')
    exact ⟨pages,parts,rfl,rfl,below⟩

/-- There is only one walk from a page. -/
theorem Reads.unique (h : Reads s pid pages leaves) {pages' : List PageId}
    {leaves' : List (BTreeNode K V)} (h' : Reads s pid pages' leaves') :
    pages' = pages ∧ leaves' = leaves := by
  induction h generalizing pages' leaves' with
  | leaf page isLeaf => exact h'.eq_leaf page isLeaf
  | @inner pid n pages parts page notLeaf below ih =>
    obtain ⟨pages',parts',rfl,rfl,below'⟩ := h'.eq_inner page notLeaf
    have hle : ∀ i ∈ List.range (n.keyCount+1), i ≤ n.keyCount :=
      fun i hi => Nat.lt_succ_iff.mp (List.mem_range.mp hi)
    exact ⟨congrArg (pid::·) (List.flatMap_congr fun i hi => (ih i (hle i hi) (below' i (hle i hi))).1),
      List.flatMap_congr fun i hi => (ih i (hle i hi) (below' i (hle i hi))).2⟩

/-- A walk stays as it is where no page on it is changed. -/
theorem Reads.frame (h : Reads s pid pages leaves)
    (hsame : ∀ q ∈ pages, nodeAt s' q = nodeAt s q) : Reads s' pid pages leaves := by
  induction h with
  | @leaf pid n page isLeaf => exact .leaf ((hsame pid List.mem_cons_self).trans page) isLeaf
  | @inner pid n pages parts page notLeaf below ih =>
    refine .inner pages parts ((hsame pid List.mem_cons_self).trans page) notLeaf ?_
    intro i hi
    refine ih i hi fun q hq => hsame q ?_
    exact List.mem_cons_of_mem _ (mem_flatMap_range hi hq)

theorem Reads.mem_self (h : Reads s pid pages leaves) : pid ∈ pages := by
  cases h <;> exact List.mem_cons_self

theorem Reads.root (h : Reads s pid pages leaves) : ∃ n, nodeAt s pid = some n := by
  cases h with
  | leaf page => exact ⟨_,page⟩
  | inner pages parts page => exact ⟨_,page⟩

/-- Another tree below one child of a node, whose page is not among those that were changed. -/
theorem Reads.replace_child {n : BTreeNode K V} {pages : ℕ → List PageId}
    {parts : ℕ → List (BTreeNode K V)} (page : nodeAt s' pid = some n) (notLeaf : n.isLeaf = false)
    (below : ∀ i ≤ n.keyCount, Reads s (n.children i) (pages i) (parts i))
    (hnodup : ((List.range (n.keyCount+1)).flatMap pages).Nodup) {c : ℕ} (hc : c ≤ n.keyCount)
    (hsame : ∀ q ∉ pages c, q ≠ pid → nodeAt s' q = nodeAt s q)
    (hpid : pid ∉ (List.range (n.keyCount+1)).flatMap pages) {pages' : List PageId}
    {part : List (BTreeNode K V)} (hchild : Reads s' (n.children c) pages' part) :
    Reads s' pid (pid::(List.range (n.keyCount+1)).flatMap (Function.update pages c pages'))
      ((List.range (n.keyCount+1)).flatMap (Function.update parts c part)) := by
  refine .inner _ _ page notLeaf ?_
  intro i hi
  rcases eq_or_ne i c with rfl | hne
  · rw [Function.update_self,Function.update_self]
    exact hchild
  · rw [Function.update_of_ne hne,Function.update_of_ne hne]
    refine (below i hi).frame fun q hq => hsame q (disjoint_of_nodup hnodup hi hc hne q hq) ?_
    rintro rfl
    exact hpid (mem_flatMap_range hi hq)

end Walks

section Trees

variable [LinearOrder K] [Inhabited K] [Inhabited V] {s s' : PageStore K V} {pid : PageId}
  {leaves : List (BTreeNode K V)}

theorem Subtree.reads (h : Subtree s pid leaves) : ∃ pages, Reads s pid pages leaves := by
  induction h with
  | leaf page isLeaf increasing => exact ⟨_,.leaf page isLeaf⟩
  | @inner pid n parts page notLeaf keyed counts increasing below bounds ih =>
    choose! pages hpages using ih
    exact ⟨_,.inner pages parts page notLeaf hpages⟩

/-- Every page of the walk is the root of a tree with some of the leaves. -/
theorem Subtree.of_mem_pages (h : Subtree s pid leaves) {pages : List PageId}
    (hreads : Reads s pid pages leaves) {q : PageId} (hq : q ∈ pages) :
    ∃ part, Subtree s q part ∧ (∀ n ∈ part, n ∈ leaves) ∧ part.length ≤ leaves.length := by
  induction h generalizing pages with
  | @leaf pid n page isLeaf increasing =>
    obtain ⟨rfl,_⟩ := hreads.eq_leaf page isLeaf
    obtain rfl := List.mem_singleton.mp hq
    exact ⟨[n],.leaf page isLeaf increasing,fun m hm => hm,le_rfl⟩
  | @inner pid n parts page notLeaf keyed counts increasing below bounds ih =>
    obtain ⟨pages',parts',rfl,_,hbelow⟩ := hreads.eq_inner page notLeaf
    rcases List.mem_cons.mp hq with rfl | hq
    · exact ⟨_,.inner parts page notLeaf keyed counts increasing below bounds,fun m hm => hm,le_rfl⟩
    · obtain ⟨i,hi,hq⟩ := List.mem_flatMap.mp hq
      have hle := Nat.lt_succ_iff.mp (List.mem_range.mp hi)
      obtain ⟨own,hown⟩ := (below i hle).reads
      obtain ⟨hpages,hparts⟩ := hown.unique (hbelow i hle)
      rw [hpages] at hq
      obtain ⟨part,hpart,hmem,hlength⟩ := ih i hle hown hq
      have hlt := parts_length_lt keyed (fun j hj => (below j hj).ne_nil) hle
      exact ⟨part,hpart,fun m hm => List.mem_flatMap.mpr ⟨i,hi,hmem m hm⟩,hlength.trans hlt.le⟩

/-- A tree whose leaves are all different has no page twice. -/
theorem Subtree.pages_nodup (h : Subtree s pid leaves) (hleaves : leaves.Nodup) {pages : List PageId}
    (hreads : Reads s pid pages leaves) : pages.Nodup := by
  induction h generalizing pages with
  | @leaf pid n page isLeaf increasing =>
    obtain ⟨rfl,_⟩ := hreads.eq_leaf page isLeaf
    exact List.nodup_singleton _
  | @inner pid n parts page notLeaf keyed counts increasing below bounds ih =>
    obtain ⟨pages',parts',rfl,_,hbelow⟩ := hreads.eq_inner page notLeaf
    have htree := Subtree.inner parts page notLeaf keyed counts increasing below bounds
    have hreads' : ∀ i ≤ n.keyCount, Reads s (n.children i) (pages' i) (parts i) := by
      intro i hi
      obtain ⟨own,hown⟩ := (below i hi).reads
      obtain ⟨hpages,_⟩ := hown.unique (hbelow i hi)
      rwa [hpages]
    have hne : ∀ i ≤ n.keyCount, parts i ≠ [] := fun i hi => (below i hi).ne_nil
    rw [List.nodup_cons,List.nodup_flatMap]
    refine ⟨?_,?_,?_⟩
    · intro hmem
      obtain ⟨i,hi,hmem⟩ := List.mem_flatMap.mp hmem
      have hle := Nat.lt_succ_iff.mp (List.mem_range.mp hi)
      obtain ⟨part,hpart,_,hlength⟩ := (below i hle).of_mem_pages (hreads' i hle) hmem
      have hlt := parts_length_lt keyed hne hle
      rw [htree.unique hpart] at hlength
      omega
    · intro i hi
      have hle := Nat.lt_succ_iff.mp (List.mem_range.mp hi)
      exact ih i hle ((List.nodup_flatMap.mp hleaves).1 i hi) (hreads' i hle)
    · refine List.Pairwise.imp_of_mem ?_ List.pairwise_lt_range
      intro i j hi hj hij q hq hq'
      have hi' := Nat.lt_succ_iff.mp (List.mem_range.mp hi)
      have hj' := Nat.lt_succ_iff.mp (List.mem_range.mp hj)
      obtain ⟨part,hpart,hmem,_⟩ := (below i hi').of_mem_pages (hreads' i hi') hq
      obtain ⟨part',hpart',hmem',_⟩ := (below j hj').of_mem_pages (hreads' j hj') hq'
      obtain rfl := hpart.unique hpart'
      obtain ⟨m,rest,rfl⟩ := List.exists_cons_of_ne_nil hpart.ne_nil
      exact disjoint_of_nodup hleaves hi' hj' hij.ne m (hmem m List.mem_cons_self)
        (hmem' m List.mem_cons_self)

theorem Subtree.frame_pages (h : Subtree s pid leaves) {pages : List PageId}
    (hreads : Reads s pid pages leaves) (hsame : ∀ q ∈ pages, nodeAt s' q = nodeAt s q) :
    Subtree s' pid leaves := by
  induction h generalizing pages with
  | @leaf pid n page isLeaf increasing =>
    exact .leaf ((hsame pid hreads.mem_self).trans page) isLeaf increasing
  | @inner pid n parts page notLeaf keyed counts increasing below bounds ih =>
    have hpage := (hsame pid hreads.mem_self).trans page
    obtain ⟨pages',parts',rfl,_,hbelow⟩ := hreads.eq_inner page notLeaf
    refine .inner parts hpage notLeaf keyed counts increasing ?_ bounds
    intro i hi
    obtain ⟨own,hown⟩ := (below i hi).reads
    obtain ⟨rfl,_⟩ := (hbelow i hi).unique hown
    refine ih i hi hown fun q hq => hsame q ?_
    exact List.mem_cons_of_mem _ (mem_flatMap_range hi hq)

/-- A chain that ends has no leaf twice. -/
theorem Linked.nodup (h : Linked leaves) (hpages : ∀ n ∈ leaves, OnPage s n) : leaves.Nodup := by
  induction leaves with
  | nil => exact List.nodup_nil
  | cons n behind ih =>
    have hrest : Linked behind := by
      cases behind with
      | nil => trivial
      | cons m behind => exact h.2
    refine List.nodup_cons.mpr ⟨?_,ih hrest fun m hm => hpages m (List.mem_cons_of_mem n hm)⟩
    intro hmem
    obtain ⟨before,after,rfl⟩ := List.append_of_mem hmem
    have hsame := h.unique hrest.of_append (fun m hm => hpages m (List.mem_cons_of_mem n hm))
      fun m hm => hpages m (by simp [hm])
    have hlength := congrArg List.length hsame
    simp only [List.length_append,List.length_cons] at hlength
    omega

theorem WellFormed.nodup {t : BTree K V} (h : WellFormed t leaves) : leaves.Nodup :=
  h.linked.nodup h.tree.onPage

/-- An inner node of a well-formed tree, with the walks and the trees below its children. -/
structure ParentNode (s : PageStore K V) (pid : PageId) (parent : BTreeNode K V)
    (pages : ℕ → List PageId) (parts : ℕ → List (BTreeNode K V)) : Prop where
  page : nodeAt s pid = some parent
  inner : parent.isLeaf = false
  keyed : 1 ≤ parent.keyCount
  counts : parent.childCount = parent.keyCount+1
  increasing : parent.Increasing
  trees : ∀ i ≤ parent.keyCount, Subtree s (parent.children i) (parts i)
  reads : ∀ i ≤ parent.keyCount, Reads s (parent.children i) (pages i) (parts i)
  bounds : ∀ i ≤ parent.keyCount, ∀ e ∈ entriesOf (parts i), parent.Bounds i e.1
  leaves_nodup : ((List.range (parent.keyCount+1)).flatMap parts).Nodup
  pages_nodup : ((List.range (parent.keyCount+1)).flatMap pages).Nodup
  outside : pid ∉ (List.range (parent.keyCount+1)).flatMap pages

theorem Subtree.parentNode (h : Subtree s pid leaves) (hnodup : leaves.Nodup) {n : BTreeNode K V}
    (page : nodeAt s pid = some n) (notLeaf : n.isLeaf = false) :
    ∃ pages parts, leaves = (List.range (n.keyCount+1)).flatMap parts ∧
      ParentNode s pid n pages parts := by
  obtain ⟨pages,hreads⟩ := h.reads
  have hpages := h.pages_nodup hnodup hreads
  cases h with
  | @leaf _ m page' isLeaf increasing =>
    obtain rfl := Option.some.inj (page.symm.trans page')
    exact absurd isLeaf (by simp [notLeaf])
  | @inner _ m parts page' notLeaf' keyed counts increasing below bounds =>
    obtain rfl := Option.some.inj (page.symm.trans page')
    obtain ⟨pages',parts',rfl,_,hbelow⟩ := hreads.eq_inner page notLeaf
    have hreads' : ∀ i ≤ n.keyCount, Reads s (n.children i) (pages' i) (parts i) := by
      intro i hi
      obtain ⟨own,hown⟩ := (below i hi).reads
      obtain ⟨hpages,_⟩ := hown.unique (hbelow i hi)
      rwa [hpages]
    obtain ⟨houtside,hinside⟩ := List.nodup_cons.mp hpages
    exact ⟨pages',parts,rfl,page,notLeaf,keyed,counts,increasing,below,hreads',bounds,hnodup,
      hinside,houtside⟩

namespace ParentNode

variable {parent : BTreeNode K V} {pages : ℕ → List PageId} {parts : ℕ → List (BTreeNode K V)} {i j : ℕ}

theorem getChild (h : ParentNode s pid parent pages parts) (hi : i ≤ parent.keyCount) :
    parent.getChild i = parent.children i :=
  BTreeNode.getChild_eq h.inner (by rw [h.counts]; omega)

theorem getNode_child {t : BTree K V} (h : ParentNode t.store pid parent pages parts)
    (hi : i ≤ parent.keyCount) {n : BTreeNode K V} (page : nodeAt t.store (parent.children i) = some n) :
    (getNode (parent.getChild i)).run t = .ok (some n,t) := by
  rw [getNode_nodeAt,h.getChild hi,page]

theorem ne_of_mem (h : ParentNode s pid parent pages parts) (hi : i ≤ parent.keyCount) {q : PageId}
    (hq : q ∈ pages i) : q ≠ pid := by
  rintro rfl
  exact h.outside (mem_flatMap_range hi hq)

theorem not_mem_of_ne (h : ParentNode s pid parent pages parts) (hi : i ≤ parent.keyCount)
    (hj : j ≤ parent.keyCount) (hne : i ≠ j) {q : PageId} (hq : q ∈ pages i) : q ∉ pages j :=
  disjoint_of_nodup h.pages_nodup hi hj hne q hq

theorem child_mem (h : ParentNode s pid parent pages parts) (hi : i ≤ parent.keyCount) :
    parent.children i ∈ pages i := (h.reads i hi).mem_self

theorem part_nodup (h : ParentNode s pid parent pages parts) (hi : i ≤ parent.keyCount) :
    (parts i).Nodup :=
  (List.nodup_flatMap.mp h.leaves_nodup).1 i (List.mem_range.mpr (by omega))

/-- A child that is an inner node itself: the pages below it are among those below the parent. -/
theorem child (h : ParentNode s pid parent pages parts) (hi : i ≤ parent.keyCount) {n : BTreeNode K V}
    (page : nodeAt s (parent.children i) = some n) (notLeaf : n.isLeaf = false) :
    ∃ pages' parts', (∀ j ≤ n.keyCount, ∀ q ∈ pages' j, q ∈ pages i) ∧
      parts i = (List.range (n.keyCount+1)).flatMap parts' ∧
      ParentNode s (parent.children i) n pages' parts' := by
  obtain ⟨pages',parts',hparts,hnode⟩ := (h.trees i hi).parentNode (h.part_nodup hi) page notLeaf
  have hreads := Reads.inner pages' parts' page notLeaf hnode.reads
  refine ⟨pages',parts',fun j hj q hq => ?_,hparts,hnode⟩
  rw [(hreads.unique (h.reads i hi)).1]
  exact List.mem_cons_of_mem _ (mem_flatMap_range hj hq)

theorem child_counts (h : ParentNode s pid parent pages parts) (hi : i ≤ parent.keyCount)
    {n : BTreeNode K V} (page : nodeAt s (parent.children i) = some n) (notLeaf : n.isLeaf = false) :
    n.childCount = n.keyCount+1 := by
  obtain ⟨_,_,_,_,hnode⟩ := h.child hi page notLeaf
  exact hnode.counts

end ParentNode

end Trees

end BTree
end OrangeSQL
