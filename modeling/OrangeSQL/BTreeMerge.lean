import OrangeSQL.BTreePaths

/-! Merging two children of a node. The keys and the children of the right one are copied behind those
of the left one, but the pointer that is taken out of the parent is the one to the left child: what the
tree is left with is the old right child. -/
namespace OrangeSQL

namespace BTreeNode

variable {K V : Type} [Inhabited K] [Inhabited V]

/-- An inner node after the key at an index was removed, and the child before it. -/
structure KeyRemoved (n : BTreeNode K V) (i : ℕ) (m : BTreeNode K V) : Prop where
  pageId : m.pageId = n.pageId
  type : m.header.type = n.header.type
  dirty : m.dirty = true
  keyCount : m.keyCount+1 = n.keyCount
  childCount : m.childCount+1 = n.childCount
  keys : ∀ j, j+1 < n.keyCount → m.keys j = if j < i then n.keys j else n.keys (j+1)
  children : ∀ j, j+1 < n.childCount → m.children j = if j < i then n.children j else n.children (j+1)

omit [Inhabited K] [Inhabited V] in
theorem KeyRemoved.isLeaf {n m : BTreeNode K V} {i : ℕ} (h : KeyRemoved n i m) :
    m.isLeaf = n.isLeaf := by
  unfold BTreeNode.isLeaf
  rw [h.type]

theorem toNat_sub_one {c : UInt16} (h : 0 < c.toNat) : (c-1).toNat+1 = c.toNat := by
  have hone : (1 : UInt16) ≤ c := by
    rw [UInt16.le_iff_toNat_le]
    exact h
  rw [UInt16.toNat_sub_of_le _ _ hone]
  change c.toNat-1+1 = c.toNat
  omega

theorem removeAt_inner {n : BTreeNode K V} (hinner : n.isLeaf = false) {i : ℕ} (hi : i < n.keyCount)
    (hchild : 0 < n.childCount) : ∃ m, n.removeAt i = (true,m) ∧ KeyRemoved n i m := by
  have hinner' : n.header.type ≠ .leaf := by simpa [BTreeNode.isLeaf] using hinner
  refine ⟨(n.removeAt i).2,?_,?_⟩
  · simp [removeAt,Nat.not_le.mpr hi]
  · have hchildren : ∀ keys : ℕ → K, BTreeNode.childCount { n with keys := keys } = n.childCount :=
      fun _ => rfl
    have hpos : 0 < n.keyCount := Nat.lt_of_le_of_lt (Nat.zero_le i) hi
    unfold removeAt
    rw [if_neg (Nat.not_le.mpr hi)]
    constructor
    case pageId => rfl
    case type => rfl
    case dirty => rfl
    case keyCount => exact toNat_sub_one hpos
    case childCount =>
      have hfield : (if n.isLeaf = true then n.header.childCount else n.header.childCount-1) =
          n.header.childCount-1 := if_neg (by simp [hinner])
      exact (congrArg (fun c : UInt16 => c.toNat+1) hfield).trans (toNat_sub_one hchild)
    case keys =>
      intro j hj
      exact movedDown_update n.keys i n.keyCount j default hj
    case children =>
      intro j hj
      simp only [shiftLeft,BTreeNode.isLeaf,hinner',decide_false,Bool.false_eq_true,if_false,markDirty,
        hchildren]
      unfold movedDown
      split_ifs <;> first | rfl | omega

omit [Inhabited K] [Inhabited V] in
theorem toNat_add {a b : UInt16} (h : a.toNat+b.toNat < 65536) : (a+b).toNat = a.toNat+b.toNat := by
  rw [UInt16.toNat_add]
  exact Nat.mod_eq_of_lt h

omit [Inhabited K] [Inhabited V] in
theorem merge_other {n right : BTreeNode K V}
    (h : n.header.type ≠ right.header.type ∨ n.header.level ≠ right.header.level) :
    n.merge right = (false,n) := if_pos h

omit [Inhabited K] [Inhabited V] in
theorem merge_header (n right : BTreeNode K V) : (n.merge right).2.pageId = n.pageId ∧
    (n.merge right).2.isLeaf = n.isLeaf ∧ (n.dirty = true → (n.merge right).2.dirty = true) := by
  unfold merge
  by_cases hkind : n.header.type ≠ right.header.type ∨ n.header.level ≠ right.header.level
  · rw [if_pos hkind]
    exact ⟨rfl,rfl,id⟩
  · rw [if_neg hkind]
    exact ⟨rfl,rfl,fun _ => rfl⟩

/-- The counts of two nodes of one kind that are put together. -/
structure Merged (n right m : BTreeNode K V) : Prop where
  keyCount : m.keyCount = n.keyCount+right.keyCount
  childCount : m.childCount = if n.isLeaf then n.childCount else n.childCount+right.childCount

omit [Inhabited K] [Inhabited V] in
theorem merge_same {n right : BTreeNode K V} (htype : n.header.type = right.header.type)
    (hlevel : n.header.level = right.header.level) (hkeys : n.keyCount+right.keyCount < 65536)
    (hchildren : n.isLeaf = false → n.childCount+right.childCount < 65536) :
    Merged n right (n.merge right).2 := by
  unfold merge
  rw [if_neg (by simp [htype,hlevel])]
  constructor
  case keyCount => exact toNat_add hkeys
  case childCount =>
    change (if n.isLeaf = true then n.header.childCount
      else n.header.childCount+right.header.childCount).toNat = _
    cases hleaf : n.isLeaf with
    | true => rfl
    | false => exact toNat_add (hchildren hleaf)

end BTreeNode

namespace BTree

variable {K V : Type}

section Lists

/-- A concatenation without one of its blocks. -/
theorem flatMap_without {α : Type} (parts : ℕ → List α) {c m : ℕ} (h : c ≤ m) :
    (List.range m).flatMap (fun j => if j < c then parts j else parts (j+1)) =
      (List.range c).flatMap parts++(List.range' (c+1) (m-c)).flatMap parts := by
  obtain ⟨d,rfl⟩ := Nat.exists_eq_add_of_le h
  have hlow : (List.range c).flatMap (fun j => if j < c then parts j else parts (j+1)) =
      (List.range c).flatMap parts :=
    List.flatMap_congr fun j hj => if_pos (List.mem_range.mp hj)
  have hhigh : ((List.range d).map (c+·)).flatMap (fun j => if j < c then parts j else parts (j+1)) =
      (List.range' (c+1) d).flatMap parts := by
    rw [List.range'_eq_map_range,List.flatMap_map,List.flatMap_map]
    refine List.flatMap_congr fun j _ => ?_
    rw [if_neg (by omega),Nat.add_right_comm]
  rw [List.range_add,List.flatMap_append,hlow,hhigh,Nat.add_sub_cancel_left]

end Lists

variable [LinearOrder K] [Inhabited K] [Inhabited V]

open BTreeNode (minKeys maxKeys order)

/-- The arrays of every node have room for what its counts say. -/
def Capacity (s : PageStore K V) : Prop :=
  ∀ q n, nodeAt s q = some n → n.keyCount ≤ maxKeys ∧ n.childCount ≤ order

/-- Two children of a node of a well-formed tree that stand side by side. -/
structure Siblings (t : BTree K V) (all : List (BTreeNode K V)) (pid : PageId)
    (parent : BTreeNode K V) (l : ℕ) (left right : BTreeNode K V) : Prop where
  wellFormed : WellFormed t all
  within : Within t.store t.rootPageId pid
  parentPage : nodeAt t.store pid = some parent
  inner : parent.isLeaf = false
  index : l < parent.keyCount
  leftPage : nodeAt t.store (parent.children l) = some left
  rightPage : nodeAt t.store (parent.children (l+1)) = some right

section Merging

variable {t : BTree K V} {all leaves : List (BTreeNode K V)} {pid : PageId}
  {parent left right : BTreeNode K V} {i l : ℕ}

theorem Siblings.parentNode (h : Siblings t all pid parent l left right)
    (hleaves : Subtree t.store pid leaves) : ∃ pages parts,
      leaves = (List.range (parent.keyCount+1)).flatMap parts ∧
      ParentNode t.store pid parent pages parts := by
  obtain ⟨before,leaves',behind,rfl,hleaves'⟩ := h.within.placed h.wellFormed.tree
  obtain rfl := hleaves'.unique hleaves
  have hnodup := h.wellFormed.nodup
  have hpart := (List.nodup_append.mp (List.nodup_append.mp hnodup).1).2.1
  exact hleaves.parentNode hpart h.parentPage h.inner

/-- The left node with the key of the parent and the first child of the right one, if it is an inner
node. -/
def pulledNode (parent left right : BTreeNode K V) (i : ℕ) : BTreeNode K V :=
  if left.isLeaf then left
  else (left.setKey left.keyCount (parent.keys i)).setChild left.childCount (right.getChild 0)

/-- The left child as `mergeNodes` writes it. -/
def mergedNode (parent left right : BTreeNode K V) (i : ℕ) : BTreeNode K V :=
  let merged := ((pulledNode parent left right i).merge right).2
  if merged.isLeaf then merged.setNextId right.header.nextId else merged

/-- The call of `mergeNodes` and the write of the parent that follows it. -/
def mergeAndWrite (parent : BTreeNode K V) (i : ℕ) : TreeM K V Unit := do
  releaseNode (← mergeNodes parent i)

/-- Both are inner nodes of one kind, and together with the pulled key and child they have more
children than a node has room for. -/
def Overfull (left right : BTreeNode K V) : Prop :=
  left.isLeaf = false ∧ left.header.type = right.header.type ∧
    left.header.level = right.header.level ∧ 125 < left.keyCount+right.keyCount

instance (left right : BTreeNode K V) : Decidable (Overfull left right) :=
  inferInstanceAs (Decidable (_ ∧ _ ∧ _ ∧ _))

omit [LinearOrder K] [Inhabited K] [Inhabited V] in
theorem pulledNode_inner (parent right : BTreeNode K V) (i : ℕ) (hinner : left.isLeaf = false)
    (hl : left.keyCount ≤ minKeys) (hcounts : left.childCount = left.keyCount+1) :
    (pulledNode parent left right i).pageId = left.pageId ∧
      (pulledNode parent left right i).header.type = left.header.type ∧
      (pulledNode parent left right i).header.level = left.header.level ∧
      (pulledNode parent left right i).dirty = true ∧
      (pulledNode parent left right i).keyCount = left.keyCount+1 ∧
      (pulledNode parent left right i).childCount = left.keyCount+2 := by
  change left.keyCount ≤ 63 at hl
  have hkey : left.setKey left.keyCount (parent.keys i) = BTreeNode.markDirty { left with
      keys := Function.update left.keys left.keyCount (parent.keys i)
      header.keyCount := UInt16.ofNat (left.keyCount+1) } := by
    unfold BTreeNode.setKey
    rw [if_neg (by change ¬ 127 ≤ left.keyCount; omega),if_pos le_rfl]
  have hnat : ∀ n < 65536, (UInt16.ofNat n).toNat = n := fun n hn => by
    rw [UInt16.toNat_ofNat']
    exact Nat.mod_eq_of_lt hn
  unfold pulledNode
  rw [if_neg (by simp [hinner]),hkey]
  unfold BTreeNode.setChild
  rw [if_neg]
  · refine ⟨rfl,rfl,rfl,rfl,hnat _ (by omega),?_⟩
    change (if left.childCount ≤ left.childCount then UInt16.ofNat (left.childCount+1)
      else left.header.childCount).toNat = _
    rw [if_pos le_rfl,hnat _ (by omega),hcounts]
  · rintro (hleaf | hout)
    · exact absurd (hleaf.symm.trans hinner) (by simp)
    · change 128 ≤ left.childCount at hout
      omega

omit [LinearOrder K] [Inhabited K] [Inhabited V] in
theorem mergedNode_eq (parent left right : BTreeNode K V) (i : ℕ) : mergedNode parent left right i =
    if (pulledNode parent left right i).isLeaf
    then ((pulledNode parent left right i).merge right).2.setNextId right.header.nextId
    else ((pulledNode parent left right i).merge right).2 := by
  rw [← (BTreeNode.merge_header (pulledNode parent left right i) right).2.1]
  rfl

omit [LinearOrder K] [Inhabited K] [Inhabited V] in
theorem mergedNode_header (parent right : BTreeNode K V) (i : ℕ) (hl : left.keyCount ≤ minKeys)
    (hleft : left.isLeaf = false → left.childCount = left.keyCount+1) :
    (mergedNode parent left right i).pageId = left.pageId ∧
      (mergedNode parent left right i).isLeaf = left.isLeaf ∧
      (mergedNode parent left right i).dirty = true := by
  obtain ⟨hpage,hisLeaf,hdirty⟩ := BTreeNode.merge_header (pulledNode parent left right i) right
  rw [mergedNode_eq]
  cases hleaf : left.isLeaf with
  | true =>
    have hsame : pulledNode parent left right i = left := if_pos hleaf
    rw [hsame] at hpage hisLeaf ⊢
    rw [if_pos hleaf]
    exact ⟨hpage,hisLeaf.trans hleaf,rfl⟩
  | false =>
    obtain ⟨hpage',htype,_,hdirty',_⟩ := pulledNode_inner parent right i hleaf hl (hleft hleaf)
    have hinner : (pulledNode parent left right i).isLeaf = false := by
      unfold BTreeNode.isLeaf
      rw [htype]
      exact hleaf
    rw [if_neg (by simp [hinner])]
    exact ⟨hpage.trans hpage',hisLeaf.trans hinner,hdirty hdirty'⟩

omit [LinearOrder K] [Inhabited K] [Inhabited V] in
theorem mergedNode_room (parent : BTreeNode K V) (i : ℕ) (hl : left.keyCount ≤ minKeys)
    (hr : right.keyCount ≤ minKeys)
    (hleft : left.isLeaf = false → left.childCount = left.keyCount+1)
    (hright : right.isLeaf = false → right.childCount = right.keyCount+1)
    (hroom : left.childCount ≤ order) :
    (mergedNode parent left right i).keyCount ≤ maxKeys ∧
      (mergedNode parent left right i).childCount ≤ order ↔ ¬ Overfull left right := by
  change left.keyCount ≤ 63 at hl
  change right.keyCount ≤ 63 at hr
  change left.childCount ≤ 128 at hroom
  rw [mergedNode_eq]
  cases hleaf : left.isLeaf with
  | true =>
    have hsame : pulledNode parent left right i = left := if_pos hleaf
    have hnot : ¬ Overfull left right := fun h => absurd (hleaf.symm.trans h.1) (by simp)
    rw [hsame,iff_true_right hnot,if_pos hleaf]
    by_cases hkind : left.header.type ≠ right.header.type ∨ left.header.level ≠ right.header.level
    · rw [BTreeNode.merge_other hkind]
      exact ⟨show left.keyCount ≤ 127 by omega,hroom⟩
    · obtain ⟨htype,hlevel⟩ := not_or.mp hkind
      have hmerged := BTreeNode.merge_same (not_not.mp htype) (not_not.mp hlevel) (by omega)
        (fun h => absurd (hleaf.symm.trans h) (by simp))
      have hkeys := hmerged.keyCount
      have hchildren := hmerged.childCount
      rw [if_pos hleaf] at hchildren
      exact ⟨show (left.merge right).2.keyCount ≤ 127 by omega,
        show (left.merge right).2.childCount ≤ 128 by omega⟩
  | false =>
    obtain ⟨_,htype',hlevel',_,hkeys,hchildren⟩ :=
      pulledNode_inner parent right i hleaf hl (hleft hleaf)
    generalize pulledNode parent left right i = pulled at htype' hlevel' hkeys hchildren
    have hinner : pulled.isLeaf = false := by
      unfold BTreeNode.isLeaf
      rw [htype']
      exact hleaf
    rw [if_neg (by simp [hinner])]
    by_cases hkind : left.header.type ≠ right.header.type ∨ left.header.level ≠ right.header.level
    · have hnot : ¬ Overfull left right := fun h => hkind.elim (· h.2.1) (· h.2.2.1)
      rw [BTreeNode.merge_other (by rwa [htype',hlevel']),iff_true_right hnot]
      exact ⟨show pulled.keyCount ≤ 127 by omega,show pulled.childCount ≤ 128 by omega⟩
    · obtain ⟨htype,hlevel⟩ := not_or.mp hkind
      have hrightInner : right.isLeaf = false := by
        unfold BTreeNode.isLeaf
        rw [← not_not.mp htype]
        exact hleaf
      have hrightCount := hright hrightInner
      have hmerged := BTreeNode.merge_same (htype'.trans (not_not.mp htype))
        (hlevel'.trans (not_not.mp hlevel)) (by omega) (fun _ => by omega)
      have hkeys' := hmerged.keyCount
      have hchildren' := hmerged.childCount
      rw [if_neg (by simp [hinner])] at hchildren'
      have hover : Overfull left right ↔ 125 < left.keyCount+right.keyCount :=
        ⟨fun h => h.2.2.2,fun h => ⟨hleaf,not_not.mp htype,not_not.mp hlevel,h⟩⟩
      rw [hover]
      change (pulled.merge right).2.keyCount ≤ 127 ∧ (pulled.merge right).2.childCount ≤ 128 ↔ _
      omega

/-- The parent as it is written back: what was below the left child is reached no more. Below the
right one there may be other leaves by then. -/
theorem ParentNode.without {s s' : PageStore K V} {pages : ℕ → List PageId}
    {parts : ℕ → List (BTreeNode K V)} (h : ParentNode s pid parent pages parts)
    (hi : i < parent.keyCount) {m : BTreeNode K V} (hm : BTreeNode.KeyRemoved parent i m)
    (hpage : nodeAt s' pid = some (reread m))
    (hsame : ∀ q ≠ pid, q ∉ pages i → q ∉ pages (i+1) → nodeAt s' q = nodeAt s q)
    {pagesR : List PageId} {leavesR : List (BTreeNode K V)}
    (hright : Reads s' (parent.children (i+1)) pagesR leavesR) :
    Reads s' pid (pid::((List.range i).flatMap (Function.update pages (i+1) pagesR)++
        (List.range' (i+1) (parent.keyCount-i)).flatMap (Function.update pages (i+1) pagesR)))
      ((List.range i).flatMap (Function.update parts (i+1) leavesR)++
        (List.range' (i+1) (parent.keyCount-i)).flatMap (Function.update parts (i+1) leavesR)) := by
  have hinner : m.isLeaf = false := hm.isLeaf.trans h.inner
  have hkeys := hm.keyCount
  have hbelow : ∀ k ≤ parent.keyCount, k ≠ i → Reads s' (parent.children k)
      (Function.update pages (i+1) pagesR k) (Function.update parts (i+1) leavesR k) := by
    intro k hk hne
    rcases eq_or_ne k (i+1) with rfl | hne'
    · rw [Function.update_self,Function.update_self]
      exact hright
    · rw [Function.update_of_ne hne',Function.update_of_ne hne']
      exact (h.reads k hk).frame fun q hq => hsame q (h.ne_of_mem hk hq)
        (h.not_mem_of_ne hk hi.le hne hq) (h.not_mem_of_ne hk hi hne' hq)
  let without {α : Type} (parts : ℕ → List α) : ℕ → List α :=
    fun j => if j < i then parts j else parts (j+1)
  have hread := Reads.inner (without (Function.update pages (i+1) pagesR))
    (without (Function.update parts (i+1) leavesR)) hpage (by simpa using hinner) (by
      intro j hj
      rw [reread_keyCount] at hj
      rw [reread_children hinner,hm.children j (by rw [h.counts]; omega)]
      rcases Nat.lt_or_ge j i with hlt | hge
      · simp only [without,hlt,if_true]
        exact hbelow j (by omega) hlt.ne
      · simp only [without,hge.not_gt,if_false]
        exact hbelow (j+1) (by omega) (by omega))
  rw [reread_keyCount,hkeys,flatMap_without _ hi.le,flatMap_without _ hi.le] at hread
  exact hread

theorem mergeNodes_run {pages : ℕ → List PageId} {parts : ℕ → List (BTreeNode K V)}
    (h : ParentNode t.store pid parent pages parts) (hi : i < parent.keyCount)
    (hleft : nodeAt t.store (parent.children i) = some left)
    (hright : nodeAt t.store (parent.children (i+1)) = some right) (hl : left.keyCount ≤ minKeys)
    (hcounts : left.isLeaf = false → left.childCount = left.keyCount+1) :
    (mergeNodes parent i).run t =
      .ok ((parent.removeAt i).2,t.withNode (mergedNode parent left right i)) := by
  obtain ⟨hpage,_,hdirty⟩ := mergedNode_header parent right i hl hcounts
  have hmem : (mergedNode parent left right i).pageId ∈ t.store.pages := hpage ▸ mem_of_nodeAt hleft
  have hrelease := releaseNode_withNode hdirty hmem
  rw [mergeNodes,run_bind_ok (h.getNode_child hi.le hleft),run_bind_ok (h.getNode_child hi hright)]
  cases hleaf : left.isLeaf with
  | true =>
    have hsame : pulledNode parent left right i = left := if_pos hleaf
    simp only [mergedNode,hsame] at hrelease
    simp only [hleaf,if_true,pure_bind]
    rw [run_bind_ok hrelease]
    simp only [mergedNode,hsame]
    rfl
  | false =>
    have hcount : (left.setKey left.keyCount (parent.keys i)).childCount = left.childCount := by
      unfold BTreeNode.setKey
      split_ifs <;> rfl
    have hsame : pulledNode parent left right i = (left.setKey left.keyCount (parent.keys i)).setChild
        left.childCount (right.getChild 0) := if_neg (by simp [hleaf])
    simp only [mergedNode,hsame] at hrelease
    simp only [hleaf,BTreeNode.getKey,hi,if_true,Bool.false_eq_true,if_false,orThrow,pure_bind,hcount]
    rw [run_bind_ok hrelease]
    simp only [mergedNode,hsame]
    rfl

theorem mergeAndWrite_run {pages : ℕ → List PageId} {parts : ℕ → List (BTreeNode K V)}
    (h : ParentNode t.store pid parent pages parts) (hi : i < parent.keyCount)
    (hleft : nodeAt t.store (parent.children i) = some left)
    (hright : nodeAt t.store (parent.children (i+1)) = some right) (hl : left.keyCount ≤ minKeys)
    (hcounts : left.isLeaf = false → left.childCount = left.keyCount+1) :
    (mergeAndWrite parent i).run t = .ok ((),
      (t.withNode (mergedNode parent left right i)).withNode (parent.removeAt i).2) := by
  obtain ⟨m,hremove,hm⟩ := BTreeNode.removeAt_inner h.inner hi (by rw [h.counts]; omega)
  have hparent : (parent.removeAt i).2.pageId ∈
      (t.withNode (mergedNode parent left right i)).store.pages := by
    have hpid : (parent.removeAt i).2.pageId = parent.pageId := by rw [hremove]; exact hm.pageId
    rw [hpid]
    exact Finmap.mem_insert.mpr (Or.inr (mem_of_nodeAt h.page))
  have hwrite := releaseNode_withNode (t := t.withNode (mergedNode parent left right i))
    (by rw [hremove]; exact hm.dirty) hparent
  rw [mergeAndWrite,run_bind_ok (mergeNodes_run h hi hleft hright hl hcounts),hwrite]

/-- What merging and writing back is to leave: a parent with one key and one child fewer that reaches
no page twice and has the same entries below it, and no node with more than it has room for. -/
def MergeKept (s' : PageStore K V) (pid : PageId) (parent : BTreeNode K V) (entries : List (K × V)) :
    Prop :=
  ∃ n pages leaves, nodeAt s' pid = some n ∧ n.keyCount+1 = parent.keyCount ∧
    n.childCount+1 = parent.childCount ∧ Reads s' pid pages leaves ∧ pages.Nodup ∧
    entriesOf leaves = entries ∧ Capacity s'

omit [LinearOrder K] in
theorem capacity_empty (next : PageId) : Capacity (⟨∅,next⟩ : PageStore K V) := by
  intro q n hn
  unfold nodeAt at hn
  split_ifs at hn
  cases hn

omit [LinearOrder K] in
theorem Capacity.insert {s : PageStore K V} (h : Capacity s) (pid next : PageId) (image : NodeImage K V)
    (hkeys : image.header.keyCount.toNat ≤ maxKeys) (hchildren : image.header.childCount.toNat ≤ order) :
    Capacity ⟨s.pages.insert pid image,next⟩ := by
  intro q n hn
  have hold := h q n
  unfold nodeAt at hn hold
  split_ifs at hn hold with hq
  rcases eq_or_ne q pid with rfl | hne
  · rw [Finmap.lookup_insert] at hn
    obtain rfl := Option.some.inj hn
    simpa [BTreeNode.keyCount,BTreeNode.childCount] using ⟨hkeys,hchildren⟩
  · rw [Finmap.lookup_insert_of_ne _ hne] at hn
    exact hold hn

omit [LinearOrder K] in
theorem Capacity.withNode (h : Capacity t.store) {n : BTreeNode K V}
    (hkeys : n.keyCount ≤ maxKeys) (hchildren : n.childCount ≤ order) :
    Capacity (t.withNode n).store := h.insert _ _ _ hkeys hchildren

/-- The tree after merging: the parent reaches what stands below its other children. -/
structure MergeResult (s' : PageStore K V) (pid : PageId) (parent left right : BTreeNode K V) (i : ℕ)
    (parts : ℕ → List (BTreeNode K V)) : Prop where
  page : ∃ m, BTreeNode.KeyRemoved parent i m ∧ nodeAt s' pid = some (reread m)
  reads : ∃ pages, Reads s' pid pages ((List.range i).flatMap parts++
    (List.range' (i+1) (parent.keyCount-i)).flatMap parts) ∧ pages.Nodup
  capacity : Capacity s' ↔ ¬ Overfull left right

theorem mergeAndWrite_result (h : Siblings t all pid parent i left right)
    (hcapacity : Capacity t.store) (hl : left.keyCount ≤ minKeys) (hr : right.keyCount ≤ minKeys)
    {pages : ℕ → List PageId} {parts : ℕ → List (BTreeNode K V)}
    (hnode : ParentNode t.store pid parent pages parts) :
    ∃ t', (mergeAndWrite parent i).run t = .ok ((),t') ∧
      MergeResult t'.store pid parent left right i parts := by
  have hi := h.index
  have hcounts := hnode.child_counts hi.le h.leftPage
  obtain ⟨hpage,_,_⟩ := mergedNode_header parent right i hl hcounts
  have hroom := mergedNode_room parent i hl hr hcounts (hnode.child_counts hi h.rightPage)
    (hcapacity _ _ h.leftPage).2
  refine ⟨_,mergeAndWrite_run hnode hi h.leftPage h.rightPage hl hcounts,?_⟩
  obtain ⟨m,hremove,hm⟩ := BTreeNode.removeAt_inner hnode.inner hi (by rw [hnode.counts]; omega)
  rw [hremove]
  generalize mergedNode parent left right i = merged at hpage hroom
  have hchild : left.pageId = parent.children i := (nodeAt_some h.leftPage).2.1
  have hpid : m.pageId = pid := hm.pageId.trans (nodeAt_some hnode.page).2.1
  have hvalid : merged.pageId ≠ invalidPageId := by
    rw [hpage,hchild]
    exact (nodeAt_some h.leftPage).1
  have hne : merged.pageId ≠ m.pageId := by
    rw [hpage,hchild,hpid]
    exact hnode.ne_of_mem hi.le (hnode.child_mem hi.le)
  have hparent : nodeAt ((t.withNode merged).withNode m).store pid = some (reread m) := by
    rw [← hpid]
    exact nodeAt_withNode_self (hpid ▸ (nodeAt_some hnode.page).1)
  constructor
  case page => exact ⟨m,hm,hparent⟩
  case reads =>
    have hothers : ∀ q ≠ pid, q ∉ pages i →
        nodeAt ((t.withNode merged).withNode m).store q = nodeAt t.store q := by
      intro q hq hout
      have hq' : q ≠ merged.pageId := by
        rintro rfl
        rw [hpage,hchild] at hout
        exact hout (hnode.child_mem hi.le)
      exact (nodeAt_withNode_of_ne (hpid ▸ hq)).trans (nodeAt_withNode_of_ne hq')
    have hright := (hnode.reads (i+1) hi).frame fun q hq => hothers q (hnode.ne_of_mem hi hq)
      (hnode.not_mem_of_ne hi hi.le (Nat.succ_ne_self i) hq)
    have hread := hnode.without hi hm hparent (fun q hq hout _ => hothers q hq hout) hright
    rw [Function.update_eq_self,Function.update_eq_self] at hread
    refine ⟨_,hread,(List.nodup_cons.mpr ⟨hnode.outside,hnode.pages_nodup⟩).sublist ?_⟩
    rw [flatMap_split pages hi.le]
    exact List.Sublist.cons_cons pid (List.Sublist.append (List.sublist_append_left _ _)
      (List.Sublist.refl _))
  case capacity =>
    rw [← hroom]
    constructor
    · intro hafter
      have hmerged : nodeAt ((t.withNode merged).withNode m).store merged.pageId =
          some (reread merged) :=
        (nodeAt_withNode_of_ne hne).trans (nodeAt_withNode_self hvalid)
      simpa using hafter _ _ hmerged
    · intro ⟨hmergedKeys,hmergedChildren⟩
      have hkeys := hm.keyCount
      have hchildren := hm.childCount
      have hold := hcapacity pid parent hnode.page
      exact (hcapacity.withNode hmergedKeys hmergedChildren).withNode
        (show m.keyCount ≤ maxKeys by omega) (show m.childCount ≤ order by omega)

omit [Inhabited K] [Inhabited V] [LinearOrder K] in
theorem entriesOf_around (parts : ℕ → List (BTreeNode K V)) {c m : ℕ} (h : c ≤ m) :
    entriesOf ((List.range (m+1)).flatMap parts) = entriesOf ((List.range c).flatMap parts)++
      entriesOf (parts c)++entriesOf ((List.range' (c+1) (m-c)).flatMap parts) := by
  rw [flatMap_split parts h,entriesOf_append,entriesOf_append]

omit [LinearOrder K] in
/-- Of the entries below the left child nothing is left. -/
theorem MergeResult.left_empty {s' : PageStore K V} {parts : ℕ → List (BTreeNode K V)}
    (h : MergeResult s' pid parent left right i parts) (hi : i < parent.keyCount)
    (hkept : MergeKept s' pid parent (entriesOf ((List.range (parent.keyCount+1)).flatMap parts))) :
    entriesOf (parts i) = [] := by
  obtain ⟨pages,hreads,_⟩ := h.reads
  obtain ⟨n,pages',leaves',_,_,_,hreads',_,hsame,_⟩ := hkept
  obtain ⟨rfl,rfl⟩ := hreads.unique hreads'
  have hlength := congrArg List.length (hsame.trans (entriesOf_around parts hi.le))
  simp only [entriesOf_append,List.length_append] at hlength
  exact List.length_eq_zero_iff.mp (by omega)

/-- Merging keeps the entries exactly if there are none below the left child; the merged node, which
is reached no more, has room for its keys and children unless it is overfull. -/
theorem mergeNodes_keeps_iff (h : Siblings t all pid parent i left right) (hcapacity : Capacity t.store)
    (hl : left.keyCount ≤ minKeys) (hr : right.keyCount ≤ minKeys)
    (hleaves : Subtree t.store pid leaves) {leftLeaves : List (BTreeNode K V)}
    (hleftLeaves : Subtree t.store (parent.children i) leftLeaves) :
    ∃ t', (mergeAndWrite parent i).run t = .ok ((),t') ∧
      (MergeKept t'.store pid parent (entriesOf leaves) ↔
        entriesOf leftLeaves = [] ∧ ¬ Overfull left right) := by
  obtain ⟨pages,parts,rfl,hnode⟩ := h.parentNode hleaves
  obtain ⟨t',hrun,hresult⟩ := mergeAndWrite_result h hcapacity hl hr hnode
  obtain rfl := (hnode.trees i h.index.le).unique hleftLeaves
  refine ⟨t',hrun,?_⟩
  constructor
  · intro hkept
    refine ⟨hresult.left_empty h.index hkept,hresult.capacity.mp ?_⟩
    obtain ⟨_,_,_,_,_,_,_,_,_,hcapacity'⟩ := hkept
    exact hcapacity'
  · rintro ⟨hempty,hfits⟩
    obtain ⟨m,hm,hparent⟩ := hresult.page
    obtain ⟨pages',hreads,hnodup⟩ := hresult.reads
    have hkeys := hm.keyCount
    have hchildren := hm.childCount
    refine ⟨reread m,pages',_,hparent,by simpa using hkeys,by simpa using hchildren,hreads,hnodup,?_,
      hresult.capacity.mpr hfits⟩
    rw [entriesOf_around parts h.index.le,hempty,List.append_nil,entriesOf_append]

end Merging

section Sample

theorem sampleTree_capacity : Capacity sampleTree.store := by
  have hroot : Capacity (⟨_,1⟩ : PageStore ℤ RecordId) :=
    (capacity_empty 1).insert 1 1 sampleRoot.serialize (by decide) (by decide)
  have hleft : Capacity (⟨_,1⟩ : PageStore ℤ RecordId) :=
    hroot.insert 2 1 (sampleLeaf 2 3 invalidPageId 5).serialize (by decide) (by decide)
  exact hleft.insert 3 4 _ (by decide) (by decide)

theorem sampleTree_siblings : Siblings sampleTree sampleLeaves 1 sampleRoot 0
    (sampleLeaf 2 3 invalidPageId 5) (sampleLeaf 3 invalidPageId 2 10) :=
  ⟨sampleTree_wellFormed,.root,rfl,rfl,by decide,rfl,rfl⟩

theorem sampleTree_merge_loses : (sampleLeaf 2 3 invalidPageId 5).keyCount ≤ minKeys ∧
    (sampleLeaf 3 invalidPageId 2 10).keyCount ≤ minKeys ∧
    ¬ ∃ t', (mergeAndWrite sampleRoot 0).run sampleTree = .ok ((),t') ∧
      MergeKept t'.store 1 sampleRoot (entriesOf sampleLeaves) := by
  refine ⟨by decide,by decide,?_⟩
  rintro ⟨t',hrun,hkept⟩
  obtain ⟨pages,parts,hparts,hnode⟩ := sampleTree_siblings.parentNode sampleTree_wellFormed.tree
  obtain ⟨t'',hrun',hresult⟩ := mergeAndWrite_result sampleTree_siblings sampleTree_capacity (by decide)
    (by decide) hnode
  rw [hrun'] at hrun
  cases hrun
  rw [hparts] at hkept
  have hempty := hresult.left_empty sampleTree_siblings.index hkept
  have hleft := sampleLeaf_subtree 2 3 invalidPageId 5 rfl
  rw [hleft.unique (hnode.trees 0 (by decide))] at hempty
  exact absurd hempty (by decide)

theorem mergeNodes_keeps_iff_sample : ∃ t', (mergeAndWrite sampleRoot 0).run sampleTree = .ok ((),t') ∧
    (MergeKept t'.store 1 sampleRoot (entriesOf sampleLeaves) ↔
      entriesOf [sampleLeaf 2 3 invalidPageId 5] = [] ∧
      ¬ Overfull (sampleLeaf 2 3 invalidPageId 5) (sampleLeaf 3 invalidPageId 2 10)) :=
  mergeNodes_keeps_iff sampleTree_siblings sampleTree_capacity (by decide) (by decide)
    sampleTree_wellFormed.tree (sampleLeaf_subtree 2 3 invalidPageId 5 rfl)

end Sample

end BTree
end OrangeSQL
