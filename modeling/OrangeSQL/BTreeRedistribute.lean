import OrangeSQL.BTreeMerge

/-! Moving one key between two children of a node. From the left the borrower does not count what it
takes; from the right the key and the first child go over as they are, and what the parent gets for a
separator is the key behind them. -/
namespace OrangeSQL

namespace BTreeNode

variable {K V : Type} [Inhabited K] [Inhabited V] {n right : BTreeNode K V}

/-- The node with the first key of its right neighbour, and the first value or child, at the end. -/
def withFirst (n right : BTreeNode K V) : BTreeNode K V :=
  markDirty { n with
    keys := Function.update n.keys n.keyCount (right.keys 0)
    values := if n.isLeaf then Function.update n.values n.keyCount (right.values 0) else n.values
    children := if n.isLeaf then n.children
      else Function.update n.children n.childCount (right.children 0)
    header.keyCount := n.header.keyCount+1
    header.childCount := if n.isLeaf then n.header.childCount else n.header.childCount+1 }

theorem redistribute_right (n right : BTreeNode K V) :
    n.redistribute right false = (n.withFirst right,(right.removeAt 0).2) := rfl

omit [Inhabited K] [Inhabited V] in
@[simp] theorem withFirst_isLeaf : (n.withFirst right).isLeaf = n.isLeaf := rfl

omit [Inhabited K] [Inhabited V] in
theorem withFirst_keyCount (h : n.keyCount < minKeys) :
    (n.withFirst right).keyCount = n.keyCount+1 := by
  change n.keyCount < 63 at h
  exact toNat_add (show n.keyCount+1 < 65536 by omega)

omit [Inhabited K] [Inhabited V] in
theorem withFirst_entries (hleaf : n.isLeaf = true) (h : n.keyCount < minKeys) :
    (n.withFirst right).entries = n.entries++[(right.keys 0,right.values 0)] := by
  unfold entries
  rw [withFirst_keyCount h,List.range_succ,List.map_append]
  congr 1
  · refine List.map_congr_left fun i hi => ?_
    have hne := (List.mem_range.mp hi).ne
    simp only [withFirst,markDirty,hleaf,if_true]
    rw [Function.update_of_ne hne,Function.update_of_ne hne]
  · simp [withFirst,markDirty,hleaf]

/-- What of a node stays and what changes when a key is taken out of it, leaf or not. -/
theorem removeAt_header {i : ℕ} (hi : i < n.keyCount) : (n.removeAt i).2.pageId = n.pageId ∧
    (n.removeAt i).2.isLeaf = n.isLeaf ∧ (n.removeAt i).2.dirty = true ∧
    (n.removeAt i).2.keyCount+1 = n.keyCount := by
  unfold removeAt
  rw [if_neg (Nat.not_le.mpr hi)]
  exact ⟨rfl,rfl,rfl,toNat_sub_one (Nat.lt_of_le_of_lt (Nat.zero_le i) hi)⟩

end BTreeNode

namespace BTree

variable {K V : Type} [LinearOrder K] [Inhabited K] [Inhabited V]

open BTreeNode (minKeys maxKeys order toIndex)

section Definitions

/-- Pages are written by `serialize` only: what is on the page of a leaf is values, on any other page
it is children. -/
def Serialized (s : PageStore K V) : Prop :=
  ∀ q image, s.pages.lookup q = some image → ∃ n : BTreeNode K V, image = n.serialize

/-- The call of `redistribute` and the write of the parent that follows it. -/
def redistributeAndWrite (parent : BTreeNode K V) (i : ℕ) (fromLeft : Bool) : TreeM K V Unit := do
  releaseNode (← redistribute parent i fromLeft)

/-- One key went over from one child to the other, and their separator is between them. -/
structure Moved (s' : PageStore K V) (n parent left right : BTreeNode K V) (l : ℕ) (fromLeft : Bool) :
    Prop where
  leftCount : ∀ m, nodeAt s' (parent.children l) = some m →
    if fromLeft then m.keyCount+1 = left.keyCount else m.keyCount = left.keyCount+1
  rightCount : ∀ m, nodeAt s' (parent.children (l+1)) = some m →
    if fromLeft then m.keyCount = right.keyCount+1 else m.keyCount+1 = right.keyCount
  left_lt : ∃ pages leaves, Reads s' (parent.children l) pages leaves ∧
    ∀ e ∈ entriesOf leaves, e.1 < n.keys l
  le_right : ∃ pages leaves, Reads s' (parent.children (l+1)) pages leaves ∧
    ∀ e ∈ entriesOf leaves, n.keys l ≤ e.1

/-- What redistribution is to leave below the parent. -/
def RedistributionKept (s' : PageStore K V) (pid : PageId) (parent left right : BTreeNode K V) (l : ℕ)
    (fromLeft : Bool) (entries : List (K × V)) : Prop :=
  ∃ n pages leaves, nodeAt s' pid = some n ∧ Reads s' pid pages leaves ∧ entriesOf leaves = entries ∧
    Moved s' n parent left right l fromLeft

end Definitions

section Lists

variable {α : Type}

/-- Two neighbouring blocks of a concatenation. -/
theorem flatMap_pair (parts : ℕ → List α) {c m : ℕ} (h : c < m) : (List.range (m+1)).flatMap parts =
    (List.range c).flatMap parts++(parts c++parts (c+1))++
      (List.range' (c+2) (m-c-1)).flatMap parts := by
  have hrest : m-c = (m-c-1)+1 := by omega
  rw [flatMap_split parts h.le,hrest,List.range'_succ,List.flatMap_cons]
  simp only [List.append_assoc,Nat.add_sub_cancel]

theorem flatMap_update_pair (parts : ℕ → List α) (x y : List α) {c m : ℕ} (h : c < m) :
    (List.range (m+1)).flatMap (Function.update (Function.update parts c x) (c+1) y) =
      (List.range c).flatMap parts++(x++y)++(List.range' (c+2) (m-c-1)).flatMap parts := by
  have hoff : ∀ i, i ≠ c → i ≠ c+1 →
      Function.update (Function.update parts c x) (c+1) y i = parts i := fun i hc hc' => by
    rw [Function.update_of_ne hc',Function.update_of_ne hc]
  have hlow : (List.range c).flatMap (Function.update (Function.update parts c x) (c+1) y) =
      (List.range c).flatMap parts := by
    refine List.flatMap_congr fun i hi => ?_
    have hlt := List.mem_range.mp hi
    exact hoff i (by omega) (by omega)
  have hhigh : (List.range' (c+2) (m-c-1)).flatMap
      (Function.update (Function.update parts c x) (c+1) y) =
      (List.range' (c+2) (m-c-1)).flatMap parts := by
    refine List.flatMap_congr fun i hi => ?_
    have hle := (List.mem_range'_1.mp hi).1
    exact hoff i (by omega) (by omega)
  rw [flatMap_pair _ h,hlow,hhigh,Function.update_self,Function.update_of_ne (by omega),
    Function.update_self]

end Lists

section Redistribution

variable {t : BTree K V} {all leaves : List (BTreeNode K V)} {pid : PageId}
  {parent left right : BTreeNode K V} {l : ℕ} {pages : ℕ → List PageId}
  {parts : ℕ → List (BTreeNode K V)}

/-- The parent after a key moved from the right: with another separator, if its children are inner
nodes. -/
def movedRight (parent left right : BTreeNode K V) (l : ℕ) : BTreeNode K V :=
  if left.isLeaf then parent else parent.setKey l ((right.removeAt 0).2.keys 0)

omit [LinearOrder K] in
/-- The two children are written one after the other. -/
theorem release_both {α : Type} (a : α) {m k : BTreeNode K V}
    (hleft : nodeAt t.store (parent.children l) = some left)
    (hright : nodeAt t.store (parent.children (l+1)) = some right) (hm : m.pageId = left.pageId)
    (hk : k.pageId = right.pageId) (hdirty : m.dirty = true) (hdirty' : k.dirty = true) :
    (do
      releaseNode m
      releaseNode k
      return a : TreeM K V α).run t = .ok (a,(t.withNode m).withNode k) := by
  have hmem : m.pageId ∈ t.store.pages := hm ▸ mem_of_nodeAt hleft
  have hmem' : k.pageId ∈ (t.withNode m).store.pages :=
    Finmap.mem_insert.mpr (Or.inr (hk ▸ mem_of_nodeAt hright))
  rw [run_bind_ok (releaseNode_withNode hdirty hmem),run_bind_ok (releaseNode_withNode hdirty' hmem')]
  rfl

theorem redistribute_right_run (h : Siblings t all pid parent l left right)
    (hnode : ParentNode t.store pid parent pages parts) (hlends : 2 ≤ right.keyCount) :
    (redistribute parent l false).run t = .ok (movedRight parent left right l,
      (t.withNode (left.withFirst right)).withNode (right.removeAt 0).2) := by
  obtain ⟨hpage,_,hdirty,hcount⟩ := BTreeNode.removeAt_header (n := right) (i := 0) (by omega)
  have hrelease := fun p : BTreeNode K V =>
    release_both p h.leftPage h.rightPage (m := left.withFirst right) rfl hpage rfl hdirty
  have hkey : (right.removeAt 0).2.getKey 0 = some ((right.removeAt 0).2.keys 0) := by
    unfold BTreeNode.getKey
    rw [if_pos (by omega)]
  unfold redistribute
  simp only [Bool.false_eq_true,if_false]
  rw [run_bind_ok (hnode.getNode_child h.index.le h.leftPage),
    run_bind_ok (hnode.getNode_child h.index h.rightPage)]
  simp only [BTreeNode.redistribute_right,BTreeNode.withFirst_isLeaf,hkey,orThrow,movedRight]
  cases hleaf : left.isLeaf with
  | true =>
    simp only [if_true,pure_bind]
    exact hrelease _
  | false =>
    simp only [Bool.false_eq_true,if_false,pure_bind]
    exact hrelease _

/-- Of what goes over from the left only the borrower is of interest: its count is the old one. -/
theorem redistribute_left_run (h : Siblings t all pid parent l left right)
    (hnode : ParentNode t.store pid parent pages parts) (hlends : 2 ≤ left.keyCount) :
    ∃ m k p, m.pageId = left.pageId ∧ k.pageId = right.pageId ∧ k.keyCount = right.keyCount ∧
      (p = parent ∨ ∃ key, p = parent.setKey l key) ∧
      (redistribute parent (l+1) true).run t = .ok (p,(t.withNode m).withNode k) := by
  have hcount : left.keyCount < 65536 := left.header.keyCount.toNat_lt
  have hindex : toIndex ((left.keyCount : ℤ)-1) = left.keyCount-1 := by
    have hcast : (left.keyCount : ℤ)-1 = (left.keyCount-1 : ℕ) := by omega
    rw [hcast,BTreeNode.toIndex_natCast (by omega)]
  obtain ⟨hpage,_,hdirty,hkeys⟩ :=
    BTreeNode.removeAt_header (n := left) (i := left.keyCount-1) (by omega)
  have hindex' : toIndex (((left.removeAt (left.keyCount-1)).2.keyCount : ℤ)-1) = left.keyCount-2 := by
    have hcast : ((left.removeAt (left.keyCount-1)).2.keyCount : ℤ)-1 = (left.keyCount-2 : ℕ) := by
      omega
    rw [hcast,BTreeNode.toIndex_natCast (by omega)]
  have hkey : (left.removeAt (left.keyCount-1)).2.getKey (left.keyCount-2) =
      some ((left.removeAt (left.keyCount-1)).2.keys (left.keyCount-2)) := by
    unfold BTreeNode.getKey
    rw [if_pos (by omega)]
  have hborrower : (right.redistribute left true).2 = (left.removeAt (left.keyCount-1)).2 := by
    rw [← hindex]
    rfl
  have hrelease := fun p : BTreeNode K V => release_both p h.leftPage h.rightPage
    (k := (right.redistribute left true).1) hpage rfl hdirty rfl
  refine ⟨_,(right.redistribute left true).1,
    if right.isLeaf then parent
    else parent.setKey l ((left.removeAt (left.keyCount-1)).2.keys (left.keyCount-2)),
    hpage,rfl,rfl,?_,?_⟩
  · cases right.isLeaf with
    | true => exact Or.inl rfl
    | false => exact Or.inr ⟨_,rfl⟩
  · unfold redistribute
    simp only [if_true,Nat.add_sub_cancel]
    rw [run_bind_ok (hnode.getNode_child h.index.le h.leftPage),
      run_bind_ok (hnode.getNode_child h.index h.rightPage)]
    have hisLeaf : (right.redistribute left true).1.isLeaf = right.isLeaf := rfl
    simp only [hisLeaf,hborrower,hindex',hkey,orThrow]
    cases hleaf : right.isLeaf with
    | true =>
      simp only [if_true,pure_bind]
      exact hrelease _
    | false =>
      simp only [Bool.false_eq_true,if_false,pure_bind]
      exact hrelease _

/-- The parent or the parent with another separator. -/
def Separated (parent p : BTreeNode K V) (l : ℕ) : Prop := p = parent ∨ ∃ key, p = parent.setKey l key

omit [LinearOrder K] in
theorem release_parent {p : BTreeNode K V} (hpage : nodeAt t.store pid = some parent)
    (hinner : parent.isLeaf = false) (hkeys : parent.keyCount ≤ maxKeys) (hl : l < parent.keyCount)
    (hp : Separated parent p l) : ∃ t' n, (releaseNode p).run t = .ok ((),t') ∧
      (∀ q ≠ pid, nodeAt t'.store q = nodeAt t.store q) ∧ nodeAt t'.store pid = some n ∧
      n.isLeaf = false ∧ n.keyCount = parent.keyCount ∧ n.children = parent.children ∧
      n.keys = p.keys := by
  obtain ⟨hvalid,hpid,hclean⟩ := nodeAt_some hpage
  rcases hp with rfl | ⟨key,rfl⟩
  · exact ⟨t,p,releaseNode_clean hclean,fun _ _ => rfl,hpage,hinner,rfl,rfl,rfl⟩
  · let p := BTreeNode.markDirty { parent with keys := Function.update parent.keys l key }
    have hset : parent.setKey l key = p := by
      unfold BTreeNode.setKey
      rw [if_neg (by omega),if_neg (by omega)]
    have hmem : parent.pageId ∈ t.store.pages := mem_of_nodeAt hpage
    rw [hset]
    refine ⟨t.withNode p,reread p,releaseNode_withNode rfl hmem,?_,?_,?_,?_,?_,?_⟩
    · intro q hq
      exact nodeAt_withNode_of_ne (hpid ▸ hq)
    · rw [← hpid]
      exact nodeAt_withNode_self (n := p) (hpid ▸ hvalid)
    · rw [reread_isLeaf]
      exact hinner
    · rw [reread_keyCount]
      rfl
    · rw [reread_children (n := p) hinner]
      rfl
    · rw [reread_keys]

/-- The tree after the two children and the parent were written. -/
structure Exchanged (s s' : PageStore K V) (pid : PageId) (parent p : BTreeNode K V) (l : ℕ)
    (m k n : BTreeNode K V) : Prop where
  leftPage : nodeAt s' (parent.children l) = some (reread m)
  rightPage : nodeAt s' (parent.children (l+1)) = some (reread k)
  page : nodeAt s' pid = some n
  inner : n.isLeaf = false
  keyCount : n.keyCount = parent.keyCount
  children : n.children = parent.children
  keys : n.keys = p.keys
  others : ∀ q, q ≠ pid → q ≠ parent.children l → q ≠ parent.children (l+1) →
    nodeAt s' q = nodeAt s q

theorem redistributeAndWrite_run (h : Siblings t all pid parent l left right)
    (hcapacity : Capacity t.store) (hnode : ParentNode t.store pid parent pages parts) {i : ℕ}
    {fromLeft : Bool} {p m k : BTreeNode K V} (hm : m.pageId = left.pageId)
    (hk : k.pageId = right.pageId) (hp : Separated parent p l)
    (hrun : (redistribute parent i fromLeft).run t = .ok (p,(t.withNode m).withNode k)) :
    ∃ t' n, (redistributeAndWrite parent i fromLeft).run t = .ok ((),t') ∧
      Exchanged t.store t'.store pid parent p l m k n := by
  obtain ⟨hvalidLeft,hpageLeft,_⟩ := nodeAt_some h.leftPage
  obtain ⟨hvalidRight,hpageRight,_⟩ := nodeAt_some h.rightPage
  have hi := h.index
  have hleft := hnode.child_mem hi.le
  have hright := hnode.child_mem (show l+1 ≤ parent.keyCount by omega)
  have hne : parent.children l ≠ parent.children (l+1) := fun heq =>
    hnode.not_mem_of_ne hi.le hi (Nat.ne_of_lt (Nat.lt_succ_self l)) hleft (heq ▸ hright)
  rw [hpageLeft] at hm
  rw [hpageRight] at hk
  have hothers : ∀ q, q ≠ parent.children l → q ≠ parent.children (l+1) →
      nodeAt ((t.withNode m).withNode k).store q = nodeAt t.store q := fun q hql hqr =>
    (nodeAt_withNode_of_ne (hk ▸ hqr)).trans (nodeAt_withNode_of_ne (hm ▸ hql))
  have hpid : nodeAt ((t.withNode m).withNode k).store pid = some parent :=
    (hothers pid (hnode.ne_of_mem hi.le hleft).symm (hnode.ne_of_mem hi hright).symm).trans hnode.page
  obtain ⟨t',n,hwrite,hsame,hpage,hinner,hkeys,hchildren,hkeys'⟩ :=
    release_parent hpid hnode.inner (hcapacity _ _ hnode.page).1 hi hp
  refine ⟨t',n,?_,?_⟩
  · rw [redistributeAndWrite,run_bind_ok hrun,hwrite]
  constructor
  case leftPage =>
    rw [hsame _ (hnode.ne_of_mem hi.le hleft),nodeAt_withNode_of_ne (hk ▸ hne),← hm]
    exact nodeAt_withNode_self (hm ▸ hvalidLeft)
  case rightPage =>
    rw [hsame _ (hnode.ne_of_mem hi hright),← hk]
    exact nodeAt_withNode_self (hk ▸ hvalidRight)
  case page => exact hpage
  case inner => exact hinner
  case keyCount => exact hkeys
  case children => exact hchildren
  case keys => exact hkeys'
  case others =>
    intro q hq hql hqr
    rw [hsame q hq,hothers q hql hqr]

/-- Below the two children only their own pages were written. -/
theorem Exchanged.below {s s' : PageStore K V} {p m k n : BTreeNode K V}
    (h : Exchanged s s' pid parent p l m k n) (hnode : ParentNode s pid parent pages parts)
    (hl : l < parent.keyCount) {c : ℕ} (hc : c = l ∨ c = l+1) {q : PageId} (hq : q ∈ pages c)
    (hne : q ≠ parent.children c) : nodeAt s' q = nodeAt s q := by
  have hleft := hnode.child_mem hl.le
  have hright := hnode.child_mem (show l+1 ≤ parent.keyCount by omega)
  have hsucc : l ≠ l+1 := Nat.ne_of_lt (Nat.lt_succ_self l)
  rcases hc with rfl | rfl
  · refine h.others q (hnode.ne_of_mem hl.le hq) hne ?_
    rintro rfl
    exact hnode.not_mem_of_ne hl.le hl hsucc hq hright
  · refine h.others q (hnode.ne_of_mem hl hq) ?_ hne
    rintro rfl
    exact hnode.not_mem_of_ne hl hl.le hsucc.symm hq hleft

theorem Exchanged.aside {s s' : PageStore K V} {p m k n : BTreeNode K V}
    (h : Exchanged s s' pid parent p l m k n) (hnode : ParentNode s pid parent pages parts)
    (hl : l < parent.keyCount) {c : ℕ} (hc : c ≤ parent.keyCount) (hcl : c ≠ l) (hcr : c ≠ l+1) :
    Reads s' (parent.children c) (pages c) (parts c) := by
  refine (hnode.reads c hc).frame fun q hq => h.others q (hnode.ne_of_mem hc hq) ?_ ?_
  · rintro rfl
    exact hnode.not_mem_of_ne hc hl.le hcl hq (hnode.child_mem hl.le)
  · rintro rfl
    exact hnode.not_mem_of_ne hc hl hcr hq (hnode.child_mem hl)

/-- The walk from the parent, with other leaves below the two children. -/
theorem Exchanged.reads {s s' : PageStore K V} {p m k n : BTreeNode K V}
    (h : Exchanged s s' pid parent p l m k n) (hnode : ParentNode s pid parent pages parts)
    (hl : l < parent.keyCount) {pagesL pagesR : List PageId} {leavesL leavesR : List (BTreeNode K V)}
    (hleft : Reads s' (parent.children l) pagesL leavesL)
    (hright : Reads s' (parent.children (l+1)) pagesR leavesR) : ∃ pages', Reads s' pid pages'
      ((List.range l).flatMap parts++(leavesL++leavesR)++
        (List.range' (l+2) (parent.keyCount-l-1)).flatMap parts) := by
  have hread := Reads.inner (Function.update (Function.update pages l pagesL) (l+1) pagesR)
    (Function.update (Function.update parts l leavesL) (l+1) leavesR) h.page h.inner (by
      intro c hc
      rw [h.keyCount] at hc
      rw [h.children]
      rcases eq_or_ne c (l+1) with rfl | hcr
      · simp only [Function.update_self]
        exact hright
      rcases eq_or_ne c l with rfl | hcl
      · simp only [Function.update_of_ne hcr,Function.update_self]
        exact hleft
      · simp only [Function.update_of_ne hcr,Function.update_of_ne hcl]
        exact h.aside hnode hl hc hcl hcr)
  rw [h.keyCount,flatMap_update_pair parts leavesL leavesR hl] at hread
  exact ⟨_,hread⟩

/-- The first child of the right node, with all that stands below it, is the last child of the left
one. -/
theorem Exchanged.reads_left {s' : PageStore K V} {p k n : BTreeNode K V}
    {pagesL pagesR : ℕ → List PageId} {partsL partsR : ℕ → List (BTreeNode K V)}
    (h : Exchanged t.store s' pid parent p l (left.withFirst right) k n)
    (hnode : ParentNode t.store pid parent pages parts) (hl : l < parent.keyCount)
    (hborrows : left.keyCount < minKeys)
    (hleft : ParentNode t.store (parent.children l) left pagesL partsL)
    (hright : ParentNode t.store (parent.children (l+1)) right pagesR partsR)
    (hpagesL : ∀ j ≤ left.keyCount, ∀ q ∈ pagesL j, q ∈ pages l)
    (hpagesR : ∀ q ∈ pagesR 0, q ∈ pages (l+1)) : ∃ pages', Reads s' (parent.children l) pages'
      ((List.range (left.keyCount+1)).flatMap partsL++partsR 0) := by
  have hcount : (left.withFirst right).keyCount = left.keyCount+1 :=
    BTreeNode.withFirst_keyCount hborrows
  have hchildren : (left.withFirst right).children =
      Function.update left.children (left.keyCount+1) (right.children 0) := by
    simp only [BTreeNode.withFirst,BTreeNode.markDirty,hleft.inner,hleft.counts,
      Bool.false_eq_true,if_false]
  have hread := Reads.inner (Function.update pagesL (left.keyCount+1) (pagesR 0))
    (Function.update partsL (left.keyCount+1) (partsR 0)) h.leftPage
    (by rw [reread_isLeaf]; exact hleft.inner) (by
      intro j hj
      rw [reread_keyCount,hcount] at hj
      rw [reread_children (n := left.withFirst right) hleft.inner,hchildren]
      rcases eq_or_ne j (left.keyCount+1) with rfl | hne
      · simp only [Function.update_self]
        exact (hright.reads 0 (Nat.zero_le _)).frame fun q hq => h.below hnode hl (Or.inr rfl)
          (hpagesR q hq) (hright.ne_of_mem (Nat.zero_le _) hq)
      · have hle : j ≤ left.keyCount := by omega
        simp only [Function.update_of_ne hne]
        exact (hleft.reads j hle).frame fun q hq => h.below hnode hl (Or.inl rfl)
          (hpagesL j hle q hq) (hleft.ne_of_mem hle hq))
  have hparts : (List.range (left.keyCount+1+1)).flatMap
      (Function.update partsL (left.keyCount+1) (partsR 0)) =
      (List.range (left.keyCount+1)).flatMap partsL++partsR 0 := by
    rw [flatMap_update partsL (partsR 0) le_rfl]
    simp
  rw [reread_keyCount,hcount,hparts] at hread
  exact ⟨_,hread⟩

theorem Exchanged.reads_right {s' : PageStore K V} {p m n : BTreeNode K V}
    {pagesR : ℕ → List PageId} {partsR : ℕ → List (BTreeNode K V)}
    (h : Exchanged t.store s' pid parent p l m (right.removeAt 0).2 n)
    (hnode : ParentNode t.store pid parent pages parts) (hl : l < parent.keyCount)
    (hright : ParentNode t.store (parent.children (l+1)) right pagesR partsR)
    (hpagesR : ∀ j ≤ right.keyCount, ∀ q ∈ pagesR j, q ∈ pages (l+1)) : ∃ pages',
      Reads s' (parent.children (l+1)) pages'
        ((List.range right.keyCount).flatMap fun j => partsR (j+1)) := by
  have hkeyed := hright.keyed
  obtain ⟨k,hremove,hk⟩ :=
    BTreeNode.removeAt_inner hright.inner (i := 0) (by omega) (by rw [hright.counts]; omega)
  have hpage := h.rightPage
  rw [hremove] at hpage
  change nodeAt s' (parent.children (l+1)) = some (reread k) at hpage
  have hinner : k.isLeaf = false := hk.isLeaf.trans hright.inner
  have hkeys := hk.keyCount
  have hread := Reads.inner (fun j => pagesR (j+1)) (fun j => partsR (j+1)) hpage
    (by rw [reread_isLeaf]; exact hinner) (by
      intro j hj
      rw [reread_keyCount] at hj
      have hle : j+1 ≤ right.keyCount := by omega
      rw [reread_children hinner,hk.children j (by rw [hright.counts]; omega),
        if_neg (Nat.not_lt_zero j)]
      exact (hright.reads (j+1) hle).frame fun q hq => h.below hnode hl (Or.inr rfl)
        (hpagesR (j+1) hle q hq) (hright.ne_of_mem hle hq))
  rw [reread_keyCount,hkeys] at hread
  exact ⟨_,hread⟩

omit [LinearOrder K] [Inhabited K] [Inhabited V] in
theorem serialized_empty (next : PageId) : Serialized (⟨∅,next⟩ : PageStore K V) := by
  intro q image hlookup
  cases hlookup

omit [LinearOrder K] [Inhabited K] [Inhabited V] in
theorem Serialized.insert {s : PageStore K V} (h : Serialized s) (pid next : PageId)
    (n : BTreeNode K V) : Serialized ⟨s.pages.insert pid n.serialize,next⟩ := by
  intro q image hlookup
  rcases eq_or_ne q pid with rfl | hne
  · rw [Finmap.lookup_insert] at hlookup
    exact ⟨n,(Option.some.inj hlookup).symm⟩
  · rw [Finmap.lookup_insert_of_ne _ hne] at hlookup
    exact h q image hlookup

omit [LinearOrder K] [Inhabited K] [Inhabited V] in
theorem Serialized.withNode (h : Serialized t.store) (n : BTreeNode K V) :
    Serialized (t.withNode n).store := h.insert _ _ n

omit [LinearOrder K] in
theorem Serialized.leaf_children {s : PageStore K V} (h : Serialized s) {n : BTreeNode K V}
    (page : nodeAt s pid = some n) (isLeaf : n.isLeaf = true) (i : ℕ) :
    n.children i = invalidPageId := by
  unfold nodeAt at page
  split_ifs at page
  obtain ⟨image,hlookup,rfl⟩ := Option.map_eq_some_iff.mp page
  obtain ⟨m,rfl⟩ := h pid image hlookup
  have hleaf : m.isLeaf = true := by
    unfold BTreeNode.isLeaf at isLeaf ⊢
    rwa [deserialize_header] at isLeaf
  simp [BTreeNode.deserialize,BTreeNode.serialize,hleaf,BTreeNode.new]

/-- Where redistribution does what it is to do: a key goes from right to left between two inner nodes,
nothing stands below the second child of the right one, and what stands below the left one is less than
the key that becomes the separator. -/
def KeysApart (s : PageStore K V) (parent left right : BTreeNode K V) (l : ℕ) (fromLeft : Bool) : Prop :=
  fromLeft = false ∧ left.isLeaf = false ∧ right.isLeaf = false ∧
    (∀ part, Subtree s (right.children 1) part → entriesOf part = []) ∧
    ∀ part, Subtree s (parent.children l) part → ∀ e ∈ entriesOf part, e.1 < right.keys 1

/-- The key that a leaf takes over from the right does not stay below the separator. -/
theorem Exchanged.leaf_not_kept {s' : PageStore K V} {n : BTreeNode K V}
    (h : Exchanged t.store s' pid parent (movedRight parent left right l) l (left.withFirst right)
      (right.removeAt 0).2 n) (hsiblings : Siblings t all pid parent l left right)
    (hnode : ParentNode t.store pid parent pages parts) (hborrows : left.keyCount < minKeys)
    (hlends : 0 < right.keyCount) (hleaf : left.isLeaf = true) :
    ¬ RedistributionKept s' pid parent left right l false
      (entriesOf ((List.range (parent.keyCount+1)).flatMap parts)) := by
  rintro ⟨n',pages',leaves',hpage,hreads,hentries,hmoved⟩
  obtain rfl := Option.some.inj (hpage.symm.trans h.page)
  have hl := hsiblings.index
  have hkeys : n'.keys l = parent.keys l := by
    rw [h.keys,movedRight,if_pos hleaf]
  have htaken : entriesOf [reread (left.withFirst right)] =
      left.entries++[(right.keys 0,right.values 0)] := by
    rw [entriesOf,List.flatMap_singleton,reread_entries (n := left.withFirst right) hleaf,
      BTreeNode.withFirst_entries hleaf hborrows]
  have hreadsL : Reads s' (parent.children l) _ _ :=
    .leaf h.leftPage (by rw [reread_isLeaf]; exact hleaf)
  have hlt : right.keys 0 < parent.keys l := by
    obtain ⟨_,leavesL,hreadsL',hlt⟩ := hmoved.left_lt
    obtain ⟨rfl,rfl⟩ := hreadsL.unique hreadsL'
    rw [hkeys,htaken] at hlt
    exact hlt (right.keys 0,right.values 0) (by simp)
  have hge : ∀ e ∈ entriesOf (parts (l+1)), parent.keys l ≤ e.1 := fun e he =>
    (hnode.bounds (l+1) hl e he).1 l rfl
  cases hright : right.isLeaf with
  | true =>
    have hparts := (hnode.trees (l+1) hl).eq_leaf hsiblings.rightPage hright
    have hfirst : (right.keys 0,right.values 0) ∈ entriesOf (parts (l+1)) := by
      rw [hparts,entriesOf,List.flatMap_singleton]
      exact BTreeNode.mem_entries.mpr ⟨0,hlends,rfl⟩
    exact absurd (hge _ hfirst) (not_le.mpr hlt)
  | false =>
    obtain ⟨pagesR,partsR,hpagesR,hpartsR,hinner⟩ := hnode.child hl hsiblings.rightPage hright
    have hnone : entriesOf (partsR 0) = [] := by
      refine List.eq_nil_iff_forall_not_mem.mpr fun e he => ?_
      have hbelow := (hinner.bounds 0 (Nat.zero_le _) e he).2 hlends
      have habove := hge e (by
        rw [hpartsR,mem_entriesOf_parts]
        exact ⟨0,List.mem_range.mpr (by omega),he⟩)
      exact absurd (hbelow.trans hlt) (not_lt.mpr habove)
    obtain ⟨_,hreadsR⟩ := h.reads_right hnode hl hinner hpagesR
    obtain ⟨_,hreads'⟩ := h.reads hnode hl hreadsL hreadsR
    obtain ⟨rfl,rfl⟩ := hreads'.unique hreads
    have hleft := (hnode.trees l hl.le).eq_leaf hsiblings.leftPage hleaf
    -- The left leaf has one entry more, the right child as many as it had.
    have hsame : entriesOf ((List.range right.keyCount).flatMap fun j => partsR (j+1)) =
        entriesOf (parts (l+1)) := by
      rw [hpartsR,List.range_succ_eq_map,List.flatMap_cons,List.flatMap_map,entriesOf_append,hnone]
      rfl
    have hlength := congrArg List.length hentries
    rw [flatMap_pair parts hl,hleft] at hlength
    simp only [entriesOf_append,List.length_append,htaken,hsame,List.length_singleton] at hlength
    simp only [entriesOf,List.flatMap_singleton] at hlength
    omega

omit [LinearOrder K] in
/-- The new separator is the key behind the one that was moved. -/
theorem movedRight_key {k : BTreeNode K V} (hl : l < maxKeys) (hleft : left.isLeaf = false)
    (hremove : right.removeAt 0 = (true,k)) (hk : BTreeNode.KeyRemoved right 0 k)
    (hlends : 1 < right.keyCount) : (movedRight parent left right l).keys l = right.keys 1 := by
  have hfirst := hk.keys 0 hlends
  rw [if_neg (Nat.lt_irrefl 0)] at hfirst
  rw [movedRight,if_neg (by simp [hleft]),hremove]
  change (parent.setKey l (k.keys 0)).keys l = _
  unfold BTreeNode.setKey
  rw [if_neg (Nat.not_le.mpr hl)]
  exact (Function.update_self l _ _).trans hfirst

theorem Exchanged.inner_kept_iff {s' : PageStore K V} {n : BTreeNode K V}
    (h : Exchanged t.store s' pid parent (movedRight parent left right l) l (left.withFirst right)
      (right.removeAt 0).2 n) (hsiblings : Siblings t all pid parent l left right)
    (hnode : ParentNode t.store pid parent pages parts) (hkeys : parent.keyCount ≤ maxKeys)
    (hborrows : left.keyCount < minKeys) (hlends : 1 < right.keyCount)
    (hleft : left.isLeaf = false) (hright : right.isLeaf = false) :
    RedistributionKept s' pid parent left right l false
      (entriesOf ((List.range (parent.keyCount+1)).flatMap parts)) ↔
      KeysApart t.store parent left right l false := by
  have hl := hsiblings.index
  obtain ⟨pagesL,partsL,hpagesL,hpartsL,hinnerL⟩ := hnode.child hl.le hsiblings.leftPage hleft
  obtain ⟨pagesR,partsR,hpagesR,hpartsR,hinnerR⟩ := hnode.child hl hsiblings.rightPage hright
  obtain ⟨_,hreadsL⟩ := h.reads_left hnode hl hborrows hinnerL hinnerR hpagesL
    (hpagesR 0 (Nat.zero_le _))
  obtain ⟨_,hreadsR⟩ := h.reads_right hnode hl hinnerR hpagesR
  obtain ⟨_,hreads⟩ := h.reads hnode hl hreadsL hreadsR
  obtain ⟨k,hremove,hk⟩ :=
    BTreeNode.removeAt_inner hright (i := 0) (by omega) (by rw [hinnerR.counts]; omega)
  have hkey : n.keys l = right.keys 1 :=
    (congrFun h.keys l).trans (movedRight_key (by omega) hleft hremove hk hlends)
  have hentriesL : entriesOf ((List.range (left.keyCount+1)).flatMap partsL++partsR 0) =
      entriesOf (parts l)++entriesOf (partsR 0) := by
    rw [hpartsL,entriesOf_append]
  constructor
  · rintro ⟨n',_,_,hpage,_,_,hmoved⟩
    obtain rfl := Option.some.inj (hpage.symm.trans h.page)
    obtain ⟨_,_,hreadsL',hlt⟩ := hmoved.left_lt
    obtain ⟨_,_,hreadsR',hge⟩ := hmoved.le_right
    obtain ⟨rfl,rfl⟩ := hreadsL.unique hreadsL'
    obtain ⟨rfl,rfl⟩ := hreadsR.unique hreadsR'
    rw [hkey] at hlt hge
    refine ⟨rfl,hleft,hright,?_,?_⟩
    · intro part hpart
      obtain rfl := (hinnerR.trees 1 hlends.le).unique hpart
      refine List.eq_nil_iff_forall_not_mem.mpr fun e he => ?_
      have hbelow := (hinnerR.bounds 1 hlends.le e he).2 hlends
      have habove := hge e (mem_entriesOf_parts.mpr ⟨0,List.mem_range.mpr (by omega),he⟩)
      exact absurd hbelow (not_lt.mpr habove)
    · intro part hpart e he
      obtain rfl := (hnode.trees l hl.le).unique hpart
      exact hlt e (by rw [hentriesL]; exact List.mem_append_left _ he)
  · rintro ⟨_,_,_,hnone,hapart⟩
    refine ⟨n,_,_,h.page,hreads,?_,?_⟩
    · have hsplit : (List.range (right.keyCount+1)).flatMap partsR =
          partsR 0++(List.range right.keyCount).flatMap fun j => partsR (j+1) := by
        rw [List.range_succ_eq_map,List.flatMap_cons,List.flatMap_map]
      rw [flatMap_pair parts hl,hpartsL,hpartsR,hsplit]
      simp only [List.append_assoc]
    · constructor
      case leftCount =>
        intro m hm
        obtain rfl := Option.some.inj (hm.symm.trans h.leftPage)
        exact (reread_keyCount _).trans (BTreeNode.withFirst_keyCount hborrows)
      case rightCount =>
        intro m hm
        obtain rfl := Option.some.inj (hm.symm.trans h.rightPage)
        rw [hremove]
        simpa using hk.keyCount
      case left_lt =>
        refine ⟨_,_,hreadsL,fun e he => ?_⟩
        rw [hkey]
        rw [hentriesL,List.mem_append] at he
        rcases he with he | he
        · exact hapart _ (hnode.trees l hl.le) e he
        · exact ((hinnerR.bounds 0 (Nat.zero_le _) e he).2 (by omega)).trans
            (hinnerR.increasing 0 1 Nat.zero_lt_one hlends)
      case le_right =>
        refine ⟨_,_,hreadsR,fun e he => ?_⟩
        rw [hkey]
        obtain ⟨j,hj,he⟩ := mem_entriesOf_parts.mp he
        have hj' := List.mem_range.mp hj
        cases j with
        | zero =>
          rw [hnone _ (hinnerR.trees 1 hlends.le)] at he
          cases he
        | succ j =>
          have habove := (hinnerR.bounds (j+2) hj' e he).1 (j+1) rfl
          rcases Nat.eq_zero_or_pos j with rfl | hpos
          · exact habove
          · exact (hinnerR.increasing 1 (j+1) (by omega) hj').le.trans habove

theorem Exchanged.mixed_not_kept {s' : PageStore K V} {n : BTreeNode K V}
    (h : Exchanged t.store s' pid parent (movedRight parent left right l) l (left.withFirst right)
      (right.removeAt 0).2 n) (hserialized : Serialized t.store)
    (hsiblings : Siblings t all pid parent l left right) (hborrows : left.keyCount < minKeys)
    (hcounts : left.childCount = left.keyCount+1) (hleft : left.isLeaf = false)
    (hright : right.isLeaf = true) {entries : List (K × V)} :
    ¬ RedistributionKept s' pid parent left right l false entries := by
  rintro ⟨_,_,_,_,_,_,hmoved⟩
  obtain ⟨pagesL,leavesL,hreads,_⟩ := hmoved.left_lt
  obtain ⟨pages',parts',_,_,hbelow⟩ := hreads.eq_inner h.leftPage (by rw [reread_isLeaf]; exact hleft)
  rw [reread_keyCount,BTreeNode.withFirst_keyCount hborrows,
    reread_children (n := left.withFirst right) hleft] at hbelow
  have hlast := hbelow (left.keyCount+1) le_rfl
  have hchildren : (left.withFirst right).children =
      Function.update left.children (left.keyCount+1) (right.children 0) := by
    simp only [BTreeNode.withFirst,BTreeNode.markDirty,hleft,hcounts,Bool.false_eq_true,if_false]
  rw [hchildren,Function.update_self,hserialized.leaf_children hsiblings.rightPage hright] at hlast
  obtain ⟨m,hm⟩ := hlast.root
  exact (nodeAt_some hm).1 rfl

/-- From the left the borrower's count does not go up. -/
theorem redistribute_left_not_kept (h : Siblings t all pid parent l left right)
    (hcapacity : Capacity t.store) (hnode : ParentNode t.store pid parent pages parts)
    (hlends : minKeys < left.keyCount) :
    ∃ t', (redistributeAndWrite parent (l+1) true).run t = .ok ((),t') ∧
      ∀ entries, ¬ RedistributionKept t'.store pid parent left right l true entries := by
  have hlends' : 63 < left.keyCount := hlends
  obtain ⟨m,k,p,hm,hk,hcount,hp,hrun⟩ := redistribute_left_run h hnode (by omega)
  obtain ⟨t',n,hrun',hx⟩ := redistributeAndWrite_run h hcapacity hnode hm hk hp hrun
  refine ⟨t',hrun',?_⟩
  rintro entries ⟨_,_,_,_,_,_,hmoved⟩
  have hright := hmoved.rightCount _ hx.rightPage
  rw [reread_keyCount,hcount] at hright
  exact absurd hright (Nat.ne_of_lt (Nat.lt_succ_self _))

/-- Redistribution keeps the entries and the bounds exactly if one key goes from right to left between
two inner nodes and there is nothing between the two keys that the right one begins with. -/
theorem redistribute_keeps_iff (h : Siblings t all pid parent l left right)
    (hcapacity : Capacity t.store) (hserialized : Serialized t.store) (fromLeft : Bool)
    (hlends : minKeys < (if fromLeft then left else right).keyCount)
    (hborrows : (if fromLeft then right else left).keyCount < minKeys)
    (hleaves : Subtree t.store pid leaves) :
    ∃ t', (redistributeAndWrite parent (if fromLeft then l+1 else l) fromLeft).run t = .ok ((),t') ∧
      (RedistributionKept t'.store pid parent left right l fromLeft (entriesOf leaves) ↔
        KeysApart t.store parent left right l fromLeft) := by
  obtain ⟨pages,parts,rfl,hnode⟩ := h.parentNode hleaves
  cases fromLeft with
  | true =>
    obtain ⟨t',hrun,hnot⟩ := redistribute_left_not_kept h hcapacity hnode hlends
    exact ⟨t',hrun,iff_of_false (hnot _) (fun hcond => absurd hcond.1 (by decide))⟩
  | false =>
    have hlends' : 63 < right.keyCount := hlends
    obtain ⟨hpage,_⟩ := BTreeNode.removeAt_header (n := right) (i := 0) (by omega)
    have hp : Separated parent (movedRight parent left right l) l := by
      unfold movedRight
      cases left.isLeaf with
      | true => exact Or.inl rfl
      | false => exact Or.inr ⟨_,rfl⟩
    have hmove := redistribute_right_run h hnode (by omega)
    obtain ⟨t',n,hrun,hx⟩ := redistributeAndWrite_run (m := left.withFirst right) h hcapacity hnode rfl
      hpage hp hmove
    refine ⟨t',hrun,?_⟩
    cases hleft : left.isLeaf with
    | true =>
      refine iff_of_false (hx.leaf_not_kept h hnode hborrows (by omega) hleft) ?_
      rintro ⟨_,hinner,_⟩
      exact absurd (hleft.symm.trans hinner) (by decide)
    | false =>
      cases hright : right.isLeaf with
      | true =>
        have hcounts := hnode.child_counts h.index.le h.leftPage hleft
        refine iff_of_false (hx.mixed_not_kept hserialized h hborrows hcounts hleft hright) ?_
        rintro ⟨_,_,hinner,_⟩
        exact absurd (hright.symm.trans hinner) (by decide)
      | false =>
        exact hx.inner_kept_iff h hnode (hcapacity _ _ hnode.page).1 hborrows (by omega) hleft hright

end Redistribution

section Sample

theorem crowdedTree_serialized : Serialized crowdedTree.store :=
  (((serialized_empty 1).insert 1 1 crowdedRoot).insert 2 1 crowdedLeaf).insert 3 4
    (sampleLeaf 3 invalidPageId 2 200)

theorem crowdedTree_capacity : Capacity crowdedTree.store := by
  have hroot : Capacity (⟨_,1⟩ : PageStore ℤ RecordId) :=
    (capacity_empty 1).insert 1 1 crowdedRoot.serialize (by decide) (by decide)
  have hleft : Capacity (⟨_,1⟩ : PageStore ℤ RecordId) :=
    hroot.insert 2 1 crowdedLeaf.serialize (by decide) (by decide)
  exact hleft.insert 3 4 _ (by decide) (by decide)

theorem crowdedTree_siblings : Siblings crowdedTree crowdedLeaves 1 crowdedRoot 0 crowdedLeaf
    (sampleLeaf 3 invalidPageId 2 200) :=
  ⟨crowdedTree_wellFormed,.root,rfl,rfl,by decide,rfl,rfl⟩

theorem crowdedTree_redistribute_fails : minKeys < crowdedLeaf.keyCount ∧
    (sampleLeaf 3 invalidPageId 2 200).keyCount < minKeys ∧
    ¬ ∃ t', (redistributeAndWrite crowdedRoot 1 true).run crowdedTree = .ok ((),t') ∧
      RedistributionKept t'.store 1 crowdedRoot crowdedLeaf (sampleLeaf 3 invalidPageId 2 200) 0 true
        (entriesOf crowdedLeaves) := by
  refine ⟨by decide,by decide,?_⟩
  rintro ⟨t',hrun,hkept⟩
  obtain ⟨pages,parts,_,hnode⟩ := crowdedTree_siblings.parentNode crowdedTree_wellFormed.tree
  obtain ⟨t'',hrun',hnot⟩ := redistribute_left_not_kept crowdedTree_siblings crowdedTree_capacity hnode
    (by decide)
  rw [hrun'] at hrun
  cases hrun
  exact hnot _ hkept

theorem redistribute_keeps_iff_crowded :
    ∃ t', (redistributeAndWrite crowdedRoot 1 true).run crowdedTree = .ok ((),t') ∧
      (RedistributionKept t'.store 1 crowdedRoot crowdedLeaf (sampleLeaf 3 invalidPageId 2 200) 0 true
        (entriesOf crowdedLeaves) ↔
        KeysApart crowdedTree.store crowdedRoot crowdedLeaf (sampleLeaf 3 invalidPageId 2 200) 0 true) :=
  redistribute_keeps_iff crowdedTree_siblings crowdedTree_capacity crowdedTree_serialized true
    (by decide) (by decide) crowdedTree_wellFormed.tree

end Sample

end BTree
end OrangeSQL
