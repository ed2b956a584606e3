import OrangeSQL.BTreeMaps

/-! Insertions that split nodes. Whatever the splits do to the order of the tree, each child keeps
a smaller rank than its parent, so an insertion comes to a leaf. It makes at most one page on each
level, and fails only if the root is full. -/
namespace OrangeSQL

namespace BTreeNode

variable {K V : Type} [LinearOrder K] {n : BTreeNode K V}

/-- Whether the keys are in order or not, the search stays in its range. -/
theorem searchKeys_range (keys : ℕ → K) (key : K) {left right : ℤ} (h : left ≤ right+1) :
    left-1 ≤ searchKeys keys key left right ∧ searchKeys keys key left right ≤ right := by
  induction left, right using searchKeys.induct keys key with
  | case1 left right hle mid hmid =>
    rw [searchKeys,if_pos hle]
    simp only [mid] at hmid ⊢
    rw [if_pos hmid]
    omega
  | case2 left right hle mid hne hlt ih =>
    rw [searchKeys,if_pos hle]
    simp only [mid] at hne hlt ih ⊢
    rw [if_neg hne,if_pos hlt]
    have hrange := ih (by omega)
    omega
  | case3 left right hle mid hne hge ih =>
    rw [searchKeys,if_pos hle]
    simp only [mid] at hne hge ih ⊢
    rw [if_neg hne,if_neg hge]
    have hrange := ih (by omega)
    omega
  | case4 left right hgt =>
    rw [searchKeys,if_neg hgt]
    omega

theorem child_in_range (notLeaf : n.isLeaf = false) (counts : n.childCount = n.keyCount+1) (key : K) :
    ∃ c ≤ n.keyCount, toIndex (n.findChildIndex key) = c ∧ n.getChild c = n.children c := by
  have hcount : n.keyCount+1 < 65536 := counts ▸ n.header.childCount.toNat_lt
  have hgap : (0 : ℤ) ≤ (n.keyCount : ℤ)-1+1 := by omega
  have hrange := searchKeys_range n.keys key hgap
  obtain ⟨c,hc,hle⟩ : ∃ c : ℕ, n.findChildIndex key = c ∧ c ≤ n.keyCount := by
    unfold findChildIndex findKeyIndex
    rw [notLeaf]
    simp only [Bool.false_eq_true,if_false]
    split_ifs with hneg hbelow
    · exact ⟨0,rfl,Nat.zero_le _⟩
    · exact ⟨(searchKeys n.keys key 0 ((n.keyCount : ℤ)-1)+1).toNat,by omega,by omega⟩
    · exact ⟨(searchKeys n.keys key 0 ((n.keyCount : ℤ)-1)).toNat,by omega,by omega⟩
  exact ⟨c,hle,by rw [hc,toIndex_natCast (by omega)],getChild_eq notLeaf (by omega)⟩

/-- A leaf with room takes any key. -/
theorem insert_roomy (isLeaf : n.isLeaf = true) (hroom : n.isFull = false) (key : K) (value : V)
    (child : PageId) : ∃ m, n.insert key value child = (true,m) ∧ m.pageId = n.pageId ∧
      m.isLeaf = true ∧ m.dirty = true ∧ m.keyCount ≤ n.keyCount+1 := by
  have hlt : n.keyCount < maxKeys := by simpa [isFull] using hroom
  by_cases hhas : n.hasKeyAt (n.findKeyIndex key) key = true
  · refine ⟨markDirty { n with values := Function.update n.values (n.findKeyIndex key).toNat value },
      ?_,rfl,isLeaf,rfl,Nat.le_succ _⟩
    simp only [insert,hhas,isLeaf,if_true]
  · rw [Bool.not_eq_true] at hhas
    have hinsert : ∃ p, n.insert key value child = (true,n.withPair p key value) := by
      simp only [insert,hhas,Bool.false_eq_true,if_false]
      exact ⟨_,insertAt_leaf isLeaf hlt _ child⟩
    obtain ⟨p,hp⟩ := hinsert
    exact ⟨n.withPair p key value,hp,rfl,isLeaf,rfl,(withPair_keyCount hlt p).le⟩

omit [LinearOrder K] in
theorem not_full_iff : n.isFull = false ↔ n.keyCount < 127 := by
  rw [isFull,decide_eq_false_iff_not,not_le]
  rfl

end BTreeNode

namespace BTree

variable {K V : Type} [Inhabited K] [Inhabited V]

open BTreeNode (maxKeys not_full_iff)

section Halves

variable {child : BTreeNode K V}

/-- The node on a page just made is blank. -/
theorem freshNode_childCount (newPage : PageId) (type : BTreeNodeType) :
    (freshNode newPage type : BTreeNode K V).childCount = 0 := by
  unfold freshNode BTreeNode.childCount
  rw [deserialize_header]
  rfl

omit [Inhabited K] [Inhabited V] in
/-- The second loop counts the children that it writes. -/
theorem copyHalf_childCount (split : BTreeNode K V) {new : BTreeNode K V}
    (hleaf : new.isLeaf = false) (hzero : new.childCount = 0) :
    (copyHalf false split new).childCount = min (split.keyCount+1) 128 := by
  let counted (i : ℕ) (n : BTreeNode K V) : Prop := n.isLeaf = false ∧ n.childCount = min i 128
  have hkeys : counted 0 ((List.range split.keyCount).foldl (fun (n : BTreeNode K V) j =>
      n.setKey j (split.keys j)) new) := by
    refine foldl_range_rule (fun _ => counted 0) ⟨hleaf,by simpa using hzero⟩ ?_ split.keyCount
    intro j n hn
    unfold BTreeNode.setKey
    split_ifs
    · exact hn
    · exact hn
    · exact hn
  have hstep : ∀ i n, counted i n → counted (i+1) (n.setChild i (split.getChild i)) := by
    rintro i n ⟨hn,hcount⟩
    unfold BTreeNode.setChild
    by_cases hmax : BTreeNode.order ≤ i
    · rw [if_pos (Or.inr hmax)]
      change 128 ≤ i at hmax
      exact ⟨hn,by omega⟩
    · rw [if_neg (by simp [hn,hmax])]
      change ¬128 ≤ i at hmax
      have hle : n.childCount ≤ i := by omega
      refine ⟨hn,?_⟩
      change (if n.childCount ≤ i then UInt16.ofNat (i+1) else n.header.childCount).toNat = _
      rw [if_pos hle,UInt16.toNat_ofNat']
      omega
  exact (foldl_range_rule counted hkeys hstep (split.keyCount+1)).2

/-- The old node keeps the lower half of the keys, and one child more than keys. -/
theorem lowerHalf_counts (child : BTreeNode K V) (newPage parentPage : PageId) :
    (lowerHalf child newPage parentPage).keyCount = child.keyCount/2 ∧
      (child.isLeaf = false →
        (lowerHalf child newPage parentPage).childCount = child.keyCount/2+1) := by
  have hlt : child.keyCount < 65536 := child.header.keyCount.toNat_lt
  have hkeys : (UInt16.ofNat (child.keyCount/2)).toNat = child.keyCount/2 := by
    rw [UInt16.toNat_ofNat']
    omega
  have hchildren : (UInt16.ofNat (child.keyCount/2+1)).toNat = child.keyCount/2+1 := by
    rw [UInt16.toNat_ofNat']
    omega
  unfold lowerHalf
  simp only [split_old_isLeaf]
  cases hleaf : child.isLeaf with
  | true =>
    simp only [BTreeNode.split,hleaf,if_true]
    exact ⟨hkeys,fun hinner => Bool.noConfusion hinner⟩
  | false =>
    simp only [BTreeNode.split,hleaf,Bool.false_eq_true,if_false]
    exact ⟨hkeys,fun _ => hchildren⟩

/-- The links and the parent that the new node gets at the end leave the copied half as it is. -/
theorem upperHalf_copied (child : BTreeNode K V) (newPage parentPage : PageId) :
    let copied := copyHalf child.isLeaf child.split.2 (freshNode newPage child.header.type)
    (upperHalf child newPage parentPage).keyCount = copied.keyCount ∧
      (upperHalf child newPage parentPage).childCount = copied.childCount ∧
      (upperHalf child newPage parentPage).children = copied.children := by
  unfold upperHalf
  simp only [split_old_isLeaf]
  generalize copyHalf child.isLeaf child.split.2 (freshNode newPage child.header.type) = copied
  cases child.isLeaf <;> exact ⟨rfl,rfl,rfl⟩

/-- The new node gets the upper half without the middle key, and the children behind that key. -/
theorem upperHalf_counts (hpos : 1 ≤ child.keyCount) (hsized : child.keyCount ≤ maxKeys)
    (newPage parentPage : PageId) :
    (upperHalf child newPage parentPage).keyCount = child.keyCount-(child.keyCount/2+1) ∧
      (child.isLeaf = false → child.childCount = child.keyCount+1 →
        (upperHalf child newPage parentPage).childCount =
          (upperHalf child newPage parentPage).keyCount+1 ∧
        ∀ j ≤ (upperHalf child newPage parentPage).keyCount,
          (upperHalf child newPage parentPage).children j =
            child.children (j+(child.keyCount/2+1))) := by
  change child.keyCount ≤ 127 at hsized
  have hcount := (copyHalf_fresh child newPage child.isLeaf).1.keyCount
  rw [split_new_keyCount hpos] at hcount
  obtain ⟨hkeyCount,hchildCount,hchildren⟩ := upperHalf_copied child newPage parentPage
  rw [hkeyCount,hchildCount,hchildren]
  refine ⟨by omega,fun hleaf hcounts => ?_⟩
  have hfresh : (freshNode newPage child.header.type : BTreeNode K V).isLeaf = false := by
    rw [← hleaf]
    unfold BTreeNode.isLeaf
    rw [(freshNode_spec newPage child.header.type).2.1]
  have hcopied := copyHalf_childCount child.split.2 hfresh
    (freshNode_childCount newPage child.header.type)
  rw [split_new_keyCount hpos] at hcopied
  rw [hleaf] at hcount ⊢
  rw [hcount,hcopied]
  refine ⟨by omega,fun j hj => ?_⟩
  rw [copyHalf_children child.split.2 hfresh (by rw [split_new_keyCount hpos]; omega) (by omega)]
  exact split_new_getChild hleaf hcounts (by omega)

omit [Inhabited K] in
/-- The parent with the new page among its children. -/
theorem splitParent_children {parent : BTreeNode K V} {i : ℕ} (hinner : parent.isLeaf = false)
    (hroom : parent.isFull = false) (hcounts : parent.childCount = parent.keyCount+1)
    (child : BTreeNode K V) (newPage : PageId) :
    (splitParent parent child i newPage).childCount = parent.keyCount+1+1 ∧
      ∀ j ≤ parent.keyCount+1, (splitParent parent child i newPage).children j =
        if j < i then parent.children j else if j = i then newPage else parent.children (j-1) := by
  have hlt : parent.keyCount < 127 := not_full_iff.mp hroom
  have hcount : (parent.header.childCount+1).toNat = parent.keyCount+1+1 := by
    rw [UInt16.toNat_add]
    change (parent.childCount+1)%65536 = _
    omega
  have hshift : (parent.shiftRight i).children =
      BTreeNode.movedUp parent.children i parent.childCount := by
    simp [BTreeNode.shiftRight,hinner]
  have hnotLeaf : ({ parent.shiftRight i with
      keys := Function.update (parent.shiftRight i).keys i child.getSplitKey } :
        BTreeNode K V).isLeaf = false := hinner
  unfold splitParent BTreeNode.insertAt
  rw [if_neg (by simp [hroom])]
  simp only [hnotLeaf,Bool.false_eq_true,if_false]
  refine ⟨hcount,fun j hj => ?_⟩
  change Function.update (parent.shiftRight i).children i newPage j = _
  rw [hshift]
  exact BTreeNode.update_movedUp _ _ _ _ _ (by omega)

end Halves

section Ranks

variable {t t' : BTree K V} {rank rank' : PageId → ℕ} {n m : BTreeNode K V}

/-- A node that is no larger than its arrays, each child of which has a smaller rank. The pages with
no rank are not of the tree. -/
structure Placed (rank : PageId → ℕ) (n : BTreeNode K V) : Prop where
  sized : n.keyCount ≤ maxKeys
  counts : n.isLeaf = false → n.childCount = n.keyCount+1
  below : n.isLeaf = false → ∀ i ≤ n.keyCount,
    0 < rank (n.children i) ∧ rank (n.children i) < rank n.pageId

/-- Every page of the tree has a node, and the page counter is beyond all of them. -/
structure Ranked (t : BTree K V) (rank : PageId → ℕ) : Prop where
  page : ∀ pid, 0 < rank pid → ∃ n, nodeAt t.store pid = some n ∧ Placed rank n
  fresh : ∀ pid, 0 < rank pid → pid < t.store.next

/-- The pages of the tree keep their ranks. -/
def Extends (rank rank' : PageId → ℕ) : Prop := ∀ pid, 0 < rank pid → rank' pid = rank pid

omit [Inhabited K] [Inhabited V] in
theorem Placed.extends (h : Placed rank n) (hpos : 0 < rank n.pageId) (hext : Extends rank rank') :
    Placed rank' n := by
  refine ⟨h.sized,h.counts,fun hleaf i hi => ?_⟩
  obtain ⟨hchild,hlt⟩ := h.below hleaf i hi
  rw [hext _ hchild,hext _ hpos]
  exact ⟨hchild,hlt⟩

theorem Placed.reread (h : Placed rank n) : Placed rank (reread n) := by
  refine ⟨by simpa using h.sized,fun hleaf => ?_,fun hleaf => ?_⟩
  · rw [reread_isLeaf] at hleaf
    simpa using h.counts hleaf
  · rw [reread_isLeaf] at hleaf
    rw [reread_children hleaf,reread_keyCount,reread_pageId]
    exact h.below hleaf

/-- A node written to a page of the tree, or to one that becomes a page of it. -/
theorem Ranked.withNode (h : Ranked t rank) (hn : Placed rank' n) (hext : Extends rank rank')
    (honly : ∀ pid ≠ n.pageId, 0 < rank' pid → 0 < rank pid) (hbound : n.pageId < t.store.next)
    (hvalid : n.pageId ≠ invalidPageId) : Ranked (t.withNode n) rank' := by
  constructor
  · intro pid hpid
    rcases eq_or_ne pid n.pageId with rfl | hne
    · exact ⟨_,nodeAt_withNode_self hvalid,hn.reread⟩
    · obtain ⟨m,hm,hplaced⟩ := h.page pid (honly pid hne hpid)
      refine ⟨m,(nodeAt_withNode_of_ne hne).trans hm,hplaced.extends ?_ hext⟩
      rw [(nodeAt_some hm).2.1]
      exact honly pid hne hpid
  · intro pid hpid
    rcases eq_or_ne pid n.pageId with rfl | hne
    · exact hbound
    · exact h.fresh pid (honly pid hne hpid)

theorem Ranked.rewrite (h : Ranked t rank) (hn : Placed rank n) (hpos : 0 < rank n.pageId) :
    Ranked (t.withNode n) rank := by
  obtain ⟨m,hm,_⟩ := h.page n.pageId hpos
  exact h.withNode hn (fun _ _ => rfl) (fun _ _ hpid => hpid) (h.fresh _ hpos) (nodeAt_some hm).1

/-- From one tree to another with as many more pages at most. -/
structure Grown (t : BTree K V) (rank : PageId → ℕ) (t' : BTree K V) (rank' : PageId → ℕ)
    (made : ℕ) : Prop where
  ranked : Ranked t' rank'
  ext : Extends rank rank'
  root : t'.rootPageId = t.rootPageId
  next : t'.store.next ≤ t.store.next+made

theorem Grown.trans {t₁ : BTree K V} {rank₁ : PageId → ℕ} {made made₁ : ℕ}
    (h : Grown t rank t₁ rank₁ made) (h' : Grown t₁ rank₁ t' rank' made₁) :
    Grown t rank t' rank' (made+made₁) := by
  refine ⟨h'.ranked,fun pid hpid => ?_,h'.root.trans h.root,?_⟩
  · have hpid' : 0 < rank₁ pid := (h.ext pid hpid).symm ▸ hpid
    exact (h'.ext pid hpid').trans (h.ext pid hpid)
  · rw [← Nat.add_assoc]
    exact h'.next.trans (Nat.add_le_add_right h.next made₁)

theorem Grown.weaken {made made₁ : ℕ} (h : Grown t rank t' rank' made) (hle : made ≤ made₁) :
    Grown t rank t' rank' made₁ :=
  ⟨h.ranked,h.ext,h.root,h.next.trans (Nat.add_le_add_left hle _)⟩

theorem Ranked.refl (h : Ranked t rank) : Grown t rank t rank 0 :=
  ⟨h,fun _ _ => rfl,rfl,le_rfl⟩

theorem Ranked.released (h : Ranked t rank) (hn : Placed rank n) (hpos : 0 < rank n.pageId)
    (hdirty : n.dirty = true) :
    ∃ t', (releaseNode n).run t = .ok ((),t') ∧ Grown t rank t' rank 0 := by
  obtain ⟨m,hm,_⟩ := h.page n.pageId hpos
  have hmem : n.pageId ∈ t.store.pages := (nodeAt_some hm).2.1 ▸ mem_of_nodeAt hm
  exact ⟨_,releaseNode_withNode hdirty hmem,h.rewrite hn hpos,fun _ _ => rfl,rfl,le_rfl⟩

end Ranks

section Splits

variable {t : BTree K V} {rank : PageId → ℕ} {parent child : BTreeNode K V} {i : ℕ}

theorem Placed.lowerHalf (h : Placed rank child) (newPage parentPage : PageId) :
    Placed rank (lowerHalf child newPage parentPage) := by
  obtain ⟨hpage,hleaf,hchildren,_⟩ := lowerHalf_spec child newPage parentPage
  obtain ⟨hkeys,hcounts⟩ := lowerHalf_counts child newPage parentPage
  have hsized := h.sized
  refine ⟨by omega,fun hinner => ?_,fun hinner j hj => ?_⟩
  · rw [hkeys,hcounts (hleaf ▸ hinner)]
  · rw [hpage,hchildren]
    exact h.below (hleaf ▸ hinner) j (by omega)

theorem Placed.upperHalf (h : Placed rank child) (hpos : 1 ≤ child.keyCount) {newPage : PageId}
    (hnew : rank newPage = rank child.pageId) (parentPage : PageId) :
    Placed rank (upperHalf child newPage parentPage) := by
  obtain ⟨hpage,hleaf,_⟩ := upperHalf_spec child newPage parentPage
  obtain ⟨hkeys,hcounts⟩ := upperHalf_counts hpos h.sized newPage parentPage
  have hsized := h.sized
  refine ⟨by omega,fun hinner => ?_,fun hinner j hj => ?_⟩
  · exact (hcounts (hleaf ▸ hinner) (h.counts (hleaf ▸ hinner))).1
  · rw [(hcounts (hleaf ▸ hinner) (h.counts (hleaf ▸ hinner))).2 j hj,hpage,hnew]
    exact h.below (hleaf ▸ hinner) _ (by omega)

omit [Inhabited K] in
theorem Placed.splitParent (h : Placed rank parent) (hinner : parent.isLeaf = false)
    (hroom : parent.isFull = false) (hi : i ≤ parent.keyCount) {newPage : PageId}
    (hnew : 0 < rank newPage ∧ rank newPage < rank parent.pageId) (child : BTreeNode K V) :
    Placed rank (splitParent parent child i newPage) := by
  have hcounts := h.counts hinner
  have hlt : parent.keyCount < 127 := not_full_iff.mp hroom
  obtain ⟨hpage,_,_,hkeys,_⟩ := splitParent_spec hinner hroom hcounts hi child newPage
  obtain ⟨hcount,hchildren⟩ := splitParent_children (i := i) hinner hroom hcounts child newPage
  refine ⟨?_,fun _ => by rw [hcount,hkeys],fun _ j hj => ?_⟩
  · change _ ≤ 127
    omega
  · rw [hkeys] at hj
    rw [hchildren j hj,hpage]
    split_ifs with hbefore hat
    · exact h.below hinner j (by omega)
    · exact hnew
    · exact h.below hinner (j-1) (by omega)

/-- The tree after a page was made for a node. -/
def withBlank (t : BTree K V) (type : BTreeNodeType) : BTree K V :=
  { t with store := ⟨t.store.pages.insert t.store.next
    (BTreeNode.new t.store.next type).serialize,t.store.next+1⟩ }

theorem Ranked.withBlank (h : Ranked t rank) (type : BTreeNodeType) : Ranked (t.withBlank type) rank := by
  constructor
  · intro pid hpid
    obtain ⟨n,hn,hplaced⟩ := h.page pid hpid
    have hne : pid ≠ t.store.next := (h.fresh pid hpid).ne
    exact ⟨n,(nodeAt_insert_of_ne _ hne).trans hn,hplaced⟩
  · intro pid hpid
    exact (h.fresh pid hpid).trans (Nat.lt_succ_self _)

theorem withHalves_eq (t : BTree K V) (child : BTreeNode K V) (parentPage : PageId) :
    t.withHalves child parentPage = ((t.withBlank child.header.type).withNode
      (BTree.lowerHalf child t.store.next parentPage)).withNode
        (BTree.upperHalf child t.store.next parentPage) := by
  unfold withHalves withNode withBlank
  rw [(lowerHalf_spec child t.store.next parentPage).1,
    (upperHalf_spec child t.store.next parentPage).1]

theorem withHalves_new (child : BTreeNode K V) (parentPage : PageId)
    (hvalid : t.store.next ≠ invalidPageId) :
    nodeAt (t.withHalves child parentPage).store t.store.next =
      some (BTree.reread (BTree.upperHalf child t.store.next parentPage)) := by
  have hupper := (upperHalf_spec child t.store.next parentPage).1
  rw [withHalves_eq]
  have hself := nodeAt_withNode_self (t := (t.withBlank child.header.type).withNode
    (BTree.lowerHalf child t.store.next parentPage)) (by rw [hupper]; exact hvalid)
  rwa [hupper] at hself

theorem withHalves_old {child : BTreeNode K V} (parentPage : PageId)
    (hvalid : child.pageId ≠ invalidPageId) (hne : child.pageId ≠ t.store.next) :
    nodeAt (t.withHalves child parentPage).store child.pageId =
      some (BTree.reread (BTree.lowerHalf child t.store.next parentPage)) := by
  have hlower := (lowerHalf_spec child t.store.next parentPage).1
  have hupper := (upperHalf_spec child t.store.next parentPage).1
  rw [withHalves_eq,nodeAt_withNode_of_ne (by rw [hupper]; exact hne)]
  have hself := nodeAt_withNode_self (t := t.withBlank child.header.type)
    (n := BTree.lowerHalf child t.store.next parentPage) (by rw [hlower]; exact hvalid)
  rwa [hlower] at hself

theorem Ranked.withHalves (h : Ranked t rank) (hplaced : Placed rank child)
    (hkeyed : 1 ≤ child.keyCount) (hpos : 0 < rank child.pageId) (parentPage : PageId)
    (hvalid : t.store.next ≠ invalidPageId) :
    Grown t rank (t.withHalves child parentPage)
      (Function.update rank t.store.next (rank child.pageId)) 1 := by
  have hlower := (lowerHalf_spec child t.store.next parentPage).1
  have hupper := (upperHalf_spec child t.store.next parentPage).1
  generalize hrank : Function.update rank t.store.next (rank child.pageId) = rank'
  have hother : ∀ pid ≠ t.store.next, rank' pid = rank pid := fun pid hpid => by
    rw [← hrank,Function.update_of_ne hpid]
  have hext : Extends rank rank' := fun pid hpid => hother pid (h.fresh pid hpid).ne
  have hnew : rank' t.store.next = rank' child.pageId := by
    rw [hext _ hpos,← hrank,Function.update_self]
  have hold := (h.withBlank child.header.type).rewrite
    (hplaced.lowerHalf t.store.next parentPage) (by rw [hlower]; exact hpos)
  have hboth := hold.withNode ((hplaced.extends hpos hext).upperHalf hkeyed hnew parentPage) hext
    (fun pid hpid hpid' => hother pid (hupper ▸ hpid) ▸ hpid')
    (by rw [hupper]; exact Nat.lt_succ_self _) (by rw [hupper]; exact hvalid)
  rw [← withHalves_eq] at hboth
  exact ⟨hboth,hext,rfl,le_rfl⟩

/-- What the split of a full child leaves: the parent in hand has room for the way to both halves. -/
structure Halved (parent parent' : BTreeNode K V) (i : ℕ) (t' : BTree K V)
    (rank' : PageId → ℕ) : Prop where
  placed : Placed rank' parent'
  pageId : parent'.pageId = parent.pageId
  isLeaf : parent'.isLeaf = false
  dirty : parent'.dirty = true
  keyCount : parent'.keyCount = parent.keyCount+1
  room : ∀ j, j = i ∨ j = i+1 → ∀ n, nodeAt t'.store (parent'.children j) = some n →
    n.isFull = false

/-- Either half can be gone to. -/
theorem Halved.half {parent' : BTreeNode K V} {t' : BTree K V} {rank' : PageId → ℕ}
    (h : Halved parent parent' i t' rank') (hi : i ≤ parent.keyCount) (second : Prop)
    [Decidable second] : ∃ j, (j = i ∨ j = i+1) ∧
      (if second then parent'.getChild (i+1) else parent'.getChild i) = parent'.children j ∧
      0 < rank' (parent'.children j) ∧ rank' (parent'.children j) < rank' parent'.pageId := by
  have hcount := h.keyCount
  have hcounts := h.placed.counts h.isLeaf
  by_cases hsecond : second
  · rw [if_pos hsecond]
    exact ⟨i+1,Or.inr rfl,BTreeNode.getChild_eq h.isLeaf (by omega),
      h.placed.below h.isLeaf (i+1) (by omega)⟩
  · rw [if_neg hsecond]
    exact ⟨i,Or.inl rfl,BTreeNode.getChild_eq h.isLeaf (by omega),
      h.placed.below h.isLeaf i (by omega)⟩

/-- Behind an insertion into a half the parent in hand goes back to its page. -/
theorem Halved.released {parent' : BTreeNode K V} {t₁ t₂ : BTree K V} {rank₁ rank₂ : PageId → ℕ}
    {pages : ℕ} (h : Halved parent parent' i t₁ rank₁) (hpos : 0 < rank₁ parent.pageId)
    (hgrown : Grown t₁ rank₁ t₂ rank₂ pages) : ∃ t₃, (releaseNode parent').run t₂ = .ok ((),t₃) ∧
      Grown t₂ rank₂ t₃ rank₂ 0 := by
  rw [← h.pageId] at hpos
  exact hgrown.ranked.released (h.placed.extends hpos hgrown.ext)
    (by rw [hgrown.ext _ hpos]; exact hpos) h.dirty

/-- A node in hand with room has a full child split, and the halves have room. -/
theorem Ranked.split (h : Ranked t rank) (hparent : Placed rank parent)
    (hpos : 0 < rank parent.pageId) (hinner : parent.isLeaf = false)
    (hroom : parent.isFull = false) (hi : i ≤ parent.keyCount)
    (hchild : nodeAt t.store (parent.children i) = some child) (hfull : child.isFull = true)
    (hnext : t.store.next < invalidPageId) : ∃ parent' t' rank',
      (splitChild parent i).run t = .ok (parent',t') ∧ Grown t rank t' rank' 1 ∧
        Halved parent parent' i t' rank' := by
  have hcounts := hparent.counts hinner
  have hget : parent.getChild i = parent.children i := BTreeNode.getChild_eq hinner (by omega)
  obtain ⟨hchildValid,hchildPage,_⟩ := nodeAt_some hchild
  obtain ⟨hchildPos,hchildLt⟩ := hparent.below hinner i hi
  obtain ⟨n,hn,hplaced⟩ := h.page _ hchildPos
  obtain rfl := Option.some.inj (hn.symm.trans hchild)
  rw [← hchildPage] at hchildPos hchildLt
  have hsized : n.keyCount ≤ 127 := hplaced.sized
  have hkeyed : 127 ≤ n.keyCount := of_decide_eq_true hfull
  obtain ⟨hpage,hleaf,hdirty,hkeys,hat,hbehind⟩ :=
    splitParent_spec hinner hroom hcounts hi n t.store.next
  have hgrown := h.withHalves hplaced (by omega) hchildPos parent.pageId hnext.ne
  refine ⟨_,_,_,splitChild_run (hget ▸ hchild) hfull hnext.ne hpage,hgrown,?_,hpage,hleaf,hdirty,
    hkeys,?_⟩
  · refine (hparent.extends hpos hgrown.ext).splitParent hinner hroom hi ?_ n
    rw [Function.update_self,hgrown.ext _ hpos]
    exact ⟨hchildPos,hchildLt⟩
  · rintro j hj m hm
    rcases hj with rfl | rfl
    · rw [hat,withHalves_new n parent.pageId hnext.ne] at hm
      have hcount := (upperHalf_counts (by omega) hsized t.store.next parent.pageId).1
      rw [← Option.some.inj hm,not_full_iff,reread_keyCount,hcount]
      omega
    · rw [hbehind,← hchildPage,withHalves_old parent.pageId (hchildPage ▸ hchildValid)
        (h.fresh _ hchildPos).ne] at hm
      have hcount := (lowerHalf_counts n t.store.next parent.pageId).1
      rw [← Option.some.inj hm,not_full_iff,reread_keyCount,hcount]
      omega

end Splits

section Insertions

variable [LinearOrder K] {t t' : BTree K V} {rank : PageId → ℕ} {n : BTreeNode K V}

/-- The insertion above the leaves, with the node in hand. -/
theorem insertInternal_inner {child : BTreeNode K V} {pid : PageId} {key : K} {c : ℕ}
    (page : nodeAt t.store pid = some n) (notLeaf : n.isLeaf = false)
    (hindex : BTreeNode.toIndex (n.findChildIndex key) = c)
    (hchild : nodeAt t.store (n.getChild c) = some child) (fuel : ℕ) (value : V) :
    (insertInternal (fuel+1) key value pid).run t =
      (if child.isFull then do
        let node ← splitChild n c
        let separator ← orThrow (node.getKey c)
        let status ← insertInternal fuel key value
          (if separator < key then node.getChild (c+1) else node.getChild c)
        releaseNode node
        return status
      else insertInternal fuel key value (n.getChild c) : TreeM K V Status).run t := by
  rw [insertInternal,run_bind_ok (getNode_nodeAt pid t),page]
  simp only [notLeaf,Bool.false_eq_true,if_false]
  rw [hindex,run_bind_ok (getNode_nodeAt _ t),hchild]

/-- An insertion that goes on at the page comes to its end, and makes a page on each level below it at
most. -/
def Arrives (key : K) (value : V) (t : BTree K V) (rank : PageId → ℕ) (pid : PageId) : Prop :=
  ∃ status t' rank', (∀ fuel ≥ rank pid, (insertInternal fuel key value pid).run t = .ok (status,t')) ∧
    Grown t rank t' rank' (rank pid-1) ∧ (status = .ok ∨ status = .alreadyExists)

theorem Ranked.insertInternal_leaf (h : Ranked t rank) {pid : PageId} (hpos : 0 < rank pid)
    (page : nodeAt t.store pid = some n) (isLeaf : n.isLeaf = true) (hroom : n.isFull = false)
    (key : K) (value : V) : Arrives key value t rank pid := by
  have hsteady : ∀ fuel ≥ 1, (insertInternal fuel key value pid).run t = _ := fun fuel hfuel =>
    insertInternal_steady (.leaf page isLeaf) (fun _ hn => absurd hn List.not_mem_nil) hroom value
      hfuel
  by_cases hrefused : (t.config.unique && n.hasKeyAt (n.findKeyIndex key) key) = true
  · simp only [hrefused,if_true] at hsteady
    exact ⟨.alreadyExists,t,rank,fun fuel hfuel => hsteady fuel (hpos.trans_le hfuel),
      h.refl.weaken (Nat.zero_le _),Or.inr rfl⟩
  · obtain ⟨m,hinsert,hpage,hleaf,hdirty,hcount⟩ :=
      BTreeNode.insert_roomy isLeaf hroom key value invalidPageId
    have hlt := not_full_iff.mp hroom
    have hnot : m.isLeaf ≠ false := by simp [hleaf]
    have hm : Placed rank m :=
      ⟨by change _ ≤ 127; omega,fun hinner => absurd hinner hnot,fun hinner => absurd hinner hnot⟩
    obtain ⟨t',hrun,hgrown⟩ := h.released hm (by rw [hpage,(nodeAt_some page).2.1]; exact hpos) hdirty
    simp only [hrefused,Bool.false_eq_true,if_false,hinsert,if_true] at hsteady
    exact ⟨.ok,t',rank,fun fuel hfuel => (hsteady fuel (hpos.trans_le hfuel)).trans (run_bind_ok hrun),
      hgrown.weaken (Nat.zero_le _),Or.inl rfl⟩

/-- Behind the split of a full child the insertion goes on at one of the halves. -/
theorem Halved.arrives {child parent : BTreeNode K V} {pid : PageId} {c : ℕ} {t₁ : BTree K V}
    {rank₁ : PageId → ℕ} {key : K} {value : V} (hhalved : Halved n parent c t₁ rank₁)
    (page : nodeAt t.store pid = some n) (notLeaf : n.isLeaf = false) (hc : c ≤ n.keyCount)
    (hindex : BTreeNode.toIndex (n.findChildIndex key) = c)
    (hchild : nodeAt t.store (n.getChild c) = some child) (hfull : child.isFull = true)
    (hsplit : (splitChild n c).run t = .ok (parent,t₁)) (hgrown : Grown t rank t₁ rank₁ 1)
    (hpos : 0 < rank pid)
    (hhalf : ∀ j, j = c ∨ j = c+1 → 0 < rank₁ (parent.children j) →
      rank₁ (parent.children j) < rank pid → Arrives key value t₁ rank₁ (parent.children j)) :
    Arrives key value t rank pid := by
  have hkey : parent.getKey c = some (parent.keys c) := if_pos (by rw [hhalved.keyCount]; omega)
  obtain ⟨j,hj,hgetChild,hhalfPos,hhalfLt⟩ := hhalved.half hc (parent.keys c < key)
  have hkept : rank₁ n.pageId = rank pid := by rw [(nodeAt_some page).2.1,hgrown.ext pid hpos]
  rw [hhalved.pageId,hkept] at hhalfLt
  obtain ⟨status,t₂,rank₂,hrun,hgrown₂,hstatus⟩ := hhalf j hj hhalfPos hhalfLt
  obtain ⟨t₃,hrelease,hgrown₃⟩ := hhalved.released (hkept ▸ hpos) hgrown₂
  refine ⟨status,t₃,rank₂,fun fuel hfuel => ?_,
    ((hgrown.trans hgrown₂).trans hgrown₃).weaken (by omega),hstatus⟩
  obtain ⟨fuel,rfl⟩ := Nat.exists_eq_add_of_le' (hpos.trans_le hfuel)
  rw [insertInternal_inner page notLeaf hindex hchild,if_pos hfull,run_bind_ok hsplit,hkey,orThrow,
    pure_bind]
  simp only [hgetChild]
  rw [run_bind_ok (hrun fuel (by omega)),run_bind_ok hrelease]
  rfl

/-- Below a node with room an insertion comes to its end. -/
theorem Ranked.arrives (h : Ranked t rank) {pid : PageId} (hpos : 0 < rank pid)
    (hroom : ∀ n, nodeAt t.store pid = some n → n.isFull = false)
    (hnext : t.store.next+rank pid ≤ invalidPageId) (key : K) (value : V) :
    Arrives key value t rank pid := by
  induction hdepth : rank pid using Nat.strong_induction_on generalizing t rank pid with
  | _ depth ih =>
    subst hdepth
    obtain ⟨n,page,hplaced⟩ := h.page pid hpos
    have hpage := (nodeAt_some page).2.1
    cases isLeaf : n.isLeaf with
    | true => exact h.insertInternal_leaf hpos page isLeaf (hroom n page) key value
    | false =>
      obtain ⟨c,hc,hindex,hget⟩ := BTreeNode.child_in_range isLeaf (hplaced.counts isLeaf) key
      obtain ⟨hchildPos,hchildLt⟩ := hplaced.below isLeaf c hc
      obtain ⟨child,hchild,_⟩ := h.page _ hchildPos
      rw [hpage] at hchildLt
      cases hfull : child.isFull with
      | false =>
        obtain ⟨status,t',rank',hrun,hgrown,hstatus⟩ := ih _ hchildLt h hchildPos
          (fun m hm => Option.some.inj (hchild.symm.trans hm) ▸ hfull)
          ((Nat.add_le_add_left hchildLt.le _).trans hnext) rfl
        refine ⟨status,t',rank',fun fuel hfuel => ?_,hgrown.weaken (by omega),hstatus⟩
        obtain ⟨fuel,rfl⟩ := Nat.exists_eq_add_of_le' (hpos.trans_le hfuel)
        rw [insertInternal_inner page isLeaf hindex (hget ▸ hchild),hfull,if_neg Bool.false_ne_true,
          hget]
        exact hrun fuel (by omega)
      | true =>
        obtain ⟨parent,t₁,rank₁,hsplit,hgrown,hhalved⟩ := h.split hplaced (hpage ▸ hpos) isLeaf
          (hroom n page) hc hchild hfull ((Nat.lt_add_of_pos_right hpos).trans_le hnext)
        refine hhalved.arrives page isLeaf hc hindex (hget ▸ hchild) hfull hsplit hgrown hpos
          fun j hj hhalfPos hhalfLt => ?_
        have hnext₁ : t₁.store.next+rank₁ (parent.children j) ≤ invalidPageId := by
          refine (Nat.add_le_add_right hgrown.next _).trans ?_
          rw [Nat.add_assoc]
          exact (Nat.add_le_add_left (by omega) _).trans hnext
        exact ih _ hhalfLt hgrown.ranked hhalfPos (hhalved.room j hj) hnext₁ rfl

end Insertions

section Growing

variable [LinearOrder K] {t t' : BTree K V} {rank : PageId → ℕ} {root : BTreeNode K V}

/-- The rest of `insert`, with the root in hand. -/
def insertHeld (fuel : ℕ) (key : K) (value : V) : Option (BTreeNode K V) → TreeM K V Status
  | none => return .error
  | some held => do
    let status ← insertInternal fuel key value (← get).rootPageId
    releaseNode held
    return status

theorem insert_at (hroot : nodeAt t.store t.rootPageId = some root) (fuel : ℕ) (key : K) (value : V) :
    (insert fuel key value).run t = (if root.isFull = true then
        growRoot root >>= insertHeld fuel key value
      else insertHeld fuel key value (some root)).run t := by
  rw [insert,run_get_bind,run_bind_ok (getNode_nodeAt t.rootPageId t),hroot]
  simp only [pure_bind]
  by_cases hfull : root.isFull = true
  · rw [if_pos hfull,if_pos hfull]
    refine congrArg (fun rest => (growRoot root >>= rest).run t) (funext fun held => ?_)
    cases held <;> rfl
  · rw [if_neg hfull,if_neg hfull]
    rfl

theorem Ranked.insert_run (h : Ranked t rank) (hroot : nodeAt t.store t.rootPageId = some root)
    (hroom : root.isFull = false) (hpos : 0 < rank t.rootPageId)
    (hnext : t.store.next+rank t.rootPageId ≤ invalidPageId) (key : K) (value : V) :
    ∃ status t' rank',
      (∀ fuel ≥ rank t.rootPageId, (insert fuel key value).run t = .ok (status,t')) ∧
        Grown t rank t' rank' (rank t.rootPageId-1) ∧ (status = .ok ∨ status = .alreadyExists) := by
  obtain ⟨status,t',rank',hrun,hgrown,hstatus⟩ := h.arrives hpos
    (fun n hn => Option.some.inj (hroot.symm.trans hn) ▸ hroom) hnext key value
  refine ⟨status,t',rank',fun fuel hfuel => ?_,hgrown,hstatus⟩
  rw [insert_at hroot,hroom,if_neg Bool.false_ne_true,insertHeld,run_get_bind,
    run_bind_ok (hrun fuel hfuel),run_bind_ok (releaseNode_clean (nodeAt_some hroot).2.2)]
  rfl

theorem Subtree.exists_leafCount {leaves : List (BTreeNode K V)}
    (h : Subtree t.store t.rootPageId leaves) : ∃ count : PageId → ℕ,
      (∀ {pid below}, Within t.store t.rootPageId pid → Subtree t.store pid below →
        count pid = below.length) ∧
      ∀ pid, 0 < count pid → Within t.store t.rootPageId pid ∧ ∃ below, Subtree t.store pid below := by
  have hsome : ∀ pid, ∃ k, (Within t.store t.rootPageId pid ∧
      ∃ below, Subtree t.store pid below ∧ k = below.length) ∨
      ¬ Within t.store t.rootPageId pid ∧ k = 0 := by
    intro pid
    by_cases hwithin : Within t.store t.rootPageId pid
    · obtain ⟨_,below,_,_,hbelow⟩ := hwithin.placed h
      exact ⟨below.length,Or.inl ⟨hwithin,below,hbelow,rfl⟩⟩
    · exact ⟨0,Or.inr ⟨hwithin,rfl⟩⟩
  choose count hcount using hsome
  refine ⟨count,fun {pid below} hwithin hbelow => ?_,fun pid hpos => ?_⟩
  · rcases hcount pid with ⟨_,below',hbelow',hlength⟩ | ⟨hnot,_⟩
    · rw [hlength,hbelow.unique hbelow']
    · exact absurd hwithin hnot
  · rcases hcount pid with ⟨hwithin,below,hbelow,_⟩ | ⟨_,hzero⟩
    · exact ⟨hwithin,below,hbelow⟩
    · omega

/-- In a well-formed tree the number of the leaves below a page can be its rank. -/
theorem WellFormed.ranked {leaves : List (BTreeNode K V)} (h : WellFormed t leaves)
    (hsized : ∀ pid n, nodeAt t.store pid = some n → n.keyCount ≤ maxKeys)
    (hfresh : ∀ pid ∈ t.store.pages, pid < t.store.next) :
    ∃ rank, Ranked t rank ∧ rank t.rootPageId = leaves.length := by
  obtain ⟨rank,hof,hin⟩ := h.tree.exists_leafCount
  refine ⟨rank,⟨fun pid hpid => ?_,fun pid hpid => ?_⟩,hof .root h.tree⟩
  · obtain ⟨hwithin,below,hbelow⟩ := hin pid hpid
    obtain ⟨n,page⟩ := hbelow.root
    refine ⟨n,page,hsized pid n page,fun notLeaf => ?_,fun notLeaf i hi => ?_⟩
    · exact (hbelow.eq_inner page notLeaf).choose_spec.2.2.1
    · obtain ⟨parts,rfl,hkeyed,_,hparts⟩ := hbelow.eq_inner page notLeaf
      rw [hof (.child hwithin page notLeaf hi) (hparts i hi),(nodeAt_some page).2.1,
        hof hwithin hbelow]
      exact ⟨List.length_pos_iff.mpr (hparts i hi).ne_nil,
        parts_length_lt hkeyed (fun j hj => (hparts j hj).ne_nil) hi⟩
  · obtain ⟨_,below,hbelow⟩ := hin pid hpid
    obtain ⟨n,page⟩ := hbelow.root
    have hmem := mem_of_nodeAt page
    rw [(nodeAt_some page).2.1] at hmem
    exact hfresh pid hmem

end Growing

end BTree

end OrangeSQL
