import OrangeSQL.BTreeScans

/-! Splitting a full child. The new node stands in the parent before the old one and not behind it,
so the leaves below the parent are no longer in the order of their chain. -/
namespace OrangeSQL
namespace BTree

variable {K V : Type} [LinearOrder K] [Inhabited K] [Inhabited V]

section Trees

variable {s s' : PageStore K V} {pid : PageId} {leaves : List (BTreeNode K V)}

/-- The pages of a tree with this root. -/
inductive Within (s : PageStore K V) (root : PageId) : PageId → Prop
  | root : Within s root root
  | child {pid : PageId} {n : BTreeNode K V} {i : ℕ} (above : Within s root pid)
      (page : nodeAt s pid = some n) (notLeaf : n.isLeaf = false) (hi : i ≤ n.keyCount) :
      Within s root (n.children i)

theorem Subtree.eq_leaf (h : Subtree s pid leaves) {n : BTreeNode K V}
    (page : nodeAt s pid = some n) (isLeaf : n.isLeaf = true) : leaves = [n] := by
  cases h with
  | @leaf _ m page' isLeaf' increasing =>
    rw [page] at page'
    obtain rfl := Option.some.inj page'
    rfl
  | @inner _ m parts page' notLeaf keyed counts increasing below bounds =>
    rw [page] at page'
    obtain rfl := Option.some.inj page'
    rw [isLeaf] at notLeaf
    cases notLeaf

theorem Subtree.eq_inner (h : Subtree s pid leaves) {n : BTreeNode K V}
    (page : nodeAt s pid = some n) (notLeaf : n.isLeaf = false) :
    ∃ parts, leaves = (List.range (n.keyCount+1)).flatMap parts ∧ 1 ≤ n.keyCount ∧
      n.childCount = n.keyCount+1 ∧ ∀ i ≤ n.keyCount, Subtree s (n.children i) (parts i) := by
  cases h with
  | @leaf _ m page' isLeaf increasing =>
    rw [page] at page'
    obtain rfl := Option.some.inj page'
    rw [isLeaf] at notLeaf
    cases notLeaf
  | @inner _ m parts page' notLeaf' keyed counts increasing below bounds =>
    rw [page] at page'
    obtain rfl := Option.some.inj page'
    exact ⟨parts,rfl,keyed,counts,below⟩

theorem Subtree.ne_nil (h : Subtree s pid leaves) : leaves ≠ [] := by
  induction h with
  | leaf page isLeaf increasing => exact List.cons_ne_nil _ _
  | @inner pid n parts page notLeaf keyed counts increasing below bounds ih =>
    rw [range_split (Nat.zero_le n.keyCount)]
    simp [ih 0 (Nat.zero_le _)]

theorem Subtree.unique (h : Subtree s pid leaves) {leaves' : List (BTreeNode K V)}
    (h' : Subtree s pid leaves') : leaves' = leaves := by
  induction h generalizing leaves' with
  | leaf page isLeaf increasing => exact h'.eq_leaf page isLeaf
  | @inner pid n parts page notLeaf keyed counts increasing below bounds ih =>
    obtain ⟨parts',rfl,_,_,hbelow⟩ := h'.eq_inner page notLeaf
    refine List.flatMap_congr ?_
    intro i hi
    have hle := Nat.lt_succ_iff.mp (List.mem_range.mp hi)
    exact ih i hle (hbelow i hle)

omit [LinearOrder K] [Inhabited K] [Inhabited V] in
/-- Below a child there are fewer leaves, as its node has another child. -/
theorem parts_length_lt {count : ℕ} {parts : ℕ → List (BTreeNode K V)} (hkeyed : 1 ≤ count)
    (hne : ∀ i ≤ count, parts i ≠ []) {i : ℕ} (hi : i ≤ count) :
    (parts i).length < ((List.range (count+1)).flatMap parts).length := by
  have hlength : ∀ j ≤ count, 0 < (parts j).length :=
    fun j hj => List.length_pos_iff.mpr (hne j hj)
  rw [range_split hi]
  simp only [List.flatMap_append,List.flatMap_cons,List.length_append]
  rcases Nat.eq_zero_or_pos i with rfl | hpos
  · obtain ⟨d,rfl⟩ := Nat.exists_eq_add_of_le' hkeyed
    have hnext := hlength (0+1) (by omega)
    rw [Nat.sub_zero,List.range'_succ]
    simp only [List.flatMap_cons,List.length_append]
    omega
  · obtain ⟨d,rfl⟩ := Nat.exists_eq_add_of_le' hpos
    have hfirst := hlength 0 (Nat.zero_le _)
    rw [List.range_succ_eq_map]
    simp only [List.flatMap_cons,List.length_append]
    omega

/-- A tree stays where no page of a tree with at most as many leaves is changed. -/
theorem Subtree.frame (h : Subtree s pid leaves)
    (hsame : ∀ q below, Subtree s q below → below.length ≤ leaves.length →
      nodeAt s' q = nodeAt s q) : Subtree s' pid leaves := by
  induction h with
  | @leaf pid n page isLeaf increasing =>
    have hpage := hsame pid [n] (.leaf page isLeaf increasing) le_rfl
    exact .leaf (hpage.trans page) isLeaf increasing
  | @inner pid n parts page notLeaf keyed counts increasing below bounds ih =>
    have hpage := hsame pid _ (.inner parts page notLeaf keyed counts increasing below bounds) le_rfl
    refine .inner parts (hpage.trans page) notLeaf keyed counts increasing ?_ bounds
    intro i hi
    refine ih i hi ?_
    intro q leaves hq hle
    have hlt := parts_length_lt keyed (fun j hj => (below j hj).ne_nil) hi
    exact hsame q leaves hq (hle.trans hlt.le)

/-- The leaves below a page of the tree stand together. -/
theorem Within.placed {root : PageId} {all : List (BTreeNode K V)} (h : Within s root pid)
    (htree : Subtree s root all) :
    ∃ before leaves behind, all = before++leaves++behind ∧ Subtree s pid leaves := by
  induction h with
  | root => exact ⟨[],all,[],by simp,htree⟩
  | @child pid n i above page notLeaf hi ih =>
    obtain ⟨before,leaves,behind,rfl,hleaves⟩ := ih
    obtain ⟨parts,rfl,_,_,hbelow⟩ := hleaves.eq_inner page notLeaf
    refine ⟨before++(List.range i).flatMap parts,parts i,
      (List.range' (i+1) (n.keyCount-i)).flatMap parts++behind,?_,hbelow i hi⟩
    rw [range_split hi]
    simp only [List.flatMap_append,List.flatMap_cons,List.append_assoc]

end Trees

section Chains

variable {s : PageStore K V}

theorem OnPage.eq {n m : BTreeNode K V} (hn : OnPage s n) (hm : OnPage s m)
    (h : n.pageId = m.pageId) : n = m := by
  have hpage := hn.page
  rw [h,hm.page] at hpage
  exact (Option.some.inj hpage).symm

theorem Linked.unique {n : BTreeNode K V} {behind behind' : List (BTreeNode K V)}
    (h : Linked (n::behind)) (h' : Linked (n::behind')) (hpages : ∀ m ∈ behind, OnPage s m)
    (hpages' : ∀ m ∈ behind', OnPage s m) : behind = behind' := by
  induction behind generalizing n behind' with
  | nil =>
    cases behind' with
    | nil => rfl
    | cons m behind' =>
      have hend : n.header.nextId = invalidPageId := h
      have hpage := (hpages' m List.mem_cons_self).page
      rw [← h'.1,hend] at hpage
      exact absurd rfl (nodeAt_some hpage).1
  | cons k behind ih =>
    cases behind' with
    | nil =>
      have hend : n.header.nextId = invalidPageId := h'
      have hpage := (hpages k List.mem_cons_self).page
      rw [← h.1,hend] at hpage
      exact absurd rfl (nodeAt_some hpage).1
    | cons m behind' =>
      have heq := (hpages k List.mem_cons_self).eq (hpages' m List.mem_cons_self)
        (h.1.symm.trans h'.1)
      subst heq
      have htail := ih h.2 h'.2 (fun l hl => hpages l (List.mem_cons_of_mem k hl))
        (fun l hl => hpages' l (List.mem_cons_of_mem k hl))
      rw [htail]

/-- A chain that ends does not come back. -/
theorem Linked.not_back {a b : BTreeNode K V} {before between behind : List (BTreeNode K V)}
    (h : Linked (before++a::(between++b::behind)))
    (hpages : ∀ m ∈ before++a::(between++b::behind), OnPage s m) :
    b.header.nextId ≠ a.pageId := by
  intro hnext
  have hfrom : Linked (a::(between++b::behind)) := h.of_append
  have hwhole : Linked ((a::between)++b::behind) := hfrom
  have hend : Linked (b::behind) := hwhole.of_append
  have ha := hpages a (by simp)
  cases behind with
  | nil =>
    have hnone : b.header.nextId = invalidPageId := hend
    exact (nodeAt_some ha.page).1 (hnext.symm.trans hnone)
  | cons m behind =>
    have hm := hpages m (by simp)
    have heq := hm.eq ha (hend.1.symm.trans hnext)
    subst heq
    have hsame := hfrom.unique hend.2 (fun l hl => hpages l (by simp at hl ⊢; tauto))
      (fun l hl => hpages l (by simp [hl]))
    have hlength := congrArg List.length hsame
    simp only [List.length_append,List.length_cons] at hlength
    omega

end Chains

section Halves

variable {child : BTreeNode K V}

/-- What the loops of `splitChild` copy from the upper half into the new node. -/
def copyHalf (leaf : Bool) (split new : BTreeNode K V) : BTreeNode K V :=
  let new := (List.range split.keyCount).foldl (fun n j =>
    let n := n.setKey j (split.keys j)
    if leaf then n.setValue j (split.values j) else n) new
  if leaf then new
  else (List.range (split.keyCount+1)).foldl (fun n j => n.setChild j (split.getChild j)) new

/-- The node that `getNode` makes of a page just created. -/
def freshNode (newPage : PageId) (type : BTreeNodeType) : BTreeNode K V :=
  BTreeNode.deserialize newPage (BTreeNode.new newPage type).serialize

/-- The old node as `splitChild` writes it. -/
def lowerHalf (child : BTreeNode K V) (newPage parentPage : PageId) : BTreeNode K V :=
  let child := child.split.1
  (if child.isLeaf then child.setNextId newPage else child).setParentId parentPage

/-- The new node as `splitChild` writes it. -/
def upperHalf (child : BTreeNode K V) (newPage parentPage : PageId) : BTreeNode K V :=
  let old := child.split.1
  let new := copyHalf old.isLeaf child.split.2 (freshNode newPage child.header.type)
  (if old.isLeaf then (new.setNextId old.header.nextId).setPrevId old.pageId
    else new).setParentId parentPage

/-- What holds of a loop over the first indices, if each of its steps goes from one index to the
next. -/
theorem foldl_range_rule {α : Type} {step : α → ℕ → α} {start : α} (inv : ℕ → α → Prop)
    (hstart : inv 0 start) (hstep : ∀ j a, inv j a → inv (j+1) (step a j)) (count : ℕ) :
    inv count ((List.range count).foldl step start) := by
  induction count with
  | zero => exact hstart
  | succ count ih =>
    rw [List.range_succ,List.foldl_append]
    exact hstep count _ ih

/-- The first loop writes on the same page, and the node has as many keys as were written. -/
structure Copied (new : BTreeNode K V) (j : ℕ) (n : BTreeNode K V) : Prop where
  pageId : n.pageId = new.pageId
  type : n.header.type = new.header.type
  keyCount : n.keyCount = min j 127

omit [LinearOrder K] [Inhabited K] [Inhabited V] in
theorem Copied.setKey {new n : BTreeNode K V} {j : ℕ} (h : Copied new j n) (key : K) :
    Copied new (j+1) (n.setKey j key) := by
  have hcount := h.keyCount
  unfold BTreeNode.setKey
  by_cases hmax : BTreeNode.maxKeys ≤ j
  · rw [if_pos hmax]
    change 127 ≤ j at hmax
    exact ⟨h.pageId,h.type,by omega⟩
  · rw [if_neg hmax]
    change ¬127 ≤ j at hmax
    refine ⟨h.pageId,h.type,?_⟩
    have hle : n.keyCount ≤ j := by omega
    change (if n.keyCount ≤ j then UInt16.ofNat (j+1) else n.header.keyCount).toNat = _
    rw [if_pos hle,UInt16.toNat_ofNat']
    omega

omit [LinearOrder K] [Inhabited K] [Inhabited V] in
theorem Copied.setValue {new n : BTreeNode K V} {j j' : ℕ} (h : Copied new j n) (value : V) :
    Copied new j (n.setValue j' value) := by
  unfold BTreeNode.setValue
  split_ifs
  · exact h
  · exact ⟨h.pageId,h.type,h.keyCount⟩

omit [LinearOrder K] [Inhabited K] [Inhabited V] in
theorem Copied.setChild {new n : BTreeNode K V} {j j' : ℕ} (h : Copied new j n) (c : PageId) :
    Copied new j (n.setChild j' c) := by
  unfold BTreeNode.setChild
  by_cases hout : n.isLeaf ∨ BTreeNode.order ≤ j'
  · rw [if_pos hout]
    exact h
  · rw [if_neg hout]
    exact ⟨h.pageId,h.type,h.keyCount⟩

omit [LinearOrder K] [Inhabited K] [Inhabited V] in
theorem copyHalf_copied (leaf : Bool) (split : BTreeNode K V) {new : BTreeNode K V}
    (hzero : new.keyCount = 0) : Copied new split.keyCount (copyHalf leaf split new) := by
  have hkeys : Copied new split.keyCount ((List.range split.keyCount).foldl (fun n j =>
      let n := n.setKey j (split.keys j)
      if leaf then n.setValue j (split.values j) else n) new) := by
    refine foldl_range_rule (Copied new) ⟨rfl,rfl,by omega⟩ ?_ split.keyCount
    intro j n hn
    cases leaf with
    | false => exact hn.setKey (split.keys j)
    | true => exact (hn.setKey (split.keys j)).setValue (split.values j)
  cases leaf with
  | true => exact hkeys
  | false =>
    refine foldl_range_rule (fun _ => Copied new split.keyCount) hkeys ?_ (split.keyCount+1)
    intro j n hn
    exact hn.setChild (split.getChild j)

omit [LinearOrder K] [Inhabited K] [Inhabited V] in
/-- The children are copied as far as the array goes. -/
theorem copyHalf_children (split : BTreeNode K V) {new : BTreeNode K V}
    (hleaf : new.isLeaf = false) {j : ℕ} (hj : j ≤ split.keyCount) (horder : j < 128) :
    (copyHalf false split new).children j = split.getChild j := by
  let filled (i : ℕ) (n : BTreeNode K V) : Prop :=
    n.isLeaf = false ∧ ∀ j < i, j < 128 → n.children j = split.getChild j
  have hkeys : ((List.range split.keyCount).foldl (fun (n : BTreeNode K V) j =>
      n.setKey j (split.keys j)) new).isLeaf = false := by
    refine foldl_range_rule (fun _ (n : BTreeNode K V) => n.isLeaf = false) hleaf ?_ split.keyCount
    intro j n hn
    unfold BTreeNode.setKey
    by_cases hmax : BTreeNode.maxKeys ≤ j
    · rw [if_pos hmax]
      exact hn
    · rw [if_neg hmax]
      exact hn
  have hstep : ∀ i n, filled i n → filled (i+1) (n.setChild i (split.getChild i)) := by
    rintro i n ⟨hn,hbefore⟩
    unfold BTreeNode.setChild
    by_cases hmax : BTreeNode.order ≤ i
    · rw [if_pos (Or.inr hmax)]
      change 128 ≤ i at hmax
      exact ⟨hn,fun j hj hj' => hbefore j (by omega) hj'⟩
    · rw [if_neg (by simp [hn,hmax])]
      refine ⟨hn,?_⟩
      intro j hj hj'
      change Function.update n.children i (split.getChild i) j = split.getChild j
      by_cases heq : j = i
      · rw [heq,Function.update_self]
      · rw [Function.update_of_ne heq]
        exact hbefore j (by omega) hj'
  have hfilled := foldl_range_rule filled ⟨hkeys,fun j hj => absurd hj (Nat.not_lt_zero j)⟩ hstep
    (split.keyCount+1)
  exact hfilled.2 j (by omega) horder

omit [LinearOrder K] in
theorem split_old (child : BTreeNode K V) :
    child.split.1.pageId = child.pageId ∧ child.split.1.header.type = child.header.type ∧
      child.split.1.children = child.children ∧ child.split.1.dirty = true := by
  cases hleaf : child.isLeaf <;> simp [BTreeNode.split,hleaf,BTreeNode.markDirty]

omit [LinearOrder K] in
theorem split_old_isLeaf (child : BTreeNode K V) : child.split.1.isLeaf = child.isLeaf := by
  unfold BTreeNode.isLeaf
  rw [(split_old child).2.1]

omit [LinearOrder K] in
/-- The half that the old node hands over has no page, and so the old leaf leads nowhere. -/
theorem split_old_nextId {child : BTreeNode K V} (hleaf : child.isLeaf = true) :
    child.split.1.header.nextId = invalidPageId := by
  simp [BTreeNode.split,hleaf,BTreeNode.markDirty]

theorem ofNat_toIndex {n m : ℕ} (hle : m ≤ n) (hlt : n-m < 65536) :
    (UInt16.ofNat (BTreeNode.toIndex ((n : ℤ)-m))).toNat = n-m := by
  have hindex : BTreeNode.toIndex ((n : ℤ)-m) = n-m := by
    unfold BTreeNode.toIndex
    omega
  rw [hindex,UInt16.toNat_ofNat']
  omega

omit [LinearOrder K] in
theorem split_new_keyCount {child : BTreeNode K V} (hpos : 1 ≤ child.keyCount) :
    child.split.2.keyCount = child.keyCount-(child.keyCount/2+1) := by
  have hlt : child.keyCount < 65536 := child.header.keyCount.toNat_lt
  have hcount := ofNat_toIndex (n := child.keyCount) (m := child.keyCount/2+1) (by omega) (by omega)
  rw [Nat.cast_add,Nat.cast_one,← sub_sub] at hcount
  cases hleaf : child.isLeaf with
  | true =>
    simp only [BTreeNode.split,hleaf]
    exact hcount
  | false =>
    simp only [BTreeNode.split,hleaf]
    exact hcount

omit [LinearOrder K] in
theorem split_new_getChild {child : BTreeNode K V} (hleaf : child.isLeaf = false)
    (hcounts : child.childCount = child.keyCount+1) {j : ℕ}
    (hj : j+(child.keyCount/2+1) ≤ child.keyCount) :
    child.split.2.getChild j = child.children (j+(child.keyCount/2+1)) := by
  have hlt : child.childCount < 65536 := child.header.childCount.toNat_lt
  have hcount := ofNat_toIndex (n := child.childCount) (m := child.keyCount/2+1) (by omega)
    (by omega)
  rw [Nat.cast_add,Nat.cast_one,← sub_sub] at hcount
  have htype : child.split.2.isLeaf = false := by
    simp only [BTreeNode.split,hleaf]
    exact hleaf
  have hchildren : child.split.2.childCount = child.childCount-(child.keyCount/2+1) := by
    simp only [BTreeNode.split,hleaf]
    exact hcount
  rw [BTreeNode.getChild_eq htype (by omega)]
  simp only [BTreeNode.split,hleaf]
  exact if_pos (by omega)

omit [LinearOrder K] in
theorem lowerHalf_spec (child : BTreeNode K V) (newPage parentPage : PageId) :
    (lowerHalf child newPage parentPage).pageId = child.pageId ∧
      (lowerHalf child newPage parentPage).isLeaf = child.isLeaf ∧
      (lowerHalf child newPage parentPage).children = child.children ∧
      (lowerHalf child newPage parentPage).dirty = true := by
  obtain ⟨hpage,htype,hchildren,_⟩ := split_old child
  unfold lowerHalf
  cases hleaf : child.isLeaf with
  | true =>
    simp only [split_old_isLeaf,hleaf,if_true]
    exact ⟨hpage,(split_old_isLeaf child).trans hleaf,hchildren,rfl⟩
  | false =>
    simp only [split_old_isLeaf,hleaf,Bool.false_eq_true,if_false]
    exact ⟨hpage,(split_old_isLeaf child).trans hleaf,hchildren,rfl⟩

omit [LinearOrder K] in
theorem freshNode_spec (newPage : PageId) (type : BTreeNodeType) :
    (freshNode newPage type : BTreeNode K V).pageId = newPage ∧
      (freshNode newPage type : BTreeNode K V).header.type = type ∧
      (freshNode newPage type : BTreeNode K V).keyCount = 0 := by
  unfold freshNode
  refine ⟨deserialize_pageId _ _,?_,?_⟩
  · rw [deserialize_header]
    rfl
  · unfold BTreeNode.keyCount
    rw [deserialize_header]
    rfl

omit [LinearOrder K] in
theorem copyHalf_fresh (child : BTreeNode K V) (newPage : PageId) (leaf : Bool) :
    Copied (freshNode newPage child.header.type) child.split.2.keyCount
      (copyHalf leaf child.split.2 (freshNode newPage child.header.type)) ∧
    (copyHalf leaf child.split.2 (freshNode newPage child.header.type)).pageId = newPage ∧
    (copyHalf leaf child.split.2 (freshNode newPage child.header.type)).isLeaf = child.isLeaf := by
  obtain ⟨hpage,htype,hzero⟩ := freshNode_spec (K := K) (V := V) newPage child.header.type
  have hcopied := copyHalf_copied leaf child.split.2 hzero
  refine ⟨hcopied,hcopied.pageId.trans hpage,?_⟩
  unfold BTreeNode.isLeaf
  rw [hcopied.type,htype]

omit [LinearOrder K] in
theorem upperHalf_spec (child : BTreeNode K V) (newPage parentPage : PageId) :
    (upperHalf child newPage parentPage).pageId = newPage ∧
      (upperHalf child newPage parentPage).isLeaf = child.isLeaf ∧
      (upperHalf child newPage parentPage).dirty = true := by
  obtain ⟨_,hpage,htype⟩ := copyHalf_fresh child newPage child.isLeaf
  unfold upperHalf
  simp only [split_old_isLeaf]
  generalize copyHalf child.isLeaf child.split.2 (freshNode newPage child.header.type) = new
    at hpage htype
  cases hleaf : child.isLeaf with
  | true => exact ⟨hpage,htype.trans hleaf,rfl⟩
  | false => exact ⟨hpage,htype.trans hleaf,rfl⟩

omit [LinearOrder K] in
theorem upperHalf_nextId {child : BTreeNode K V} (hleaf : child.isLeaf = true)
    (newPage parentPage : PageId) :
    (upperHalf child newPage parentPage).header.nextId = invalidPageId := by
  unfold upperHalf
  simp only [split_old_isLeaf,hleaf,if_true]
  exact split_old_nextId hleaf

omit [LinearOrder K] in
/-- The last child of the new node is a child of the old one. -/
theorem upperHalf_last {child : BTreeNode K V} (hleaf : child.isLeaf = false)
    (hpos : 1 ≤ child.keyCount) (hcounts : child.childCount = child.keyCount+1)
    (newPage parentPage : PageId) :
    ∃ j, 1 ≤ j ∧ j ≤ child.keyCount ∧ (upperHalf child newPage parentPage).children
      (upperHalf child newPage parentPage).keyCount = child.children j := by
  obtain ⟨hcopied,_,_⟩ := copyHalf_fresh child newPage false
  have hfresh : (freshNode newPage child.header.type : BTreeNode K V).isLeaf = false := by
    unfold BTreeNode.isLeaf
    rw [(freshNode_spec newPage child.header.type).2.1]
    exact hleaf
  have hkeys := split_new_keyCount hpos
  have hlast := copyHalf_children child.split.2 hfresh
    (j := min child.split.2.keyCount 127) (by omega) (by omega)
  have hcount := hcopied.keyCount
  unfold upperHalf
  simp only [split_old_isLeaf,hleaf,Bool.false_eq_true,if_false]
  generalize copyHalf false child.split.2 (freshNode newPage child.header.type) = new
    at hlast hcount
  refine ⟨min child.split.2.keyCount 127+(child.keyCount/2+1),by omega,by omega,?_⟩
  change new.children new.keyCount = _
  rw [hcount,hlast]
  exact split_new_getChild hleaf hcounts (by omega)

end Halves

section Splitting

variable {t : BTree K V} {parent child : BTreeNode K V} {i : ℕ}

/-- The parent as `splitChild` leaves it. -/
def splitParent (parent child : BTreeNode K V) (i : ℕ) (newPage : PageId) : BTreeNode K V :=
  (parent.insertAt i child.getSplitKey default newPage).2

/-- The call of `splitChild` and the write of the parent that follows it. -/
def splitAndWrite (parent : BTreeNode K V) (i : ℕ) : TreeM K V Unit := do
  releaseNode (← splitChild parent i)

omit [LinearOrder K] [Inhabited K] in
/-- The new page comes before the old one. -/
theorem splitParent_spec (hinner : parent.isLeaf = false) (hroom : parent.isFull = false)
    (hcounts : parent.childCount = parent.keyCount+1) (hi : i ≤ parent.keyCount)
    (child : BTreeNode K V) (newPage : PageId) :
    (splitParent parent child i newPage).pageId = parent.pageId ∧
      (splitParent parent child i newPage).isLeaf = false ∧
      (splitParent parent child i newPage).dirty = true ∧
      (splitParent parent child i newPage).keyCount = parent.keyCount+1 ∧
      (splitParent parent child i newPage).children i = newPage ∧
      (splitParent parent child i newPage).children (i+1) = parent.children i := by
  have hlt : parent.keyCount < 127 := Nat.not_le.mp (of_decide_eq_false hroom)
  have hcount : (parent.header.keyCount+1).toNat = parent.keyCount+1 := by
    rw [UInt16.toNat_add]
    exact Nat.mod_eq_of_lt (by change parent.keyCount+1 < 65536; omega)
  have hmoved : BTreeNode.movedUp parent.children i parent.childCount (i+1) = parent.children i :=
    if_pos (by omega)
  have hleaf : (parent.shiftRight i).isLeaf = false := hinner
  have hshift : (parent.shiftRight i).children =
      BTreeNode.movedUp parent.children i parent.childCount := by
    simp [BTreeNode.shiftRight,hinner]
  unfold splitParent BTreeNode.insertAt
  rw [if_neg (by simp [hroom])]
  have hnotLeaf : ({ parent.shiftRight i with
      keys := Function.update (parent.shiftRight i).keys i child.getSplitKey } :
        BTreeNode K V).isLeaf = false := hinner
  simp only [hnotLeaf,Bool.false_eq_true,if_false]
  refine ⟨rfl,hinner,rfl,hcount,Function.update_self _ _ _,?_⟩
  change Function.update (parent.shiftRight i).children i newPage (i+1) = _
  rw [Function.update_of_ne (by omega),hshift]
  exact hmoved

/-- The pages that are written: the old child, the new one and the parent. -/
def splitPages (t : BTree K V) (parent child : BTreeNode K V) (i : ℕ) :
    Finmap fun _ : PageId => NodeImage K V :=
  (((t.store.pages.insert t.store.next
    (BTreeNode.new t.store.next child.header.type).serialize).insert child.pageId
    (lowerHalf child t.store.next parent.pageId).serialize).insert t.store.next
    (upperHalf child t.store.next parent.pageId).serialize).insert parent.pageId
    (splitParent parent child i t.store.next).serialize

omit [LinearOrder K] in
theorem mem_of_nodeAt {s : PageStore K V} {pid : PageId} {n : BTreeNode K V}
    (h : nodeAt s pid = some n) : n.pageId ∈ s.pages := by
  obtain ⟨hvalid,hpid,_⟩ := nodeAt_some h
  unfold nodeAt at h
  rw [if_neg hvalid] at h
  obtain ⟨image,hlookup,_⟩ := Option.map_eq_some_iff.mp h
  rw [hpid]
  exact Finmap.mem_of_lookup_eq_some hlookup

/-- The tree after the two halves are written. -/
def withHalves (t : BTree K V) (child : BTreeNode K V) (parentPage : PageId) : BTree K V :=
  { t with store := ⟨((t.store.pages.insert t.store.next
    (BTreeNode.new t.store.next child.header.type).serialize).insert child.pageId
    (lowerHalf child t.store.next parentPage).serialize).insert t.store.next
    (upperHalf child t.store.next parentPage).serialize,t.store.next+1⟩ }

omit [LinearOrder K] in
theorem splitChild_run (hchild : nodeAt t.store (parent.getChild i) = some child)
    (hfull : child.isFull = true) (hvalid : t.store.next ≠ invalidPageId)
    (hpage : (splitParent parent child i t.store.next).pageId = parent.pageId) :
    (splitChild parent i).run t =
      .ok (splitParent parent child i t.store.next,withHalves t child parent.pageId) := by
  let fresh := t.store.pages.insert t.store.next
    (BTreeNode.new t.store.next child.header.type : BTreeNode K V).serialize
  have hcreate : (createNode child.header.type).run t =
      .ok (t.store.next,{ t with store := ⟨fresh,t.store.next+1⟩ }) := rfl
  have hnew : nodeAt (⟨fresh,t.store.next+1⟩ : PageStore K V) t.store.next =
      some (freshNode t.store.next child.header.type) := by
    unfold nodeAt
    rw [if_neg hvalid,Finmap.lookup_insert]
    rfl
  obtain ⟨hlower,_,_,hlowerDirty⟩ := lowerHalf_spec child t.store.next parent.pageId
  obtain ⟨hupper,_,hupperDirty⟩ := upperHalf_spec child t.store.next parent.pageId
  have hmem := mem_of_nodeAt hchild
  have hrun : (splitChild parent i).run t = (do
      releaseNode (lowerHalf child t.store.next (splitParent parent child i t.store.next).pageId)
      releaseNode (upperHalf child t.store.next (splitParent parent child i t.store.next).pageId)
      return splitParent parent child i t.store.next : TreeM K V (BTreeNode K V)).run
        { t with store := ⟨fresh,t.store.next+1⟩ } := by
    rw [splitChild,run_bind_ok (getNode_nodeAt (parent.getChild i) t),hchild]
    simp only [hfull,Bool.not_true,Bool.false_eq_true,if_false]
    rw [run_bind_ok hcreate,run_bind_ok (getNode_nodeAt t.store.next _),hnew]
    rfl
  rw [hpage] at hrun
  have hmem₁ : (lowerHalf child t.store.next parent.pageId).pageId ∈ fresh := by
    rw [hlower]
    exact Finmap.mem_insert.mpr (Or.inr hmem)
  have hmem₂ : (upperHalf child t.store.next parent.pageId).pageId ∈ fresh.insert child.pageId
      (lowerHalf child t.store.next parent.pageId).serialize := by
    rw [hupper]
    exact Finmap.mem_insert.mpr (Or.inr (Finmap.mem_insert.mpr (Or.inl rfl)))
  rw [hrun,run_bind_ok (releaseNode_run hlowerDirty hmem₁),hlower,
    run_bind_ok (releaseNode_run hupperDirty hmem₂),hupper]
  rfl

omit [LinearOrder K] in
theorem splitAndWrite_run (hparent : parent.pageId ∈ t.store.pages)
    (hchild : nodeAt t.store (parent.getChild i) = some child) (hfull : child.isFull = true)
    (hvalid : t.store.next ≠ invalidPageId)
    (hpage : (splitParent parent child i t.store.next).pageId = parent.pageId)
    (hdirty : (splitParent parent child i t.store.next).dirty = true) :
    (splitAndWrite parent i).run t =
      .ok ((),{ t with store := ⟨splitPages t parent child i,t.store.next+1⟩ }) := by
  have hmem : (splitParent parent child i t.store.next).pageId ∈
      (withHalves t child parent.pageId).store.pages := by
    rw [hpage]
    simp only [withHalves,Finmap.mem_insert]
    exact Or.inr (Or.inr (Or.inr hparent))
  rw [splitAndWrite,run_bind_ok (splitChild_run hchild hfull hvalid hpage),
    releaseNode_run hdirty hmem,hpage]
  rfl

omit [LinearOrder K] in
theorem nodeAt_insert_self {pages : Finmap fun _ : PageId => NodeImage K V} {next pid : PageId}
    {n : BTreeNode K V} (hvalid : pid ≠ invalidPageId) :
    nodeAt ⟨pages.insert pid n.serialize,next⟩ pid =
      some (BTreeNode.deserialize pid n.serialize) := by
  unfold nodeAt
  rw [if_neg hvalid,Finmap.lookup_insert]
  rfl

omit [LinearOrder K] in
theorem nodeAt_insert_of_ne {pages : Finmap fun _ : PageId => NodeImage K V} {next pid q : PageId}
    {image : NodeImage K V} (next' : PageId) (hne : q ≠ pid) :
    nodeAt ⟨pages.insert pid image,next⟩ q = nodeAt ⟨pages,next'⟩ q := by
  unfold nodeAt
  rw [Finmap.lookup_insert_of_ne _ hne]

omit [LinearOrder K] in
theorem deserialize_serialize_children {n : BTreeNode K V} (hleaf : n.isLeaf = false)
    (pid : PageId) : (BTreeNode.deserialize pid n.serialize).children = n.children := by
  simp [BTreeNode.deserialize,BTreeNode.serialize,hleaf]

omit [LinearOrder K] in
theorem deserialize_serialize_header (n : BTreeNode K V) (pid : PageId) :
    (BTreeNode.deserialize pid n.serialize).header = n.header := deserialize_header pid n.serialize

omit [LinearOrder K] in
theorem deserialize_serialize_isLeaf (n : BTreeNode K V) (pid : PageId) :
    (BTreeNode.deserialize pid n.serialize).isLeaf = n.isLeaf := by
  unfold BTreeNode.isLeaf
  rw [deserialize_serialize_header]

omit [LinearOrder K] in
theorem deserialize_serialize_keyCount (n : BTreeNode K V) (pid : PageId) :
    (BTreeNode.deserialize pid n.serialize).keyCount = n.keyCount := by
  unfold BTreeNode.keyCount
  rw [deserialize_serialize_header]

section Pages

variable (hparent : child.pageId ≠ parent.pageId) (hnew : parent.pageId ≠ t.store.next)
  (hnew' : child.pageId ≠ t.store.next)

omit [LinearOrder K] in
theorem splitPages_parent (hvalid : parent.pageId ≠ invalidPageId) :
    nodeAt (⟨splitPages t parent child i,t.store.next+1⟩ : PageStore K V) parent.pageId =
      some (BTreeNode.deserialize parent.pageId
        (splitParent parent child i t.store.next).serialize) :=
  nodeAt_insert_self hvalid

include hparent hnew' in
omit [LinearOrder K] in
theorem splitPages_child (hvalid : child.pageId ≠ invalidPageId) :
    nodeAt (⟨splitPages t parent child i,t.store.next+1⟩ : PageStore K V) child.pageId =
      some (BTreeNode.deserialize child.pageId
        (lowerHalf child t.store.next parent.pageId).serialize) := by
  unfold splitPages
  rw [nodeAt_insert_of_ne 0 hparent,nodeAt_insert_of_ne 0 hnew']
  exact nodeAt_insert_self hvalid

include hnew in
omit [LinearOrder K] in
theorem splitPages_new (hvalid : t.store.next ≠ invalidPageId) :
    nodeAt (⟨splitPages t parent child i,t.store.next+1⟩ : PageStore K V) t.store.next =
      some (BTreeNode.deserialize t.store.next
        (upperHalf child t.store.next parent.pageId).serialize) := by
  unfold splitPages
  rw [nodeAt_insert_of_ne 0 hnew.symm]
  exact nodeAt_insert_self hvalid

omit [LinearOrder K] in
theorem splitPages_other {q : PageId} (hq : q ≠ parent.pageId) (hq' : q ≠ child.pageId)
    (hq'' : q ≠ t.store.next) :
    nodeAt (⟨splitPages t parent child i,t.store.next+1⟩ : PageStore K V) q =
      nodeAt t.store q := by
  unfold splitPages
  rw [nodeAt_insert_of_ne 0 hq,nodeAt_insert_of_ne 0 hq'',nodeAt_insert_of_ne 0 hq']
  exact nodeAt_insert_of_ne _ hq''

end Pages

end Splitting

/-- The chain lists the leaves in this order, from the first to the last and back. -/
def Chained (leaves : List (BTreeNode K V)) : Prop :=
  leaves.IsChain fun n m => n.header.nextId = m.pageId ∧ m.header.prevId = n.pageId

omit [LinearOrder K] [Inhabited K] [Inhabited V] in
theorem Chained.parts {parts : ℕ → List (BTreeNode K V)} {count i : ℕ}
    (h : Chained ((List.range (count+1)).flatMap parts)) (hi : i+1 ≤ count) {n m : BTreeNode K V}
    (hlast : n ∈ (parts i).getLast?) (hfirst : m ∈ (parts (i+1)).head?) :
    n.header.nextId = m.pageId := by
  rw [range_split (by omega : i ≤ count)] at h
  obtain ⟨d,hd⟩ : ∃ d, count-i = d+1 := ⟨count-i-1,by omega⟩
  rw [hd,List.range'_succ,List.flatMap_append,List.flatMap_cons,List.flatMap_cons] at h
  have htail := (List.isChain_append.mp h).2.1
  refine ((List.isChain_append.mp htail).2.2 n hlast m ?_).1
  rw [List.head?_append]
  rw [hfirst]
  rfl

/-- What a split should leave: a tree below the parent that holds the same entries in the same
order, with the leaves chained in both directions. -/
def SplitKept (s : PageStore K V) (pid : PageId) (entries : List (K × V)) : Prop :=
  ∃ leaves, Subtree s pid leaves ∧ entriesOf leaves = entries ∧ Chained leaves

/-- A full child of a node with room for another key, in a well-formed tree. -/
structure FullChild (t : BTree K V) (all : List (BTreeNode K V)) (pid : PageId)
    (parent : BTreeNode K V) (i : ℕ) (child : BTreeNode K V) : Prop where
  wellFormed : WellFormed t all
  within : Within t.store t.rootPageId pid
  parentPage : nodeAt t.store pid = some parent
  inner : parent.isLeaf = false
  room : parent.isFull = false
  index : i ≤ parent.keyCount
  childPage : nodeAt t.store (parent.children i) = some child
  full : child.isFull = true

section Breaking

variable {t : BTree K V} {all : List (BTreeNode K V)} {pid : PageId} {parent child : BTreeNode K V}
  {i : ℕ}

/-- What is known of the pages around the child before it is split. -/
theorem FullChild.below (h : FullChild t all pid parent i child) :
    ∃ before parts behind, all = before++(List.range (parent.keyCount+1)).flatMap parts++behind ∧
      parent.childCount = parent.keyCount+1 ∧
      (∀ j ≤ parent.keyCount, Subtree t.store (parent.children j) (parts j)) ∧
      Subtree t.store pid ((List.range (parent.keyCount+1)).flatMap parts) ∧
      (parts i).length < ((List.range (parent.keyCount+1)).flatMap parts).length := by
  obtain ⟨before,leaves,behind,hall,hleaves⟩ := h.within.placed h.wellFormed.tree
  obtain ⟨parts,rfl,hkeyed,hcounts,hbelow⟩ := hleaves.eq_inner h.parentPage h.inner
  exact ⟨before,parts,behind,hall,hcounts,hbelow,hleaves,
    parts_length_lt hkeyed (fun j hj => (hbelow j hj).ne_nil) h.index⟩

theorem FullChild.getChild (h : FullChild t all pid parent i child) :
    parent.getChild i = parent.children i := by
  obtain ⟨_,_,_,_,hcounts,_⟩ := h.below
  have hindex := h.index
  exact BTreeNode.getChild_eq h.inner (by omega)

theorem FullChild.child_ne_parent (h : FullChild t all pid parent i child) :
    child.pageId ≠ parent.pageId := by
  obtain ⟨_,_,_,_,_,hbelow,hleaves,hlength⟩ := h.below
  have hchildTree := hbelow i h.index
  rw [(nodeAt_some h.childPage).2.1,(nodeAt_some h.parentPage).2.1]
  intro heq
  rw [heq] at hchildTree
  rw [hleaves.unique hchildTree] at hlength
  exact lt_irrefl _ hlength

/-- The pages after the split of a child, with a new page for the other half. -/
structure SplitPages (s s' : PageStore K V) (parent child : BTreeNode K V) (i : ℕ)
    (new : PageId) : Prop where
  parentPage : ∃ n, nodeAt s' parent.pageId = some n ∧ n.isLeaf = false ∧
    n.keyCount = parent.keyCount+1 ∧ n.children i = new ∧ n.children (i+1) = child.pageId
  oldPage : ∃ n, nodeAt s' child.pageId = some n ∧ n.isLeaf = child.isLeaf ∧
    (child.isLeaf = false → n.children = child.children)
  newPage : ∃ n, nodeAt s' new = some n ∧ n.isLeaf = child.isLeaf ∧
    (child.isLeaf = true → n.header.nextId = invalidPageId) ∧
    (child.isLeaf = false → 1 ≤ child.keyCount → child.childCount = child.keyCount+1 →
      ∃ j, 1 ≤ j ∧ j ≤ child.keyCount ∧ n.children n.keyCount = child.children j)
  others : ∀ q, q ≠ parent.pageId → q ≠ child.pageId → q ≠ new → nodeAt s' q = nodeAt s q

theorem FullChild.split (h : FullChild t all pid parent i child)
    (hnew : t.store.next ∉ t.store.pages) (hvalid : t.store.next ≠ invalidPageId) :
    ∃ t', (splitAndWrite parent i).run t = .ok ((),t') ∧
      SplitPages t.store t'.store parent child i t.store.next := by
  obtain ⟨_,_,_,_,hcounts,_⟩ := h.below
  obtain ⟨hpid,hpage,_⟩ := nodeAt_some h.parentPage
  obtain ⟨hchildValid,hchildPage,_⟩ := nodeAt_some h.childPage
  have hmemParent := mem_of_nodeAt h.parentPage
  have hmemChild := mem_of_nodeAt h.childPage
  obtain ⟨hpage',hinner',hdirty,hcount',hat,hafter⟩ :=
    splitParent_spec h.inner h.room hcounts h.index child t.store.next
  obtain ⟨_,hlowerLeaf,hlowerChildren,_⟩ := lowerHalf_spec child t.store.next parent.pageId
  obtain ⟨_,hupperLeaf,_⟩ := upperHalf_spec child t.store.next parent.pageId
  have hneNew : parent.pageId ≠ t.store.next := by
    intro heq
    rw [heq] at hmemParent
    exact hnew hmemParent
  have hneNew' : child.pageId ≠ t.store.next := by
    intro heq
    rw [heq] at hmemChild
    exact hnew hmemChild
  have hchildAt : nodeAt t.store (parent.getChild i) = some child := by
    rw [h.getChild]
    exact h.childPage
  refine ⟨_,splitAndWrite_run hmemParent hchildAt h.full hvalid hpage' hdirty,?_,?_,?_,?_⟩
  · refine ⟨_,splitPages_parent (hpage ▸ hpid),?_,?_,?_,?_⟩
    · rw [deserialize_serialize_isLeaf]
      exact hinner'
    · rw [deserialize_serialize_keyCount]
      exact hcount'
    · rw [deserialize_serialize_children hinner']
      exact hat
    · rw [deserialize_serialize_children hinner',hchildPage]
      exact hafter
  · refine ⟨_,splitPages_child h.child_ne_parent hneNew' (hchildPage ▸ hchildValid),?_,?_⟩
    · rw [deserialize_serialize_isLeaf]
      exact hlowerLeaf
    · intro hleaf
      rw [deserialize_serialize_children (hlowerLeaf.trans hleaf)]
      exact hlowerChildren
  · refine ⟨_,splitPages_new hneNew hvalid,?_,?_,?_⟩
    · rw [deserialize_serialize_isLeaf]
      exact hupperLeaf
    · intro hleaf
      rw [deserialize_serialize_header]
      exact upperHalf_nextId hleaf _ _
    · intro hleaf hpos hchildren
      rw [deserialize_serialize_children (hupperLeaf.trans hleaf),deserialize_serialize_keyCount]
      exact upperHalf_last hleaf hpos hchildren t.store.next parent.pageId
  · intro q hq hq' hq''
    exact splitPages_other hq hq' hq''

/-- The trees below the child stay as they are. -/
theorem FullChild.grandchild (h : FullChild t all pid parent i child) {s' : PageStore K V}
    (hnew : t.store.next ∉ t.store.pages)
    (hsplit : SplitPages t.store s' parent child i t.store.next) {own : ℕ → List (BTreeNode K V)}
    (hown : Subtree t.store (parent.children i) ((List.range (child.keyCount+1)).flatMap own))
    (hkeyed : 1 ≤ child.keyCount)
    (hgrand : ∀ j ≤ child.keyCount, Subtree t.store (child.children j) (own j)) {j : ℕ}
    (hj : j ≤ child.keyCount) : Subtree s' (child.children j) (own j) := by
  obtain ⟨_,parts,_,_,_,hbelow,htree,hlength⟩ := h.below
  have hlt := parts_length_lt hkeyed (fun k hk => (hgrand k hk).ne_nil) hj
  rw [(hbelow i h.index).unique hown] at hlt
  refine (hgrand j hj).frame ?_
  intro q below hq hle
  refine hsplit.others q ?_ ?_ ?_
  · rintro rfl
    rw [(nodeAt_some h.parentPage).2.1] at hq
    rw [htree.unique hq] at hle
    omega
  · rintro rfl
    rw [(nodeAt_some h.childPage).2.1] at hq
    rw [(hbelow i h.index).unique hq] at hle
    omega
  · rintro rfl
    obtain ⟨m,hm⟩ := hq.root
    have hmem := mem_of_nodeAt hm
    rw [(nodeAt_some hm).2.1] at hmem
    exact hnew hmem

/-- Before the split no leaf behind the first one below the child leads back to it. -/
theorem FullChild.not_back (h : FullChild t all pid parent i child)
    {own : ℕ → List (BTreeNode K V)}
    (hown : Subtree t.store (parent.children i) ((List.range (child.keyCount+1)).flatMap own))
    {j : ℕ} (hlow : 1 ≤ j) (hhigh : j ≤ child.keyCount) {first last : BTreeNode K V}
    {rest front : List (BTreeNode K V)} (hfirst : own 0 = first::rest)
    (hlast : own j = front++[last]) : last.header.nextId ≠ first.pageId := by
  obtain ⟨before,parts,behind,hall,_,hbelow,_⟩ := h.below
  obtain ⟨low,high,hrange⟩ := List.append_of_mem
    (List.mem_range'_1.mpr ⟨hlow,(by omega : j < 1+child.keyCount)⟩)
  have hplace : all = (before++(List.range i).flatMap parts)++first::
      ((rest++low.flatMap own++front)++last::(high.flatMap own++
        (List.range' (i+1) (parent.keyCount-i)).flatMap parts++behind)) := by
    rw [hall,range_split h.index,List.flatMap_append,List.flatMap_cons,
      ← (hbelow i h.index).unique hown,range_split (Nat.zero_le child.keyCount)]
    simp only [Nat.sub_zero,Nat.zero_add,hrange]
    simp [hfirst,hlast]
  have hlinked := h.wellFormed.linked
  have hpages := h.wellFormed.tree.onPage
  rw [hplace] at hlinked hpages
  exact hlinked.not_back hpages

/-- The new node stands before the old one, so its last leaf would have to lead back to the first
leaf of the old one. -/
theorem FullChild.not_chained (h : FullChild t all pid parent i child) {s' : PageStore K V}
    (hnew : t.store.next ∉ t.store.pages)
    (hsplit : SplitPages t.store s' parent child i t.store.next) {leaves : List (BTreeNode K V)}
    (hleaves : Subtree s' pid leaves) : ¬Chained leaves := by
  intro hchained
  obtain ⟨_,parts,_,_,_,hbelow,_⟩ := h.below
  obtain ⟨_,hpage,_⟩ := nodeAt_some h.parentPage
  obtain ⟨hchildValid,hchildPage,_⟩ := nodeAt_some h.childPage
  obtain ⟨p,hp,hpInner,hpCount,hpAt,hpAfter⟩ := hsplit.parentPage
  obtain ⟨o,ho,hoLeaf,hoChildren⟩ := hsplit.oldPage
  obtain ⟨n,hn,hnLeaf,hnNext,hnLast⟩ := hsplit.newPage
  have hindex := h.index
  rw [hpage] at hp
  obtain ⟨parts',rfl,_,_,hbelow'⟩ := hleaves.eq_inner hp hpInner
  have hnewTree := hbelow' i (by omega)
  have holdTree := hbelow' (i+1) (by omega)
  rw [hpAt] at hnewTree
  rw [hpAfter] at holdTree
  cases hleaf : child.isLeaf with
  | true =>
    have hnewParts := hnewTree.eq_leaf hn (hnLeaf.trans hleaf)
    have holdParts := holdTree.eq_leaf ho (hoLeaf.trans hleaf)
    have hnext := hchained.parts (i := i) (by omega) (n := n) (m := o) (by rw [hnewParts]; rfl)
      (by rw [holdParts]; rfl)
    rw [hnNext hleaf,(nodeAt_some ho).2.1,hchildPage] at hnext
    exact hchildValid hnext.symm
  | false =>
    have hchildTree := hbelow i hindex
    obtain ⟨own,hown,hkeyed,hcounts,hgrand⟩ := hchildTree.eq_inner h.childPage hleaf
    rw [hown] at hchildTree
    have hframe : ∀ j ≤ child.keyCount, Subtree s' (child.children j) (own j) := fun j hj =>
      h.grandchild hnew hsplit hchildTree hkeyed hgrand hj
    obtain ⟨j,hlow,hhigh,hlast⟩ := hnLast hleaf hkeyed hcounts
    obtain ⟨partsN,hpartsN,_,_,hbelowN⟩ := hnewTree.eq_inner hn (hnLeaf.trans hleaf)
    obtain ⟨partsO,hpartsO,_,_,hbelowO⟩ := holdTree.eq_inner ho (hoLeaf.trans hleaf)
    have hlastPart : partsN n.keyCount = own j := by
      have hsub := hbelowN n.keyCount le_rfl
      rw [hlast] at hsub
      exact (hframe j hhigh).unique hsub
    have hfirstPart : partsO 0 = own 0 := by
      have hsub := hbelowO 0 (Nat.zero_le _)
      rw [hoChildren hleaf] at hsub
      exact (hframe 0 (Nat.zero_le _)).unique hsub
    obtain ⟨first,rest,hfirst⟩ := List.exists_cons_of_ne_nil (hgrand 0 (Nat.zero_le _)).ne_nil
    obtain ⟨front,last,hback⟩ : ∃ front last, own j = front++[last] :=
      ⟨_,_,(List.dropLast_append_getLast (hgrand j hhigh).ne_nil).symm⟩
    have hnext := hchained.parts (i := i) (by omega) (n := last) (m := first)
      (by
        rw [hpartsN,List.range_succ,List.flatMap_append,List.flatMap_singleton,hlastPart,hback]
        simp)
      (by
        rw [hpartsO,range_split (Nat.zero_le o.keyCount)]
        simp [hfirstPart,hfirst])
    exact h.not_back hchildTree hlow hhigh hfirst hback hnext

/-- Without a page for the new node `splitChild` gives up. -/
theorem FullChild.no_page (h : FullChild t all pid parent i child)
    (hnone : t.store.next = invalidPageId) :
    ∃ t', (splitAndWrite parent i).run t = .ok ((),t') ∧
      ∀ q, nodeAt t'.store q = nodeAt t.store q := by
  have hclean := (nodeAt_some h.parentPage).2.2
  have hchildAt : nodeAt t.store (parent.getChild i) = some child := by
    rw [h.getChild]
    exact h.childPage
  refine ⟨{ t with store := ⟨t.store.pages.insert t.store.next
    (BTreeNode.new t.store.next child.header.type).serialize,t.store.next+1⟩ },?_,?_⟩
  · have hcreate : (createNode child.header.type).run t = .ok (t.store.next,
        { t with store := ⟨t.store.pages.insert t.store.next
          (BTreeNode.new t.store.next child.header.type).serialize,t.store.next+1⟩ }) := rfl
    rw [splitAndWrite,splitChild,bind_assoc,run_bind_ok (getNode_nodeAt (parent.getChild i) t),
      hchildAt]
    simp only [h.full,Bool.not_true,Bool.false_eq_true,if_false,bind_assoc]
    rw [run_bind_ok hcreate,run_bind_ok (getNode_nodeAt t.store.next _)]
    unfold nodeAt
    rw [if_pos hnone]
    simp only [pure_bind,releaseNode,hclean,Bool.false_eq_true,if_false]
    rfl
  · intro q
    by_cases hq : q = invalidPageId
    · unfold nodeAt
      rw [if_pos hq,if_pos hq]
    · exact nodeAt_insert_of_ne _ (by rw [hnone]; exact hq)

/-- After the split the tree below the parent is what it should be only if there was no page for a
new node, so that nothing was done. -/
theorem splitChild_keeps_iff (h : FullChild t all pid parent i child) (hchained : Chained all)
    (hnew : t.store.next ∉ t.store.pages) {leaves : List (BTreeNode K V)}
    (hleaves : Subtree t.store pid leaves) :
    ∃ t', (splitAndWrite parent i).run t = .ok ((),t') ∧
      (SplitKept t'.store pid (entriesOf leaves) ↔ t.store.next = invalidPageId) := by
  by_cases hvalid : t.store.next = invalidPageId
  · obtain ⟨t',hrun,hsame⟩ := h.no_page hvalid
    refine ⟨t',hrun,iff_of_true ?_ hvalid⟩
    obtain ⟨before,leaves',behind,rfl,hleaves'⟩ := h.within.placed h.wellFormed.tree
    obtain rfl := hleaves'.unique hleaves
    have hpart := (List.isChain_append.mp (List.isChain_append.mp hchained).1).2.1
    exact ⟨leaves,hleaves.frame fun q _ _ _ => hsame q,rfl,hpart⟩
  · obtain ⟨t',hrun,hsplit⟩ := h.split hnew hvalid
    refine ⟨t',hrun,?_⟩
    rw [iff_false_right hvalid]
    rintro ⟨leaves',hleaves',_,hchained'⟩
    exact h.not_chained hnew hsplit hleaves' hchained'

end Breaking

section Sample

/-- A leaf with the keys from 0 to 126, each with itself as its value. -/
def crowdedLeaf : BTreeNode ℤ RecordId :=
  ⟨2,⟨.leaf,127,0,1,3,invalidPageId,0⟩,fun i => i,fun i => i,fun _ => invalidPageId,false⟩

def crowdedRoot : BTreeNode ℤ RecordId :=
  ⟨1,⟨.root,1,2,invalidPageId,invalidPageId,invalidPageId,1⟩,fun _ => 200,fun _ => 0,fun i => i+2,
    false⟩

def crowdedLeaves : List (BTreeNode ℤ RecordId) := [crowdedLeaf,sampleLeaf 3 invalidPageId 2 200]

/-- A root above a full leaf and another one. -/
def crowdedTree : BTree ℤ RecordId where
  config := ⟨true⟩
  rootPageId := 1
  store := ⟨(((∅ : Finmap fun _ : PageId => NodeImage ℤ RecordId).insert 1
    crowdedRoot.serialize).insert 2 crowdedLeaf.serialize).insert 3
    (sampleLeaf 3 invalidPageId 2 200).serialize,4⟩

theorem crowdedTree_wellFormed : WellFormed crowdedTree crowdedLeaves := by
  have hroot : nodeAt crowdedTree.store 1 = some crowdedRoot := rfl
  have hleft : Subtree crowdedTree.store 2 [crowdedLeaf] := by
    refine .leaf rfl rfl ?_
    intro i j hij _
    change (i : ℤ) < j
    omega
  have hright : Subtree crowdedTree.store 3 [sampleLeaf 3 invalidPageId 2 200] := by
    refine .leaf rfl rfl ?_
    intro i j hij _
    change (200 : ℤ)+i < 200+j
    omega
  refine wellFormed_two_leaves hroot rfl rfl rfl hleft hright ?_ (by decide) ⟨rfl,rfl⟩
  intro e he
  obtain ⟨n,hn,hentry⟩ := List.mem_flatMap.mp he
  obtain rfl := List.mem_singleton.mp hn
  obtain ⟨k,hk,rfl⟩ := List.mem_map.mp hentry
  have hlt : k < 127 := List.mem_range.mp hk
  change (k : ℤ) < 200
  omega

theorem crowdedTree_fullChild :
    FullChild crowdedTree crowdedLeaves 1 crowdedRoot 0 crowdedLeaf :=
  ⟨crowdedTree_wellFormed,.root,rfl,rfl,rfl,Nat.zero_le _,rfl,rfl⟩

theorem crowdedLeaves_chained : Chained crowdedLeaves :=
  List.isChain_pair.mpr ⟨rfl,rfl⟩

theorem crowdedTree_next : crowdedTree.store.next ∉ crowdedTree.store.pages := by
  decide

theorem crowdedTree_split_loses :
    FullChild crowdedTree crowdedLeaves 1 crowdedRoot 0 crowdedLeaf ∧ Chained crowdedLeaves ∧
      ∃ t', (splitAndWrite crowdedRoot 0).run crowdedTree = .ok ((),t') ∧
        ¬SplitKept t'.store 1 (entriesOf crowdedLeaves) := by
  have hfull := crowdedTree_fullChild
  obtain ⟨t',hrun,hsplit⟩ := hfull.split crowdedTree_next (by decide)
  refine ⟨hfull,crowdedLeaves_chained,t',hrun,?_⟩
  rintro ⟨leaves,hleaves,_,hchained⟩
  exact hfull.not_chained crowdedTree_next hsplit hleaves hchained

theorem splitChild_keeps_iff_crowded :
    ∃ t', (splitAndWrite crowdedRoot 0).run crowdedTree = .ok ((),t') ∧
      (SplitKept t'.store 1 (entriesOf crowdedLeaves) ↔ crowdedTree.store.next = invalidPageId) :=
  splitChild_keeps_iff crowdedTree_fullChild crowdedLeaves_chained crowdedTree_next
    crowdedTree_wellFormed.tree

end Sample

end BTree
end OrangeSQL
