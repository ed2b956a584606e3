import OrangeSQL.BTreeRefinement

/-! Well-formed trees of node pages, and the search in them. A subtree is described by its leaves
from left to right; what it holds are the entries of these leaves. -/
namespace OrangeSQL

namespace BTreeNode

variable {K V : Type} [LinearOrder K]

/-- The entries of a leaf. -/
def entries (n : BTreeNode K V) : List (K × V) :=
  (List.range n.keyCount).map fun i => (n.keys i,n.values i)

/-- The keys of the node increase. -/
def Increasing (n : BTreeNode K V) : Prop :=
  ∀ i j, i < j → j < n.keyCount → n.keys i < n.keys j

/-- The key belongs below the child: it is at least the key before it and less than the key behind
it, where the node has these. -/
def Bounds (n : BTreeNode K V) (i : ℕ) (key : K) : Prop :=
  (∀ j, j+1 = i → n.keys j ≤ key) ∧ (i < n.keyCount → key < n.keys i)

/-- Between two keys of the array: those up to the index are at most the key, the others above. -/
structure Splits (keys : ℕ → K) (count : ℕ) (key : K) (r : ℤ) : Prop where
  low : -1 ≤ r
  high : r < count
  below : ∀ j : ℕ, (j : ℤ) ≤ r → keys j ≤ key
  above : ∀ j : ℕ, r < j → j < count → key < keys j

theorem searchKeys_splits {keys : ℕ → K} {count : ℕ} {key : K}
    (hinc : ∀ i j, i < j → j < count → keys i < keys j) {left right : ℤ} (hleft : 0 ≤ left)
    (hgap : left ≤ right+1) (hright : right < count)
    (hbelow : ∀ j : ℕ, (j : ℤ) < left → keys j < key)
    (habove : ∀ j : ℕ, right < j → j < count → key < keys j) :
    Splits keys count key (searchKeys keys key left right) := by
  induction left, right using searchKeys.induct keys key with
  | case1 left right hle mid hmid =>
    rw [searchKeys,if_pos hle]
    simp only [mid] at hmid ⊢
    rw [if_pos hmid]
    have hnat : (((left+right)/2).toNat : ℤ) = (left+right)/2 := Int.toNat_of_nonneg (by omega)
    refine ⟨by omega,by omega,?_,?_⟩
    · intro j hj
      rcases Nat.lt_or_ge j ((left+right)/2).toNat with hlt | hge
      · exact (hinc j _ hlt (by omega)).le.trans hmid.le
      · have heq : j = ((left+right)/2).toNat := by omega
        rw [heq,hmid]
    · intro j hj hcount
      rw [← hmid]
      exact hinc _ j (by omega) hcount
  | case2 left right hle mid hne hlt ih =>
    rw [searchKeys,if_pos hle]
    simp only [mid] at hne hlt ih ⊢
    rw [if_neg hne,if_pos hlt]
    have hnat : (((left+right)/2).toNat : ℤ) = (left+right)/2 := Int.toNat_of_nonneg (by omega)
    refine ih (by omega) (by omega) hright ?_ habove
    intro j hj
    rcases Nat.lt_or_ge j ((left+right)/2).toNat with hbefore | hge
    · exact (hinc j _ hbefore (by omega)).trans hlt
    · have heq : j = ((left+right)/2).toNat := by omega
      rw [heq]
      exact hlt
  | case3 left right hle mid hne hge ih =>
    rw [searchKeys,if_pos hle]
    simp only [mid] at hne hge ih ⊢
    rw [if_neg hne,if_neg hge]
    have hnat : (((left+right)/2).toNat : ℤ) = (left+right)/2 := Int.toNat_of_nonneg (by omega)
    have hgt : key < keys ((left+right)/2).toNat := lt_of_le_of_ne (not_lt.mp hge) (Ne.symm hne)
    refine ih hleft (by omega) (by omega) hbelow ?_
    intro j hj hcount
    rcases Nat.lt_or_ge ((left+right)/2).toNat j with hafter | hle'
    · exact hgt.trans (hinc _ j hafter hcount)
    · have heq : j = ((left+right)/2).toNat := by omega
      rw [heq]
      exact hgt
  | case4 left right hgt =>
    rw [searchKeys,if_neg hgt]
    exact ⟨by omega,hright,fun j hj => (hbelow j (by omega)).le,habove⟩

theorem findKeyIndex_splits {n : BTreeNode K V} (h : n.Increasing) (key : K) :
    Splits n.keys n.keyCount key (n.findKeyIndex key) := by
  unfold findKeyIndex
  refine searchKeys_splits h le_rfl (by omega) (by omega) ?_ ?_
  · intro j hj
    omega
  · intro j hj hcount
    omega

/-- The child to go to is the one behind the index found. -/
theorem findChildIndex_eq {n : BTreeNode K V} (h : n.Increasing) (hleaf : n.isLeaf = false)
    (key : K) : n.findChildIndex key = n.findKeyIndex key+1 := by
  have hsplit := findKeyIndex_splits h key
  unfold findChildIndex
  rw [hleaf]
  simp only [Bool.false_eq_true,if_false]
  by_cases hneg : n.findKeyIndex key < 0
  · have hlow := hsplit.low
    rw [if_pos hneg]
    omega
  · have hle := hsplit.below (n.findKeyIndex key).toNat (by omega)
    rw [if_neg hneg,if_pos ⟨hsplit.high,hle⟩]

omit [LinearOrder K] in
theorem getChild_eq {n : BTreeNode K V} (hleaf : n.isLeaf = false) {i : ℕ}
    (hi : i < n.childCount) : n.getChild i = n.children i := by
  simp only [getChild,hleaf]
  rw [if_neg]
  simp only [Bool.false_eq_true,false_or,not_le]
  exact hi

/-- The leaf has the key at the index found, or nowhere. -/
theorem mem_entries_iff {n : BTreeNode K V} (h : n.Increasing) (key : K) (v : V) :
    (key,v) ∈ n.entries ↔ n.hasKeyAt (n.findKeyIndex key) key = true ∧
      v = n.values (n.findKeyIndex key).toNat := by
  have hsplit := findKeyIndex_splits h key
  simp only [hasKeyAt,Bool.and_eq_true,decide_eq_true_eq,entries,List.mem_map,List.mem_range,
    Prod.mk.injEq]
  constructor
  · rintro ⟨i,hi,hkey,hv⟩
    have hle : (i : ℤ) ≤ n.findKeyIndex key := by
      by_contra hlt
      have habove := hsplit.above i (by omega) hi
      rw [hkey] at habove
      exact lt_irrefl _ habove
    have heq : i = (n.findKeyIndex key).toNat := by
      by_contra hne
      have hlt : i < (n.findKeyIndex key).toNat := by omega
      have hbelow := hsplit.below (n.findKeyIndex key).toNat (by omega)
      have hhigh := hsplit.high
      have hinc := h i _ hlt (by omega)
      rw [hkey] at hinc
      exact lt_irrefl _ (hinc.trans_le hbelow)
    rw [← heq]
    exact ⟨⟨⟨by omega,hsplit.high⟩,hkey⟩,hv.symm⟩
  · rintro ⟨⟨⟨hpos,hhigh⟩,hkey⟩,hv⟩
    exact ⟨(n.findKeyIndex key).toNat,by omega,hkey,hv.symm⟩

end BTreeNode

namespace BTree

variable {K V : Type} [LinearOrder K] [Inhabited K] [Inhabited V]

/-- The node on a page, as `getNode` gives it. -/
def nodeAt (s : PageStore K V) (pid : PageId) : Option (BTreeNode K V) :=
  if pid = invalidPageId then none else (s.pages.lookup pid).map (BTreeNode.deserialize pid)

/-- What a list of leaves holds. -/
def entriesOf (leaves : List (BTreeNode K V)) : List (K × V) := leaves.flatMap BTreeNode.entries

/-- The page is the root of a tree of node pages with these leaves. -/
inductive Subtree (s : PageStore K V) : PageId → List (BTreeNode K V) → Prop
  | leaf {pid : PageId} {n : BTreeNode K V} (page : nodeAt s pid = some n)
      (isLeaf : n.isLeaf = true) (increasing : n.Increasing) : Subtree s pid [n]
  | inner {pid : PageId} {n : BTreeNode K V} (parts : ℕ → List (BTreeNode K V))
      (page : nodeAt s pid = some n) (notLeaf : n.isLeaf = false) (keyed : 1 ≤ n.keyCount)
      (counts : n.childCount = n.keyCount+1) (increasing : n.Increasing)
      (below : ∀ i ≤ n.keyCount, Subtree s (n.children i) (parts i))
      (bounds : ∀ i ≤ n.keyCount, ∀ e ∈ entriesOf (parts i), n.Bounds i e.1) :
      Subtree s pid ((List.range (n.keyCount+1)).flatMap parts)

/-- Each leaf leads to the next one, the last one nowhere. -/
def Linked : List (BTreeNode K V) → Prop
  | [] => True
  | [n] => n.header.nextId = invalidPageId
  | n::n'::leaves => n.header.nextId = n'.pageId ∧ Linked (n'::leaves)

/-- A tree of any height with these leaves. -/
structure WellFormed (t : BTree K V) (leaves : List (BTreeNode K V)) : Prop where
  tree : Subtree t.store t.rootPageId leaves
  linked : Linked leaves

omit [LinearOrder K] in
theorem getNode_nodeAt (pid : PageId) (t : BTree K V) :
    (getNode pid).run t = .ok (nodeAt t.store pid,t) := getNode_run pid t

omit [LinearOrder K] in
theorem nodeAt_some {s : PageStore K V} {pid : PageId} {n : BTreeNode K V}
    (h : nodeAt s pid = some n) : pid ≠ invalidPageId ∧ n.pageId = pid ∧ n.dirty = false := by
  unfold nodeAt at h
  split_ifs at h with hpid
  obtain ⟨image,_,rfl⟩ := Option.map_eq_some_iff.mp h
  exact ⟨hpid,deserialize_pageId pid image,deserialize_dirty pid image⟩

omit [LinearOrder K] [Inhabited K] [Inhabited V] in
theorem entriesOf_append (leaves leaves' : List (BTreeNode K V)) :
    entriesOf (leaves++leaves') = entriesOf leaves++entriesOf leaves' := List.flatMap_append

omit [LinearOrder K] [Inhabited K] [Inhabited V] in
theorem mem_entriesOf_parts {parts : ℕ → List (BTreeNode K V)} {is : List ℕ} {e : K × V} :
    e ∈ entriesOf (is.flatMap parts) ↔ ∃ i ∈ is, e ∈ entriesOf (parts i) := by
  simp only [entriesOf,List.mem_flatMap]
  constructor
  · rintro ⟨n,⟨i,hi,hn⟩,he⟩
    exact ⟨i,hi,n,hn,he⟩
  · rintro ⟨i,hi,n,hn,he⟩
    exact ⟨n,⟨i,hi,hn⟩,he⟩

theorem range_split {c m : ℕ} (h : c ≤ m) :
    List.range (m+1) = List.range c++c::List.range' (c+1) (m-c) := by
  obtain ⟨d,rfl⟩ := Nat.exists_eq_add_of_le h
  have hsplit : c+d+1 = c+(d+1) := rfl
  rw [hsplit,List.range_add,Nat.add_sub_cancel_left,← List.range'_eq_map_range,List.range'_succ]

section Search

variable {t : BTree K V} {key : K}

/-- The leaf that a search for the key ends in: what stands before it in the tree is less than the
key, what stands behind it is greater. -/
structure Found (leaves : List (BTreeNode K V)) (key : K) (leaf : BTreeNode K V) : Prop where
  isLeaf : leaf.isLeaf = true
  increasing : leaf.Increasing
  place : ∃ before behind, leaves = before++leaf::behind ∧
    (∀ e ∈ entriesOf before, e.1 < key) ∧ ∀ e ∈ entriesOf behind, key < e.1

omit [Inhabited K] [Inhabited V] in
theorem Found.mem_iff {leaves : List (BTreeNode K V)} {leaf : BTreeNode K V}
    (h : Found leaves key leaf) (v : V) :
    (key,v) ∈ entriesOf leaves ↔ (key,v) ∈ leaf.entries := by
  obtain ⟨before,behind,rfl,hbefore,hbehind⟩ := h.place
  have hcons : entriesOf (leaf::behind) = leaf.entries++entriesOf behind := rfl
  rw [entriesOf_append,hcons,List.mem_append,List.mem_append]
  constructor
  · rintro (hmem | hmem | hmem)
    · exact absurd (hbefore _ hmem) (lt_irrefl _)
    · exact hmem
    · exact absurd (hbehind _ hmem) (lt_irrefl _)
  · exact fun hmem => Or.inr (Or.inl hmem)

omit [Inhabited K] [Inhabited V] in
/-- The search passes from a node to the child behind the index found. -/
theorem Found.of_child {n : BTreeNode K V} {parts : ℕ → List (BTreeNode K V)} {c : ℕ}
    {leaf : BTreeNode K V} (hinc : n.Increasing) (hc : (c : ℤ) = n.findKeyIndex key+1)
    (hbounds : ∀ i ≤ n.keyCount, ∀ e ∈ entriesOf (parts i), n.Bounds i e.1)
    (h : Found (parts c) key leaf) :
    Found ((List.range (n.keyCount+1)).flatMap parts) key leaf := by
  obtain ⟨before,behind,hparts,hbefore,hbehind⟩ := h.place
  have hsplit := BTreeNode.findKeyIndex_splits hinc key
  have hhigh := hsplit.high
  have hle : c ≤ n.keyCount := by omega
  refine ⟨h.isLeaf,h.increasing,(List.range c).flatMap parts++before,
    behind++(List.range' (c+1) (n.keyCount-c)).flatMap parts,?_,?_,?_⟩
  · rw [range_split hle,List.flatMap_append,List.flatMap_cons,hparts]
    simp only [List.append_assoc,List.cons_append]
  · intro e he
    rw [entriesOf_append,List.mem_append,mem_entriesOf_parts] at he
    rcases he with ⟨i,hi,he⟩ | he
    · have hi' := List.mem_range.mp hi
      exact ((hbounds i (by omega) e he).2 (by omega)).trans_le (hsplit.below i (by omega))
    · exact hbefore e he
  · intro e he
    rw [entriesOf_append,List.mem_append,mem_entriesOf_parts] at he
    rcases he with he | ⟨i,hi,he⟩
    · exact hbehind e he
    · obtain ⟨hlow,hupto⟩ := List.mem_range'_1.mp hi
      have habove := hsplit.above (i-1) (by omega) (by omega)
      exact habove.trans_le ((hbounds i (by omega) e he).1 (i-1) (by omega))

theorem findLeafFrom_run {s : PageStore K V} {pid : PageId} {leaves : List (BTreeNode K V)}
    (h : Subtree s pid leaves) (hs : t.store = s) (key : K) :
    ∃ depth leaf, nodeAt s leaf.pageId = some leaf ∧ Found leaves key leaf ∧
      ∀ fuel ≥ depth, (findLeafFrom key fuel (nodeAt s pid)).run t = .ok (some leaf,t) := by
  induction h with
  | @leaf pid n page isLeaf increasing =>
    have hpage : nodeAt s n.pageId = some n := by
      rw [(nodeAt_some page).2.1]
      exact page
    refine ⟨1,n,hpage,⟨isLeaf,increasing,[],[],rfl,by simp [entriesOf],by simp [entriesOf]⟩,?_⟩
    intro fuel hfuel
    obtain ⟨fuel,rfl⟩ := Nat.exists_eq_add_of_le' hfuel
    rw [page,findLeafFrom,isLeaf]
    rfl
  | @inner pid n parts page notLeaf keyed counts increasing below bounds ih =>
    have hsplit := BTreeNode.findKeyIndex_splits increasing key
    have hchild := BTreeNode.findChildIndex_eq increasing notLeaf key
    have hlow := hsplit.low
    have hhigh := hsplit.high
    have hcount : n.keyCount+1 < 65536 := counts ▸ n.header.childCount.toNat_lt
    obtain ⟨c,hc⟩ : ∃ c : ℕ, (c : ℤ) = n.findKeyIndex key+1 :=
      ⟨(n.findKeyIndex key+1).toNat,Int.toNat_of_nonneg (by omega)⟩
    have hcle : c ≤ n.keyCount := by omega
    obtain ⟨depth,leaf,hleaf,hfound,hrun⟩ := ih c hcle
    refine ⟨depth+1,leaf,hleaf,hfound.of_child increasing hc bounds,?_⟩
    intro fuel hfuel
    obtain ⟨fuel,rfl⟩ : ∃ k, fuel = k+1 := ⟨fuel-1,by omega⟩
    have hindex : BTreeNode.toIndex (n.findChildIndex key) = c := by
      rw [hchild,← hc,BTreeNode.toIndex]
      omega
    have hget := BTreeNode.getChild_eq notLeaf (show c < n.childCount by omega)
    have hnode := getNode_nodeAt (n.children c) t
    rw [page,findLeafFrom,notLeaf,hindex,hget]
    simp only [Bool.false_eq_true,if_false]
    rw [run_bind_ok hnode,hs]
    exact hrun fuel (by omega)

/-- Where a search for the key ends in a well-formed tree. -/
theorem WellFormed.findLeaf_run {leaves : List (BTreeNode K V)} (h : WellFormed t leaves)
    (key : K) :
    ∃ depth leaf, nodeAt t.store leaf.pageId = some leaf ∧ Found leaves key leaf ∧
      ∀ fuel ≥ depth, (findLeaf fuel key).run t = .ok (some leaf,t) := by
  obtain ⟨depth,leaf,hpage,hfound,hrun⟩ := findLeafFrom_run (t := t) h.tree rfl key
  refine ⟨depth,leaf,hpage,hfound,?_⟩
  intro fuel hfuel
  rw [findLeaf,run_get_bind,run_bind_ok (getNode_nodeAt t.rootPageId t)]
  exact hrun fuel hfuel

/-- In a well-formed tree a search ends; it finds the value that the leaves have under the key, and
nothing if they have none. -/
theorem find_correct {leaves : List (BTreeNode K V)} (h : WellFormed t leaves) (key : K) :
    ∃ depth r, (∀ fuel ≥ depth, (find fuel key).run t = .ok (r,t)) ∧
      (∀ v, r = (.ok,some v) ↔ (key,v) ∈ entriesOf leaves) ∧
      ((∀ v, (key,v) ∉ entriesOf leaves) → r = (.notFound,none)) := by
  obtain ⟨depth,leaf,_,hfound,hrun⟩ := h.findLeaf_run key
  have hentry := fun v => (hfound.mem_iff v).trans
    (BTreeNode.mem_entries_iff hfound.increasing key v)
  by_cases hhas : leaf.hasKeyAt (leaf.findKeyIndex key) key = true
  · let value := leaf.values (leaf.findKeyIndex key).toNat
    have hget : leaf.getValue (leaf.findKeyIndex key).toNat = some value := by
      simp only [BTreeNode.hasKeyAt,Bool.and_eq_true,decide_eq_true_eq] at hhas
      simp only [BTreeNode.getValue]
      exact if_pos ⟨hfound.isLeaf,by omega⟩
    refine ⟨depth,(.ok,some value),?_,?_,?_⟩
    · intro fuel hfuel
      rw [find,run_bind_ok (hrun fuel hfuel)]
      simp only [hhas,if_true,hget]
      rfl
    · intro v
      rw [hentry v,and_iff_right hhas,Prod.mk.injEq,and_iff_right rfl,Option.some.injEq,eq_comm]
    · intro hnone
      exact absurd ((hentry value).mpr ⟨hhas,rfl⟩) (hnone value)
  · refine ⟨depth,(.notFound,none),?_,?_,fun _ => rfl⟩
    · intro fuel hfuel
      rw [find,run_bind_ok (hrun fuel hfuel)]
      simp only [hhas,Bool.false_eq_true,if_false]
      rfl
    · intro v
      rw [hentry v]
      simp [hhas]

end Search

/-- A root above two leaves. -/
theorem wellFormed_two_leaves {t : BTree K V} {root left right : BTreeNode K V}
    (page : nodeAt t.store t.rootPageId = some root) (notLeaf : root.isLeaf = false)
    (keyed : root.keyCount = 1) (counts : root.childCount = 2)
    (hleft : Subtree t.store (root.children 0) [left])
    (hright : Subtree t.store (root.children 1) [right])
    (hbelow : ∀ e ∈ entriesOf [left], e.1 < root.keys 0)
    (habove : ∀ e ∈ entriesOf [right], root.keys 0 ≤ e.1)
    (linked : Linked [left,right]) : WellFormed t [left,right] := by
  refine ⟨?_,linked⟩
  have hparts : [left,right] = (List.range (root.keyCount+1)).flatMap
      fun i => if i = 0 then [left] else [right] := by
    rw [keyed]
    rfl
  rw [hparts]
  refine .inner _ page notLeaf keyed.ge (by rw [counts,keyed]) ?_ ?_ ?_
  · intro i j hij hj
    omega
  · intro i hi
    rw [keyed] at hi
    interval_cases i
    · exact hleft
    · exact hright
  · intro i hi e he
    rw [keyed] at hi
    interval_cases i
    · exact ⟨fun j hj => by omega,fun _ => hbelow e he⟩
    · refine ⟨fun j hj => ?_,fun hlt => by omega⟩
      obtain rfl : j = 0 := by omega
      exact habove e he

section Sample

/-- A leaf with two keys from `first` on, each with itself as its value. -/
def sampleLeaf (pid next prev : PageId) (first : ℕ) : BTreeNode ℤ RecordId :=
  ⟨pid,⟨.leaf,2,0,1,next,prev,0⟩,fun i => first+i,fun i => first+i,fun _ => invalidPageId,false⟩

def sampleRoot : BTreeNode ℤ RecordId :=
  ⟨1,⟨.root,1,2,invalidPageId,invalidPageId,invalidPageId,1⟩,fun _ => 10,fun _ => 0,fun i => i+2,
    false⟩

def sampleLeaves : List (BTreeNode ℤ RecordId) :=
  [sampleLeaf 2 3 invalidPageId 5,sampleLeaf 3 invalidPageId 2 10]

/-- A root above two leaves. -/
def sampleTree : BTree ℤ RecordId where
  config := ⟨true⟩
  rootPageId := 1
  store := ⟨(((∅ : Finmap fun _ : PageId => NodeImage ℤ RecordId).insert 1
    sampleRoot.serialize).insert 2 (sampleLeaf 2 3 invalidPageId 5).serialize).insert 3
    (sampleLeaf 3 invalidPageId 2 10).serialize,4⟩

theorem sampleLeaf_subtree (pid next prev : PageId) (first : ℕ)
    (h : nodeAt sampleTree.store pid = some (sampleLeaf pid next prev first)) :
    Subtree sampleTree.store pid [sampleLeaf pid next prev first] := by
  refine .leaf h rfl ?_
  intro i j hij _
  change (first : ℤ)+i < first+j
  omega

theorem sampleTree_wellFormed : WellFormed sampleTree sampleLeaves := by
  have hroot : nodeAt sampleTree.store 1 = some sampleRoot := rfl
  exact wellFormed_two_leaves hroot rfl rfl rfl (sampleLeaf_subtree 2 3 invalidPageId 5 rfl)
    (sampleLeaf_subtree 3 invalidPageId 2 10 rfl) (by decide) (by decide) ⟨rfl,rfl⟩

theorem find_correct_sample :
    ∃ depth, ∀ fuel ≥ depth,
      (find fuel 11).run sampleTree = .ok ((.ok,some 11),sampleTree) := by
  obtain ⟨depth,r,hrun,hok,_⟩ := find_correct sampleTree_wellFormed 11
  obtain rfl := (hok 11).mpr (by decide)
  exact ⟨depth,hrun⟩

end Sample

end BTree
end OrangeSQL
