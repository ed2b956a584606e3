import OrangeSQL.BTreePages

/-! The path of a search through a tree, and the tree after the leaf at its end was changed. -/
namespace OrangeSQL
namespace BTree

variable {K V : Type}

section Writes

variable [Inhabited K] [Inhabited V] {t : BTree K V} {n : BTreeNode K V}

/-- The tree with a node written to its page. -/
def withNode (t : BTree K V) (n : BTreeNode K V) : BTree K V :=
  { t with store.pages := t.store.pages.insert n.pageId n.serialize }

/-- A node as it comes back from its page. -/
def reread (n : BTreeNode K V) : BTreeNode K V := BTreeNode.deserialize n.pageId n.serialize

omit [Inhabited K] [Inhabited V] in
theorem releaseNode_withNode (hdirty : n.dirty = true) (hmem : n.pageId ∈ t.store.pages) :
    (releaseNode n).run t = .ok ((),t.withNode n) := releaseNode_run hdirty hmem

omit [Inhabited K] [Inhabited V] in
theorem releaseNode_clean (hclean : n.dirty = false) : (releaseNode n).run t = .ok ((),t) := by
  simp only [releaseNode,hclean,Bool.false_eq_true,if_false]
  rfl

theorem nodeAt_withNode_self (hvalid : n.pageId ≠ invalidPageId) :
    nodeAt (t.withNode n).store n.pageId = some (reread n) := nodeAt_insert_self hvalid

theorem nodeAt_withNode_of_ne {q : PageId} (h : q ≠ n.pageId) :
    nodeAt (t.withNode n).store q = nodeAt t.store q := nodeAt_insert_of_ne _ h

@[simp] theorem reread_header (n : BTreeNode K V) : (reread n).header = n.header :=
  deserialize_header _ _
@[simp] theorem reread_pageId (n : BTreeNode K V) : (reread n).pageId = n.pageId :=
  deserialize_pageId _ _
@[simp] theorem reread_keyCount (n : BTreeNode K V) : (reread n).keyCount = n.keyCount := by
  simp [BTreeNode.keyCount]
@[simp] theorem reread_childCount (n : BTreeNode K V) : (reread n).childCount = n.childCount := by
  simp [BTreeNode.childCount]
@[simp] theorem reread_isLeaf (n : BTreeNode K V) : (reread n).isLeaf = n.isLeaf := by
  simp [BTreeNode.isLeaf]

@[simp] theorem reread_keys (n : BTreeNode K V) : (reread n).keys = n.keys := by
  cases h : n.isLeaf <;> simp [reread,BTreeNode.deserialize,BTreeNode.serialize,h]

theorem reread_values (hleaf : n.isLeaf = true) : (reread n).values = n.values := by
  simp [reread,BTreeNode.deserialize,BTreeNode.serialize,hleaf]

theorem reread_children (hinner : n.isLeaf = false) : (reread n).children = n.children :=
  deserialize_serialize_children hinner _

theorem reread_entries (hleaf : n.isLeaf = true) : (reread n).entries = n.entries := by
  simp [BTreeNode.entries,reread_values hleaf]

theorem reread_increasing [LinearOrder K] (h : n.Increasing) : (reread n).Increasing := by
  intro i j hij hj
  rw [reread_keys]
  exact h i j hij (by simpa using hj)

end Writes

section Paths

variable [LinearOrder K] [Inhabited K] [Inhabited V] {s s' : PageStore K V} {pid : PageId}
  {leaves : List (BTreeNode K V)} {key : K}

open BTreeNode (toIndex)

/-- The nodes that a search for the key comes through, and the leaf where it ends. -/
inductive SearchPath (s : PageStore K V) (key : K) :
    PageId → List (BTreeNode K V) → BTreeNode K V → Prop
  | leaf {pid : PageId} {n : BTreeNode K V} (page : nodeAt s pid = some n)
      (isLeaf : n.isLeaf = true) : SearchPath s key pid [] n
  | inner {pid : PageId} {n leaf : BTreeNode K V} {nodes : List (BTreeNode K V)}
      (page : nodeAt s pid = some n) (notLeaf : n.isLeaf = false)
      (below : SearchPath s key (n.getChild (toIndex (n.findChildIndex key))) nodes leaf) :
      SearchPath s key pid (n::nodes) leaf

theorem SearchPath.unique {nodes nodes' : List (BTreeNode K V)} {leaf leaf' : BTreeNode K V}
    (h : SearchPath s key pid nodes leaf) (h' : SearchPath s key pid nodes' leaf') :
    nodes' = nodes ∧ leaf' = leaf := by
  induction h generalizing nodes' with
  | @leaf pid n page isLeaf =>
    cases h' with
    | leaf page' => exact ⟨rfl,Option.some.inj (page'.symm.trans page)⟩
    | inner page' notLeaf =>
      obtain rfl := Option.some.inj (page.symm.trans page')
      exact absurd isLeaf (by simp [notLeaf])
  | @inner pid n leaf nodes page notLeaf below ih =>
    cases h' with
    | leaf page' isLeaf =>
      obtain rfl := Option.some.inj (page.symm.trans page')
      exact absurd isLeaf (by simp [notLeaf])
    | inner page' _ below' =>
      obtain rfl := Option.some.inj (page.symm.trans page')
      obtain ⟨rfl,rfl⟩ := ih below'
      exact ⟨rfl,rfl⟩

theorem SearchPath.root {nodes : List (BTreeNode K V)} {leaf : BTreeNode K V}
    (h : SearchPath s key pid nodes leaf) :
    ∃ n, nodeAt s pid = some n ∧ (n ∈ nodes ∨ n = leaf) := by
  cases h with
  | leaf page => exact ⟨_,page,Or.inr rfl⟩
  | inner page => exact ⟨_,page,Or.inl List.mem_cons_self⟩

omit [Inhabited K] [Inhabited V] in
/-- The child that the search goes to. -/
theorem child_of_search {n : BTreeNode K V} (increasing : n.Increasing) (notLeaf : n.isLeaf = false)
    (counts : n.childCount = n.keyCount+1) (key : K) : ∃ c ≤ n.keyCount,
      toIndex (n.findChildIndex key) = c ∧ n.getChild c = n.children c ∧
      (c : ℤ) = n.findKeyIndex key+1 ∧ n.Bounds c key := by
  have hsplit := BTreeNode.findKeyIndex_splits increasing key
  have hlow := hsplit.low
  have hhigh := hsplit.high
  have hcount : n.keyCount+1 < 65536 := counts ▸ n.header.childCount.toNat_lt
  obtain ⟨c,hc⟩ : ∃ c : ℕ, (c : ℤ) = n.findKeyIndex key+1 :=
    ⟨(n.findKeyIndex key+1).toNat,Int.toNat_of_nonneg (by omega)⟩
  refine ⟨c,by omega,?_,BTreeNode.getChild_eq notLeaf (by omega),hc,?_,?_⟩
  · rw [BTreeNode.findChildIndex_eq increasing notLeaf key,← hc,BTreeNode.toIndex_natCast (by omega)]
  · intro j hj
    exact hsplit.below j (by omega)
  · intro hlt
    exact hsplit.above c (by omega) hlt

/-- Another leaf on the page of a leaf, with entries that the old one has or that belong to the key. -/
structure LeafChange (s s' : PageStore K V) (key : K) (leaf leaf' : BTreeNode K V) : Prop where
  page : nodeAt s' leaf.pageId = some leaf'
  isLeaf : leaf'.isLeaf = true
  increasing : leaf'.Increasing
  entries : ∀ e ∈ leaf'.entries, e.1 = key ∨ e ∈ leaf.entries
  others : ∀ q ≠ leaf.pageId, nodeAt s' q = nodeAt s q

/-- The path to a leaf for the key, its place among the leaves, and the tree after it was changed. -/
structure KeyLeaf (s : PageStore K V) (pid : PageId) (leaves : List (BTreeNode K V)) (key : K)
    (nodes : List (BTreeNode K V)) (leaf : BTreeNode K V) (before behind : List (BTreeNode K V)) :
    Prop where
  path : SearchPath s key pid nodes leaf
  page : nodeAt s leaf.pageId = some leaf
  isLeaf : leaf.isLeaf = true
  increasing : leaf.Increasing
  place : leaves = before++leaf::behind
  before_lt : ∀ e ∈ entriesOf before, e.1 < key
  lt_behind : ∀ e ∈ entriesOf behind, key < e.1
  change : ∀ s' leaf', LeafChange s s' key leaf leaf' → Subtree s' pid (before++leaf'::behind)

theorem Subtree.keyLeaf (h : Subtree s pid leaves) (hnodup : leaves.Nodup) (key : K) :
    ∃ nodes leaf before behind, KeyLeaf s pid leaves key nodes leaf before behind := by
  induction h with
  | @leaf pid n page isLeaf increasing =>
    have hpage : n.pageId = pid := (nodeAt_some page).2.1
    refine ⟨[],n,[],[],.leaf page isLeaf,by rw [hpage]; exact page,isLeaf,increasing,rfl,
      by simp [entriesOf],by simp [entriesOf],?_⟩
    intro s' leaf' hchange
    exact .leaf (hpage ▸ hchange.page) hchange.isLeaf hchange.increasing
  | @inner pid n parts page notLeaf keyed counts increasing below bounds ih =>
    obtain ⟨c,hc,hindex,hget,hsearch,hkey⟩ := child_of_search increasing notLeaf counts key
    have hsplit := BTreeNode.findKeyIndex_splits increasing key
    have hpart : (parts c).Nodup :=
      (List.nodup_flatMap.mp hnodup).1 c (List.mem_range.mpr (by omega))
    obtain ⟨nodes,leaf,before,behind,hleaf⟩ := ih c hc hpart
    refine ⟨n::nodes,leaf,(List.range c).flatMap parts++before,
      behind++(List.range' (c+1) (n.keyCount-c)).flatMap parts,?_⟩
    constructor
    case path =>
      refine .inner page notLeaf ?_
      rw [hindex,hget]
      exact hleaf.path
    case page => exact hleaf.page
    case isLeaf => exact hleaf.isLeaf
    case increasing => exact hleaf.increasing
    case place =>
      rw [flatMap_split parts hc,hleaf.place]
      simp only [List.append_assoc,List.cons_append]
    case before_lt =>
      intro e he
      rw [entriesOf_append,List.mem_append,mem_entriesOf_parts] at he
      rcases he with ⟨i,hi,he⟩ | he
      · have hi' := List.mem_range.mp hi
        exact ((bounds i (by omega) e he).2 (by omega)).trans_le (hsplit.below i (by omega))
      · exact hleaf.before_lt e he
    case lt_behind =>
      intro e he
      rw [entriesOf_append,List.mem_append,mem_entriesOf_parts] at he
      rcases he with he | ⟨i,hi,he⟩
      · exact hleaf.lt_behind e he
      · obtain ⟨hlow,hupto⟩ := List.mem_range'_1.mp hi
        have habove := hsplit.above (i-1) (by omega) (by omega)
        exact habove.trans_le ((bounds i (by omega) e he).1 (i-1) (by omega))
    case change =>
      intro s' leaf' hchange
      have hne : pid ≠ leaf.pageId := by
        rintro rfl
        obtain rfl := Option.some.inj (page.symm.trans hleaf.page)
        exact absurd hleaf.isLeaf (by simp [notLeaf])
      have hmem : leaf ∈ parts c := by
        rw [hleaf.place]
        simp
      have hplace : (List.range c).flatMap parts++before++leaf'::
          (behind++(List.range' (c+1) (n.keyCount-c)).flatMap parts) =
          (List.range (n.keyCount+1)).flatMap (Function.update parts c (before++leaf'::behind)) := by
        rw [flatMap_update _ _ hc]
        simp only [List.append_assoc,List.cons_append]
      rw [hplace]
      refine .inner _ ((hchange.others pid hne).trans page) notLeaf keyed counts increasing ?_ ?_
      · intro i hi
        rcases eq_or_ne i c with rfl | hic
        · rw [Function.update_self]
          exact hleaf.change s' leaf' hchange
        · rw [Function.update_of_ne hic]
          obtain ⟨own,hown⟩ := (below i hi).reads
          refine (below i hi).frame_pages hown fun q hq => hchange.others q ?_
          rintro rfl
          obtain ⟨part,hpart,hsub,_⟩ := (below i hi).of_mem_pages hown hq
          rw [hpart.eq_leaf hleaf.page hleaf.isLeaf] at hsub
          exact disjoint_of_nodup hnodup hi hc hic leaf (hsub leaf (List.mem_singleton.mpr rfl)) hmem
      · intro i hi e he
        rcases eq_or_ne i c with rfl | hic
        · rw [Function.update_self,entriesOf_append,List.mem_append] at he
          have hold : e.1 = key ∨ e ∈ entriesOf (parts i) := by
            rw [hleaf.place,entriesOf_append,List.mem_append]
            rcases he with he | he
            · exact Or.inr (Or.inl he)
            · rcases List.mem_append.mp he with he | he
              · refine (hchange.entries e he).imp_right fun he => Or.inr ?_
                exact List.mem_append_left _ he
              · exact Or.inr (Or.inr (List.mem_append_right _ he))
          rcases hold with hold | hold
          · rw [hold]
            exact hkey
          · exact bounds i hi e hold
        · rw [Function.update_of_ne hic] at he
          exact bounds i hi e he

omit [LinearOrder K] [Inhabited K] [Inhabited V] in
theorem Linked.replace {leaf leaf' : BTreeNode K V} {before behind : List (BTreeNode K V)}
    (h : Linked (before++leaf::behind)) (hpage : leaf'.pageId = leaf.pageId)
    (hnext : leaf'.header.nextId = leaf.header.nextId) : Linked (before++leaf'::behind) := by
  induction before with
  | nil =>
    cases behind with
    | nil => exact hnext.trans h
    | cons n behind => exact ⟨hnext.trans h.1,h.2⟩
  | cons n before ih =>
    cases before with
    | nil => exact ⟨h.1.trans hpage.symm,ih h.2⟩
    | cons m before => exact ⟨h.1,ih h.2⟩

/-- A tree stays well-formed when the leaf for a key is written back with other entries. -/
theorem WellFormed.withLeafNode {t : BTree K V} (h : WellFormed t leaves)
    {nodes before behind : List (BTreeNode K V)} {leaf m : BTreeNode K V}
    (hleaf : KeyLeaf t.store t.rootPageId leaves key nodes leaf before behind)
    (hpage : m.pageId = leaf.pageId) (hnext : m.header.nextId = leaf.header.nextId)
    (hisLeaf : m.isLeaf = true) (hincreasing : m.Increasing)
    (hentries : ∀ e ∈ m.entries, e.1 = key ∨ e ∈ leaf.entries) :
    WellFormed (t.withNode m) (before++reread m::behind) := by
  have hvalid : m.pageId ≠ invalidPageId := hpage ▸ (nodeAt_some hleaf.page).1
  constructor
  · refine hleaf.change (t.withNode m).store (reread m) ⟨?_,by simpa using hisLeaf,
      reread_increasing hincreasing,?_,?_⟩
    · rw [← hpage]
      exact nodeAt_withNode_self hvalid
    · rw [reread_entries hisLeaf]
      exact hentries
    · intro q hq
      exact nodeAt_withNode_of_ne (hpage ▸ hq)
  · have hlinked := h.linked
    rw [hleaf.place] at hlinked
    exact hlinked.replace (by simpa using hpage) (by simpa using hnext)

end Paths

end BTree
end OrangeSQL
