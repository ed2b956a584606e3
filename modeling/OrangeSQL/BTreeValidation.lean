import OrangeSQL.BTreeRemoval

/-! The check of the tree. Below a child it compares keys with the separators around the child, all
others with the bounds it starts from. Between bounds of its keys it accepts a tree exactly if its nodes
are full enough, but the call from outside starts it with the default key for both bounds. -/
namespace OrangeSQL
namespace BTreeNode

variable {K V : Type} [LinearOrder K]

def isRoot (n : BTreeNode K V) : Bool := n.header.type = .root

/-- The bounds for the keys below a child. -/
def childMin (n : BTreeNode K V) (minKey : K) (i : ℕ) : K := if i = 0 then minKey else n.keys (i-1)

def childMax (n : BTreeNode K V) (maxKey : K) (i : ℕ) : K :=
  if i = n.keyCount then maxKey else n.keys i

/-- The first key that is less than the one before it. -/
def outOfOrderAt (n : BTreeNode K V) : Option ℕ :=
  (List.range' 1 (n.keyCount-1)).find? fun i => n.keys i < n.keys (i-1)

/-- The message for what is wrong with the node itself. -/
def complaint (n : BTreeNode K V) (minKey maxKey : K) : Option String :=
  if maxKeys < n.keyCount then some ("Node has too many keys: "++toString n.keyCount)
  else if !n.isRoot ∧ n.keyCount < minKeys then
    some ("Node has too few keys: "++toString n.keyCount)
  else
    match n.outOfOrderAt with
    | some i => some ("Keys out of order at index "++toString i)
    | none =>
      if 0 < n.keyCount ∧ n.keys 0 < minKey then some "Key below minimum bound"
      else if 0 < n.keyCount ∧ maxKey < n.keys (n.keyCount-1) then some "Key above maximum bound"
      else none

/-- Not more keys than there is room for, and not less than half of that in a node that is no root. -/
def Sized (n : BTreeNode K V) : Prop :=
  n.keyCount ≤ maxKeys ∧ (n.isRoot = false → minKeys ≤ n.keyCount)

theorem Increasing.monotone {n : BTreeNode K V} (h : n.Increasing) {i j : ℕ} (hij : i ≤ j)
    (hj : j < n.keyCount) : n.keys i ≤ n.keys j := by
  rcases Nat.eq_or_lt_of_le hij with rfl | hlt
  · exact le_rfl
  · exact (h i j hlt hj).le

end BTreeNode

namespace BTree

variable {K V : Type} [LinearOrder K] [Inhabited K] [Inhabited V]

open BTreeNode (minKeys maxKeys Sized)

section Definitions

def validateChildren (validateNode : BTreeNode K V → K → K → TreeM K V (Option String))
    (n : BTreeNode K V) (minKey maxKey : K) : List ℕ → TreeM K V (Option String)
  | [] => return none
  | i::is => do
    match ← getNode (n.getChild i) with
    | none => return some ("Missing child at index "++toString i)
    | some child =>
      let message ← validateNode child (n.childMin minKey i) (n.childMax maxKey i)
      releaseNode child
      match message with
      | some message => return some message
      | none => validateChildren validateNode n minKey maxKey is

/-- The call returns false exactly if it has written a message, one for the first fault it meets. -/
def validateNode : ℕ → BTreeNode K V → K → K → TreeM K V (Option String)
  | 0, _, _, _ => throw .outOfFuel
  | fuel+1, n, minKey, maxKey =>
    match n.complaint minKey maxKey with
    | some message => return some message
    | none =>
      if n.isLeaf then return none
      else validateChildren (validateNode fuel) n minKey maxKey (List.range (n.keyCount+1))

/-- The source gives nothing back here: the message is all that comes of it. -/
def validate (fuel : ℕ) : TreeM K V (Option String) := do
  match ← getNode (← get).rootPageId with
  | none => return none
  | some root =>
    let message ← validateNode fuel root default default
    releaseNode root
    return message

/-- The nodes from the page on have the right numbers of keys. -/
def Occupied (s : PageStore K V) (pid : PageId) : Prop :=
  ∀ q n, Within s pid q → nodeAt s q = some n → n.Sized

end Definitions

section Nodes

variable {n : BTreeNode K V} {minKey maxKey : K}

omit [Inhabited K] [Inhabited V] in
theorem outOfOrderAt_of_increasing (h : n.Increasing) : n.outOfOrderAt = none := by
  rw [BTreeNode.outOfOrderAt,List.find?_eq_none]
  intro i hi
  obtain ⟨hlow,hhigh⟩ := List.mem_range'_1.mp hi
  have hlt := h (i-1) i (by omega) (by omega)
  simpa using hlt.le

omit [Inhabited K] [Inhabited V] in
theorem complaint_eq_none_iff (h : n.Increasing) : n.complaint minKey maxKey = none ↔
    n.Sized ∧ (0 < n.keyCount → minKey ≤ n.keys 0 ∧ n.keys (n.keyCount-1) ≤ maxKey) := by
  rw [BTreeNode.complaint,outOfOrderAt_of_increasing h,Sized]
  split_ifs with hmany hfew hlow hhigh
  · simp [Nat.not_le.mpr hmany]
  · have hsmall : ¬ (n.isRoot = false → minKeys ≤ n.keyCount) := by
      intro hroot
      exact absurd (hroot (by simpa using hfew.1)) (Nat.not_le.mpr hfew.2)
    simp [hsmall]
  · refine iff_of_false id fun hgood => ?_
    exact absurd hlow.2 (not_lt.mpr (hgood.2 hlow.1).1)
  · refine iff_of_false id fun hgood => ?_
    exact absurd hhigh.2 (not_lt.mpr (hgood.2 hhigh.1).2)
  · simp only [true_iff]
    refine ⟨⟨Nat.not_lt.mp hmany,fun hroot => ?_⟩,fun hpos => ⟨?_,?_⟩⟩
    · by_contra hless
      exact hfew ⟨by simp [hroot],Nat.not_le.mp hless⟩
    · by_contra hless
      exact hlow ⟨hpos,not_le.mp hless⟩
    · by_contra hless
      exact hhigh ⟨hpos,not_le.mp hless⟩

end Nodes

section Pages

variable {s : PageStore K V} {pid : PageId} {leaves : List (BTreeNode K V)} {n : BTreeNode K V}

omit [LinearOrder K] in
theorem Within.of_child {q : PageId} (page : nodeAt s pid = some n) (notLeaf : n.isLeaf = false) {i : ℕ}
    (hi : i ≤ n.keyCount) (h : Within s (n.children i) q) : Within s pid q := by
  induction h with
  | root => exact .child .root page notLeaf hi
  | child _ page' notLeaf' hi' ih => exact .child ih page' notLeaf' hi'

omit [LinearOrder K] in
theorem Within.cases_child {q : PageId} (page : nodeAt s pid = some n) (h : Within s pid q) :
    q = pid ∨ n.isLeaf = false ∧ ∃ i ≤ n.keyCount, Within s (n.children i) q := by
  induction h with
  | root => exact Or.inl rfl
  | @child q m j above page' notLeaf' hj ih =>
    right
    rcases ih with rfl | ⟨notLeaf,i,hi,hwithin⟩
    · obtain rfl := Option.some.inj (page.symm.trans page')
      exact ⟨notLeaf',j,hj,.root⟩
    · exact ⟨notLeaf,i,hi,.child hwithin page' notLeaf' hj⟩

omit [LinearOrder K] in
theorem occupied_leaf (page : nodeAt s pid = some n) (isLeaf : n.isLeaf = true) :
    Occupied s pid ↔ n.Sized := by
  refine ⟨fun h => h pid n .root page,fun h q m hq hm => ?_⟩
  rcases hq.cases_child page with rfl | ⟨notLeaf,_⟩
  · obtain rfl := Option.some.inj (page.symm.trans hm)
    exact h
  · rw [isLeaf] at notLeaf
    cases notLeaf

omit [LinearOrder K] in
theorem occupied_inner (page : nodeAt s pid = some n) (notLeaf : n.isLeaf = false) :
    Occupied s pid ↔ n.Sized ∧ ∀ i ≤ n.keyCount, Occupied s (n.children i) := by
  constructor
  · intro h
    exact ⟨h pid n .root page,fun i hi q m hq hm => h q m (hq.of_child page notLeaf hi) hm⟩
  · rintro ⟨hsized,hbelow⟩ q m hq hm
    rcases hq.cases_child page with rfl | ⟨_,i,hi,hq⟩
    · obtain rfl := Option.some.inj (page.symm.trans hm)
      exact hsized
    · exact hbelow i hi q m hq hm

/-- Half a leaf is more than one entry. -/
theorem Subtree.exists_lt (h : Subtree s pid leaves) (hoccupied : Occupied s pid) :
    ∃ e ∈ entriesOf leaves, ∃ e' ∈ entriesOf leaves, e.1 < e'.1 := by
  induction h with
  | @leaf pid n page isLeaf increasing =>
    have hroot : n.isRoot = false := by
      simp only [BTreeNode.isLeaf,decide_eq_true_eq] at isLeaf
      simp [BTreeNode.isRoot,isLeaf]
    have hcount : 63 ≤ n.keyCount := ((occupied_leaf page isLeaf).mp hoccupied).2 hroot
    have hentry : ∀ i < n.keyCount, (n.keys i,n.values i) ∈ entriesOf [n] := by
      intro i hi
      rw [entriesOf,List.flatMap_singleton]
      exact BTreeNode.mem_entries.mpr ⟨i,hi,rfl⟩
    exact ⟨_,hentry 0 (by omega),_,hentry 1 (by omega),increasing 0 1 (by omega) (by omega)⟩
  | @inner pid n parts page notLeaf keyed counts increasing below bounds ih =>
    obtain ⟨e,he,e',he',hlt⟩ :=
      ih 0 (Nat.zero_le _) (((occupied_inner page notLeaf).mp hoccupied).2 0 (Nat.zero_le _))
    have hpart : ∀ e ∈ entriesOf (parts 0), e ∈ entriesOf ((List.range (n.keyCount+1)).flatMap parts) := by
      intro e he
      exact mem_entriesOf_parts.mpr ⟨0,List.mem_range.mpr (Nat.succ_pos _),he⟩
    exact ⟨e,hpart e he,e',hpart e' he',hlt⟩

end Pages

section Separators

variable {n : BTreeNode K V} {parts : ℕ → List (BTreeNode K V)} {minKey maxKey : K}

omit [Inhabited K] [Inhabited V] in
theorem leaf_within_iff (h : n.Increasing) :
    (0 < n.keyCount → minKey ≤ n.keys 0 ∧ n.keys (n.keyCount-1) ≤ maxKey) ↔
      ∀ e ∈ entriesOf [n], minKey ≤ e.1 ∧ e.1 ≤ maxKey := by
  rw [entriesOf,List.flatMap_singleton]
  constructor
  · intro hends e he
    obtain ⟨i,hi,rfl⟩ := BTreeNode.mem_entries.mp he
    obtain ⟨hlow,hhigh⟩ := hends (Nat.zero_lt_of_lt hi)
    exact ⟨hlow.trans (h.monotone (Nat.zero_le i) hi),(h.monotone (by omega) (by omega)).trans hhigh⟩
  · intro hall hpos
    exact ⟨(hall _ (BTreeNode.mem_entries.mpr ⟨0,hpos,rfl⟩)).1,
      (hall _ (BTreeNode.mem_entries.mpr ⟨n.keyCount-1,by omega,rfl⟩)).2⟩

omit [Inhabited K] [Inhabited V] in
/-- Where every child has an entry, the bounds of the children hold exactly if those of the node do. -/
theorem children_within_iff (h : n.Increasing) (keyed : 1 ≤ n.keyCount)
    (bounds : ∀ i ≤ n.keyCount, ∀ e ∈ entriesOf (parts i), n.Bounds i e.1)
    (hsome : ∀ i ≤ n.keyCount, ∃ e, e ∈ entriesOf (parts i)) :
    (minKey ≤ n.keys 0 ∧ n.keys (n.keyCount-1) ≤ maxKey ∧ ∀ i ≤ n.keyCount,
      ∀ e ∈ entriesOf (parts i), n.childMin minKey i ≤ e.1 ∧ e.1 ≤ n.childMax maxKey i) ↔
    ∀ e ∈ entriesOf ((List.range (n.keyCount+1)).flatMap parts), minKey ≤ e.1 ∧ e.1 ≤ maxKey := by
  have hpart : ∀ i ≤ n.keyCount, ∀ e ∈ entriesOf (parts i),
      e ∈ entriesOf ((List.range (n.keyCount+1)).flatMap parts) := by
    intro i hi e he
    exact mem_entriesOf_parts.mpr ⟨i,List.mem_range.mpr (by omega),he⟩
  constructor
  · rintro ⟨hlow,hhigh,hchildren⟩ e he
    obtain ⟨i,hi,he⟩ := mem_entriesOf_parts.mp he
    have hle : i ≤ n.keyCount := Nat.lt_succ_iff.mp (List.mem_range.mp hi)
    obtain ⟨hmin,hmax⟩ := hchildren i hle e he
    constructor
    · refine le_trans ?_ hmin
      rw [BTreeNode.childMin]
      split_ifs
      · exact le_rfl
      · exact hlow.trans (h.monotone (Nat.zero_le _) (by omega))
    · refine hmax.trans ?_
      rw [BTreeNode.childMax]
      split_ifs
      · exact le_rfl
      · exact (h.monotone (by omega) (by omega)).trans hhigh
  · intro hall
    refine ⟨?_,?_,fun i hi e he => ?_⟩
    · obtain ⟨e,he⟩ := hsome 0 (Nat.zero_le _)
      exact (hall e (hpart 0 (Nat.zero_le _) e he)).1.trans ((bounds 0 (Nat.zero_le _) e he).2 keyed).le
    · obtain ⟨e,he⟩ := hsome n.keyCount le_rfl
      exact ((bounds n.keyCount le_rfl e he).1 (n.keyCount-1) (by omega)).trans
        (hall e (hpart n.keyCount le_rfl e he)).2
    · obtain ⟨hlow,hhigh⟩ := hall e (hpart i hi e he)
      rw [BTreeNode.childMin,BTreeNode.childMax]
      constructor
      · split_ifs
        · exact hlow
        · exact (bounds i hi e he).1 (i-1) (by omega)
      · split_ifs
        · exact hhigh
        · exact ((bounds i hi e he).2 (by omega)).le

end Separators

section Runs

variable {t : BTree K V} {n : BTreeNode K V} {minKey maxKey : K}

omit [LinearOrder K] in
theorem validateChildren_run {check : BTreeNode K V → K → K → TreeM K V (Option String)}
    {messages : ℕ → Option String} (is : List ℕ)
    (h : ∀ i ∈ is, ∃ child, (getNode (n.getChild i)).run t = .ok (some child,t) ∧
      child.dirty = false ∧
      (check child (n.childMin minKey i) (n.childMax maxKey i)).run t = .ok (messages i,t)) :
    (validateChildren check n minKey maxKey is).run t = .ok (is.findSome? messages,t) := by
  induction is with
  | nil => rfl
  | cons i is ih =>
    obtain ⟨child,hget,hclean,hcheck⟩ := h i List.mem_cons_self
    rw [validateChildren,run_bind_ok hget]
    simp only
    rw [run_bind_ok hcheck,run_bind_ok (releaseNode_clean hclean),List.findSome?_cons]
    cases messages i with
    | none => exact ih fun j hj => h j (List.mem_cons_of_mem i hj)
    | some message => rfl

/-- The check ends, and accepts exactly the trees of full enough nodes with keys between the bounds. -/
theorem validateNode_run {s : PageStore K V} {pid : PageId} {leaves : List (BTreeNode K V)}
    (h : Subtree s pid leaves) (hs : t.store = s) : ∃ depth, ∀ minKey maxKey, ∃ message,
      (∀ n, nodeAt s pid = some n → ∀ fuel ≥ depth,
        (validateNode fuel n minKey maxKey).run t = .ok (message,t)) ∧
      (message = none ↔ Occupied s pid ∧ ∀ e ∈ entriesOf leaves, minKey ≤ e.1 ∧ e.1 ≤ maxKey) := by
  induction h with
  | @leaf pid n page isLeaf increasing =>
    refine ⟨1,fun minKey maxKey => ⟨n.complaint minKey maxKey,?_,?_⟩⟩
    · intro m hm fuel hfuel
      obtain rfl := Option.some.inj (page.symm.trans hm)
      obtain ⟨fuel,rfl⟩ : ∃ k, fuel = k+1 := ⟨fuel-1,by omega⟩
      rw [validateNode,isLeaf]
      cases n.complaint minKey maxKey with
      | none => rfl
      | some message => rfl
    · rw [complaint_eq_none_iff increasing,occupied_leaf page isLeaf,leaf_within_iff increasing]
  | @inner pid n parts page notLeaf keyed counts increasing below bounds ih =>
    choose! depth hdepth using ih
    refine ⟨(Finset.range (n.keyCount+1)).sup depth+1,fun minKey maxKey => ?_⟩
    choose! messages hrun haccepts using fun i (hi : i ≤ n.keyCount) =>
      hdepth i hi (n.childMin minKey i) (n.childMax maxKey i)
    refine ⟨(n.complaint minKey maxKey).or ((List.range (n.keyCount+1)).findSome? messages),?_,?_⟩
    · intro m hm fuel hfuel
      obtain rfl := Option.some.inj (page.symm.trans hm)
      obtain ⟨fuel,rfl⟩ : ∃ k, fuel = k+1 := ⟨fuel-1,by omega⟩
      rw [validateNode,notLeaf]
      cases n.complaint minKey maxKey with
      | some message => rfl
      | none =>
        refine validateChildren_run _ fun i hi => ?_
        have hle : i ≤ n.keyCount := Nat.lt_succ_iff.mp (List.mem_range.mp hi)
        obtain ⟨child,hchild⟩ := (below i hle).root
        have hget := getNode_nodeAt (n.children i) t
        rw [hs,hchild] at hget
        rw [BTreeNode.getChild_eq notLeaf (by omega)]
        refine ⟨child,hget,(nodeAt_some hchild).2.2,hrun i hle child hchild fuel ?_⟩
        have hsup : depth i ≤ (Finset.range (n.keyCount+1)).sup depth :=
          Finset.le_sup (List.mem_range.mp hi |> Finset.mem_range.mpr)
        omega
    · rw [Option.or_eq_none_iff,complaint_eq_none_iff increasing,List.findSome?_eq_none_iff,
        occupied_inner page notLeaf]
      have hentries : (∀ i ≤ n.keyCount, Occupied s (n.children i)) →
          ∀ i ≤ n.keyCount, ∃ e, e ∈ entriesOf (parts i) := by
        intro hoccupied i hi
        obtain ⟨e,he,_⟩ := (below i hi).exists_lt (hoccupied i hi)
        exact ⟨e,he⟩
      constructor
      · rintro ⟨⟨hsized,hends⟩,hnone⟩
        have hchildren := fun i (hi : i ≤ n.keyCount) =>
          (haccepts i hi).mp (hnone i (List.mem_range.mpr (by omega)))
        have hoccupied := fun i hi => (hchildren i hi).1
        refine ⟨⟨hsized,hoccupied⟩,?_⟩
        exact (children_within_iff increasing keyed bounds (hentries hoccupied)).mp
          ⟨(hends keyed).1,(hends keyed).2,fun i hi => (hchildren i hi).2⟩
      · rintro ⟨⟨hsized,hoccupied⟩,hwithin⟩
        obtain ⟨hlow,hhigh,hchildren⟩ :=
          (children_within_iff increasing keyed bounds (hentries hoccupied)).mpr hwithin
        refine ⟨⟨hsized,fun _ => ⟨hlow,hhigh⟩⟩,fun i hi => ?_⟩
        have hle : i ≤ n.keyCount := Nat.lt_succ_iff.mp (List.mem_range.mp hi)
        exact (haccepts i hle).mpr ⟨hoccupied i hle,hchildren i hle⟩

/-- Between bounds the check of a well-formed tree answers as it should; the call from outside finds
fault with every one of them. -/
theorem validate_wellFormed (t : BTree K V) (leaves : List (BTreeNode K V)) (h : WellFormed t leaves) :
    (∃ depth, ∀ minKey maxKey, ∃ message,
      (∀ root, nodeAt t.store t.rootPageId = some root → ∀ fuel ≥ depth,
        (validateNode fuel root minKey maxKey).run t = .ok (message,t)) ∧
      (message = none ↔ Occupied t.store t.rootPageId ∧
        ∀ e ∈ entriesOf leaves, minKey ≤ e.1 ∧ e.1 ≤ maxKey)) ∧
    ∃ depth message, ∀ fuel ≥ depth, (validate fuel).run t = .ok (some message,t) := by
  obtain ⟨depth,hdepth⟩ := validateNode_run (t := t) h.tree rfl
  refine ⟨⟨depth,hdepth⟩,depth,?_⟩
  obtain ⟨root,hroot⟩ := h.tree.root
  obtain ⟨message,hrun,haccepts⟩ := hdepth default default
  have hget := getNode_nodeAt t.rootPageId t
  rw [hroot] at hget
  have hvalidate : ∀ fuel ≥ depth, (validate fuel).run t = .ok (message,t) := by
    intro fuel hfuel
    rw [validate,run_get_bind,run_bind_ok hget]
    simp only
    rw [run_bind_ok (hrun root hroot fuel hfuel),run_bind_ok (releaseNode_clean (nodeAt_some hroot).2.2)]
    rfl
  cases message with
  | some message => exact ⟨message,hvalidate⟩
  | none =>
    obtain ⟨hoccupied,hwithin⟩ := haccepts.mp rfl
    obtain ⟨e,he,e',he',hlt⟩ := h.tree.exists_lt hoccupied
    exact absurd hlt (not_lt.mpr ((hwithin e' he').2.trans (hwithin e he).1))

theorem validate_wellFormed_half :
    ∃ depth message, ∀ fuel ≥ depth, (validate fuel).run halfTree = .ok (some message,halfTree) :=
  (validate_wellFormed halfTree halfLeaves halfTree_wellFormed).2

end Runs

end BTree
end OrangeSQL
