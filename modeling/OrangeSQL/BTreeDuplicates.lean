import OrangeSQL.BTreePaths

/-! Several values under one key. An index that is not unique lets a second insertion of a key
through to the leaf, and the leaf overwrites the value that is there: what `findMany` collects is the
last of them. -/
namespace OrangeSQL
namespace BTree

variable {K V : Type} [LinearOrder K] [Inhabited K] [Inhabited V]

open BTreeNode (toIndex)

section Definitions

/-- The loops over the values of a node from an index on, as long as the keys are the one looked for;
they end with the index behind the last one. -/
def collectEqual (n : BTreeNode K V) (key : K) : ℕ → ℤ → TreeM K V (List V × ℤ)
  | 0, _ => throw .outOfFuel
  | fuel+1, pos => do
    if n.hasKeyAt pos key then
      let value ← orThrow (n.getValue (toIndex pos))
      let (rest,pos) ← collectEqual n key fuel (pos+1)
      return (value::rest,pos)
    else return ([],pos)

/-- The leaves behind the first one, as long as they begin with the key. -/
def collectNext (key : K) : ℕ → PageId → TreeM K V (List V)
  | 0, _ => throw .outOfFuel
  | fuel+1, next => do
    if next = invalidPageId then return []
    match ← getNode next with
    | none => return []
    | some node =>
      if node.hasKeyAt 0 key then
        let (values,_) ← collectEqual node key fuel 0
        return values++(← collectNext key fuel node.header.nextId)
      else return []

def findMany (fuel : ℕ) (key : K) : TreeM K V (List V) := do
  match ← findLeaf fuel key with
  | none => return []
  | some node =>
    let (values,pos) ← collectEqual node key fuel (node.findKeyIndex key)
    if (node.keyCount : ℤ) ≤ pos then return values++(← collectNext key fuel node.header.nextId)
    else return values

/-- One insertion after the other, with what each of them returns. -/
def insertAll (fuel : ℕ) (key : K) : List V → TreeM K V (List Status)
  | [] => return []
  | v::vs => do
    let status ← insert fuel key v
    return status::(← insertAll fuel key vs)

end Definitions

section Finding

variable {t : BTree K V} {leaves : List (BTreeNode K V)} {key : K}

omit [Inhabited K] [Inhabited V] in
theorem collectEqual_miss {n : BTreeNode K V} {pos : ℤ} (h : n.hasKeyAt pos key = false) {fuel : ℕ}
    (hfuel : 1 ≤ fuel) : (collectEqual n key fuel pos).run t = .ok (([],pos),t) := by
  obtain ⟨fuel,rfl⟩ := Nat.exists_eq_add_of_le' hfuel
  simp only [collectEqual,h,Bool.false_eq_true,if_false]
  rfl

omit [Inhabited K] [Inhabited V] in
/-- In an increasing leaf the key stands at one index only. -/
theorem collectEqual_hit {n : BTreeNode K V} (hinc : n.Increasing) (hleaf : n.isLeaf = true) {i : ℕ}
    (hi : i < n.keyCount) (hkey : n.keys i = key) {fuel : ℕ} (hfuel : 2 ≤ fuel) :
    (collectEqual n key fuel i).run t = .ok (([n.values i],(i : ℤ)+1),t) := by
  have hcount : n.keyCount < 65536 := n.header.keyCount.toNat_lt
  have hhere : n.hasKeyAt (i : ℤ) key = true := by
    simp only [BTreeNode.hasKeyAt,Bool.and_eq_true,decide_eq_true_eq,Int.toNat_natCast]
    exact ⟨⟨by omega,by omega⟩,hkey⟩
  have hthere : n.hasKeyAt ((i : ℤ)+1) key = false := by
    rw [Bool.eq_false_iff]
    intro hhas
    obtain ⟨j,hj,hlt,hsame⟩ := BTreeNode.hasKeyAt_index hhas
    obtain rfl : j = i+1 := by omega
    exact absurd (hkey.trans hsame.symm) (hinc i (i+1) (Nat.lt_succ_self i) hlt).ne
  have hvalue : n.getValue (toIndex (i : ℤ)) = some (n.values i) := by
    rw [BTreeNode.toIndex_natCast (by omega),BTreeNode.getValue,if_pos ⟨hleaf,hi⟩]
  obtain ⟨fuel,rfl⟩ := Nat.exists_eq_add_of_le' (show 1 ≤ fuel by omega)
  simp only [collectEqual,hhere,if_true,hvalue]
  have hrest := collectEqual_miss (t := t) hthere (show 1 ≤ fuel by omega)
  rw [show (orThrow (some (n.values i)) : TreeM K V V) = pure (n.values i) from rfl,pure_bind,
    run_bind_ok hrest]
  rfl

/-- Behind the leaf of a key there is no other leaf that begins with it. -/
theorem collectNext_run {leaf : BTreeNode K V} {behind : List (BTreeNode K V)}
    (hlinked : Linked (leaf::behind)) (hpages : ∀ n ∈ behind, OnPage t.store n)
    (hbehind : ∀ e ∈ entriesOf behind, key < e.1) {fuel : ℕ} (hfuel : 1 ≤ fuel) :
    (collectNext key fuel leaf.header.nextId).run t = .ok ([],t) := by
  obtain ⟨fuel,rfl⟩ := Nat.exists_eq_add_of_le' hfuel
  rw [collectNext]
  cases behind with
  | nil =>
    have hend : leaf.header.nextId = invalidPageId := hlinked
    rw [if_pos hend]
    rfl
  | cons n behind =>
    have hpage := (hpages n List.mem_cons_self).page
    have hother : n.hasKeyAt 0 key = false := by
      rw [Bool.eq_false_iff]
      intro hhas
      obtain ⟨j,hj,hlt,hkey⟩ := BTreeNode.hasKeyAt_index hhas
      have hmem : (n.keys j,n.values j) ∈ entriesOf (n::behind) :=
        List.mem_append_left _ (BTreeNode.mem_entries.mpr ⟨j,hlt,rfl⟩)
      exact absurd hkey (hbehind _ hmem).ne'
    rw [hlinked.1,if_neg (nodeAt_some hpage).1,run_bind_ok (getNode_nodeAt n.pageId t),hpage]
    simp only [hother,Bool.false_eq_true,if_false]
    rfl

/-- In a well-formed tree the call collects what the leaves have under the key. -/
theorem WellFormed.findMany_run (h : WellFormed t leaves) (key : K) :
    ∃ depth found, (∀ fuel ≥ depth, (findMany fuel key).run t = .ok (found,t)) ∧
      ∀ v, v ∈ found ↔ (key,v) ∈ entriesOf leaves := by
  obtain ⟨depth,leaf,hpage,hfound,hrun⟩ := h.findLeaf_run key
  have hentry := fun v => (hfound.mem_iff v).trans
    (BTreeNode.mem_entries_iff hfound.increasing key v)
  obtain ⟨before,behind,rfl,_,hbehind⟩ := hfound.place
  have hnext : ∀ fuel ≥ 1, (collectNext key fuel leaf.header.nextId).run t = .ok ([],t) :=
    fun fuel hfuel => collectNext_run h.linked.of_append
      (fun n hn => h.tree.onPage n (by simp [hn])) hbehind hfuel
  by_cases hhas : leaf.hasKeyAt (leaf.findKeyIndex key) key = true
  · obtain ⟨i,hi,hlt,hkey⟩ := BTreeNode.hasKeyAt_index hhas
    refine ⟨depth+2,[leaf.values i],?_,?_⟩
    · intro fuel hfuel
      have hcollect := collectEqual_hit (t := t) hfound.increasing hfound.isLeaf hlt hkey
        (show 2 ≤ fuel by omega)
      rw [findMany,run_bind_ok (hrun fuel (by omega))]
      simp only [hi]
      rw [run_bind_ok hcollect]
      by_cases hlast : (leaf.keyCount : ℤ) ≤ (i : ℤ)+1
      · simp only [if_pos hlast]
        rw [run_bind_ok (hnext fuel (by omega))]
        rfl
      · simp only [if_neg hlast]
        rfl
    · intro v
      rw [hentry v,and_iff_right hhas,hi,List.mem_singleton]
      rfl
  · have hmiss : leaf.hasKeyAt (leaf.findKeyIndex key) key = false := by simpa using hhas
    have hhigh := (BTreeNode.findKeyIndex_splits hfound.increasing key).high
    refine ⟨depth+1,[],?_,?_⟩
    · intro fuel hfuel
      rw [findMany,run_bind_ok (hrun fuel (by omega))]
      simp only
      rw [run_bind_ok (collectEqual_miss hmiss (show 1 ≤ fuel by omega))]
      simp only [if_neg (not_le.mpr hhigh)]
      rfl
    · intro v
      rw [hentry v]
      simp [hmiss]

end Finding

section Inserting

variable {t : BTree K V} {leaves : List (BTreeNode K V)} {key : K}

/-- No node on the way to the leaf is full. -/
def RoomOnPath (t : BTree K V) (key : K) : Prop :=
  ∀ nodes leaf, SearchPath t.store key t.rootPageId nodes leaf →
    (∀ n ∈ nodes, n.isFull = false) ∧ leaf.isFull = false

theorem insertInternal_path {pid : PageId} {nodes : List (BTreeNode K V)} {leaf m : BTreeNode K V}
    (h : SearchPath t.store key pid nodes leaf) (hunique : t.config.unique = false)
    (hfull : ∀ n ∈ nodes, n.isFull = false) (hleaf : leaf.isFull = false) {value : V}
    (hinsert : leaf.insert key value invalidPageId = (true,m)) (hpage : m.pageId = leaf.pageId)
    (hdirty : m.dirty = true) {fuel : ℕ} (hfuel : nodes.length < fuel) :
    (insertInternal fuel key value pid).run t = .ok (.ok,t.withNode m) := by
  induction h generalizing fuel with
  | @leaf pid n page isLeaf =>
    obtain ⟨fuel,rfl⟩ := Nat.exists_eq_add_of_le' (show 1 ≤ fuel by omega)
    have hmem : m.pageId ∈ t.store.pages := hpage ▸ mem_of_nodeAt page
    rw [insertInternal,run_bind_ok (getNode_nodeAt pid t),page]
    simp only [isLeaf,if_true,run_get_bind,hunique,Bool.false_and,Bool.false_eq_true,if_false,hinsert]
    rw [run_bind_ok (releaseNode_withNode hdirty hmem)]
    rfl
  | @inner pid n leaf nodes page notLeaf below ih =>
    obtain ⟨fuel,rfl⟩ := Nat.exists_eq_add_of_le' (show 1 ≤ fuel by omega)
    obtain ⟨child,hchild,hon⟩ := below.root
    have hroom : child.isFull = false := by
      rcases hon with hon | rfl
      · exact hfull child (List.mem_cons_of_mem n hon)
      · exact hleaf
    rw [insertInternal,run_bind_ok (getNode_nodeAt pid t),page]
    simp only [notLeaf,Bool.false_eq_true,if_false]
    rw [run_bind_ok (getNode_nodeAt _ t),hchild]
    simp only [hroom,Bool.false_eq_true,if_false]
    exact ih (fun k hk => hfull k (List.mem_cons_of_mem n hk)) hleaf hinsert hpage
      (by simpa using hfuel)

/-- With no more fuel than there are nodes on the path the call does not come to the leaf. -/
theorem insertInternal_short {pid : PageId} {nodes : List (BTreeNode K V)} {leaf : BTreeNode K V}
    (h : SearchPath t.store key pid nodes leaf) (hfull : ∀ n ∈ nodes, n.isFull = false)
    (hleaf : leaf.isFull = false) (value : V) {fuel : ℕ} (hfuel : fuel ≤ nodes.length) :
    (insertInternal fuel key value pid).run t = .error .outOfFuel := by
  induction h generalizing fuel with
  | @leaf pid n page isLeaf =>
    obtain rfl : fuel = 0 := by simpa using hfuel
    rfl
  | @inner pid n leaf nodes page notLeaf below ih =>
    cases fuel with
    | zero => rfl
    | succ fuel =>
      obtain ⟨child,hchild,hon⟩ := below.root
      have hroom : child.isFull = false := by
        rcases hon with hon | rfl
        · exact hfull child (List.mem_cons_of_mem n hon)
        · exact hleaf
      rw [insertInternal,run_bind_ok (getNode_nodeAt pid t),page]
      simp only [notLeaf,Bool.false_eq_true,if_false]
      rw [run_bind_ok (getNode_nodeAt _ t),hchild]
      simp only [hroom,Bool.false_eq_true,if_false]
      exact ih (fun k hk => hfull k (List.mem_cons_of_mem n hk)) hleaf (by simpa using hfuel)

theorem insert_path {nodes : List (BTreeNode K V)} {leaf m : BTreeNode K V}
    (h : SearchPath t.store key t.rootPageId nodes leaf) (hunique : t.config.unique = false)
    (hfull : ∀ n ∈ nodes, n.isFull = false) (hleaf : leaf.isFull = false) {value : V}
    (hinsert : leaf.insert key value invalidPageId = (true,m)) (hpage : m.pageId = leaf.pageId)
    (hdirty : m.dirty = true) {fuel : ℕ} (hfuel : nodes.length < fuel) :
    (insert fuel key value).run t = .ok (.ok,t.withNode m) := by
  obtain ⟨root,hroot,hon⟩ := h.root
  have hroom : root.isFull = false := by
    rcases hon with hon | rfl
    · exact hfull root hon
    · exact hleaf
  have hrun := insertInternal_path h hunique hfull hleaf hinsert hpage hdirty hfuel
  rw [insert,run_get_bind,run_bind_ok (getNode_nodeAt t.rootPageId t),hroot]
  simp only [hroom,Bool.false_eq_true,if_false,pure_bind,run_get_bind]
  rw [run_bind_ok hrun,run_bind_ok (releaseNode_clean (nodeAt_some hroot).2.2)]
  rfl

/-- The tree after one insertion with room on the path: what it has under the key is the new value. -/
theorem WellFormed.insert_run (h : WellFormed t leaves) (hunique : t.config.unique = false)
    (hroom : RoomOnPath t key) (value : V) :
    ∃ depth t' leaves', (∀ fuel ≥ depth, (insert fuel key value).run t = .ok (.ok,t')) ∧
      WellFormed t' leaves' ∧ t'.config = t.config ∧
      ∀ v, (key,v) ∈ entriesOf leaves' ↔ v = value := by
  obtain ⟨nodes,leaf,before,behind,hleaf⟩ := h.tree.keyLeaf h.nodup key
  obtain ⟨hfull,hleafRoom⟩ := hroom nodes leaf hleaf.path
  have hlt : leaf.keyCount < BTreeNode.maxKeys := Nat.not_le.mp (of_decide_eq_false hleafRoom)
  obtain ⟨m,hinsert,hspec⟩ :=
    BTreeNode.insert_spec hleaf.increasing hleaf.isLeaf key value invalidPageId (Or.inr hlt)
  refine ⟨nodes.length+1,t.withNode m,before++reread m::behind,?_,?_,rfl,?_⟩
  · intro fuel hfuel
    exact insert_path hleaf.path hunique hfull hleafRoom hinsert hspec.pageId hspec.dirty hfuel
  · refine h.withLeafNode hleaf hspec.pageId hspec.nextId hspec.isLeaf hspec.increasing ?_
    intro e he
    rcases (hspec.entries e).mp he with rfl | ⟨_,he⟩
    · exact Or.inl rfl
    · exact Or.inr he
  · intro v
    have hcons : entriesOf (reread m::behind) = m.entries++entriesOf behind := by
      rw [← reread_entries hspec.isLeaf]
      rfl
    rw [entriesOf_append,hcons,List.mem_append,List.mem_append,hspec.entries]
    constructor
    · rintro (hmem | hmem | hmem)
      · exact absurd (hleaf.before_lt _ hmem) (lt_irrefl _)
      · rcases hmem with hmem | ⟨hne,_⟩
        · exact congrArg Prod.snd hmem
        · exact absurd rfl hne
      · exact absurd (hleaf.lt_behind _ hmem) (lt_irrefl _)
    · rintro rfl
      exact Or.inr (Or.inl (Or.inl rfl))

/-- Before each of the insertions there is room on the path. -/
def RoomDuring (key : K) : BTree K V → List V → Prop
  | _, [] => True
  | t, v::vs => RoomOnPath t key ∧
      ∀ fuel status t', (insert fuel key v).run t = .ok (status,t') → RoomDuring key t' vs

/-- Each insertion succeeds, and all the values are found afterwards. -/
def KeepsAll (t : BTree K V) (key : K) (vs : List V) : Prop :=
  ∃ depth t' found, ∀ fuel ≥ depth,
    (insertAll fuel key vs).run t = .ok (vs.map fun _ => .ok,t') ∧
    (findMany fuel key).run t' = .ok (found,t') ∧ ∀ v ∈ vs, v ∈ found

theorem WellFormed.insertAll_run (h : WellFormed t leaves) (hunique : t.config.unique = false)
    (vs : List V) (hroom : RoomDuring key t vs) :
    ∃ depth t' leaves', (∀ fuel ≥ depth,
        (insertAll fuel key vs).run t = .ok (vs.map fun _ => .ok,t')) ∧ WellFormed t' leaves' ∧
      ∀ last ∈ vs.getLast?, ∀ v, (key,v) ∈ entriesOf leaves' ↔ v = last := by
  induction vs generalizing t leaves with
  | nil => exact ⟨0,t,leaves,fun _ _ => rfl,h,by simp⟩
  | cons v vs ih =>
    obtain ⟨hpath,hrest⟩ := hroom
    obtain ⟨depth,t₁,leaves₁,hrun,hwell,hconfig,hvalues⟩ := h.insert_run hunique hpath v
    obtain ⟨depth',t₂,leaves₂,hrun',hwell',hvalues'⟩ :=
      ih hwell (by rw [hconfig]; exact hunique) (hrest depth .ok t₁ (hrun depth le_rfl))
    refine ⟨max depth depth',t₂,leaves₂,?_,hwell',?_⟩
    · intro fuel hfuel
      rw [insertAll,run_bind_ok (hrun fuel (le_of_max_le_left hfuel)),
        run_bind_ok (hrun' fuel (le_of_max_le_right hfuel))]
      rfl
    · intro last hlast
      cases vs with
      | nil =>
        obtain rfl : v = last := by simpa using hlast
        have hsame : t₂ = t₁ := by
          have hempty := hrun' depth' le_rfl
          exact (congrArg Prod.snd (Except.ok.inj hempty)).symm
        subst hsame
        have htree := hwell'.tree.unique hwell.tree
        rw [← htree]
        exact hvalues
      | cons w vs => exact hvalues' last (by simpa using hlast)

/-- Of the values inserted under one key only the last is found. -/
theorem WellFormed.eq_last_of_keepsAll (h : WellFormed t leaves) (hunique : t.config.unique = false)
    {vs : List V} (hroom : RoomDuring key t vs) (hkeeps : KeepsAll t key vs) {v last : V}
    (hv : v ∈ vs) (hend : last ∈ vs.getLast?) : v = last := by
  obtain ⟨depth,t',leaves',hrun,hwell,hlast⟩ := h.insertAll_run hunique vs hroom
  obtain ⟨depth',found,hfind,hfound⟩ := hwell.findMany_run key
  obtain ⟨depth'',t'',found'',hkeeps⟩ := hkeeps
  obtain ⟨hrun'',hfind'',hall⟩ := hkeeps (max depth (max depth' depth'')) (by omega)
  obtain ⟨_,rfl⟩ := Prod.mk.inj (Except.ok.inj (hrun''.symm.trans (hrun _ (by omega))))
  obtain ⟨rfl,_⟩ := Prod.mk.inj (Except.ok.inj (hfind''.symm.trans (hfind _ (by omega))))
  exact (hlast last hend v).mp ((hfound v).mp (hall v hv))

/-- All the values are kept where they are all the same. -/
theorem keepsAll_iff (h : WellFormed t leaves) (hunique : t.config.unique = false) (key : K)
    (vs : List V) (hroom : RoomDuring key t vs) :
    KeepsAll t key vs ↔ ∀ v ∈ vs, ∀ w ∈ vs, v = w := by
  have hend : ∀ v ∈ vs, ∃ last ∈ vs.getLast?, last ∈ vs := fun v hv =>
    ⟨vs.getLast (List.ne_nil_of_mem hv),List.getLast?_eq_some_getLast (List.ne_nil_of_mem hv),
      List.getLast_mem _⟩
  constructor
  · intro hkeeps v hv w hw
    obtain ⟨last,hlast,_⟩ := hend v hv
    have hv' := h.eq_last_of_keepsAll hunique hroom hkeeps hv hlast
    have hw' := h.eq_last_of_keepsAll hunique hroom hkeeps hw hlast
    exact hv'.trans hw'.symm
  · intro hsame
    obtain ⟨depth,t',leaves',hrun,hwell,hlast⟩ := h.insertAll_run hunique vs hroom
    obtain ⟨depth',found,hfind,hfound⟩ := hwell.findMany_run key
    refine ⟨max depth depth',t',found,fun fuel hfuel =>
      ⟨hrun fuel (by omega),hfind fuel (by omega),fun v hv => ?_⟩⟩
    obtain ⟨last,hmem,hin⟩ := hend v hv
    exact (hfound v).mpr ((hlast last hmem v).mpr (hsame v hv last hin))

end Inserting

section Sample

/-- The tree above two leaves, as an index that is not unique. -/
def sampleIndex : BTree ℤ RecordId := { sampleTree with config := ⟨false⟩ }

theorem sampleIndex_wellFormed : WellFormed sampleIndex sampleLeaves :=
  ⟨sampleTree_wellFormed.tree,sampleTree_wellFormed.linked⟩

theorem sampleRoot_getChild : sampleRoot.getChild (toIndex (sampleRoot.findChildIndex 5)) = 2 := by
  decide +kernel

/-- The path to the first leaf, whatever stands there. -/
theorem sample_path {s : PageStore ℤ RecordId} {leaf : BTreeNode ℤ RecordId}
    (hroot : nodeAt s 1 = some sampleRoot) (hleaf : nodeAt s 2 = some leaf)
    (hisLeaf : leaf.isLeaf = true) : SearchPath s 5 1 [sampleRoot] leaf := by
  refine .inner hroot rfl ?_
  rw [sampleRoot_getChild]
  exact .leaf hleaf hisLeaf

theorem sample_room {t : BTree ℤ RecordId} (leaf : BTreeNode ℤ RecordId)
    (hpid : t.rootPageId = 1) (hroot : nodeAt t.store 1 = some sampleRoot)
    (hleaf : nodeAt t.store 2 = some leaf) (hisLeaf : leaf.isLeaf = true)
    (hfull : leaf.isFull = false) : RoomOnPath t 5 := by
  intro nodes leaf' hpath
  rw [hpid] at hpath
  obtain ⟨rfl,rfl⟩ := (sample_path hroot hleaf hisLeaf).unique hpath
  refine ⟨fun n hn => ?_,hfull⟩
  rw [List.mem_singleton.mp hn]
  decide

theorem sampleIndex_room : RoomOnPath sampleIndex 5 :=
  sample_room (sampleLeaf 2 3 invalidPageId 5) rfl rfl rfl rfl (by decide)

/-- After the first insertion there is still room for the second one. -/
theorem sampleIndex_roomDuring (v w : RecordId) : RoomDuring 5 sampleIndex [v,w] := by
  refine ⟨sampleIndex_room,fun fuel status t' hrun => ⟨?_,fun _ _ _ _ => trivial⟩⟩
  have hpath : SearchPath sampleIndex.store 5 sampleIndex.rootPageId [sampleRoot]
      (sampleLeaf 2 3 invalidPageId 5) := sample_path rfl rfl rfl
  obtain ⟨hfull,hleafFull⟩ := sampleIndex_room _ _ hpath
  have hinc : (sampleLeaf 2 3 invalidPageId 5).Increasing :=
    (sampleIndex_wellFormed.tree.onPage _ List.mem_cons_self).increasing
  obtain ⟨i,_,_,hinsert⟩ := BTreeNode.insert_present v invalidPageId hinc rfl
    (show ((5 : ℤ),(5 : RecordId)) ∈ (sampleLeaf 2 3 invalidPageId 5).entries by decide)
  rcases Nat.lt_or_ge [sampleRoot].length fuel with hlong | hshort
  · have hdone := insert_path hpath rfl hfull hleafFull hinsert rfl rfl hlong
    obtain ⟨_,rfl⟩ := Prod.mk.inj (Except.ok.inj (hrun.symm.trans hdone))
    have htwo : (2 : PageId) ≠ invalidPageId := by decide
    have hone : (1 : PageId) ≠ 2 := by decide
    exact sample_room _ rfl (nodeAt_withNode_of_ne hone) (nodeAt_withNode_self htwo)
      (reread_isLeaf _) ((congrArg (fun c => decide (BTreeNode.maxKeys ≤ c)) (reread_keyCount _)).trans
        hleafFull)
  · have hshort := insertInternal_short hpath hfull hleafFull v hshort
    have hroot : nodeAt sampleIndex.store sampleIndex.rootPageId = some sampleRoot := rfl
    rw [insert,run_get_bind,run_bind_ok (getNode_nodeAt sampleIndex.rootPageId sampleIndex),hroot] at hrun
    simp only [show sampleRoot.isFull = false by decide,Bool.false_eq_true,if_false,pure_bind,
      run_get_bind] at hrun
    rw [StateT.run_bind,hshort] at hrun
    cases hrun

/-- A value that is inserted twice is there, of two different ones the first is not. -/
theorem keepsAll_iff_sample : KeepsAll sampleIndex 5 [7,7] ∧ ¬KeepsAll sampleIndex 5 [1,2] := by
  constructor
  · exact (keepsAll_iff sampleIndex_wellFormed rfl 5 [7,7] (sampleIndex_roomDuring 7 7)).mpr (by simp)
  · intro hkeeps
    have hall := (keepsAll_iff sampleIndex_wellFormed rfl 5 [1,2] (sampleIndex_roomDuring 1 2)).mp hkeeps
    exact absurd (hall 1 (by simp) 2 (by simp)) (by decide)

/-- Of two values under one key the first is lost. -/
theorem sampleIndex_loses : WellFormed sampleIndex sampleLeaves ∧ sampleIndex.config.unique = false ∧
    RoomDuring 5 sampleIndex [1,2] ∧ ¬ KeepsAll sampleIndex 5 [1,2] := by
  refine ⟨sampleIndex_wellFormed,rfl,sampleIndex_roomDuring 1 2,fun hkeeps => ?_⟩
  have hone : (1 : RecordId) = 2 := sampleIndex_wellFormed.eq_last_of_keepsAll rfl
    (sampleIndex_roomDuring 1 2) hkeeps (by simp) rfl
  exact absurd hone (by decide)

end Sample

end BTree
end OrangeSQL
