import OrangeSQL.BTreeIterator

/-! What the walks through a well-formed B-tree meet. An iterator is described by the entries that
are still ahead of it, a stack of pages by the leaves below them. -/
namespace OrangeSQL
namespace BTree

variable {K V : Type} [LinearOrder K] [Inhabited K] [Inhabited V]

/-- The leaf is on its page. -/
structure OnPage (s : PageStore K V) (n : BTreeNode K V) : Prop where
  page : nodeAt s n.pageId = some n
  isLeaf : n.isLeaf = true
  increasing : n.Increasing

/-- No leaf is empty, unless the tree is a single leaf. -/
def Filled (leaves : List (BTreeNode K V)) : Prop :=
  (∃ n, leaves = [n]) ∨ ∀ n ∈ leaves, 0 < n.keyCount

theorem sampleLeaves_filled : Filled sampleLeaves := by
  right
  decide

section Contents

variable {s : PageStore K V} {pid : PageId} {leaves : List (BTreeNode K V)}

theorem Subtree.onPage (h : Subtree s pid leaves) : ∀ n ∈ leaves, OnPage s n := by
  induction h with
  | @leaf pid n page isLeaf increasing =>
    intro m hm
    obtain rfl := List.mem_singleton.mp hm
    refine ⟨?_,isLeaf,increasing⟩
    rw [(nodeAt_some page).2.1]
    exact page
  | @inner pid n parts page notLeaf keyed counts increasing below bounds ih =>
    intro m hm
    obtain ⟨i,hi,hm⟩ := List.mem_flatMap.mp hm
    exact ih i (Nat.lt_succ_iff.mp (List.mem_range.mp hi)) m hm

theorem Subtree.root (h : Subtree s pid leaves) : ∃ n, nodeAt s pid = some n := by
  cases h with
  | leaf page => exact ⟨_,page⟩
  | inner parts page => exact ⟨_,page⟩

omit [Inhabited K] [Inhabited V] in
theorem entries_pairwise {n : BTreeNode K V} (h : n.Increasing) :
    n.entries.Pairwise fun a b => a.1 < b.1 := by
  rw [BTreeNode.entries,List.pairwise_map]
  refine List.Pairwise.imp_of_mem ?_ List.pairwise_lt_range
  intro i j _ hj hij
  exact h i j hij (List.mem_range.mp hj)

/-- What a tree holds is in the order of the keys. -/
theorem Subtree.pairwise (h : Subtree s pid leaves) :
    (entriesOf leaves).Pairwise fun a b => a.1 < b.1 := by
  induction h with
  | @leaf pid n page isLeaf increasing =>
    have hone : entriesOf [n] = n.entries := by simp [entriesOf]
    rw [hone]
    exact entries_pairwise increasing
  | @inner pid n parts page notLeaf keyed counts increasing below bounds ih =>
    have hparts : entriesOf ((List.range (n.keyCount+1)).flatMap parts) =
        (List.range (n.keyCount+1)).flatMap fun i => entriesOf (parts i) := by
      simp only [entriesOf,List.flatMap_assoc]
    rw [hparts,List.pairwise_flatMap]
    constructor
    · intro i hi
      exact ih i (Nat.lt_succ_iff.mp (List.mem_range.mp hi))
    · refine List.Pairwise.imp_of_mem ?_ List.pairwise_lt_range
      intro i j _ hj hij a ha b hb
      have hj' := List.mem_range.mp hj
      have hupper := (bounds i (by omega) a ha).2 (by omega)
      have hlower := (bounds j (by omega) b hb).1 (j-1) (by omega)
      rcases Nat.lt_or_ge i (j-1) with hlt | hge
      · exact hupper.trans ((increasing i (j-1) hlt (by omega)).trans_le hlower)
      · have heq : i = j-1 := by omega
        rw [heq] at hupper
        exact hupper.trans_le hlower

end Contents

section Iterators

variable {t : BTree K V}

/-- The entries ahead of an iterator, its own first. -/
inductive Ahead (s : PageStore K V) : Iterator K V → List (K × V) → Prop
  | done : Ahead s .done []
  | here {n : BTreeNode K V} {slot : ℕ} {behind : List (BTreeNode K V)} (onPage : OnPage s n)
      (inside : slot < n.keyCount) (linked : Linked (n::behind))
      (rest : ∀ m ∈ behind, OnPage s m ∧ 0 < m.keyCount) :
      Ahead s ⟨n.pageId,slot,false,some n⟩ (n.entries.drop slot++entriesOf behind)

omit [LinearOrder K] [Inhabited K] [Inhabited V] in
theorem entries_drop {n : BTreeNode K V} {slot : ℕ} (h : slot < n.keyCount) :
    n.entries.drop slot = (n.keys slot,n.values slot)::n.entries.drop (slot+1) := by
  have hlen : slot < n.entries.length := by simpa [BTreeNode.entries] using h
  rw [List.drop_eq_getElem_cons hlen]
  simp [BTreeNode.entries]

omit [LinearOrder K] [Inhabited K] [Inhabited V] in
theorem entries_drop_past {n : BTreeNode K V} {slot : ℕ} (h : n.keyCount ≤ slot) :
    n.entries.drop slot = [] := by
  apply List.drop_eq_nil_of_le
  simpa [BTreeNode.entries] using h

/-- At the end of a leaf the iterator goes on to the next one. -/
theorem advanceFrom_next (it : Iterator K V) {n : BTreeNode K V} {behind : List (BTreeNode K V)}
    (hlinked : Linked (n::behind)) (hrest : ∀ m ∈ behind, OnPage t.store m ∧ 0 < m.keyCount)
    (hpast : n.keyCount ≤ it.currentSlot+1) (hend : behind ≠ [] → it.isEnd = false) :
    ∃ it', (it.advanceFrom n).run t = .ok (it',t) ∧ Ahead t.store it' (entriesOf behind) := by
  unfold Iterator.advanceFrom
  rw [if_pos hpast]
  cases behind with
  | nil =>
    have hnext : n.header.nextId = invalidPageId := hlinked
    rw [if_pos hnext]
    exact ⟨.done,rfl,.done⟩
  | cons m behind =>
    obtain ⟨hnext,hlinked⟩ := hlinked
    obtain ⟨hpage,hpos⟩ := hrest m List.mem_cons_self
    have hvalid := (nodeAt_some hpage.page).1
    have hload : (Iterator.loadCurrentNode ⟨m.pageId,0,it.isEnd,none⟩).run t =
        .ok (⟨m.pageId,0,it.isEnd,some m⟩,t) := by
      unfold Iterator.loadCurrentNode
      rw [if_neg hvalid,run_bind_ok (getNode_nodeAt m.pageId t),hpage.page]
      rfl
    rw [hnext,if_neg hvalid]
    refine ⟨_,hload,?_⟩
    rw [hend (List.cons_ne_nil _ _)]
    have hahead := Ahead.here hpage hpos hlinked fun k hk => hrest k (List.mem_cons_of_mem m hk)
    simpa [entriesOf] using hahead

/-- An iterator with an entry ahead gives it, and moves on to what follows. -/
theorem Ahead.step {it : Iterator K V} {e : K × V} {rest : List (K × V)}
    (h : Ahead t.store it (e::rest)) :
    it.differs .done = true ∧ it.deref.run t = .ok (e,t) ∧
      ∃ it', it.advance.run t = .ok (it',t) ∧ Ahead t.store it' rest := by
  generalize hall : e::rest = all at h
  cases h with
  | done => cases hall
  | @here n slot behind onPage inside linked hrest =>
    rw [entries_drop inside,List.cons_append] at hall
    obtain ⟨rfl,rfl⟩ := List.cons.inj hall
    refine ⟨by simp [Iterator.differs,Iterator.done],?_,?_⟩
    · have hkey : n.getKey slot = some (n.keys slot) := if_pos inside
      have hvalue : n.getValue slot = some (n.values slot) := if_pos ⟨onPage.isLeaf,inside⟩
      simp only [Iterator.deref,Bool.false_eq_true,if_false,hkey,hvalue]
      rfl
    · have hrun : (Iterator.advance ⟨n.pageId,slot,false,some n⟩).run t =
          (Iterator.advanceFrom ⟨n.pageId,slot,false,some n⟩ n).run t := rfl
      rw [hrun]
      by_cases hpast : n.keyCount ≤ slot+1
      · rw [entries_drop_past hpast]
        exact advanceFrom_next _ linked hrest hpast fun _ => rfl
      · refine ⟨⟨n.pageId,slot+1,false,some n⟩,?_,?_⟩
        · unfold Iterator.advanceFrom
          rw [if_neg hpast]
          rfl
        · exact .here onPage (Nat.not_le.mp hpast) linked hrest

theorem Ahead.eq_done {s : PageStore K V} {it : Iterator K V} (h : Ahead s it []) : it = .done := by
  generalize hall : ([] : List (K × V)) = all at h
  cases h with
  | done => rfl
  | here onPage inside linked hrest =>
    rw [entries_drop inside] at hall
    cases hall

theorem Ahead.isEnd {s : PageStore K V} {it : Iterator K V} {rest : List (K × V)}
    (h : Ahead s it rest) (hne : rest ≠ []) : it.isEnd = false := by
  cases h with
  | done => exact absurd rfl hne
  | here onPage inside linked hrest => rfl

end Iterators

section Starts

variable {t : BTree K V} {leaves : List (BTreeNode K V)}

omit [LinearOrder K] [Inhabited K] [Inhabited V] in
theorem Linked.of_append {before : List (BTreeNode K V)} {n : BTreeNode K V}
    {behind : List (BTreeNode K V)} (h : Linked (before++n::behind)) : Linked (n::behind) := by
  induction before with
  | nil => exact h
  | cons m before ih =>
    cases before with
    | nil => exact h.2
    | cons m' before => exact ih h.2

omit [LinearOrder K] [Inhabited K] [Inhabited V] in
theorem Filled.behind {before : List (BTreeNode K V)} {n : BTreeNode K V}
    {behind : List (BTreeNode K V)} (h : Filled (before++n::behind)) :
    ∀ m ∈ behind, 0 < m.keyCount := by
  intro m hm
  rcases h with ⟨k,hk⟩ | hall
  · have hlen := congrArg List.length hk
    simp only [List.length_append,List.length_cons,List.length_nil] at hlen
    have hpos := List.length_pos_of_mem hm
    omega
  · exact hall m (List.mem_append_right before (List.mem_cons_of_mem n hm))

omit [LinearOrder K] [Inhabited K] [Inhabited V] in
theorem entriesOf_ne_nil {n : BTreeNode K V} (hmem : n ∈ leaves) (hpos : 0 < n.keyCount) :
    entriesOf leaves ≠ [] := by
  have hentry : (n.keys 0,n.values 0) ∈ n.entries :=
    List.mem_map.mpr ⟨0,List.mem_range.mpr hpos,rfl⟩
  exact List.ne_nil_of_mem (List.mem_flatMap.mpr ⟨n,hmem,hentry⟩)

/-- Down the first children one comes to the first leaf. -/
theorem leftmostLeaf_run {s : PageStore K V} {pid : PageId} (h : Subtree s pid leaves)
    (hs : t.store = s) :
    ∃ depth n behind, leaves = n::behind ∧
      ∀ fuel ≥ depth, (leftmostLeaf fuel (nodeAt s pid)).run t = .ok (some n,t) := by
  induction h with
  | @leaf pid n page isLeaf increasing =>
    refine ⟨1,n,[],rfl,?_⟩
    intro fuel hfuel
    obtain ⟨fuel,rfl⟩ := Nat.exists_eq_add_of_le' hfuel
    rw [page,leftmostLeaf,isLeaf]
    rfl
  | @inner pid n parts page notLeaf keyed counts increasing below bounds ih =>
    obtain ⟨depth,first,behind,hparts,hrun⟩ := ih 0 (Nat.zero_le _)
    refine ⟨depth+1,first,behind++(List.range' 1 n.keyCount).flatMap parts,?_,?_⟩
    · rw [range_split (Nat.zero_le n.keyCount)]
      simp [hparts]
    · intro fuel hfuel
      obtain ⟨fuel,rfl⟩ : ∃ k, fuel = k+1 := ⟨fuel-1,by omega⟩
      have hget := BTreeNode.getChild_eq notLeaf (show 0 < n.childCount by omega)
      rw [page,leftmostLeaf,notLeaf,hget]
      simp only [Bool.false_eq_true,if_false]
      rw [run_bind_ok (getNode_nodeAt (n.children 0) t),hs]
      exact hrun fuel (by omega)

/-- At `begin()` everything is ahead. -/
theorem WellFormed.begin_run (h : WellFormed t leaves) (hfilled : Filled leaves) :
    ∃ depth it, Ahead t.store it (entriesOf leaves) ∧
      ∀ fuel ≥ depth, (begin fuel).run t = .ok (it,t) := by
  obtain ⟨depth,n,behind,rfl,hrun⟩ := leftmostLeaf_run (t := t) h.tree rfl
  have hpages := h.tree.onPage
  have hrest : ∀ m ∈ behind, OnPage t.store m ∧ 0 < m.keyCount := by
    intro m hm
    have hpos : ∀ m ∈ behind, 0 < m.keyCount := @Filled.behind _ _ [] n behind hfilled
    exact ⟨hpages m (List.mem_cons_of_mem n hm),hpos m hm⟩
  obtain ⟨root,hroot⟩ := h.tree.root
  rw [hroot] at hrun
  have hbegin : ∀ fuel ≥ depth, (begin fuel).run t = (if n.keyCount ≤ 0 then
      Iterator.advance ⟨n.pageId,0,false,some n⟩
      else (return ⟨n.pageId,0,false,some n⟩ : TreeM K V (Iterator K V))).run t := by
    intro fuel hfuel
    rw [begin,run_get_bind,run_bind_ok (getNode_nodeAt t.rootPageId t),hroot]
    exact run_bind_ok (hrun fuel hfuel)
  by_cases hempty : n.keyCount ≤ 0
  · obtain ⟨it,hadvance,hahead⟩ := advanceFrom_next (t := t) ⟨n.pageId,0,false,some n⟩
      h.linked hrest (by change n.keyCount ≤ 0+1; omega) fun _ => rfl
    refine ⟨depth,it,?_,?_⟩
    · have hnone : n.entries.drop 0 = [] := entries_drop_past hempty
      have hcons : entriesOf (n::behind) = n.entries++entriesOf behind := rfl
      rw [hcons,← n.entries.drop_zero,hnone]
      exact hahead
    · intro fuel hfuel
      rw [hbegin fuel hfuel,if_pos hempty]
      exact hadvance
  · refine ⟨depth,_,.here (hpages n List.mem_cons_self) (Nat.not_le.mp hempty) h.linked hrest,?_⟩
    intro fuel hfuel
    rw [hbegin fuel hfuel,if_neg hempty]
    rfl

omit [Inhabited K] [Inhabited V] in
theorem skipBelow_spec {n : BTreeNode K V} {key : K} {pos : ℕ} (hpos : pos ≤ n.keyCount)
    (hlow : ∀ j < pos, n.keys j < key) :
    skipBelow n key pos ≤ n.keyCount ∧ (∀ j < skipBelow n key pos, n.keys j < key) ∧
      (skipBelow n key pos < n.keyCount → key ≤ n.keys (skipBelow n key pos)) := by
  induction pos using skipBelow.induct n key with
  | case1 pos hcond ih =>
    rw [skipBelow,if_pos hcond]
    refine ih hcond.1 ?_
    intro j hj
    rcases Nat.lt_or_ge j pos with hlt | hge
    · exact hlow j hlt
    · have heq : j = pos := by omega
      rw [heq]
      exact hcond.2
  | case2 pos hcond =>
    rw [skipBelow,if_neg hcond]
    refine ⟨hpos,hlow,?_⟩
    intro hlt
    exact not_lt.mp fun hkey => hcond ⟨hlt,hkey⟩

omit [Inhabited K] [Inhabited V] in
/-- The slot that `findFirst` comes to parts the keys below the key from the others. -/
theorem skipBelow_slot {n : BTreeNode K V} (h : n.Increasing) (key : K) {slot : ℕ}
    (hslot : slot = skipBelow n key (max 0 (n.findKeyIndex key)).toNat) :
    slot ≤ n.keyCount ∧ (∀ e ∈ n.entries.take slot, e.1 < key) ∧
      ∀ e ∈ n.entries.drop slot, key ≤ e.1 := by
  have hsplit := BTreeNode.findKeyIndex_splits h key
  have hhigh := hsplit.high
  have hlow : ∀ j < (max 0 (n.findKeyIndex key)).toNat, n.keys j < key := by
    intro j hj
    have hat := hsplit.below (n.findKeyIndex key).toNat (by omega)
    exact (h j (n.findKeyIndex key).toNat (by omega) (by omega)).trans_le hat
  obtain ⟨hle,hbelow,hat⟩ := skipBelow_spec (n := n) (by omega) hlow
  rw [← hslot] at hle hbelow hat
  refine ⟨hle,?_,?_⟩
  · intro e he
    obtain ⟨i,hi,rfl⟩ := List.mem_take_iff_getElem.mp he
    simp only [BTreeNode.entries,List.getElem_map,List.getElem_range]
    exact hbelow i (by omega)
  · intro e he
    obtain ⟨i,hi,rfl⟩ := List.mem_drop_iff_getElem.mp he
    simp only [BTreeNode.entries,List.getElem_map,List.getElem_range]
    have hlen : n.entries.length = n.keyCount := by simp [BTreeNode.entries]
    rcases Nat.eq_zero_or_pos i with rfl | hpos
    · exact hat (by omega)
    · exact (hat (by omega)).trans (h slot (slot+i) (by omega) (by omega)).le

theorem WellFormed.findFirst_run (h : WellFormed t leaves) (hfilled : Filled leaves) (key : K) :
    ∃ depth it low rest, Ahead t.store it rest ∧ entriesOf leaves = low++rest ∧
      (∀ e ∈ low, e.1 < key) ∧ (∀ e ∈ rest, key ≤ e.1) ∧
      ∀ fuel ≥ depth, (findFirst fuel key).run t = .ok (it,t) := by
  obtain ⟨depth,leaf,hpage,hfound,hleaf⟩ := h.findLeaf_run key
  obtain ⟨depth',start,hstart,hbegin⟩ := h.begin_run hfilled
  obtain ⟨before,behind,rfl,hbefore,hbehind⟩ := hfound.place
  have honPage := h.tree.onPage
  have hrest : ∀ m ∈ behind, OnPage t.store m ∧ 0 < m.keyCount := by
    intro m hm
    exact ⟨honPage m (List.mem_append_right before (List.mem_cons_of_mem leaf hm)),
      hfilled.behind m hm⟩
  obtain ⟨slot,hslot⟩ :
      ∃ slot, slot = skipBelow leaf key (max 0 (leaf.findKeyIndex key)).toNat := ⟨_,rfl⟩
  obtain ⟨hle,htake,hdrop⟩ := skipBelow_slot hfound.increasing key hslot
  have hsplit : entriesOf (before++leaf::behind) =
      (entriesOf before++leaf.entries.take slot)++(leaf.entries.drop slot++entriesOf behind) := by
    have hcons : entriesOf (leaf::behind) = leaf.entries++entriesOf behind := rfl
    rw [entriesOf_append,hcons]
    conv_lhs => rw [← List.take_append_drop slot leaf.entries]
    simp only [List.append_assoc]
  have hlow : ∀ e ∈ entriesOf before++leaf.entries.take slot, e.1 < key := by
    intro e he
    rcases List.mem_append.mp he with he | he
    · exact hbefore e he
    · exact htake e he
  have hhigh : ∀ e ∈ leaf.entries.drop slot++entriesOf behind, key ≤ e.1 := by
    intro e he
    rcases List.mem_append.mp he with he | he
    · exact hdrop e he
    · exact (hbehind e he).le
  have hrun : ∀ fuel ≥ max depth depth', (findFirst fuel key).run t =
      (if leaf.keyCount ≤ slot then Iterator.advance ⟨leaf.pageId,slot,start.isEnd,some leaf⟩
      else return ⟨leaf.pageId,slot,start.isEnd,some leaf⟩ : TreeM K V (Iterator K V)).run t := by
    intro fuel hfuel
    have hload : ({ start with currentPage := leaf.pageId, currentSlot := slot } :
        Iterator K V).loadCurrentNode.run t =
        .ok (⟨leaf.pageId,slot,start.isEnd,some leaf⟩,t) := by
      unfold Iterator.loadCurrentNode
      rw [if_neg (nodeAt_some hpage).1,run_bind_ok (getNode_nodeAt leaf.pageId t),hpage]
      rfl
    rw [findFirst,run_bind_ok (hleaf fuel (by omega))]
    simp only [← hslot]
    rw [run_bind_ok (hbegin fuel (by omega)),run_bind_ok hload]
  by_cases hpast : leaf.keyCount ≤ slot
  · have hend : behind ≠ [] → start.isEnd = false := by
      intro hne
      obtain ⟨m,hm⟩ := List.exists_mem_of_ne_nil _ hne
      exact hstart.isEnd (entriesOf_ne_nil
        (List.mem_append_right before (List.mem_cons_of_mem leaf hm)) (hrest m hm).2)
    obtain ⟨it,hadvance,hahead⟩ := advanceFrom_next (t := t)
      ⟨leaf.pageId,slot,start.isEnd,some leaf⟩ (h.linked.of_append) hrest
      (hpast.trans (Nat.le_succ slot)) hend
    refine ⟨max depth depth',it,_,_,?_,hsplit,hlow,hhigh,?_⟩
    · rw [entries_drop_past hpast]
      exact hahead
    · intro fuel hfuel
      rw [hrun fuel hfuel,if_pos hpast]
      exact hadvance
  · have hinside : slot < leaf.keyCount := Nat.not_le.mp hpast
    have hmem : leaf ∈ before++leaf::behind :=
      List.mem_append_right before List.mem_cons_self
    have hend := hstart.isEnd (entriesOf_ne_nil hmem (Nat.zero_lt_of_lt hinside))
    refine ⟨max depth depth',_,_,_,.here (honPage leaf hmem) hinside h.linked.of_append hrest,
      hsplit,hlow,hhigh,?_⟩
    intro fuel hfuel
    rw [hrun fuel hfuel,if_neg hpast,hend]
    rfl

end Starts

section Ranges

variable {t : BTree K V} {it : Iterator K V} {rest : List (K × V)}

omit [Inhabited K] [Inhabited V] in
theorem filter_past {stop : K} {e : K × V} (h : (e::rest).Pairwise fun a b => a.1 < b.1)
    (hstop : stop < e.1) : (e::rest).filter (fun e => decide (e.1 ≤ stop)) = [] := by
  rw [List.filter_eq_nil_iff]
  intro e' he'
  rw [decide_eq_true_eq,not_le]
  rcases List.mem_cons.mp he' with rfl | hmem
  · exact hstop
  · exact hstop.trans (List.rel_of_pairwise_cons h hmem)

theorem collectPairs_run (stop : K) (h : Ahead t.store it rest)
    (hsorted : rest.Pairwise fun a b => a.1 < b.1) (out : List (K × V)) {fuel : ℕ}
    (hfuel : rest.length < fuel) :
    (collectPairs stop fuel it out).run t =
      .ok (out++rest.filter (fun e => decide (e.1 ≤ stop)),t) := by
  induction rest generalizing it out fuel with
  | nil =>
    obtain ⟨fuel,rfl⟩ := Nat.exists_eq_add_of_lt hfuel
    rw [h.eq_done,List.filter_nil,List.append_nil]
    rfl
  | cons e rest ih =>
    obtain ⟨fuel,rfl⟩ : ∃ k, fuel = k+1 := ⟨fuel-1,by omega⟩
    obtain ⟨hdiffers,hderef,it',hadvance,hahead⟩ := h.step
    rw [collectPairs,if_pos hdiffers,run_bind_ok hderef]
    by_cases hstop : stop < e.1
    · rw [filter_past hsorted hstop,List.append_nil]
      simp only [hstop,if_true]
      rfl
    · simp only [hstop,if_false]
      rw [run_bind_ok hadvance,ih hahead hsorted.of_cons _ (by simpa using hfuel),
        List.filter_cons_of_pos (by simpa using hstop)]
      simp

theorem collectValues_run (stop : K) (h : Ahead t.store it rest)
    (hsorted : rest.Pairwise fun a b => a.1 < b.1) (out : List V) {fuel : ℕ}
    (hfuel : rest.length < fuel) :
    (collectValues stop fuel it out).run t =
      .ok (out++(rest.filter fun e => decide (e.1 ≤ stop)).map Prod.snd,t) := by
  induction rest generalizing it out fuel with
  | nil =>
    obtain ⟨fuel,rfl⟩ := Nat.exists_eq_add_of_lt hfuel
    rw [h.eq_done,List.filter_nil,List.map_nil,List.append_nil]
    rfl
  | cons e rest ih =>
    obtain ⟨fuel,rfl⟩ : ∃ k, fuel = k+1 := ⟨fuel-1,by omega⟩
    obtain ⟨hdiffers,hderef,it',hadvance,hahead⟩ := h.step
    rw [collectValues,if_pos hdiffers,run_bind_ok hderef]
    by_cases hstop : e.1 ≤ stop
    · rw [if_pos hstop,run_bind_ok hderef,run_bind_ok hadvance,
        ih hahead hsorted.of_cons _ (by simpa using hfuel),
        List.filter_cons_of_pos (by simpa using hstop)]
      simp
    · rw [if_neg hstop,filter_past hsorted (not_le.mp hstop),List.map_nil,List.append_nil]
      rfl

/-- The range queries end; with keys they give the entries between the two keys in the order of the
keys, without them the values of these. -/
theorem rangeQuery_exact {leaves : List (BTreeNode K V)} (h : WellFormed t leaves)
    (hfilled : Filled leaves) (start stop : K) :
    ∃ depth found, (∀ fuel ≥ depth,
        (rangeQueryWithKeys fuel start stop).run t = .ok (found,t) ∧
        (rangeQuery fuel start stop).run t = .ok (found.map Prod.snd,t)) ∧
      found = (entriesOf leaves).filter (fun e => decide (start ≤ e.1 ∧ e.1 ≤ stop)) ∧
      found.Pairwise fun a b => a.1 < b.1 := by
  obtain ⟨depth,it,low,rest,hahead,hsplit,hlow,hhigh,hrun⟩ := h.findFirst_run hfilled start
  have hsorted := h.tree.pairwise
  have hrest : rest.Pairwise fun a b => a.1 < b.1 := by
    rw [hsplit] at hsorted
    exact (List.pairwise_append.mp hsorted).2.1
  have hfound : (entriesOf leaves).filter (fun e => decide (start ≤ e.1 ∧ e.1 ≤ stop)) =
      rest.filter fun e => decide (e.1 ≤ stop) := by
    have hnone : low.filter (fun e => decide (start ≤ e.1 ∧ e.1 ≤ stop)) = [] := by
      rw [List.filter_eq_nil_iff]
      intro e he hbetween
      exact absurd (of_decide_eq_true hbetween).1 (not_le.mpr (hlow e he))
    rw [hsplit,List.filter_append,hnone,List.nil_append]
    refine List.filter_congr ?_
    intro e he
    simp [hhigh e he]
  refine ⟨max depth (rest.length+1),_,?_,hfound.symm,hrest.filter _⟩
  intro fuel hfuel
  rw [rangeQueryWithKeys,run_bind_ok (hrun fuel (by omega)),
    rangeQuery,run_bind_ok (hrun fuel (by omega))]
  exact ⟨collectPairs_run stop hahead hrest [] (by omega),
    collectValues_run stop hahead hrest [] (by omega)⟩

theorem rangeQuery_exact_sample :
    ∃ depth, ∀ fuel ≥ depth,
      (rangeQueryWithKeys fuel 6 10).run sampleTree = .ok ([(6,6),(10,10)],sampleTree) ∧
      (rangeQuery fuel 6 10).run sampleTree = .ok ([6,10],sampleTree) := by
  obtain ⟨depth,found,hrun,hfound,_⟩ :=
    rangeQuery_exact sampleTree_wellFormed sampleLeaves_filled 6 10
  have hlist : found = [(6,6),(10,10)] := hfound.trans (by decide)
  rw [hlist] at hrun
  exact ⟨depth,hrun⟩

end Ranges

section Traversals

variable {t : BTree K V} {leaves : List (BTreeNode K V)}

theorem iterate_run {it : Iterator K V} {rest : List (K × V)} (h : Ahead t.store it rest)
    (out : List (K × V)) {fuel : ℕ} (hfuel : rest.length < fuel) :
    (iterate fuel it out).run t = .ok (out++rest,t) := by
  induction rest generalizing it out fuel with
  | nil =>
    obtain ⟨fuel,rfl⟩ := Nat.exists_eq_add_of_lt hfuel
    rw [h.eq_done,List.append_nil]
    rfl
  | cons e rest ih =>
    obtain ⟨fuel,rfl⟩ : ∃ k, fuel = k+1 := ⟨fuel-1,by omega⟩
    obtain ⟨hdiffers,hderef,it',hadvance,hahead⟩ := h.step
    rw [iterate,if_pos hdiffers,run_bind_ok hderef,run_bind_ok hadvance,
      ih hahead _ (by simpa using hfuel),List.append_assoc]
    rfl

theorem WellFormed.scan_run (h : WellFormed t leaves) (hfilled : Filled leaves) :
    ∃ depth, ∀ fuel ≥ depth, (scan fuel).run t = .ok (entriesOf leaves,t) := by
  obtain ⟨depth,it,hahead,hbegin⟩ := h.begin_run hfilled
  refine ⟨max depth ((entriesOf leaves).length+1),?_⟩
  intro fuel hfuel
  rw [scan,run_bind_ok (hbegin fuel (by omega))]
  exact iterate_run hahead [] (by omega)

omit [LinearOrder K] [Inhabited K] [Inhabited V] in
theorem visitLeaf_run {n : BTreeNode K V} (hleaf : n.isLeaf = true) :
    (visitLeaf n).run t = .ok (n.entries,t) := by
  have hvisit : ∀ is : List ℕ, (∀ i ∈ is, i < n.keyCount) →
      (is.mapM fun i => do
        return (← orThrow (n.getKey i),← orThrow (n.getValue i)) : TreeM K V (List (K × V))).run t =
        .ok (is.map fun i => (n.keys i,n.values i),t) := by
    intro is his
    induction is with
    | nil => rfl
    | cons i is ih =>
      have hi := his i List.mem_cons_self
      have hkey : n.getKey i = some (n.keys i) := if_pos hi
      have hvalue : n.getValue i = some (n.values i) := if_pos ⟨hleaf,hi⟩
      have hrest := ih fun j hj => his j (List.mem_cons_of_mem i hj)
      rw [List.mapM_cons,hkey,hvalue]
      have hentry : (do return (← orThrow (some (n.keys i)),← orThrow (some (n.values i))) :
          TreeM K V (K × V)).run t = .ok ((n.keys i,n.values i),t) := rfl
      rw [run_bind_ok hentry,run_bind_ok hrest]
      rfl
  exact hvisit (List.range n.keyCount) fun i hi => List.mem_range.mp hi

omit [LinearOrder K] [Inhabited K] [Inhabited V] in
theorem pushChildren_eq {n : BTreeNode K V} (stack : List PageId)
    (hchild : ∀ i ≤ n.keyCount, n.getChild i = n.children i)
    (hvalid : ∀ i ≤ n.keyCount, n.children i ≠ invalidPageId) :
    pushChildren n stack = (List.range (n.keyCount+1)).map n.children++stack := by
  have hpush : ∀ is : List ℕ, (∀ i ∈ is, i ≤ n.keyCount) →
      is.foldr (fun i stack => if n.getChild i ≠ invalidPageId then n.getChild i::stack else stack)
        stack = is.map n.children++stack := by
    intro is his
    induction is with
    | nil => rfl
    | cons i is ih =>
      have hi := his i List.mem_cons_self
      rw [List.foldr_cons,ih fun j hj => his j (List.mem_cons_of_mem i hj),hchild i hi,
        if_pos (hvalid i hi)]
      rfl
  unfold pushChildren
  rw [List.foldl_reverse]
  exact hpush _ fun i hi => Nat.lt_succ_iff.mp (List.mem_range.mp hi)

/-- Taking a page from the stack visits the leaves below it and leaves the rest of the stack. -/
theorem traverseLoop_subtree {s : PageStore K V} {pid : PageId} (h : Subtree s pid leaves)
    (hs : t.store = s) :
    ∃ steps, ∀ fuel stack out, (traverseLoop (steps+fuel) (pid::stack) out).run t =
      (traverseLoop fuel stack (out++entriesOf leaves)).run t := by
  induction h with
  | @leaf pid n page isLeaf increasing =>
    refine ⟨1,?_⟩
    intro fuel stack out
    have hone : entriesOf [n] = n.entries := by simp [entriesOf]
    rw [Nat.add_comm,traverseLoop,run_bind_ok (getNode_nodeAt pid t),hs,page]
    simp only [isLeaf,if_true]
    rw [run_bind_ok (visitLeaf_run isLeaf),hone]
  | @inner pid n parts page notLeaf keyed counts increasing below bounds ih =>
    have hchildren : ∀ is : List ℕ, (∀ i ∈ is, i ≤ n.keyCount) → ∃ steps, ∀ fuel stack out,
        (traverseLoop (steps+fuel) (is.map n.children++stack) out).run t =
          (traverseLoop fuel stack (out++entriesOf (is.flatMap parts))).run t := by
      intro is his
      induction is with
      | nil =>
        refine ⟨0,?_⟩
        intro fuel stack out
        simp [entriesOf]
      | cons i is ihs =>
        obtain ⟨first,hfirst⟩ := ih i (his i List.mem_cons_self)
        obtain ⟨later,hlater⟩ := ihs fun j hj => his j (List.mem_cons_of_mem i hj)
        refine ⟨first+later,?_⟩
        intro fuel stack out
        rw [List.map_cons,List.cons_append,Nat.add_assoc,hfirst,hlater,List.flatMap_cons,
          entriesOf_append,List.append_assoc]
    obtain ⟨steps,hsteps⟩ := hchildren (List.range (n.keyCount+1)) fun i hi =>
      Nat.lt_succ_iff.mp (List.mem_range.mp hi)
    have hchild : ∀ i ≤ n.keyCount, n.getChild i = n.children i := by
      intro i hi
      exact BTreeNode.getChild_eq notLeaf (by omega)
    have hvalid : ∀ i ≤ n.keyCount, n.children i ≠ invalidPageId := by
      intro i hi
      obtain ⟨_,hroot⟩ := (below i hi).root
      exact (nodeAt_some hroot).1
    refine ⟨steps+1,?_⟩
    intro fuel stack out
    rw [Nat.add_right_comm,traverseLoop,run_bind_ok (getNode_nodeAt pid t),hs,page]
    simp only [notLeaf,Bool.false_eq_true,if_false]
    rw [pushChildren_eq stack hchild hvalid]
    exact hsteps fuel stack out

theorem WellFormed.traverse_run (h : WellFormed t leaves) :
    ∃ depth, ∀ fuel ≥ depth, (traverse fuel).run t = .ok (entriesOf leaves,t) := by
  obtain ⟨root,hroot⟩ := h.tree.root
  obtain ⟨steps,hsteps⟩ := traverseLoop_subtree (t := t) h.tree rfl
  refine ⟨steps,?_⟩
  intro fuel hfuel
  obtain ⟨rest,rfl⟩ := Nat.exists_eq_add_of_le hfuel
  rw [traverse,run_get_bind,run_bind_ok (getNode_nodeAt t.rootPageId t),hroot]
  simp only
  rw [run_get_bind,hsteps rest [] []]
  cases rest <;> rfl

/-- The walk with the stack and the walk along the chain of the leaves meet the same entries in the
same order: each entry of a leaf once, with increasing keys. -/
theorem traversals_agree (h : WellFormed t leaves) (hfilled : Filled leaves) :
    ∃ depth visited, (∀ fuel ≥ depth, (traverse fuel).run t = .ok (visited,t) ∧
        (scan fuel).run t = .ok (visited,t)) ∧
      visited.Pairwise (fun a b => a.1 < b.1) ∧
      visited = leaves.flatMap BTreeNode.entries ∧ visited.Nodup := by
  obtain ⟨depth,htraverse⟩ := h.traverse_run
  obtain ⟨depth',hscan⟩ := h.scan_run hfilled
  have hsorted := h.tree.pairwise
  refine ⟨max depth depth',entriesOf leaves,?_,hsorted,rfl,?_⟩
  · intro fuel hfuel
    exact ⟨htraverse fuel (by omega),hscan fuel (by omega)⟩
  · refine hsorted.imp ?_
    rintro a b hlt rfl
    exact lt_irrefl _ hlt

theorem traversals_agree_sample :
    ∃ depth, ∀ fuel ≥ depth,
      (traverse fuel).run sampleTree = .ok ([(5,5),(6,6),(10,10),(11,11)],sampleTree) ∧
      (scan fuel).run sampleTree = .ok ([(5,5),(6,6),(10,10),(11,11)],sampleTree) := by
  obtain ⟨depth,visited,hrun,_,hvisited,_⟩ :=
    traversals_agree sampleTree_wellFormed sampleLeaves_filled
  have hlist : visited = [(5,5),(6,6),(10,10),(11,11)] := hvisited.trans (by decide)
  rw [hlist] at hrun
  exact ⟨depth,hrun⟩

end Traversals

end BTree
end OrangeSQL
