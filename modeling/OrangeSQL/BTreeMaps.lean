import OrangeSQL.BTreeDuplicates
import OrangeSQL.BTreeRemoval
import OrangeSQL.Library.Dictionaries

/-! Sessions on a B-tree against a dictionary. As long as no call meets a full node on the way of an
insertion, or an underfull node or a separator with the key on the way of a removal, the tree answers
as a dictionary does that refuses a key a second time if the index is unique. -/
namespace OrangeSQL
namespace BTree

variable {K V : Type} [LinearOrder K] [Inhabited K] [Inhabited V]

open BTreeNode (minKeys maxKeys toIndex)

section Definitions

inductive Call (K V : Type)
  | insert (key : K) (value : V)
  | remove (key : K)
  | find (key : K)
  | range (start stop : K)
  | scan

inductive Reply (K V : Type)
  | status (s : Status)
  | found (r : Status × Option V)
  | pairs (l : List (K × V))
  deriving DecidableEq

def perform (fuel : ℕ) : Call K V → TreeM K V (Reply K V)
  | .insert key value => do return .status (← insert fuel key value)
  | .remove key => do return .status (← remove fuel key)
  | .find key => do return .found (← find fuel key)
  | .range start stop => do return .pairs (← rangeQueryWithKeys fuel start stop)
  | .scan => do return .pairs (← scan fuel)

/-- What a dictionary answers, and what it is afterwards. -/
def respond (unique : Bool) (d : Dictionary K V) : Call K V → Reply K V × Dictionary K V
  | .insert key value =>
    if unique && d.has key then (.status .alreadyExists,d) else (.status .ok,d.put key value)
  | .remove key => (.status (if d.has key then .ok else .notFound),d.drop key)
  | .find key => (.found (answer (d.get key)),d)
  | .range start stop => (.pairs (d.between start stop),d)
  | .scan => (.pairs d.entries,d)

/-- The leaves of the tree have the pairs of the dictionary. -/
def Holds (t : BTree K V) (d : Dictionary K V) : Prop :=
  ∃ leaves, WellFormed t leaves ∧ Filled leaves ∧ entriesOf leaves = d.entries

/-- With enough fuel the call returns, with this result and in this state. -/
def Settles {α : Type} (call : ℕ → TreeM K V α) (t : BTree K V) (a : α) (t' : BTree K V) : Prop :=
  ∃ depth, ∀ fuel ≥ depth, (call fuel).run t = .ok (a,t')

/-- On the way of the call no node is split, merged or lent a key. -/
def Steady (t : BTree K V) : Call K V → Prop
  | .insert key _ => RoomOnPath t key
  | .remove key => ∀ nodes leaf, SearchPath t.store key t.rootPageId nodes leaf →
      (∀ n ∈ nodes, n.hasKeyAt (n.findKeyIndex key) key = false) ∧
      ∀ n ∈ (nodes++[leaf]).tail, n.isUnderflow = false
  | _ => True

end Definitions

section Settling

variable {α β : Type} {t t' t₂ : BTree K V} {a a' : α} {b : β} {call : ℕ → TreeM K V α}

omit [LinearOrder K] [Inhabited K] [Inhabited V] in
theorem Settles.unique (h : Settles call t a t') (h' : Settles call t a' t₂) : a' = a ∧ t₂ = t' := by
  obtain ⟨depth,hrun⟩ := h
  obtain ⟨depth',hrun'⟩ := h'
  have hsame := (hrun' (max depth depth') (le_max_right _ _)).symm.trans
    (hrun (max depth depth') (le_max_left _ _))
  exact Prod.mk.inj (Except.ok.inj hsame)

omit [LinearOrder K] [Inhabited K] [Inhabited V] in
theorem Settles.bind {next : ℕ → α → TreeM K V β} (h : Settles call t a t')
    (hnext : Settles (fun fuel => next fuel a) t' b t₂) :
    Settles (fun fuel => call fuel >>= next fuel) t b t₂ := by
  obtain ⟨depth,hrun⟩ := h
  obtain ⟨depth',hrun'⟩ := hnext
  refine ⟨max depth depth',fun fuel hfuel => ?_⟩
  simp only
  rw [run_bind_ok (hrun fuel (le_of_max_le_left hfuel))]
  exact hrun' fuel (le_of_max_le_right hfuel)

omit [LinearOrder K] [Inhabited K] [Inhabited V] in
theorem Settles.map (f : α → β) (h : Settles call t a t') :
    Settles (fun fuel => do return f (← call fuel)) t (f a) t' :=
  h.bind ⟨0,fun _ _ => rfl⟩

end Settling

section Inserting

variable {t : BTree K V} {leaves : List (BTreeNode K V)} {key : K}

/-- The way down to the leaf, where a unique index looks for the key first. -/
theorem insertInternal_steady {pid : PageId} {nodes : List (BTreeNode K V)} {leaf : BTreeNode K V}
    (h : SearchPath t.store key pid nodes leaf) (hfull : ∀ n ∈ nodes, n.isFull = false)
    (hleaf : leaf.isFull = false) (value : V) {fuel : ℕ} (hfuel : nodes.length < fuel) :
    (insertInternal fuel key value pid).run t =
      (if t.config.unique && leaf.hasKeyAt (leaf.findKeyIndex key) key then return .alreadyExists
      else do
        releaseNode (leaf.insert key value invalidPageId).2
        return if (leaf.insert key value invalidPageId).1 then .ok else .error :
          TreeM K V Status).run t := by
  induction h generalizing fuel with
  | @leaf pid n page isLeaf =>
    obtain ⟨fuel,rfl⟩ := Nat.exists_eq_add_of_le' (show 1 ≤ fuel by omega)
    rw [insertInternal,run_bind_ok (getNode_nodeAt pid t),page]
    simp only [isLeaf,if_true,run_get_bind]
  | @inner pid n leaf nodes page notLeaf below ih =>
    obtain ⟨fuel,rfl⟩ := Nat.exists_eq_add_of_le' (show 1 ≤ fuel by omega)
    obtain ⟨child,hchild,hon⟩ := below.root
    have hroom : child.isFull = false := by
      rcases hon with hon | rfl
      · exact hfull child (List.mem_cons_of_mem n hon)
      · exact hleaf
    rw [insertInternal,run_bind_ok (getNode_nodeAt pid t),page]
    simp only [notLeaf,Bool.false_eq_true,if_false]
    rw [run_bind_ok (getNode_nodeAt _ t),hchild]
    simp only [hroom,Bool.false_eq_true,if_false]
    exact ih (fun k hk => hfull k (List.mem_cons_of_mem n hk)) hleaf (by simpa using hfuel)

/-- Above the descent `insert` only looks whether the root is full. -/
theorem insert_of_internal {nodes : List (BTreeNode K V)} {leaf : BTreeNode K V}
    (h : SearchPath t.store key t.rootPageId nodes leaf) (hfull : ∀ n ∈ nodes, n.isFull = false)
    (hleaf : leaf.isFull = false) {value : V} {fuel : ℕ} {status : Status} {t' : BTree K V}
    (hrun : (insertInternal fuel key value t.rootPageId).run t = .ok (status,t')) :
    (insert fuel key value).run t = .ok (status,t') := by
  obtain ⟨root,hroot,hon⟩ := h.root
  have hroom : root.isFull = false := by
    rcases hon with hon | rfl
    · exact hfull root hon
    · exact hleaf
  rw [insert,run_get_bind,run_bind_ok (getNode_nodeAt t.rootPageId t),hroot]
  simp only [hroom,Bool.false_eq_true,if_false,pure_bind,run_get_bind]
  rw [run_bind_ok hrun,run_bind_ok (releaseNode_clean (nodeAt_some hroot).2.2)]
  rfl

omit [LinearOrder K] [Inhabited K] [Inhabited V] in
theorem Filled.replace {before behind : List (BTreeNode K V)} {leaf leaf' : BTreeNode K V}
    (h : Filled (before++leaf::behind)) (hpos : before = [] ∧ behind = [] ∨ 0 < leaf'.keyCount) :
    Filled (before++leaf'::behind) := by
  rcases hpos with ⟨rfl,rfl⟩ | hpos
  · exact Or.inl ⟨leaf',rfl⟩
  rcases h with ⟨n,hn⟩ | hall
  · obtain ⟨rfl,hn⟩ | ⟨rest,rfl,hrest⟩ := List.append_eq_cons_iff.mp hn
    · obtain ⟨rfl,rfl⟩ := List.cons.inj hn
      exact Or.inl ⟨leaf',rfl⟩
    · exact absurd hrest (by simp)
  · refine Or.inr fun n hn => ?_
    rcases List.mem_append.mp hn with hn | hn
    · exact hall n (List.mem_append_left _ hn)
    · rcases List.mem_cons.mp hn with rfl | hn
      · exact hpos
      · exact hall n (List.mem_append_right _ (List.mem_cons_of_mem _ hn))

/-- An insertion into a leaf with room, seen from the whole tree. -/
theorem Holds.insert {d : Dictionary K V} (h : Holds t d) (hroom : RoomOnPath t key) (value : V) :
    ∃ status t', Settles (fun fuel => insert fuel key value) t status t' ∧
      t'.config = t.config ∧
      Reply.status status = (respond t.config.unique d (.insert key value)).1 ∧
      Holds t' (respond t.config.unique d (.insert key value)).2 := by
  obtain ⟨leaves,hwell,hfilled,hentries⟩ := h
  obtain ⟨nodes,leaf,before,behind,hleaf⟩ := hwell.tree.keyLeaf hwell.nodup key
  obtain ⟨hfull,hleafRoom⟩ := hroom nodes leaf hleaf.path
  have hrun := fun fuel (hfuel : fuel ≥ nodes.length+1) =>
    insertInternal_steady hleaf.path hfull hleafRoom value hfuel
  have hhas : leaf.hasKeyAt (leaf.findKeyIndex key) key = d.has key := by
    rw [Bool.eq_iff_iff,BTreeNode.hasKeyAt_iff hleaf.increasing,Dictionary.has_iff,← hentries]
    exact exists_congr fun v => (hleaf.mem_iff v).symm
  rw [hhas] at hrun
  unfold respond
  by_cases hrefused : (t.config.unique && d.has key) = true
  · simp only [hrefused,if_true] at hrun ⊢
    exact ⟨.alreadyExists,t,⟨_,fun fuel hfuel =>
      insert_of_internal hleaf.path hfull hleafRoom (hrun fuel hfuel)⟩,rfl,rfl,
      leaves,hwell,hfilled,hentries⟩
  · simp only [hrefused,Bool.false_eq_true,if_false] at hrun ⊢
    have hlt : leaf.keyCount < maxKeys := Nat.not_le.mp (of_decide_eq_false hleafRoom)
    obtain ⟨m,hinsert,hspec⟩ :=
      BTreeNode.insert_spec hleaf.increasing hleaf.isLeaf key value invalidPageId (Or.inr hlt)
    have hmem : m.pageId ∈ t.store.pages := hspec.pageId ▸ mem_of_nodeAt hleaf.page
    simp only [hinsert,if_true] at hrun
    have hwell' := hwell.withLeafNode (m := m) hleaf hspec.pageId hspec.nextId hspec.isLeaf
      hspec.increasing fun e he => ((hspec.entries e).mp he).imp (congrArg Prod.fst) And.right
    refine ⟨.ok,t.withNode m,⟨nodes.length+1,fun fuel hfuel => ?_⟩,rfl,rfl,_,hwell',?_,?_⟩
    · refine insert_of_internal hleaf.path hfull hleafRoom ?_
      rw [hrun fuel hfuel,run_bind_ok (releaseNode_withNode hspec.dirty hmem)]
      rfl
    · refine Filled.replace (hleaf.place ▸ hfilled) (Or.inr ?_)
      obtain ⟨i,hi,_⟩ := BTreeNode.mem_entries.mp ((hspec.entries (key,value)).mpr (Or.inl rfl))
      rw [reread_keyCount]
      omega
    · have hcons : entriesOf (reread m::behind) = m.entries++entriesOf behind := by
        rw [← reread_entries hspec.isLeaf]
        rfl
      have hsame : (⟨_,hwell'.tree.pairwise⟩ : Dictionary K V) = d.put key value := by
        refine Dictionary.eq_of_mem_iff fun e => ?_
        have hold : entriesOf (leaf::behind) = leaf.entries++entriesOf behind := rfl
        rw [Dictionary.mem_put,← hentries,hleaf.place]
        simp only [entriesOf_append,hcons,hold,List.mem_append,hspec.entries]
        have hlow : e ∈ entriesOf before → e.1 ≠ key := fun he => (hleaf.before_lt e he).ne
        have hhigh : e ∈ entriesOf behind → e.1 ≠ key := fun he => (hleaf.lt_behind e he).ne'
        tauto
      exact congrArg Dictionary.entries hsame

end Inserting

section Removing

variable {t : BTree K V} {leaves : List (BTreeNode K V)} {key : K}

theorem removeInternal_steady {pid : PageId} {nodes : List (BTreeNode K V)} {leaf : BTreeNode K V}
    (h : SearchPath t.store key pid nodes leaf)
    (hfree : ∀ n ∈ nodes, n.hasKeyAt (n.findKeyIndex key) key = false)
    (hfull : ∀ n ∈ (nodes++[leaf]).tail, n.isUnderflow = false) {fuel : ℕ}
    (hfuel : nodes.length < fuel) : (removeInternal fuel key pid).run t =
      (if leaf.hasKeyAt (leaf.findKeyIndex key) key then do
        releaseNode (leaf.removeAt (toIndex (leaf.findKeyIndex key))).2
        return .ok
      else return .notFound : TreeM K V Status).run t := by
  induction h generalizing fuel with
  | @leaf pid n page isLeaf =>
    obtain ⟨fuel,rfl⟩ := Nat.exists_eq_add_of_le' (show 1 ≤ fuel by omega)
    rw [removeInternal,run_bind_ok (getNode_nodeAt pid t),page]
    simp only [isLeaf,if_true]
  | @inner pid n leaf nodes page notLeaf below ih =>
    obtain ⟨fuel,rfl⟩ := Nat.exists_eq_add_of_le' (show 1 ≤ fuel by omega)
    obtain ⟨child,hchild,hon⟩ := below.root
    have hroom : child.isUnderflow = false := by
      refine hfull child ?_
      rcases hon with hon | rfl
      · exact List.mem_append_left _ hon
      · exact List.mem_append_right _ (List.mem_singleton.mpr rfl)
    have hhas := hfree n List.mem_cons_self
    rw [removeInternal,run_bind_ok (getNode_nodeAt pid t),page]
    simp only [notLeaf,hhas,Bool.false_eq_true,if_false]
    rw [run_bind_ok (getNode_nodeAt _ t),hchild]
    simp only [hroom,Bool.false_eq_true,if_false]
    exact ih (fun k hk => hfree k (List.mem_cons_of_mem n hk))
      (fun k hk => hfull k (List.mem_of_mem_tail hk)) (by simpa using hfuel)

/-- A leaf that is not underfull keeps an entry. -/
theorem Filled.withoutPair {t : BTree K V} (hwell : WellFormed t leaves) (hfilled : Filled leaves)
    {nodes before behind : List (BTreeNode K V)} {leaf : BTreeNode K V}
    (hleaf : KeyLeaf t.store t.rootPageId leaves key nodes leaf before behind)
    (hfull : ∀ n ∈ (nodes++[leaf]).tail, n.isUnderflow = false) {i : ℕ} (hi : i < leaf.keyCount) :
    Filled (before++reread (leaf.withoutPair i)::behind) := by
  refine Filled.replace (hleaf.place ▸ hfilled) ?_
  cases nodes with
  | nil =>
    left
    cases hleaf.path with
    | leaf page isLeaf =>
      have hplace := hleaf.place
      rw [hwell.tree.eq_leaf page isLeaf] at hplace
      obtain ⟨hbefore,hplace⟩ | ⟨rest,_,hrest⟩ := List.append_eq_cons_iff.mp hplace.symm
      · exact ⟨hbefore,(List.cons.inj hplace).2⟩
      · exact absurd hrest (by simp)
  | cons n nodes =>
    right
    have hhalf := hfull leaf (List.mem_append_right _ (List.mem_singleton.mpr rfl))
    have hcount : minKeys ≤ leaf.keyCount := Nat.not_lt.mp (of_decide_eq_false hhalf)
    have hmin : minKeys = 63 := rfl
    rw [reread_keyCount,BTreeNode.withoutPair_keyCount hi]
    omega

theorem Holds.remove {d : Dictionary K V} (h : Holds t d) (hsteady : Steady t (.remove key)) :
    ∃ status t', Settles (fun fuel => remove fuel key) t status t' ∧ t'.config = t.config ∧
      status = (if d.has key then .ok else .notFound) ∧ Holds t' (d.drop key) := by
  obtain ⟨leaves,hwell,hfilled,hentries⟩ := h
  obtain ⟨nodes,leaf,before,behind,hleaf⟩ := hwell.tree.keyLeaf hwell.nodup key
  obtain ⟨hfree,hfull⟩ := hsteady nodes leaf hleaf.path
  have hrun := fun fuel (hfuel : fuel ≥ nodes.length+1) =>
    removeInternal_steady hleaf.path hfree hfull hfuel
  have hhas : leaf.hasKeyAt (leaf.findKeyIndex key) key = d.has key := by
    rw [Bool.eq_iff_iff,BTreeNode.hasKeyAt_iff hleaf.increasing,Dictionary.has_iff,← hentries]
    exact exists_congr fun v => (hleaf.mem_iff v).symm
  by_cases hin : d.has key = true
  · obtain ⟨i,hi,hkey,hremove⟩ := BTreeNode.remove_present hleaf.isLeaf (hhas.trans hin)
    rw [hhas,hin] at hrun
    simp only [if_true,hremove] at hrun
    have hentries' := BTreeNode.withoutPair_entries_eq_filter hleaf.increasing hi
    rw [hkey] at hentries'
    have hwell' := hwell.withLeafNode (m := leaf.withoutPair i) hleaf rfl rfl hleaf.isLeaf
      (BTreeNode.withoutPair_increasing hleaf.increasing hi) (fun e he => by
        rw [hentries'] at he
        exact Or.inr (List.mem_of_mem_filter he))
    obtain ⟨root,hroot,hkept⟩ := hwell'.root_kept
    have hmem : leaf.pageId ∈ t.store.pages := mem_of_nodeAt hleaf.page
    have hrelease := releaseNode_withNode (n := leaf.withoutPair i) rfl hmem
    refine ⟨.ok,t.withNode (leaf.withoutPair i),⟨nodes.length+1,fun fuel hfuel => ?_⟩,rfl,
      (if_pos hin).symm,_,hwell',Filled.withoutPair hwell hfilled hleaf hfull hi,?_⟩
    · have hinternal := hrun fuel hfuel
      rw [run_bind_ok hrelease] at hinternal
      have hget := getNode_nodeAt (t.withNode (leaf.withoutPair i)).rootPageId
        (t.withNode (leaf.withoutPair i))
      rw [hroot] at hget
      simp only
      rw [BTree.remove,run_get_bind,run_bind_ok hinternal]
      simp only [if_true,run_get_bind]
      rw [run_bind_ok hget]
      simp only [hkept,if_false]
      rfl
    · have hcons : entriesOf (reread (leaf.withoutPair i)::behind) =
          (leaf.withoutPair i).entries++entriesOf behind := by
        rw [← reread_entries (n := leaf.withoutPair i) hleaf.isLeaf]
        rfl
      have hdrop : (d.drop key).entries = d.entries.filter fun e => decide (e.1 ≠ key) := rfl
      rw [hdrop,← hentries,hleaf.filter_entries,entriesOf_append,hcons,hentries',List.append_assoc]
  · have hmiss : d.has key = false := by simpa using hin
    rw [hhas,hmiss] at hrun
    simp only [Bool.false_eq_true,if_false] at hrun
    refine ⟨.notFound,t,⟨nodes.length+1,fun fuel hfuel => ?_⟩,rfl,(if_neg hin).symm,?_⟩
    · have hinternal : (removeInternal fuel key t.rootPageId).run t = .ok (.notFound,t) :=
        hrun fuel hfuel
      simp only
      rw [BTree.remove,run_get_bind,run_bind_ok hinternal]
      rfl
    · rw [Dictionary.drop_absent fun v hv => hin (Dictionary.has_iff.mpr ⟨v,hv⟩)]
      exact ⟨leaves,hwell,hfilled,hentries⟩

end Removing

section Sessions

variable {t : BTree K V} {d : Dictionary K V}

/-- What a search from a page answers, by the leaves below it alone. -/
theorem Subtree.find_run {leaves : List (BTreeNode K V)} (h : Subtree t.store t.rootPageId leaves)
    (key : K) :
    ∃ depth r, (∀ fuel ≥ depth, (BTree.find fuel key).run t = .ok (answer r,t)) ∧
      ∀ v, r = some v ↔ (key,v) ∈ entriesOf leaves := by
  obtain ⟨depth,leaf,_,hfound,hleaf⟩ := findLeafFrom_run (t := t) h rfl key
  have hfindLeaf : ∀ fuel ≥ depth, (findLeaf fuel key).run t = .ok (some leaf,t) := by
    intro fuel hfuel
    rw [findLeaf,run_get_bind,run_bind_ok (getNode_nodeAt t.rootPageId t)]
    exact hleaf fuel hfuel
  have hentry := fun v => (hfound.mem_iff v).trans
    (BTreeNode.mem_entries_iff hfound.increasing key v)
  cases hhas : leaf.hasKeyAt (leaf.findKeyIndex key) key with
  | false =>
    refine ⟨depth,none,fun fuel hfuel => ?_,fun v => ?_⟩
    · rw [BTree.find,run_bind_ok (hfindLeaf fuel hfuel)]
      simp only [hhas,Bool.false_eq_true,if_false]
      rfl
    · rw [hentry v,hhas]
      simp
  | true =>
    have hpos := hhas
    simp only [BTreeNode.hasKeyAt,Bool.and_eq_true,decide_eq_true_eq] at hpos
    have hget : leaf.getValue (leaf.findKeyIndex key).toNat =
        some (leaf.values (leaf.findKeyIndex key).toNat) := if_pos ⟨hfound.isLeaf,by omega⟩
    refine ⟨depth,some (leaf.values (leaf.findKeyIndex key).toNat),fun fuel hfuel => ?_,fun v => ?_⟩
    · rw [BTree.find,run_bind_ok (hfindLeaf fuel hfuel)]
      simp only [hhas,if_true,hget]
      rfl
    · rw [hentry v,hhas,Option.some.injEq,eq_comm]
      simp

theorem Holds.find (h : Holds t d) (key : K) :
    Settles (fun fuel => find fuel key) t (answer (d.get key)) t := by
  obtain ⟨leaves,hwell,_,hentries⟩ := h
  obtain ⟨depth,r,hrun,hr⟩ := hwell.tree.find_run key
  have hget : r = d.get key := by
    ext v
    rw [hr v,hentries]
    exact Dictionary.get_eq_some_iff.symm
  exact ⟨depth,hget ▸ hrun⟩

theorem Holds.range (h : Holds t d) (start stop : K) :
    Settles (fun fuel => rangeQueryWithKeys fuel start stop) t (d.between start stop) t := by
  obtain ⟨leaves,hwell,hfilled,hentries⟩ := h
  obtain ⟨depth,it,low,rest,hahead,hsplit,hlow,hhigh,hrun⟩ := hwell.findFirst_run hfilled start
  have hsorted := hwell.tree.pairwise
  rw [hsplit] at hsorted
  have hnone : low.filter (fun e => decide (start ≤ e.1 ∧ e.1 ≤ stop)) = [] := by
    rw [List.filter_eq_nil_iff]
    intro e he hbetween
    exact absurd (of_decide_eq_true hbetween).1 (not_le.mpr (hlow e he))
  have hrest : d.between start stop = rest.filter fun e => decide (e.1 ≤ stop) := by
    rw [Dictionary.between,← hentries,hsplit,List.filter_append,hnone,List.nil_append]
    refine List.filter_congr fun e he => ?_
    simp [hhigh e he]
  refine ⟨max depth (rest.length+1),fun fuel hfuel => ?_⟩
  simp only
  rw [rangeQueryWithKeys,run_bind_ok (hrun fuel (by omega)),hrest]
  exact collectPairs_run stop hahead (List.pairwise_append.mp hsorted).2.1 [] (by omega)

/-- One steady call does what it does to the dictionary. -/
theorem Holds.perform (h : Holds t d) {call : Call K V} (hsteady : Steady t call) :
    ∃ t', Settles (fun fuel => perform fuel call) t (respond t.config.unique d call).1 t' ∧
      t'.config = t.config ∧ Holds t' (respond t.config.unique d call).2 := by
  cases call with
  | insert key value =>
    obtain ⟨status,t',hrun,hconfig,hreply,hholds⟩ := h.insert hsteady value
    exact ⟨t',hreply ▸ hrun.map Reply.status,hconfig,hholds⟩
  | remove key =>
    obtain ⟨status,t',hrun,hconfig,rfl,hholds⟩ := h.remove hsteady
    exact ⟨t',hrun.map Reply.status,hconfig,hholds⟩
  | find key => exact ⟨t,(h.find key).map Reply.found,rfl,h⟩
  | range start stop => exact ⟨t,(h.range start stop).map Reply.pairs,rfl,h⟩
  | scan =>
    obtain ⟨leaves,hwell,hfilled,hentries⟩ := h
    obtain ⟨depth,hrun⟩ := hwell.scan_run hfilled
    rw [hentries] at hrun
    have hsettles : Settles (fun fuel => BTree.scan fuel) t d.entries t := ⟨depth,hrun⟩
    exact ⟨t,hsettles.map Reply.pairs,rfl,leaves,hwell,hfilled,hentries⟩

end Sessions

section Sample

end Sample

end BTree
end OrangeSQL
