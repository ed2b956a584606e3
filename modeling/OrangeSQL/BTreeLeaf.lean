import OrangeSQL.BTreeShape
import OrangeSQL.Library.FiniteMap

/-! A leaf of the B-tree as a bounded sorted map: its entries after an insertion and after a
removal, and runs of both on a fresh leaf. The removal by key ends in a call with an `int`, whose
overload depends on the key type. -/
namespace OrangeSQL
namespace BTreeNode

variable {K V : Type} [LinearOrder K]

section Entries

variable {n : BTreeNode K V}

omit [LinearOrder K] in
@[simp] theorem length_entries (n : BTreeNode K V) : n.entries.length = n.keyCount := by
  simp [entries]

omit [LinearOrder K] in
theorem getElem_entries (n : BTreeNode K V) {i : ℕ} (h : i < n.entries.length) :
    n.entries[i] = (n.keys i,n.values i) := by
  simp [entries]

omit [LinearOrder K] in
theorem mem_entries {n : BTreeNode K V} {e : K × V} :
    e ∈ n.entries ↔ ∃ i < n.keyCount, (n.keys i,n.values i) = e := by
  simp [entries]

theorem increasing_iff_pairwise :
    n.Increasing ↔ n.entries.Pairwise fun a b => a.1 < b.1 := by
  rw [List.pairwise_iff_getElem]
  constructor
  · intro h i j hi hj hij
    rw [getElem_entries,getElem_entries]
    exact h i j hij (by simpa using hj)
  · intro h i j hij hj
    have hlt := h i j (by simp; omega) (by simpa using hj) hij
    rwa [getElem_entries,getElem_entries] at hlt

/-- Whether the search for a key hits it. -/
theorem hasKeyAt_iff (h : n.Increasing) (key : K) :
    n.hasKeyAt (n.findKeyIndex key) key = true ↔ ∃ v, (key,v) ∈ n.entries := by
  constructor
  · intro hhas
    exact ⟨_,(mem_entries_iff h key _).mpr ⟨hhas,rfl⟩⟩
  · rintro ⟨v,hv⟩
    exact ((mem_entries_iff h key v).mp hv).1

/-- The index of a key that the search hits. -/
theorem hasKeyAt_index {pos : ℤ} {key : K} (h : n.hasKeyAt pos key = true) :
    ∃ i : ℕ, pos = i ∧ i < n.keyCount ∧ n.keys i = key := by
  simp only [hasKeyAt,Bool.and_eq_true,decide_eq_true_eq] at h
  obtain ⟨⟨hpos,hlt⟩,hkey⟩ := h
  exact ⟨pos.toNat,by omega,by omega,hkey⟩

omit [LinearOrder K] in
theorem toIndex_natCast {i : ℕ} (h : i < 65536) : toIndex (i : ℤ) = i := by
  unfold toIndex
  omega

end Entries

section Insert

variable {n : BTreeNode K V} {key : K} {value : V}

/-- An array after a value was put in at an index and the cells from there on were moved up. -/
theorem update_movedUp {α : Type} (a : ℕ → α) (p stop i : ℕ) (x : α) (hi : i ≤ stop) :
    Function.update (movedUp a p stop) p x i =
      if i < p then a i else if i = p then x else a (i-1) := by
  rcases Nat.lt_trichotomy i p with hlt | rfl | hgt
  · rw [Function.update_of_ne (by omega),if_pos hlt,movedUp,if_neg (by omega)]
  · rw [Function.update_self,if_neg (lt_irrefl _),if_pos rfl]
  · rw [Function.update_of_ne (by omega),if_neg (by omega),if_neg (by omega),movedUp,
      if_pos (by omega)]

/-- A leaf with a pair put in at an index. -/
def withPair (n : BTreeNode K V) (p : ℕ) (key : K) (value : V) : BTreeNode K V :=
  markDirty { n with
    keys := Function.update (movedUp n.keys p n.keyCount) p key
    values := Function.update (movedUp n.values p n.keyCount) p value
    header.keyCount := n.header.keyCount+1 }

/-- A leaf with another value at an index. -/
def withValue (n : BTreeNode K V) (i : ℕ) (value : V) : BTreeNode K V :=
  markDirty { n with values := Function.update n.values i value }

omit [LinearOrder K] in
theorem insertAt_leaf (hleaf : n.isLeaf = true) (hroom : n.keyCount < maxKeys) (p : ℕ)
    (child : PageId) :
    n.insertAt p key value child = (true,n.withPair p key value) := by
  have hfull : n.isFull = false := by simpa [isFull] using hroom
  have hleaf' : n.header.type = .leaf := by simpa [isLeaf] using hleaf
  simp [insertAt,hfull,shiftRight,isLeaf,hleaf',withPair]

omit [LinearOrder K] in
theorem withPair_keyCount (hroom : n.keyCount < maxKeys) (p : ℕ) :
    (n.withPair p key value).keyCount = n.keyCount+1 := by
  have hlt : n.header.keyCount.toNat < 127 := hroom
  change (n.header.keyCount+1).toNat = n.header.keyCount.toNat+1
  rw [UInt16.toNat_add]
  exact Nat.mod_eq_of_lt (by simp; omega)

omit [LinearOrder K] in
theorem withPair_entries (hroom : n.keyCount < maxKeys) {p : ℕ} (hp : p ≤ n.keyCount) :
    (n.withPair p key value).entries = n.entries.insertIdx p (key,value) := by
  apply List.ext_getElem
  · rw [length_entries,withPair_keyCount hroom,List.length_insertIdx_of_le_length (by simpa using hp),
      length_entries]
  · intro i hi hi'
    rw [length_entries,withPair_keyCount hroom] at hi
    rw [getElem_entries,List.getElem_insertIdx]
    simp only [withPair,markDirty,getElem_entries]
    rw [update_movedUp _ _ _ _ _ (by omega),update_movedUp _ _ _ _ _ (by omega)]
    split_ifs <;> rfl

/-- The index that an insertion of a new key is made at. -/
theorem insert_eq (value : V) (child : PageId) (hinc : n.Increasing) (hleaf : n.isLeaf = true)
    (hroom : n.keyCount < maxKeys) (hnew : ∀ v, (key,v) ∉ n.entries) : ∃ p ≤ n.keyCount,
      n.insert key value child = (true,n.withPair p key value) ∧
      (∀ j < p, n.keys j < key) ∧ ∀ j, p ≤ j → j < n.keyCount → key < n.keys j := by
  have hsplit := findKeyIndex_splits hinc key
  have hlow := hsplit.low
  have hhigh := hsplit.high
  have hmiss : n.hasKeyAt (n.findKeyIndex key) key = false := by
    rw [Bool.eq_false_iff,ne_eq,hasKeyAt_iff hinc]
    rintro ⟨v,hv⟩
    exact hnew v hv
  have hne : ∀ j < n.keyCount, n.keys j ≠ key := by
    intro j hj hkey
    exact hnew (n.values j) (mem_entries.mpr ⟨j,hj,by rw [hkey]⟩)
  obtain ⟨p,hp⟩ : ∃ p : ℕ, (p : ℤ) = n.findKeyIndex key+1 :=
    ⟨(n.findKeyIndex key+1).toNat,Int.toNat_of_nonneg (by omega)⟩
  have hbelow : ∀ j < p, n.keys j < key := fun j hj =>
    lt_of_le_of_ne (hsplit.below j (by omega)) (hne j (by omega))
  have hpos : (if n.findKeyIndex key < 0 then 0
      else if n.keys (n.findKeyIndex key).toNat < key then n.findKeyIndex key+1
      else n.findKeyIndex key) = (p : ℤ) := by
    by_cases hneg : n.findKeyIndex key < 0
    · rw [if_pos hneg]
      omega
    · rw [if_neg hneg,if_pos (hbelow _ (by omega)),hp]
  have hsmall : n.keyCount < 127 := hroom
  refine ⟨p,by omega,?_,hbelow,fun j hj hcount => hsplit.above j (by omega) hcount⟩
  simp only [insert,hmiss,Bool.false_eq_true,if_false,hpos]
  rw [toIndex_natCast (by omega),insertAt_leaf hleaf hroom]

/-- A leaf without room for a key that it does not have. -/
theorem insert_full (value : V) (child : PageId) (hinc : n.Increasing) (hfull : maxKeys ≤ n.keyCount)
    (hnew : ∀ v, (key,v) ∉ n.entries) : n.insert key value child = (false,n) := by
  have hmiss : n.hasKeyAt (n.findKeyIndex key) key = false := by
    rw [Bool.eq_false_iff,ne_eq,hasKeyAt_iff hinc]
    rintro ⟨v,hv⟩
    exact hnew v hv
  have hfull' : n.isFull = true := by simpa [isFull] using hfull
  simp only [insert,hmiss,Bool.false_eq_true,if_false,insertAt,hfull',if_true]

/-- A key that the leaf has is given the new value. -/
theorem insert_present (value : V) (child : PageId) (hinc : n.Increasing) (hleaf : n.isLeaf = true) {v : V}
    (hmem : (key,v) ∈ n.entries) : ∃ i < n.keyCount, n.keys i = key ∧
      n.insert key value child = (true,n.withValue i value) := by
  have hhas := (hasKeyAt_iff hinc key).mpr ⟨v,hmem⟩
  obtain ⟨i,hi,hlt,hkey⟩ := hasKeyAt_index hhas
  rw [hi] at hhas
  refine ⟨i,hlt,hkey,?_⟩
  simp only [insert,hi,hhas,if_true,hleaf,Int.toNat_natCast]
  rfl

theorem withPair_increasing (hinc : n.Increasing) (hroom : n.keyCount < maxKeys) {p : ℕ}
    (hp : p ≤ n.keyCount) (hbelow : ∀ j < p, n.keys j < key)
    (habove : ∀ j, p ≤ j → j < n.keyCount → key < n.keys j) :
    (n.withPair p key value).Increasing := by
  intro i j hij hj
  rw [withPair_keyCount hroom] at hj
  simp only [withPair,markDirty]
  rw [update_movedUp _ _ _ _ _ (by omega),update_movedUp _ _ _ _ _ (by omega)]
  split_ifs with hi hjp hjp' hi' hjp hjp'
  · exact hinc i j hij (by omega)
  · exact hbelow i hi
  · exact hinc i (j-1) (by omega) (by omega)
  · omega
  · omega
  · exact habove (j-1) (by omega) (by omega)
  · omega
  · omega
  · exact hinc (i-1) (j-1) (by omega) (by omega)

omit [LinearOrder K] in
theorem mem_withPair_entries (hroom : n.keyCount < maxKeys) {p : ℕ} (hp : p ≤ n.keyCount)
    (e : K × V) : e ∈ (n.withPair p key value).entries ↔ e = (key,value) ∨ e ∈ n.entries := by
  rw [withPair_entries hroom hp,List.mem_insertIdx (by simpa using hp)]

theorem mem_withValue_entries (hinc : n.Increasing) {i : ℕ} (hi : i < n.keyCount) (e : K × V) :
    e ∈ (n.withValue i value).entries ↔
      e = (n.keys i,value) ∨ e.1 ≠ n.keys i ∧ e ∈ n.entries := by
  rw [mem_entries,mem_entries]
  simp only [withValue,markDirty,keyCount,Function.update_apply]
  constructor
  · rintro ⟨j,hj,rfl⟩
    split_ifs with hji
    · exact Or.inl (by rw [hji])
    · refine Or.inr ⟨?_,j,hj,rfl⟩
      rcases Nat.lt_or_gt_of_ne hji with hlt | hgt
      · exact (hinc j i hlt hi).ne
      · exact (hinc i j hgt hj).ne'
  · rintro (rfl | ⟨hne,j,hj,rfl⟩)
    · exact ⟨i,hi,by rw [if_pos rfl]⟩
    · exact ⟨j,hj,by rw [if_neg fun h => hne (by rw [h])]⟩

/-- What an insertion makes of a leaf with the key or with room for it. -/
structure LeafInsert (n : BTreeNode K V) (key : K) (value : V) (m : BTreeNode K V) : Prop where
  pageId : m.pageId = n.pageId
  nextId : m.header.nextId = n.header.nextId
  isLeaf : m.isLeaf = true
  dirty : m.dirty = true
  capacity : n.keyCount ≤ maxKeys → m.keyCount ≤ maxKeys
  increasing : m.Increasing
  entries : ∀ e, e ∈ m.entries ↔ e = (key,value) ∨ e.1 ≠ key ∧ e ∈ n.entries

theorem insert_spec (hinc : n.Increasing) (hleaf : n.isLeaf = true) (key : K) (value : V)
    (child : PageId) (hroom : (∃ v, (key,v) ∈ n.entries) ∨ n.keyCount < maxKeys) :
    ∃ m, n.insert key value child = (true,m) ∧ LeafInsert n key value m := by
  by_cases hmem : ∃ v, (key,v) ∈ n.entries
  · obtain ⟨v,hv⟩ := hmem
    obtain ⟨i,hi,hkey,hinsert⟩ := insert_present value child hinc hleaf hv
    refine ⟨_,hinsert,rfl,rfl,hleaf,rfl,id,hinc,fun e => ?_⟩
    rw [mem_withValue_entries hinc hi,hkey]
  · have hnew : ∀ v, (key,v) ∉ n.entries := fun v hv => hmem ⟨v,hv⟩
    have hlt := hroom.resolve_left hmem
    obtain ⟨p,hp,hinsert,hbelow,habove⟩ := insert_eq value child hinc hleaf hlt hnew
    refine ⟨_,hinsert,rfl,rfl,hleaf,rfl,fun _ => ?_,withPair_increasing hinc hlt hp hbelow habove,
      fun e => ?_⟩
    · rw [withPair_keyCount hlt]
      exact hlt
    · rw [mem_withPair_entries hlt hp]
      refine or_congr_right ⟨fun he => ⟨?_,he⟩,And.right⟩
      rintro rfl
      exact hnew e.2 he

end Insert

section Remove

variable [Inhabited K] [Inhabited V] {n : BTreeNode K V} {key : K}

/-- A leaf with the pair at an index taken out. -/
def withoutPair (n : BTreeNode K V) (i : ℕ) : BTreeNode K V :=
  markDirty { n with
    keys := movedDown (Function.update n.keys i default) i n.keyCount
    values := movedDown (Function.update n.values i default) i n.keyCount
    header.keyCount := n.header.keyCount-1 }

omit [LinearOrder K] in
theorem removeAt_leaf (hleaf : n.isLeaf = true) {i : ℕ} (hi : i < n.keyCount) :
    n.removeAt i = (true,n.withoutPair i) := by
  have hleaf' : n.header.type = .leaf := by simpa [isLeaf] using hleaf
  have hcount : ∀ (keys : ℕ → K) (values : ℕ → V),
      BTreeNode.keyCount { n with keys := keys, values := values } = n.keyCount := fun _ _ => rfl
  simp [removeAt,Nat.not_le.mpr hi,shiftLeft,isLeaf,hleaf',withoutPair,hcount]

/-- An array after the value at an index was cleared and the cells above it were moved down. -/
theorem movedDown_update {α : Type} (a : ℕ → α) (p stop i : ℕ) (x : α) (hi : i+1 < stop) :
    movedDown (Function.update a p x) p stop i = if i < p then a i else a (i+1) := by
  unfold movedDown
  split_ifs with h h' h'
  · omega
  · rw [Function.update_of_ne (by omega)]
  · rw [Function.update_of_ne (by omega)]
  · omega

omit [LinearOrder K] in
theorem withoutPair_keyCount {i : ℕ} (hi : i < n.keyCount) :
    (n.withoutPair i).keyCount = n.keyCount-1 := by
  have hpos : 1 ≤ n.header.keyCount := by
    rw [UInt16.le_iff_toNat_le]
    exact Nat.lt_of_le_of_lt (Nat.zero_le i) hi
  exact UInt16.toNat_sub_of_le _ _ hpos

omit [LinearOrder K] in
theorem withoutPair_entries {i : ℕ} (hi : i < n.keyCount) :
    (n.withoutPair i).entries = n.entries.eraseIdx i := by
  apply List.ext_getElem
  · rw [length_entries,withoutPair_keyCount hi,List.length_eraseIdx_of_lt (by simpa using hi),
      length_entries]
  · intro j hj hj'
    rw [length_entries,withoutPair_keyCount hi] at hj
    rw [getElem_entries,List.getElem_eraseIdx]
    simp only [withoutPair,markDirty,getElem_entries]
    rw [movedDown_update _ _ _ _ _ (by omega),movedDown_update _ _ _ _ _ (by omega)]
    split_ifs <;> rfl

/-- A key that the leaf has is taken out. -/
theorem remove_present (hleaf : n.isLeaf = true)
    (hhas : n.hasKeyAt (n.findKeyIndex key) key = true) : ∃ i < n.keyCount, n.keys i = key ∧
      n.removeAt (toIndex (n.findKeyIndex key)) = (true,n.withoutPair i) := by
  obtain ⟨i,hi,hlt,hkey⟩ := hasKeyAt_index hhas
  have hcount : n.keyCount < 65536 := n.header.keyCount.toNat_lt
  refine ⟨i,hlt,hkey,?_⟩
  rw [hi,toIndex_natCast (by omega),removeAt_leaf hleaf hlt]

theorem withoutPair_increasing (hinc : n.Increasing) {i : ℕ} (hi : i < n.keyCount) :
    (n.withoutPair i).Increasing := by
  rw [increasing_iff_pairwise,withoutPair_entries hi]
  exact (increasing_iff_pairwise.mp hinc).sublist (List.eraseIdx_sublist _ _)

omit [Inhabited K] [Inhabited V] in
/-- In an increasing list one key is at one index only. -/
theorem eraseIdx_eq_filter {l : List (K × V)} (h : l.Pairwise fun a b => a.1 < b.1) {i : ℕ}
    (hi : i < l.length) : l.eraseIdx i = l.filter fun e => decide (e.1 ≠ l[i].1) := by
  induction l generalizing i with
  | nil => exact absurd hi (Nat.not_lt_zero i)
  | cons a l ih =>
    obtain ⟨hfirst,hrest⟩ := List.pairwise_cons.mp h
    cases i with
    | zero =>
      rw [List.filter_cons_of_neg (by simp)]
      refine (List.filter_eq_self.mpr ?_).symm
      intro e he
      simpa using (hfirst e he).ne'
    | succ i =>
      have hlt : i < l.length := by simpa using hi
      have hne := (hfirst l[i] (List.getElem_mem hlt)).ne
      rw [List.filter_cons_of_pos (by simpa using hne),List.eraseIdx_cons_succ,ih hrest hlt]
      rfl

theorem withoutPair_entries_eq_filter (hinc : n.Increasing) {i : ℕ} (hi : i < n.keyCount) :
    (n.withoutPair i).entries = n.entries.filter fun e => decide (e.1 ≠ n.keys i) := by
  have hlt : i < n.entries.length := by simpa using hi
  rw [withoutPair_entries hi,eraseIdx_eq_filter (increasing_iff_pairwise.mp hinc) hlt,
    getElem_entries]

end Remove

section Runs

variable [Inhabited K] [Inhabited V]

/-- What `remove(pos)` with an `int` calls: the overload with the index, or the overload with the
key, which is the exact match where keys are integers. -/
inductive IntOverload (K : Type)
  | index
  | key (ofInt : ℤ → K)

/-- `remove(const K&)` with the call at its end resolved one way or the other. -/
def removeKey (o : IntOverload K) : ℕ → BTreeNode K V → K → Option (Bool × BTreeNode K V)
  | 0, _, _ => none
  | fuel+1, n, key =>
    let pos := n.findKeyIndex key
    if n.hasKeyAt pos key then
      match o with
      | .index => some (n.removeAt (toIndex pos))
      | .key ofInt => removeKey o fuel n (ofInt pos)
    else some (false,n)

/-- With the overload by index this is the removal that the rest of the model is about. -/
theorem removeKey_index (fuel : ℕ) (n : BTreeNode K V) (key : K) :
    removeKey .index (fuel+1) n key = some (n.remove key) := by
  simp only [removeKey,remove]
  split_ifs <;> rfl

/-- With the other overload nothing is ever removed. -/
theorem removeKey_key (ofInt : ℤ → K) (fuel : ℕ) (n : BTreeNode K V) (key : K) :
    removeKey (.key ofInt) fuel n key = none ∨
      removeKey (.key ofInt) fuel n key = some (false,n) := by
  induction fuel generalizing key with
  | zero => exact Or.inl rfl
  | succ fuel ih =>
    simp only [removeKey]
    split_ifs
    · exact ih _
    · exact Or.inr rfl

inductive LeafOp (K V : Type)
  | insert (key : K) (value : V)
  | remove (key : K)

namespace LeafOp

/-- What the call does to the node and returns; there is no result where the fuel is used up. -/
def apply (o : IntOverload K) (fuel : ℕ) (n : BTreeNode K V) :
    LeafOp K V → Option (Bool × BTreeNode K V)
  | .insert key value => some (n.insert key value invalidPageId)
  | .remove key => removeKey o fuel n key

/-- What the call does to a map with room for `maxKeys` keys. -/
def onMap (m : Finmap fun _ : K => V) : LeafOp K V → Bool × Finmap fun _ : K => V
  | .insert key value => if key ∉ m ∧ maxKeys ≤ m.keys.card then (false,m) else (true,m.insert key value)
  | .remove key => (decide (key ∈ m),m.erase key)

end LeafOp

/-- The leaf holds the map: its keys increase, and its pairs are those of the map. -/
structure Represents (n : BTreeNode K V) (m : Finmap fun _ : K => V) : Prop where
  isLeaf : n.isLeaf = true
  capacity : n.keyCount ≤ maxKeys
  increasing : n.Increasing
  pairs : ∀ key v, m.lookup key = some v ↔ (key,v) ∈ n.entries

/-- Along a run of calls the results are those of the map and the leaf holds it; an insertion that
is refused leaves the node as it is. -/
def RunAsMap (o : IntOverload K) (fuel : ℕ) :
    BTreeNode K V → (Finmap fun _ : K => V) → List (LeafOp K V) → Prop
  | n, m, [] => Represents n m
  | n, m, op::ops => Represents n m ∧ ∃ n', op.apply o fuel n = some ((op.onMap m).1,n') ∧
      ((∃ key value, op = .insert key value) → (op.onMap m).1 = false → n' = n) ∧
      RunAsMap o fuel n' (op.onMap m).2 ops

/-- No removal meets a key that is there. -/
def NoHit : (Finmap fun _ : K => V) → List (LeafOp K V) → Prop
  | _, [] => True
  | m, op::ops => (∀ key, op = .remove key → key ∉ m) ∧ NoHit (op.onMap m).2 ops

section Steps

variable {n : BTreeNode K V} {m : Finmap fun _ : K => V}

omit [Inhabited K] [Inhabited V] in
theorem Represents.mem_iff (h : Represents n m) (key : K) :
    key ∈ m ↔ ∃ v, (key,v) ∈ n.entries := by
  rw [Finmap.mem_iff]
  exact exists_congr fun v => h.pairs key v

omit [Inhabited K] [Inhabited V] in
/-- A map has as many keys as the leaf that holds it. -/
theorem Represents.card_keys (h : Represents n m) : m.keys.card = n.keyCount := by
  have hkeys : m.keys = (n.entries.map Prod.fst).toFinset := by
    ext key
    rw [Finmap.mem_keys,h.mem_iff,List.mem_toFinset,List.mem_map]
    constructor
    · rintro ⟨v,hv⟩
      exact ⟨_,hv,rfl⟩
    · rintro ⟨e,he,rfl⟩
      exact ⟨e.2,he⟩
  have hnodup : (n.entries.map Prod.fst).Nodup := by
    rw [List.Nodup,List.pairwise_map]
    exact (increasing_iff_pairwise.mp h.increasing).imp fun hlt => hlt.ne
  rw [hkeys,List.toFinset_card_of_nodup hnodup,List.length_map,length_entries]

omit [Inhabited K] [Inhabited V] in
theorem Represents.insert (h : Represents n m) (key : K) (value : V) (child : PageId) :
    ∃ n', n.insert key value child = ((LeafOp.onMap m (.insert key value)).1,n') ∧
      ((LeafOp.onMap m (.insert key value)).1 = false → n' = n) ∧
      Represents n' (LeafOp.onMap m (.insert key value)).2 := by
  simp only [LeafOp.onMap,h.card_keys]
  by_cases hrefused : key ∉ m ∧ maxKeys ≤ n.keyCount
  · have hnew : ∀ v, (key,v) ∉ n.entries := fun v hv => hrefused.1 ((h.mem_iff key).mpr ⟨v,hv⟩)
    rw [if_pos hrefused]
    exact ⟨n,insert_full value child h.increasing hrefused.2 hnew,fun _ => rfl,h⟩
  · have hroom : (∃ v, (key,v) ∈ n.entries) ∨ n.keyCount < maxKeys := by
      rw [← h.mem_iff]
      exact (not_and_or.mp hrefused).imp not_not.mp Nat.not_le.mp
    obtain ⟨n',hinsert,hspec⟩ := insert_spec h.increasing h.isLeaf key value child hroom
    rw [if_neg hrefused]
    refine ⟨n',hinsert,fun hfalse => absurd hfalse (by simp),hspec.isLeaf,hspec.capacity h.capacity,
      hspec.increasing,?_⟩
    intro k v
    rw [FiniteMap.lookup_insert_eq,hspec.entries,← h.pairs]
    split_ifs with hk
    · simp [hk,eq_comm]
    · simp [hk]

theorem Represents.remove (h : Represents n m) (key : K) :
    ∃ n', n.remove key = (decide (key ∈ m),n') ∧ Represents n' (m.erase key) := by
  by_cases hmem : key ∈ m
  · have hhas := (hasKeyAt_iff h.increasing key).mpr ((h.mem_iff key).mp hmem)
    obtain ⟨i,hi,hkey,hremove⟩ := remove_present h.isLeaf hhas
    have hcapacity := h.capacity
    refine ⟨n.withoutPair i,by simp only [BTreeNode.remove,hhas,if_true,hremove,hmem,decide_true],
      h.isLeaf,?_,withoutPair_increasing h.increasing hi,?_⟩
    · rw [withoutPair_keyCount hi]
      omega
    · intro k v
      rw [FiniteMap.lookup_erase_eq,withoutPair_entries_eq_filter h.increasing hi,List.mem_filter,
        hkey,← h.pairs]
      split_ifs with hk <;> simp [hk]
  · have hmiss : n.hasKeyAt (n.findKeyIndex key) key = false := by
      rw [Bool.eq_false_iff,ne_eq,hasKeyAt_iff h.increasing,← h.mem_iff]
      exact hmem
    refine ⟨n,by simp [BTreeNode.remove,hmiss,hmem],h.isLeaf,h.capacity,h.increasing,?_⟩
    intro k v
    rw [FiniteMap.lookup_erase_eq,← h.pairs]
    split_ifs with hk
    · subst hk
      simp [Finmap.lookup_eq_none.mpr hmem]
    · rfl

theorem represents_new (pid : PageId) : Represents (new pid .leaf : BTreeNode K V) ∅ :=
  ⟨rfl,Nat.zero_le _,fun i j _ hj => absurd hj (Nat.not_lt_zero j),fun key v => by
    simp [entries,keyCount,new]⟩

/-- A call with the overload by index, or one that removes nothing, is the call on the map. -/
theorem RunAsMap.of_represents (o : IntOverload K) (ops : List (LeafOp K V)) (h : Represents n m)
    (ho : o = .index ∨ NoHit m ops) : RunAsMap o 1 n m ops := by
  induction ops generalizing n m with
  | nil => exact h
  | cons op ops ih =>
    have hrest : o = .index ∨ NoHit (op.onMap m).2 ops := ho.imp_right And.right
    cases op with
    | insert key value =>
      obtain ⟨n',hinsert,hsame,hn'⟩ := h.insert key value invalidPageId
      exact ⟨h,n',congrArg some hinsert,fun _ => hsame,ih hn' hrest⟩
    | remove key =>
      obtain ⟨n',hremove,hn'⟩ := h.remove key
      refine ⟨h,n',?_,fun hop => by simp at hop,ih hn' hrest⟩
      rcases ho with rfl | hmiss
      · exact (removeKey_index 0 n key).trans (congrArg some hremove)
      · have hout : key ∉ m := hmiss.1 key rfl
        have hno : n.hasKeyAt (n.findKeyIndex key) key = false := by
          rw [Bool.eq_false_iff,ne_eq,hasKeyAt_iff h.increasing,← h.mem_iff]
          exact hout
        simp only [BTreeNode.remove,hno,Bool.false_eq_true,if_false] at hremove
        simp only [LeafOp.apply,removeKey,hno,Bool.false_eq_true,if_false,hremove]
        rfl

/-- With the other overload, a removal of a key that is there does not return true. -/
theorem RunAsMap.noHit {ofInt : ℤ → K} {fuel : ℕ} {ops : List (LeafOp K V)}
    (h : RunAsMap (.key ofInt) fuel n m ops) : NoHit m ops := by
  induction ops generalizing n m with
  | nil => trivial
  | cons op ops ih =>
    obtain ⟨_,n',hcall,_,hrest⟩ := h
    refine ⟨?_,ih hrest⟩
    rintro key rfl
    rcases removeKey_key ofInt fuel n key with hnone | hfalse
    · exact absurd (hnone.symm.trans hcall) (by simp)
    · have hresult := hfalse.symm.trans hcall
      simp only [Option.some.injEq,Prod.mk.injEq,LeafOp.onMap] at hresult
      simpa using hresult.1.symm

/-- Any run of insertions and removals on a fresh leaf is the run on a map, if `remove(pos)` is the
overload by index; with the overload by key it is so only as long as nothing is to be removed. -/
theorem fresh_runAsMap_iff (o : IntOverload K) (pid : PageId) (ops : List (LeafOp K V)) :
    (∃ fuel, RunAsMap o fuel (new pid .leaf) ∅ ops) ↔ o = .index ∨ NoHit ∅ ops := by
  constructor
  · rintro ⟨fuel,hrun⟩
    cases o with
    | index => exact Or.inl rfl
    | key ofInt => exact Or.inr hrun.noHit
  · intro ho
    exact ⟨1,RunAsMap.of_represents o ops (represents_new pid) ho⟩

/-- A leaf with integer keys keeps a key that was to be removed. -/
theorem integer_key_not_removed :
    ¬ ∃ fuel, RunAsMap (.key id) fuel (new 0 .leaf : BTreeNode ℤ ℕ) ∅ [.insert 5 1,.remove 5] := by
  rintro ⟨fuel,hrun⟩
  exact hrun.noHit.2.1 5 rfl (Finmap.mem_insert.mpr (Or.inl rfl))

end Steps

end Runs

end BTreeNode
end OrangeSQL
