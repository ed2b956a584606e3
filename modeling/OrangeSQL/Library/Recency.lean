import OrangeSQL.Library.FiniteMap
import OrangeSQL.Library.LinkedList

/-! Recency lists: a linked list of keys, most recently used first, with a map from every key to
its node. `uses` is the history of uses, latest first, so a smaller index is a later use. -/
namespace Recency

open FiniteMap

variable {α : Type} [DecidableEq α]

/-- The list holds each of `keys` once and the map sends each key to its own node. -/
structure Indexes (l : LinkedList α) (its : Finmap fun _ : α => ℕ) (keys : Finset α) : Prop where
  nodup : l.values.Nodup
  mem_iff : ∀ a, a ∈ l.values ↔ a ∈ keys
  keys_eq : its.keys = keys
  own : ∀ a it, its.lookup a = some it → (it,a) ∈ l.nodes

theorem indexes_empty : Indexes (LinkedList.empty : LinkedList α) ∅ ∅ :=
  ⟨List.nodup_nil,by simp,rfl,by simp⟩

theorem Indexes.push {l : LinkedList α} {its : Finmap fun _ : α => ℕ} {keys : Finset α}
    (h : Indexes l its keys) {a : α} (ha : a ∉ keys) :
    Indexes (l.pushFront a) (its.insert a l.fresh) (insert a keys) := by
  refine ⟨?_,?_,?_,?_⟩
  · rw [LinkedList.values_pushFront,List.nodup_cons]
    exact ⟨fun hmem => ha ((h.mem_iff a).mp hmem),h.nodup⟩
  · intro b
    rw [LinkedList.values_pushFront,List.mem_cons,h.mem_iff b,Finset.mem_insert]
  · rw [keys_insert,h.keys_eq]
  · intro b it hb
    rw [LinkedList.mem_nodes_pushFront]
    rcases lookup_insert_cases hb with ⟨rfl,rfl⟩ | hold
    · exact Or.inl rfl
    · exact Or.inr (h.own b it hold)

theorem Indexes.drop {l : LinkedList α} {its : Finmap fun _ : α => ℕ} {keys : Finset α}
    (h : Indexes l its keys) {a : α} (ha : a ∈ keys) :
    Indexes ((its.lookup a).elim l l.erase) (its.erase a) (keys.erase a) := by
  have hmem : a ∈ its := by rw [← Finmap.mem_keys,h.keys_eq]; exact ha
  obtain ⟨it,hit⟩ := Finmap.mem_iff.mp hmem
  have hnode := h.own a it hit
  rw [hit,Option.elim_some]
  refine ⟨h.nodup.sublist (l.values_erase_sublist it),?_,?_,?_⟩
  · intro b
    rw [l.mem_values_erase h.nodup hnode,h.mem_iff b,Finset.mem_erase,and_comm]
  · rw [Finmap.keys_erase,h.keys_eq]
  · intro b it' hb
    have hba : b ≠ a := by
      rintro rfl
      simp at hb
    rw [Finmap.lookup_erase_ne hba] at hb
    have hb' := h.own b it' hb
    refine (l.mem_nodes_erase it _).mpr ⟨hb',?_⟩
    intro hsame
    have he : it' = it := hsame
    exact hba (l.eq_of_mem_nodes (he ▸ hb') hnode)

/-- Moving a key to the front: erase its node, push a new one, repoint the map. -/
theorem Indexes.touch {l : LinkedList α} {its : Finmap fun _ : α => ℕ} {keys : Finset α}
    (h : Indexes l its keys) {a : α} (ha : a ∈ keys) :
    Indexes (((its.lookup a).elim l l.erase).pushFront a)
      (its.insert a ((its.lookup a).elim l l.erase).fresh) keys := by
  have hpush := (h.drop ha).push (Finset.notMem_erase a keys)
  rwa [insert_erase,Finset.insert_erase ha] at hpush

/-- Every iterator of the map is a node of its own key; the list may hold more nodes than that. -/
def Points (l : LinkedList α) (its : Finmap fun _ : α => ℕ) : Prop :=
  ∀ a it, its.lookup a = some it → (it,a) ∈ l.nodes

theorem points_empty : Points (LinkedList.empty : LinkedList α) ∅ := by simp [Points]

theorem Points.push {l : LinkedList α} {its : Finmap fun _ : α => ℕ} (h : Points l its) (a : α) :
    Points (l.pushFront a) (its.insert a l.fresh) := by
  intro b it hb
  rw [LinkedList.mem_nodes_pushFront]
  rcases lookup_insert_cases hb with ⟨rfl,rfl⟩ | hold
  · exact Or.inl rfl
  · exact Or.inr (h b it hold)

theorem Points.drop {l : LinkedList α} {its : Finmap fun _ : α => ℕ} (h : Points l its) (a : α) :
    Points ((its.lookup a).elim l l.erase) (its.erase a) := by
  intro b it hb
  obtain ⟨hne,hold⟩ := lookup_erase_cases hb
  have hnode := h b it hold
  cases ha : its.lookup a with
  | none => exact hnode
  | some it' =>
    refine (l.mem_nodes_erase it' _).mpr ⟨hnode,?_⟩
    intro hsame
    have he : it = it' := hsame
    exact hne (l.eq_of_mem_nodes hnode (he ▸ h a it' ha))

theorem Points.touch {l : LinkedList α} {its : Finmap fun _ : α => ℕ} (h : Points l its) (a : α) :
    Points (((its.lookup a).elim l l.erase).pushFront a)
      (its.insert a ((its.lookup a).elim l l.erase).fresh) := by
  have hpush := (h.drop a).push a
  rwa [insert_erase] at hpush

/-- Dropping a key leaves the other values in their order. -/
theorem Points.filter_drop {l : LinkedList α} {its : Finmap fun _ : α => ℕ} (h : Points l its)
    (a : α) : ((its.lookup a).elim l l.erase).values.filter (· ≠ a) =
      l.values.filter (· ≠ a) := by
  cases ha : its.lookup a with
  | none => rfl
  | some it =>
    rw [Option.elim_some,LinkedList.values,LinkedList.values,LinkedList.erase,List.filter_map,
      List.filter_map,List.filter_filter]
    congr 1
    apply List.filter_congr
    intro n hn
    by_cases hit : n.1 = it
    · have hna : n.2 = a := l.eq_of_mem_nodes (hit ▸ hn) (h a it ha)
      simp [hna]
    · simp [hit]

/-- The list is sorted by the last use of its members. -/
def Ordered (l uses : List α) : Prop := l.Pairwise fun a b => uses.idxOf a < uses.idxOf b

theorem ordered_nil (uses : List α) : Ordered [] uses := List.Pairwise.nil

theorem Ordered.sublist {l l' uses : List α} (h : Ordered l uses) (hsub : l'.Sublist l) :
    Ordered l' uses := List.Pairwise.sublist hsub h

/-- Using a key moves it to the front. -/
theorem Ordered.use {l uses : List α} (h : Ordered l uses) {a : α} (ha : a ∉ l) :
    Ordered (a::l) (a::uses) := by
  have hshift : ∀ b ∈ l, (a::uses).idxOf b = uses.idxOf b+1 := by
    intro b hb
    have hne : a ≠ b := by rintro rfl; exact ha hb
    exact List.idxOf_cons_ne _ hne
  refine List.pairwise_cons.mpr ⟨?_,?_⟩
  · intro b hb
    rw [hshift b hb,List.idxOf_cons_self]
    exact Nat.succ_pos _
  · refine List.Pairwise.imp_of_mem ?_ h
    intro b c hb hc hlt
    rw [hshift b hb,hshift c hc]
    exact Nat.succ_lt_succ hlt

/-- The last member with a property is the least recently used of those that have it. -/
theorem Ordered.find_reverse {l uses : List α} (h : Ordered l uses) {f : α → Bool} {v q : α}
    (hv : l.reverse.find? f = some v) (hq : q ∈ l) (hf : f q = true) (hne : q ≠ v) :
    uses.idxOf q < uses.idxOf v := by
  obtain ⟨_,before,after,hsplit,hnone⟩ := List.find?_eq_some_iff_append.mp hv
  have hl : l = after.reverse++v::before.reverse := by
    rw [← List.reverse_reverse l,hsplit]
    simp
  have hq' : q ∈ after.reverse := by
    rw [hl,List.mem_append,List.mem_cons] at hq
    rcases hq with hq | rfl | hq
    · exact hq
    · exact absurd rfl hne
    · have hnot := hnone q (List.mem_reverse.mp hq)
      simp [hf] at hnot
  rw [hl] at h
  exact (List.pairwise_append.mp h).2.2 q hq' v List.mem_cons_self

end Recency
