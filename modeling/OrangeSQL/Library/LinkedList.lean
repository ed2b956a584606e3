import Mathlib.Data.Finmap
import Mathlib.Tactic

/-! Linked lists whose nodes have an identity, with iterators as node identities.
An iterator stays valid while other nodes come and go; erasing through an iterator that
names no node, which C++ leaves undefined, leaves the list as it is. -/

structure LinkedList (α : Type) where
  nodes : List (ℕ × α)
  fresh : ℕ
  ids_nodup : (nodes.map Prod.fst).Nodup
  ids_lt : ∀ n ∈ nodes, n.1 < fresh

namespace LinkedList

variable {α : Type}

def empty : LinkedList α := ⟨[],0,List.nodup_nil,by simp⟩

def values (l : LinkedList α) : List α := l.nodes.map Prod.snd

/-- Push a value; the iterator to the new node is `l.fresh`. -/
def pushFront (l : LinkedList α) (a : α) : LinkedList α where
  nodes := (l.fresh,a)::l.nodes
  fresh := l.fresh+1
  ids_nodup := by
    rw [List.map_cons,List.nodup_cons]
    refine ⟨?_,l.ids_nodup⟩
    intro h
    obtain ⟨n,hn,he⟩ := List.mem_map.mp h
    exact absurd (l.ids_lt n hn) (by simp [he])
  ids_lt := by
    intro n hn
    rcases List.mem_cons.mp hn with rfl | hn
    · exact Nat.lt_succ_self _
    · exact Nat.lt_succ_of_lt (l.ids_lt n hn)

def erase (l : LinkedList α) (it : ℕ) : LinkedList α where
  nodes := l.nodes.filter fun n => n.1 ≠ it
  fresh := l.fresh
  ids_nodup := l.ids_nodup.sublist (List.filter_sublist.map _)
  ids_lt := fun n hn => l.ids_lt n (List.mem_of_mem_filter hn)

@[simp] theorem values_empty : (empty : LinkedList α).values = [] := rfl
@[simp] theorem values_pushFront (l : LinkedList α) (a : α) :
    (l.pushFront a).values = a::l.values := rfl

theorem mem_nodes_pushFront (l : LinkedList α) (a : α) (n : ℕ × α) :
    n ∈ (l.pushFront a).nodes ↔ n = (l.fresh,a) ∨ n ∈ l.nodes := List.mem_cons

theorem mem_nodes_erase (l : LinkedList α) (it : ℕ) (n : ℕ × α) :
    n ∈ (l.erase it).nodes ↔ n ∈ l.nodes ∧ n.1 ≠ it := by
  simp [erase]

theorem values_erase_sublist (l : LinkedList α) (it : ℕ) : (l.erase it).values.Sublist l.values :=
  List.filter_sublist.map _

/-- Nodes are determined by their identities. -/
theorem eq_of_mem_nodes (l : LinkedList α) {it : ℕ} {a b : α} (ha : (it,a) ∈ l.nodes)
    (hb : (it,b) ∈ l.nodes) : a = b := by
  have h := List.inj_on_of_nodup_map l.ids_nodup ha hb rfl
  exact congrArg Prod.snd h

/-- Erasing through the iterator of a value removes exactly this value. -/
theorem mem_values_erase (l : LinkedList α) (hl : l.values.Nodup) {it : ℕ} {a : α}
    (ha : (it,a) ∈ l.nodes) (b : α) : b ∈ (l.erase it).values ↔ b ∈ l.values ∧ b ≠ a := by
  simp only [values,List.mem_map]
  constructor
  · rintro ⟨n,hn,rfl⟩
    obtain ⟨hmem,hne⟩ := (mem_nodes_erase l it n).mp hn
    refine ⟨⟨n,hmem,rfl⟩,?_⟩
    intro he
    exact hne (congrArg Prod.fst (List.inj_on_of_nodup_map hl hmem ha he))
  · rintro ⟨⟨n,hn,rfl⟩,hne⟩
    refine ⟨n,(mem_nodes_erase l it n).mpr ⟨hn,?_⟩,rfl⟩
    rintro rfl
    exact hne (eq_of_mem_nodes l hn ha)

end LinkedList
