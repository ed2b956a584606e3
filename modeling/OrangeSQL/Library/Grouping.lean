import Mathlib.Data.List.Basic
import Mathlib.Tactic

/-! A list of entries that is also kept group by group, under a key of each entry. -/
namespace Grouping

variable {ι : Type*} {κ : Type*} {β : Type*} {γ : Type*} [DecidableEq κ]

/-- The values of the entries with this key, in their order. -/
def group (key : ι → κ) (val : ι → β) (l : List ι) (k : κ) : List β :=
  (l.filter fun x => key x = k).map val

variable (key : ι → κ) (val : ι → β)

@[simp] theorem group_nil (k : κ) : group key val [] k = [] := rfl

@[simp] theorem group_append (l l' : List ι) (k : κ) :
    group key val (l++l') k = group key val l k++group key val l' k := by
  simp [group]

theorem group_cons_self (x : ι) (l : List ι) :
    group key val (x::l) (key x) = val x::group key val l (key x) := by
  simp [group]

theorem group_cons_ne {x : ι} {k : κ} (h : key x ≠ k) (l : List ι) :
    group key val (x::l) k = group key val l k := by
  simp [group,h]

variable {key val}

theorem mem_group_iff {l : List ι} {k : κ} {b : β} :
    b ∈ group key val l k ↔ ∃ x ∈ l, key x = k ∧ val x = b := by
  simp [group,and_assoc]

/-- Without an entry to take out, nothing is taken out of a group. -/
theorem filter_group_eq_self {l : List ι} {k : κ} {p : β → Bool}
    (h : ∀ x ∈ l, key x = k → p (val x) = true) :
    (group key val l k).filter p = group key val l k := by
  rw [List.filter_eq_self]
  intro b hb
  obtain ⟨x,hx,hkey,rfl⟩ := mem_group_iff.mp hb
  exact h x hx hkey

section Remove

variable {f : β → γ} {pre post : List ι} {x : ι}

/-- Taking out of a group what looks like an entry takes out that entry, if no other of the group
looks so. -/
theorem filter_group_of_only [DecidableEq γ]
    (h : ∀ y ∈ pre++post, key y = key x → f (val y) ≠ f (val x)) :
    (group key val (pre++x::post) (key x)).filter (fun b => f b ≠ f (val x)) =
      group key val (pre++post) (key x) := by
  have hkeep : ∀ y ∈ pre++post, key y = key x → decide (f (val y) ≠ f (val x)) = true :=
    fun y hy hkey => decide_eq_true (h y hy hkey)
  have hself := filter_group_eq_self (p := fun b => decide (f b ≠ f (val x))) hkeep
  rw [← hself,group_append,group_append,group_cons_self,List.filter_append,List.filter_append,
    List.filter_cons_of_neg (by simp)]

/-- If an entry that looks so is in front of the group, it is this entry. -/
theorem tail_group_of_only (h : ∀ y ∈ pre++post, key y = key x → f (val y) ≠ f (val x))
    (hfront : ∃ b, (group key val (pre++x::post) (key x)).head? = some b ∧ f b = f (val x)) :
    (group key val (pre++x::post) (key x)).tail = group key val (pre++post) (key x) := by
  obtain ⟨b,hb,hlook⟩ := hfront
  rw [group_append,group_cons_self] at hb ⊢
  rw [group_append]
  cases hpre : group key val pre (key x) with
  | nil => rfl
  | cons a as =>
    exfalso
    rw [hpre,List.cons_append,List.head?_cons,Option.some.injEq] at hb
    have hmem : b ∈ group key val pre (key x) := by
      rw [hpre,hb]
      exact List.mem_cons_self
    obtain ⟨y,hy,hkey,rfl⟩ := mem_group_iff.mp hmem
    exact h y (List.mem_append_left _ hy) hkey hlook

theorem group_remove_ne {k : κ} (h : key x ≠ k) :
    group key val (pre++x::post) k = group key val (pre++post) k := by
  rw [group_append,group_append,group_cons_ne key val h]

end Remove

end Grouping
