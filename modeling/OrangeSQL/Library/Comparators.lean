import OrangeSQL.Library.WeakOrders

/-! Comparators that return an integer, of which only the sign counts. Where it is the order of some
keys, the comparator is a total preorder, a sort by it puts the keys in order, and a loop that keeps
the better of two elements ends with one that none is better than. -/
namespace Comparators

open WeakOrders

variable {α κ : Type*} [LinearOrder κ] {cmp : α → α → ℤ} {key : α → κ} {a b c : α}

/-- The sign of the comparator is the order of the keys. -/
structure OrdersBy (cmp : α → α → ℤ) (key : α → κ) : Prop where
  neg : ∀ a b, cmp a b < 0 ↔ key a < key b
  pos : ∀ a b, 0 < cmp a b ↔ key b < key a

namespace OrdersBy

theorem nonpos (h : OrdersBy cmp key) (a b : α) : cmp a b ≤ 0 ↔ key a ≤ key b := by
  rw [← Int.not_lt,h.pos,not_lt]

theorem nonneg (h : OrdersBy cmp key) (a b : α) : 0 ≤ cmp a b ↔ key b ≤ key a := by
  rw [← Int.not_lt,h.neg,not_lt]

theorem zero (h : OrdersBy cmp key) (a b : α) : cmp a b = 0 ↔ key a = key b := by
  rw [Int.le_antisymm_iff,h.nonpos,h.nonneg,le_antisymm_iff]

theorem sign_swap (h : OrdersBy cmp key) (a b : α) : (cmp b a).sign = -(cmp a b).sign := by
  rcases lt_trichotomy (key a) (key b) with hlt | heq | hgt
  · rw [Int.sign_eq_neg_one_of_neg ((h.neg a b).mpr hlt),Int.sign_eq_one_of_pos ((h.pos b a).mpr hlt)]
    rfl
  · rw [(h.zero a b).mpr heq,(h.zero b a).mpr heq.symm]
    rfl
  · rw [Int.sign_eq_one_of_pos ((h.pos a b).mpr hgt),Int.sign_eq_neg_one_of_neg ((h.neg b a).mpr hgt)]

theorem trans (h : OrdersBy cmp key) (hab : cmp a b ≤ 0) (hbc : cmp b c ≤ 0) : cmp a c ≤ 0 :=
  (h.nonpos a c).mpr (((h.nonpos a b).mp hab).trans ((h.nonpos b c).mp hbc))

/-- What the comparator calls less is a strict weak order. -/
theorem strictWeakOn (h : OrdersBy cmp key) (l : List α) :
    StrictWeakOn (fun a b => decide (cmp a b < 0)) l := by
  constructor
  · intro a _
    simp [h.neg]
  · intro a _ b _ c _ hab hbc
    simp only [h.neg,decide_eq_true_eq] at hab hbc ⊢
    exact hab.trans hbc
  · rintro a _ b _ c _ ⟨hab,hba⟩ ⟨hbc,hcb⟩
    simp only [h.neg,decide_eq_false_iff_not,not_lt] at hab hba hbc hcb
    simp only [Tied,h.neg,decide_eq_false_iff_not,not_lt]
    exact ⟨hbc.trans hab,hba.trans hcb⟩

theorem sorted_iff (h : OrdersBy cmp key) (l : List α) :
    Sorted (fun a b => decide (cmp a b < 0)) l ↔ l.Pairwise fun a b => cmp a b ≤ 0 := by
  simp only [Sorted,h.neg,h.nonpos,decide_eq_false_iff_not,not_lt]

end OrdersBy

section Best

/-- The loop that keeps the better of two elements. -/
def best (better : α → α → Bool) (first : α) (l : List α) : α :=
  l.foldl (fun result a => if better a result then a else result) first

variable {better : α → α → Bool} {first : α} {l : List α}

omit [LinearOrder κ] in
theorem best_mem : best better first l ∈ first::l := by
  induction l generalizing first with
  | nil => exact List.mem_cons_self
  | cons a l ih =>
    have hrest := @ih (if better a first then a else first)
    rw [best,List.foldl_cons]
    rcases List.mem_cons.mp hrest with heq | hmem
    · rw [best] at heq
      rw [heq]
      split_ifs
      · exact List.mem_cons_of_mem _ List.mem_cons_self
      · exact List.mem_cons_self
    · exact List.mem_cons_of_mem _ (List.mem_cons_of_mem _ hmem)

theorem best_le (h : ∀ a b, better a b = true ↔ key a < key b) :
    ∀ a ∈ first::l, key (best better first l) ≤ key a := by
  induction l generalizing first with
  | nil =>
    intro a ha
    rw [List.mem_singleton.mp ha]
    exact le_rfl
  | cons b l ih =>
    have hrest := @ih (if better b first then b else first)
    have hnext := hrest _ List.mem_cons_self
    have hboth : key (if better b first then b else first) ≤ key first ∧
        key (if better b first then b else first) ≤ key b := by
      split_ifs with hbetter
      · exact ⟨((h b first).mp hbetter).le,le_rfl⟩
      · exact ⟨le_rfl,not_lt.mp fun hlt => hbetter ((h b first).mpr hlt)⟩
    rw [best,List.foldl_cons]
    intro a ha
    rcases List.mem_cons.mp ha with rfl | ha
    · exact hnext.trans hboth.1
    · rcases List.mem_cons.mp ha with rfl | ha
      · exact hnext.trans hboth.2
      · exact hrest a (List.mem_cons_of_mem _ ha)

end Best

end Comparators
