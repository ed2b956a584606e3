import Mathlib.Data.List.Basic
import Mathlib.Data.List.Flatten
import Mathlib.Tactic

/-! Lists cut into runs of one length, of which the last may be shorter, and the end of the first run
that reaches a position. -/
namespace ListCuts

variable {α : Type*} {size seen target target' : ℕ} {r : List α} {runs : List (List α)}

structure CutsBy (size : ℕ) (runs : List (List α)) : Prop where
  nonempty : ∀ r ∈ runs, r ≠ []
  length_le : ∀ r ∈ runs, r.length ≤ size
  full : ∀ r ∈ runs.dropLast, r.length = size

theorem CutsBy.nil : CutsBy size ([] : List (List α)) := ⟨nofun,nofun,nofun⟩

theorem CutsBy.cons (h : CutsBy size runs) (hne : r ≠ []) (hle : r.length ≤ size)
    (hfull : runs ≠ [] → r.length = size) : CutsBy size (r::runs) := by
  refine ⟨List.forall_mem_cons.mpr ⟨hne,h.nonempty⟩,List.forall_mem_cons.mpr ⟨hle,h.length_le⟩,?_⟩
  cases runs with
  | nil => exact nofun
  | cons r' runs =>
    rw [List.dropLast_cons_of_ne_nil (List.cons_ne_nil _ _)]
    exact List.forall_mem_cons.mpr ⟨hfull (List.cons_ne_nil _ _),h.full⟩

/-- The number of elements up to the end of the first run with which they reach the target. -/
def crossing (target : ℕ) : ℕ → List (List α) → ℕ
  | seen, [] => seen
  | seen, r::runs =>
    if target ≤ seen+r.length then seen+r.length else crossing target (seen+r.length) runs

theorem le_crossing : seen ≤ crossing target seen runs := by
  induction runs generalizing seen with
  | nil => exact le_rfl
  | cons r runs ih =>
    rw [crossing]
    split_ifs
    · omega
    · exact le_trans (by omega) ih

theorem lt_crossing (h : ∀ r ∈ runs, r ≠ []) (hne : runs ≠ []) : seen < crossing target seen runs := by
  cases runs with
  | nil => exact absurd rfl hne
  | cons r runs =>
    have hr := List.length_pos_iff.mpr (h r List.mem_cons_self)
    have hrest := @le_crossing _ (seen+r.length) target runs
    rw [crossing]
    split_ifs <;> omega

theorem crossing_le_length : crossing target seen runs ≤ seen+runs.flatten.length := by
  induction runs generalizing seen with
  | nil => exact le_rfl
  | cons r runs ih =>
    have hrest := @ih (seen+r.length)
    rw [crossing,List.flatten_cons,List.length_append]
    split_ifs <;> omega

theorem target_le_crossing (h : target ≤ seen+runs.flatten.length) :
    target ≤ crossing target seen runs := by
  induction runs generalizing seen with
  | nil => exact h
  | cons r runs ih =>
    rw [List.flatten_cons,List.length_append] at h
    rw [crossing]
    split_ifs with hr
    · exact hr
    · exact ih (by omega)

theorem crossing_mono (h : target ≤ target') :
    crossing target seen runs ≤ crossing target' seen runs := by
  induction runs generalizing seen with
  | nil => exact le_rfl
  | cons r runs ih =>
    rw [crossing,crossing]
    split_ifs
    · exact le_rfl
    · exact le_crossing
    · omega
    · exact ih

/-- The end lies less than a run behind the target, or it is the one of the first run. -/
theorem crossing_le (h : ∀ r ∈ runs, r.length ≤ size) :
    crossing target seen runs ≤ max seen (target-1)+size := by
  induction runs generalizing seen with
  | nil => exact (le_max_left _ _).trans (Nat.le_add_right _ _)
  | cons r runs ih =>
    obtain ⟨hr,hruns⟩ := List.forall_mem_cons.mp h
    have hrest := @ih (seen+r.length) hruns
    rw [crossing]
    split_ifs <;> omega

end ListCuts
