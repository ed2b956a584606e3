import Mathlib.Data.List.Basic
import Mathlib.Data.List.Induction

/-! Runs of a step function from a start: what holds in all states of a run, and what holds of each
of its steps. -/
namespace Runs

variable {σ : Type*} {ω : Type*} (step : σ → ω → σ) (start : σ)

/-- The property holds in every state that the run goes through. -/
def Always (P : σ → Prop) (ops : List ω) : Prop :=
  ∀ past future, ops = past++future → P (past.foldl step start)

/-- The condition holds of every step of the run, in the state before it. -/
def EachStep (K : σ → ω → Prop) (ops : List ω) : Prop :=
  ∀ past op future, ops = past++op::future → K (past.foldl step start) op

variable {step start} {P : σ → Prop} {K : σ → ω → Prop}

theorem always_append_singleton {ops : List ω} {op : ω} :
    Always step start P (ops++[op]) ↔
      Always step start P ops ∧ P ((ops++[op]).foldl step start) := by
  constructor
  · intro h
    refine ⟨fun past future hops => ?_,h (ops++[op]) [] (by simp)⟩
    exact h past (future++[op]) (by simp [hops])
  · rintro ⟨hbefore,hlast⟩ past future hops
    rcases List.eq_nil_or_concat future with rfl | ⟨front,x,rfl⟩
    · rw [List.append_nil] at hops
      rwa [← hops]
    · rw [List.concat_eq_append,← List.append_assoc] at hops
      exact hbefore past front (List.append_inj_left' hops rfl)

theorem eachStep_append_singleton {ops : List ω} {op : ω} :
    EachStep step start K (ops++[op]) ↔
      EachStep step start K ops ∧ K (ops.foldl step start) op := by
  constructor
  · intro h
    exact ⟨fun past x future hops => h past x (future++[op]) (by simp [hops]),h ops op [] rfl⟩
  · rintro ⟨hbefore,hlast⟩ past x future hops
    rcases List.eq_nil_or_concat future with rfl | ⟨front,y,rfl⟩
    · obtain ⟨rfl,hx⟩ := List.append_inj' hops rfl
      rwa [← (List.cons.inj hx).1]
    · rw [List.concat_eq_append,← List.cons_append,← List.append_assoc] at hops
      exact hbefore past x front (List.append_inj_left' hops rfl)

/-- An invariant that steps with the condition keep holds at the end of a run of such steps. -/
theorem EachStep.invariant {I : σ → Prop} {ops : List ω} (h : EachStep step start K ops)
    (hstart : I start) (hstep : ∀ s op, I s → K s op → I (step s op)) :
    I (ops.foldl step start) := by
  induction ops using List.reverseRecOn with
  | nil => exact hstart
  | append_singleton ops op ih =>
    obtain ⟨hbefore,hlast⟩ := eachStep_append_singleton.mp h
    rw [List.foldl_append,List.foldl_cons,List.foldl_nil]
    exact hstep _ op (ih hbefore) hlast

/-- If the steps with the condition are those that, from a state with the invariant, keep the
property, and they keep the invariant too, the property holds all along the run exactly if the
condition does. -/
theorem always_iff_eachStep {I : σ → Prop} (hstart : I start) (hholds : ∀ s, I s → P s)
    (hstep : ∀ s op, I s → K s op → I (step s op))
    (hback : ∀ s op, I s → P (step s op) → K s op) (ops : List ω) :
    Always step start P ops ↔ EachStep step start K ops := by
  induction ops using List.reverseRecOn with
  | nil =>
    constructor
    · intro _ past op future hops
      exact absurd hops.symm (by simp)
    · intro _ past future hops
      rw [(List.append_eq_nil_iff.mp hops.symm).1]
      exact hholds start hstart
  | append_singleton ops op ih =>
    rw [always_append_singleton,eachStep_append_singleton,ih,List.foldl_append,List.foldl_cons,
      List.foldl_nil]
    refine and_congr_right fun hsteps => ?_
    have hinv := hsteps.invariant hstart hstep
    exact ⟨hback _ op hinv,fun hlast => hholds _ (hstep _ op hinv hlast)⟩

end Runs
