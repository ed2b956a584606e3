import Mathlib.Control.Monad.Basic

/-! Rules for computations with a state that may have no result: which invariant of the state they
keep, and what their result satisfies. -/
namespace StateRules

variable {σ α β : Type} {P : σ → Prop} {Q : α → Prop} {R : β → Prop}

/-- From a state with the invariant the computation has no result, or it has one that satisfies the
condition and leaves the invariant. -/
def Keeps (P : σ → Prop) (x : StateT σ Option α) (Q : α → Prop) : Prop :=
  ∀ s a s', P s → x s = some (a,s') → P s' ∧ Q a

theorem keeps_pure {a : α} (h : Q a) : Keeps P (pure a) Q := by
  intro s b s' hs hrun
  obtain ⟨rfl,rfl⟩ := Prod.mk.inj (Option.some.inj hrun)
  exact ⟨hs,h⟩

theorem keeps_failure : Keeps P (failure : StateT σ Option α) Q := by
  intro s a s' _ hrun
  cases hrun

theorem Keeps.bind {x : StateT σ Option α} {f : α → StateT σ Option β} (hx : Keeps P x Q)
    (hf : ∀ a, Q a → Keeps P (f a) R) : Keeps P (x >>= f) R := by
  intro s b s' hs hrun
  obtain ⟨⟨a,s₁⟩,hfirst,hrest⟩ := Option.bind_eq_some_iff.mp hrun
  obtain ⟨hs₁,ha⟩ := hx s a s₁ hs hfirst
  exact hf a ha s₁ b s' hs₁ hrest

theorem keeps_ite {c : Prop} [Decidable c] {x y : StateT σ Option α} (hx : c → Keeps P x Q)
    (hy : ¬c → Keeps P y Q) : Keeps P (if c then x else y) Q := by
  split_ifs with h
  · exact hx h
  · exact hy h

theorem Keeps.discard {x : StateT σ Option α} (hx : Keeps P x Q) :
    Keeps P (discard x) fun _ => True := by
  intro s a s' hs hrun
  obtain ⟨⟨b,s₁⟩,hfirst,hrest⟩ := Option.bind_eq_some_iff.mp hrun
  obtain ⟨_,rfl⟩ := Prod.mk.inj (Option.some.inj hrest)
  exact ⟨(hx s b s₁ hs hfirst).1,trivial⟩

end StateRules
