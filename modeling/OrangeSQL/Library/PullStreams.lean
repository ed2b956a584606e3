import Mathlib.Tactic

/-! Functions that run on fuel, and streams that are pulled element by element. A result needs some
fuel, and more fuel keeps it. -/
namespace PullStreams

universe u v

/-- What `x` gives is what `y` gives. -/
def Le {α : Type u} (x y : Option α) : Prop := ∀ a, x = some a → y = some a

/-- More fuel keeps a result. -/
def Keeps {α : Type u} (f : ℕ → Option α) : Prop := ∀ n, Le (f n) (f (n+1))

def Returns {α : Type u} (f : ℕ → Option α) (a : α) : Prop := ∃ n, f n = some a

section Fuel

variable {α β : Type u} {f : ℕ → Option α} {g : α → ℕ → Option β} {a : α} {b : β}

theorem Le.refl (x : Option α) : Le x x := fun _ h => h

theorem Le.bind {x y : Option α} {g h : α → Option β} (hx : Le x y) (hg : ∀ a, Le (g a) (h a)) :
    Le (x >>= g) (y >>= h) := by
  intro b hb
  obtain ⟨a,ha,hb⟩ := Option.bind_eq_some_iff.mp hb
  exact Option.bind_eq_some_iff.mpr ⟨a,hx a ha,hg a b hb⟩

theorem Keeps.mono (hf : Keeps f) {n m : ℕ} (hnm : n ≤ m) (h : f n = some a) : f m = some a := by
  induction hnm with
  | refl => exact h
  | step _ ih => exact hf _ a ih

theorem Returns.unique (hf : Keeps f) {a' : α} (h : Returns f a) (h' : Returns f a') : a = a' := by
  obtain ⟨n,hn⟩ := h
  obtain ⟨m,hm⟩ := h'
  have hleft := hf.mono (le_max_left n m) hn
  rw [hf.mono (le_max_right n m) hm] at hleft
  exact (Option.some.inj hleft).symm

theorem returns_succ (hf : Keeps f) : Returns (fun n => f (n+1)) a ↔ Returns f a := by
  constructor
  · rintro ⟨n,hn⟩
    exact ⟨n+1,hn⟩
  · rintro ⟨n,hn⟩
    exact ⟨n,hf n a hn⟩

theorem returns_some {a' : α} : Returns (fun _ => some a') a ↔ a' = a :=
  ⟨fun ⟨_,h⟩ => Option.some.inj h,fun h => ⟨0,congrArg some h⟩⟩

theorem returns_bind (hf : Keeps f) (hg : ∀ a, Keeps (g a)) :
    Returns (fun n => f n >>= fun a => g a n) b ↔ ∃ a, Returns f a ∧ Returns (g a) b := by
  constructor
  · rintro ⟨n,hn⟩
    obtain ⟨a,ha,hb⟩ := Option.bind_eq_some_iff.mp hn
    exact ⟨a,⟨n,ha⟩,⟨n,hb⟩⟩
  · rintro ⟨a,⟨n,hn⟩,⟨m,hm⟩⟩
    exact ⟨max n m,Option.bind_eq_some_iff.mpr ⟨a,hf.mono (le_max_left n m) hn,
      (hg a).mono (le_max_right n m) hm⟩⟩

end Fuel

section Streams

variable {σ : Type u} {α : Type v} (next : σ → Option α × σ → Prop)

/-- After `i` calls that give elements, the next one gives `a`. -/
inductive Gives : σ → ℕ → α → Prop
  | zero {s s' : σ} {a : α} : next s (some a,s') → Gives s 0 a
  | succ {s s' : σ} {a b : α} {i : ℕ} : next s (some b,s') → Gives s' i a → Gives s (i+1) a

/-- Calling `next` until it gives no element gives these, and leaves the stream so. -/
inductive Drains : σ → List α → σ → Prop
  | done {s s' : σ} : next s (none,s') → Drains s [] s'
  | more {s s' s'' : σ} {a : α} {as : List α} :
      next s (some a,s') → Drains s' as s'' → Drains s (a::as) s''

/-- Calling `next` any number of times leads from one state to the other. -/
def Reaches : σ → σ → Prop := Relation.ReflTransGen fun s s' => ∃ o, next s (o,s')

variable {next} {s s' s'' : σ} {as bs : List α}

theorem Drains.unique (hnext : ∀ s x y, next s x → next s y → x = y) (h : Drains next s as s')
    (h' : Drains next s bs s'') : as = bs ∧ s' = s'' := by
  induction h generalizing bs with
  | done hdone =>
    cases h' with
    | done hdone' => exact ⟨rfl,(Prod.mk.inj (hnext _ _ _ hdone hdone')).2⟩
    | more hmore _ => cases hnext _ _ _ hdone hmore
  | more hmore _ ih =>
    cases h' with
    | done hdone => cases hnext _ _ _ hmore hdone
    | more hmore' hrest =>
      cases hnext _ _ _ hmore hmore'
      obtain ⟨rfl,hend⟩ := ih hrest
      exact ⟨rfl,hend⟩

/-- A drained stream gave the elements of its list. -/
theorem Drains.gives_iff (hnext : ∀ s x y, next s x → next s y → x = y) (h : Drains next s as s')
    {i : ℕ} {a : α} : Gives next s i a ↔ as[i]? = some a := by
  induction h generalizing i with
  | done hdone =>
    constructor
    · intro hgives
      cases hgives with
      | zero hmore => cases hnext _ _ _ hdone hmore
      | succ hmore _ => cases hnext _ _ _ hdone hmore
    · nofun
  | more hmore _ ih =>
    cases i with
    | zero =>
      constructor
      · rintro (hmore' | _)
        cases hnext _ _ _ hmore hmore'
        rfl
      · intro heq
        cases heq
        exact .zero hmore
    | succ i =>
      rw [List.getElem?_cons_succ,← ih]
      constructor
      · rintro (_ | ⟨hmore',hrest⟩)
        cases hnext _ _ _ hmore hmore'
        exact hrest
      · exact .succ hmore

/-- The elements before one are given too. -/
theorem Gives.before {i j : ℕ} {a : α} (h : Gives next s i a) (hj : j ≤ i) :
    ∃ b, Gives next s j b := by
  induction h generalizing j with
  | zero hmore =>
    obtain rfl := Nat.le_zero.mp hj
    exact ⟨_,.zero hmore⟩
  | succ hmore _ ih =>
    cases j with
    | zero => exact ⟨_,.zero hmore⟩
    | succ j =>
      obtain ⟨b,hb⟩ := ih (Nat.le_of_succ_le_succ hj)
      exact ⟨b,.succ hmore hb⟩

end Streams

end PullStreams
