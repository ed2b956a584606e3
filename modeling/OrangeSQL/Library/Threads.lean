import OrangeSQL.Library.DepthFirst

/-! A thread that takes mutexes which are not recursive. It knows the mutexes it holds, and it stops
at the first one that it asks for while it holds it: it waits for itself then. -/
namespace Threads

/-- `undefined` stands for everything else that leaves a computation without a result. -/
inductive Stop (μ : Type)
  | reacquires (a : μ)
  | undefined

abbrev Thread (μ α : Type) := StateT (List μ) (Except (Stop μ)) α

section Mutexes

variable {μ α β σ : Type} [DecidableEq μ]

def lock (a : μ) : Thread μ Unit := fun held =>
  if a ∈ held then .error (.reacquires a) else .ok ((),a::held)

def unlock (a : μ) : Thread μ Unit := fun held => .ok ((),held.erase a)

/-- A scope with a lock guard. -/
def withLock (a : μ) (body : Thread μ α) : Thread μ α := do
  lock a
  let r ← body
  unlock a
  return r

/-- `DepthFirst.loopUntil` for a body that takes mutexes. -/
def loopUntil (f : α → σ → Thread μ (Bool × σ)) : List α → σ → Thread μ (Bool × σ)
  | [], s => return (false,s)
  | a::l, s => do
    let (b,s) ← f a s
    if b then return (true,s) else loopUntil f l s

/-- With these mutexes held the computation returns the result, and holds the same ones after. -/
def Returns (held : List μ) (p : Thread μ α) (r : α) : Prop := p held = .ok (r,held)

/-- With these mutexes held the computation asks for one that it holds. -/
def Blocks (held : List μ) (p : Thread μ α) : Prop := ∃ a, p held = .error (.reacquires a)

variable {held : List μ} {p : Thread μ α} {f : α → Thread μ β} {r : α} {q : β} {a : μ}

omit [DecidableEq μ] in
theorem Returns.not_blocks (h : Returns held p r) : ¬Blocks held p := by
  rintro ⟨a,ha⟩
  have hboth : Except.ok (r,held) = Except.error (Stop.reacquires a) := h.symm.trans ha
  cases hboth

omit [DecidableEq μ] in
theorem returns_pure (r : α) : Returns held (pure r) r := rfl

omit [DecidableEq μ] in
theorem Returns.bind (h : Returns held p r) (hf : Returns held (f r) q) :
    Returns held (p >>= f) q := by
  unfold Returns at h hf ⊢
  change (p held >>= fun x => f x.1 x.2) = _
  rw [h]
  exact hf

omit [DecidableEq μ] in
theorem Returns.bind_blocks_iff (h : Returns held p r) :
    Blocks held (p >>= f) ↔ Blocks held (f r) := by
  have hbind : (p >>= f) held = f r held := by
    change (p held >>= fun x => f x.1 x.2) = _
    rw [show p held = .ok (r,held) from h]
    rfl
  simp only [Blocks,hbind]

omit [DecidableEq μ] in
theorem Blocks.bind (h : Blocks held p) (f : α → Thread μ β) : Blocks held (p >>= f) := by
  obtain ⟨a,ha⟩ := h
  refine ⟨a,?_⟩
  change (p held >>= fun x => f x.1 x.2) = _
  rw [ha]
  rfl

theorem lock_free (ha : a ∉ held) : lock a held = .ok ((),a::held) := if_neg ha

theorem lock_held (ha : a ∈ held) : Blocks held (lock a) := ⟨a,if_pos ha⟩

theorem withLock_apply (ha : a ∉ held) :
    withLock a p held = (p (a::held) >>= fun x => .ok (x.1,x.2.erase a)) := by
  change (lock a held >>= fun x => (p x.2 >>= fun y => .ok (y.1,y.2.erase a))) = _
  rw [lock_free ha]
  rfl

theorem Returns.withLock (ha : a ∉ held) (h : Returns (a::held) p r) :
    Returns held (withLock a p) r := by
  unfold Returns at h ⊢
  rw [withLock_apply ha,h]
  change Except.ok (r,(a::held).erase a) = _
  rw [List.erase_cons_head]

theorem Blocks.withLock (ha : a ∉ held) (h : Blocks (a::held) p) :
    Blocks held (withLock a p) := by
  obtain ⟨b,hb⟩ := h
  refine ⟨b,?_⟩
  rw [withLock_apply ha,hb]
  rfl

theorem withLock_held (ha : a ∈ held) (p : Thread μ α) : Blocks held (withLock a p) :=
  (lock_held ha).bind _

omit [DecidableEq μ] in
theorem returns_foldlM {l : List β} {g : α → β → Thread μ α} {step : α → β → α} (s : α)
    (h : ∀ s, ∀ b ∈ l, Returns held (g s b) (step s b)) :
    Returns held (l.foldlM g s) (l.foldl step s) := by
  induction l generalizing s with
  | nil => exact returns_pure s
  | cons b l ih =>
    rw [List.foldlM_cons,List.foldl_cons]
    exact (h s b List.mem_cons_self).bind (ih _ fun s b hb => h s b (List.mem_cons_of_mem _ hb))

omit [DecidableEq μ] in
theorem returns_foldlM_keep {l : List β} {g : α → β → Thread μ α} {s : α}
    (h : ∀ b ∈ l, Returns held (g s b) s) : Returns held (l.foldlM g s) s := by
  induction l with
  | nil => exact returns_pure s
  | cons b l ih =>
    rw [List.foldlM_cons]
    exact (h b List.mem_cons_self).bind (ih fun b hb => h b (List.mem_cons_of_mem _ hb))

omit [DecidableEq μ] in
/-- A loop that leaves its state as it is blocks where its body blocks first. -/
theorem blocks_foldlM {l : List β} {g : α → β → Thread μ α} {s : α} {bad : β → Prop}
    (hgood : ∀ b ∈ l, ¬bad b → Returns held (g s b) s) (hbad : ∀ b ∈ l, bad b → Blocks held (g s b))
    (h : ∃ b ∈ l, bad b) : Blocks held (l.foldlM g s) := by
  induction l with
  | nil =>
    obtain ⟨b,hb,_⟩ := h
    cases hb
  | cons b l ih =>
    rw [List.foldlM_cons]
    by_cases hb : bad b
    · exact (hbad b List.mem_cons_self hb).bind _
    · rw [(hgood b List.mem_cons_self hb).bind_blocks_iff]
      apply ih
      · exact fun b hb => hgood b (List.mem_cons_of_mem _ hb)
      · exact fun b hb => hbad b (List.mem_cons_of_mem _ hb)
      · obtain ⟨c,hc,hcbad⟩ := h
        rcases List.mem_cons.mp hc with rfl | hc
        · exact absurd hcbad hb
        · exact ⟨c,hc,hcbad⟩

omit [DecidableEq μ] in
/-- The loop returns what the loop without mutexes returns, if its body does. -/
theorem returns_loopUntil {f : β → σ → Option (Bool × σ)} {g : β → σ → Thread μ (Bool × σ)}
    (h : ∀ b s r, f b s = some r → Returns held (g b s) r) {l : List β} {s : σ} {r : Bool × σ}
    (hr : DepthFirst.loopUntil f l s = some r) : Returns held (loopUntil g l s) r := by
  induction l generalizing s with
  | nil =>
    obtain rfl := Option.some.inj hr
    exact returns_pure _
  | cons b l ih =>
    cases hf : f b s with
    | none => simp [DepthFirst.loopUntil,hf] at hr
    | some x =>
      obtain ⟨found,s'⟩ := x
      refine (h b s _ hf).bind ?_
      cases found with
      | true =>
        obtain rfl : (true,s') = r := by simpa [DepthFirst.loopUntil,hf] using hr
        exact returns_pure _
      | false => exact ih (by simpa [DepthFirst.loopUntil,hf] using hr)

end Mutexes
end Threads
