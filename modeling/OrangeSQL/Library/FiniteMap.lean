import OrangeSQL.Library.AssocList

/-! Finite maps under insertion and under changes of all their values: which entries are there
afterwards. -/
namespace FiniteMap

variable {α β : Type} [DecidableEq α]

/-- An entry found after an insertion is the new one or was there before. -/
theorem lookup_insert_cases {m : Finmap fun _ : α => β} {a k : α} {b c : β}
    (h : (m.insert a b).lookup k = some c) : k = a ∧ c = b ∨ m.lookup k = some c := by
  by_cases hk : k = a
  · subst hk
    rw [Finmap.lookup_insert] at h
    exact Or.inl ⟨rfl,(Option.some.inj h).symm⟩
  · rw [Finmap.lookup_insert_of_ne _ hk] at h
    exact Or.inr h

theorem lookup_insert_eq (m : Finmap fun _ : α => β) (a k : α) (b : β) :
    (m.insert a b).lookup k = if k = a then some b else m.lookup k := by
  by_cases hk : k = a
  · subst hk
    rw [Finmap.lookup_insert,if_pos rfl]
  · rw [Finmap.lookup_insert_of_ne _ hk,if_neg hk]

theorem lookup_erase_eq (m : Finmap fun _ : α => β) (a k : α) :
    (m.erase a).lookup k = if k = a then none else m.lookup k := by
  by_cases hk : k = a
  · subst hk
    rw [Finmap.lookup_erase,if_pos rfl]
  · rw [Finmap.lookup_erase_ne hk,if_neg hk]

theorem lookup_erase_cases {m : Finmap fun _ : α => β} {a k : α} {c : β}
    (h : (m.erase a).lookup k = some c) : k ≠ a ∧ m.lookup k = some c := by
  by_cases hk : k = a
  · subst hk
    rw [Finmap.lookup_erase] at h
    cases h
  · rw [Finmap.lookup_erase_ne hk] at h
    exact ⟨hk,h⟩

theorem keys_insert (m : Finmap fun _ : α => β) (a : α) (b : β) :
    (m.insert a b).keys = insert a m.keys := by
  ext k
  rw [Finmap.mem_keys,Finmap.mem_insert,Finset.mem_insert,Finmap.mem_keys]

theorem insert_erase (m : Finmap fun _ : α => β) (a : α) (b : β) :
    (m.erase a).insert a b = m.insert a b := by
  apply Finmap.ext_lookup
  intro k
  by_cases hk : k = a
  · subst hk
    rw [Finmap.lookup_insert,Finmap.lookup_insert]
  · rw [Finmap.lookup_insert_of_ne _ hk,Finmap.lookup_insert_of_ne _ hk,Finmap.lookup_erase_ne hk]

/-- Change the values of a map, dropping the entries without a new value. -/
def filterMapValues (f : α → β → Option β) (m : Finmap fun _ : α => β) : Finmap fun _ : α => β :=
  m.liftOn (fun l => (AssocList.filterMapValues f l).toFinmap) fun _ _ h =>
    AList.toFinmap_eq.mpr (h.filterMap _)

theorem lookup_filterMapValues (f : α → β → Option β) (m : Finmap fun _ : α => β) (a : α) :
    (filterMapValues f m).lookup a = (m.lookup a).bind (f a) := by
  induction m using Finmap.induction_on with
  | H l =>
    rw [Finmap.lookup_toFinmap]
    exact AssocList.lookup_filterMapValues f l a

/-- Change the values of a map. -/
def mapValues (f : β → β) (m : Finmap fun _ : α => β) : Finmap fun _ : α => β :=
  filterMapValues (fun _ b => some (f b)) m

@[simp] theorem lookup_mapValues (f : β → β) (m : Finmap fun _ : α => β) (a : α) :
    (mapValues f m).lookup a = (m.lookup a).map f := by
  rw [mapValues,lookup_filterMapValues]
  cases m.lookup a <;> rfl

/-- Drop the entries with a value that fails the test. -/
def filterValues (p : β → Bool) (m : Finmap fun _ : α => β) : Finmap fun _ : α => β :=
  filterMapValues (fun _ b => if p b then some b else none) m

@[simp] theorem lookup_filterValues (p : β → Bool) (m : Finmap fun _ : α => β) (a : α) :
    (filterValues p m).lookup a = (m.lookup a).filter p := by
  rw [filterValues,lookup_filterMapValues]
  cases m.lookup a <;> rfl

/-- The entries of a map in an order of its keys. -/
def entries (m : Finmap fun _ : α => β) (order : List α) : List (α × β) :=
  order.filterMap fun a => (m.lookup a).map (Prod.mk a)

/-- Entries put into another map one after the other, each with a new value. -/
theorem lookup_foldl_insert_entries (f : α → β → β) (m : Finmap fun _ : α => β) (order : List α)
    (m' : Finmap fun _ : α => β) (a : α) :
    ((entries m order).foldl (fun m' e => m'.insert e.1 (f e.1 e.2)) m').lookup a =
      if a ∈ order ∧ a ∈ m then (m.lookup a).map (f a) else m'.lookup a := by
  induction order generalizing m' with
  | nil => simp [entries]
  | cons k order ih =>
    cases hk : m.lookup k with
    | none =>
      have hskip : entries m (k::order) = entries m order := by simp [entries,hk]
      have hnot : k ∉ m := Finmap.lookup_eq_none.mp hk
      rw [hskip,ih]
      by_cases ha : a = k
      · subst ha
        simp [hnot]
      · simp [ha]
    | some b =>
      have hput : entries m (k::order) = (k,b)::entries m order := by simp [entries,hk]
      rw [hput,List.foldl_cons,ih]
      by_cases ha : a = k
      · subst ha
        have hmem : a ∈ m := by rw [← Finmap.lookup_isSome,hk]; rfl
        simp [hmem,hk]
      · simp [ha,Finmap.lookup_insert_of_ne]

/-- A copy of a map, entry by entry in an order of all its keys. -/
theorem foldl_insert_entries (f : α → β → β) {m : Finmap fun _ : α => β} {order : List α}
    (horder : order.toFinset = m.keys) :
    (entries m order).foldl (fun m' e => m'.insert e.1 (f e.1 e.2)) ∅ =
      filterMapValues (fun a b => some (f a b)) m := by
  apply Finmap.ext_lookup
  intro a
  have hmem : a ∈ order ↔ a ∈ m := by rw [← List.mem_toFinset,horder,Finmap.mem_keys]
  rw [lookup_foldl_insert_entries,lookup_filterMapValues]
  simp only [hmem,and_self]
  split_ifs with ha
  · cases m.lookup a <;> rfl
  · rw [Finmap.lookup_empty,Finmap.lookup_eq_none.mpr ha]
    rfl

/-- A copy is the map itself just when no value is changed. -/
theorem filterMapValues_some_eq_self_iff {f : α → β → β} {m : Finmap fun _ : α => β} :
    filterMapValues (fun a b => some (f a b)) m = m ↔ ∀ a b, m.lookup a = some b → f a b = b := by
  constructor
  · intro h a b hb
    have hlook := lookup_filterMapValues (fun a b => some (f a b)) m a
    rw [h,hb] at hlook
    exact (Option.some.inj hlook).symm
  · intro h
    apply Finmap.ext_lookup
    intro a
    rw [lookup_filterMapValues]
    cases hb : m.lookup a with
    | none => rfl
    | some b => exact congrArg some (h a b hb)

/-- Values appended to the lists under their keys one after the other. -/
theorem lookup_foldl_append {ι γ : Type} (key : ι → α) (val : ι → γ) (xs : List ι)
    (m : Finmap fun _ : α => List γ) (a : α) :
    (xs.foldl (fun m x => m.insert (key x) ((m.lookup (key x)).getD []++[val x])) m).lookup a =
      if (xs.filter fun x => key x = a) = [] then m.lookup a
      else some ((m.lookup a).getD []++(xs.filter fun x => key x = a).map val) := by
  induction xs generalizing m with
  | nil => simp
  | cons x xs ih =>
    rw [List.foldl_cons,ih]
    by_cases hx : key x = a
    · subst hx
      rw [Finmap.lookup_insert]
      simp only [decide_true,List.filter_cons_of_pos,reduceCtorEq,if_false,List.map_cons]
      split_ifs with hnil
      · simp [hnil]
      · simp
    · rw [Finmap.lookup_insert_of_ne _ (Ne.symm hx)]
      simp [hx]

end FiniteMap
