import Mathlib.Data.Finmap
import Mathlib.Tactic

/-! Association lists as the contents of a hash map together with an order of its entries, and
what is left in a map after a sequence of writes. -/
namespace AssocList

variable {α : Type*} {β : Type*}

/-- The entry with its new value, if it has one. -/
def mapEntry (f : α → β → Option β) (e : Sigma fun _ : α => β) : Option (Sigma fun _ : α => β) :=
  (f e.1 e.2).map fun b => ⟨e.1,b⟩

theorem keys_filterMap_sublist (f : α → β → Option β) (es : List (Sigma fun _ : α => β)) :
    (es.filterMap (mapEntry f)).keys.Sublist es.keys := by
  induction es with
  | nil => exact List.Sublist.slnil
  | cons e es ih =>
    cases hf : f e.1 e.2 with
    | none =>
      have hnone : mapEntry f e = none := by simp [mapEntry,hf]
      rw [List.filterMap_cons_none hnone]
      exact ih.cons e.1
    | some b =>
      have hsome : mapEntry f e = some ⟨e.1,b⟩ := by simp [mapEntry,hf]
      rw [List.filterMap_cons_some hsome]
      exact ih.cons_cons e.1

/-- Change the values of a map entry by entry, dropping the entries without a new value. -/
def filterMapValues (f : α → β → Option β) (m : AList fun _ : α => β) : AList fun _ : α => β where
  entries := m.entries.filterMap (mapEntry f)
  nodupKeys := List.Nodup.sublist (keys_filterMap_sublist f m.entries) m.nodupKeys

theorem lookup_filterMapValues [DecidableEq α] (f : α → β → Option β) (m : AList fun _ : α => β)
    (a : α) : (filterMapValues f m).lookup a = (m.lookup a).bind (f a) := by
  apply Option.ext
  intro b
  have hnew := List.mem_dlookup_iff (filterMapValues f m).nodupKeys (a := a) (b := b)
  have hold := fun c => List.mem_dlookup_iff m.nodupKeys (a := a) (b := c)
  simp only [AList.lookup,Option.mem_def,Option.bind_eq_some_iff] at hnew hold ⊢
  rw [hnew]
  simp only [hold,filterMapValues,List.mem_filterMap,mapEntry,Option.map_eq_some_iff]
  aesop

theorem entries_erase [DecidableEq α] (m : AList fun _ : α => β) (a : α) :
    (m.erase a).entries = m.entries.filter fun e => e.1 ≠ a := by
  obtain ⟨es,hes⟩ := m
  change es.kerase a = es.filter fun e => e.1 ≠ a
  induction es with
  | nil => rfl
  | cons e es ih =>
    obtain ⟨hnot,hes'⟩ := List.nodupKeys_cons.mp hes
    by_cases he : e.1 = a
    · subst he
      rw [List.kerase_cons_eq rfl,List.filter_cons_of_neg (by simp)]
      symm
      rw [List.filter_eq_self]
      intro x hx
      have hne : x.1 ≠ e.1 := fun heq => hnot (heq ▸ List.mem_keys_of_mem hx)
      simpa using hne
    · rw [List.kerase_cons_ne (Ne.symm he),List.filter_cons_of_pos (by simpa using he),ih hes']

/-- The same map in an order that ends with this entry. -/
theorem exists_perm_last {m : AList fun _ : α => β} {e : Sigma fun _ : α => β}
    (h : e ∈ m.entries) :
    ∃ (m' : AList fun _ : α => β) (front : List (Sigma fun _ : α => β)),
      m'.entries.Perm m.entries ∧ m'.entries = front++[e] := by
  obtain ⟨pre,post,hsplit⟩ := List.append_of_mem h
  have hperm : (pre++post++[e]).Perm m.entries := by
    rw [hsplit]
    exact (List.perm_append_singleton e (pre++post)).trans List.perm_middle.symm
  exact ⟨⟨_,(List.perm_nodupKeys hperm).mpr m.nodupKeys⟩,pre++post,hperm,rfl⟩

/-- A split of a list that ends with `e` is at the end, or has `e` in its second part. -/
theorem eq_or_mem_of_append_singleton {front pre post : List α} {e x : α}
    (h : front++[e] = pre++x::post) : x = e ∨ e ∈ post := by
  induction post using List.reverseRecOn with
  | nil => exact Or.inl (List.cons.inj (List.append_inj_right' h rfl)).1.symm
  | append_singleton ys y _ =>
    rw [← List.cons_append,← List.append_assoc] at h
    have hlast : [e] = [y] := List.append_inj_right' h rfl
    rw [(List.cons.inj hlast).1]
    exact Or.inr (List.mem_append_right _ (List.mem_singleton_self y))

section Writes

variable {ε : Type*}

/-- The last element of a list that writes to this key. -/
def LastTo (f : ε → Option (α × β)) (l : List ε) (a : α) (e : ε) : Prop :=
  ∃ pre post, l = pre++e::post ∧ ∀ e' ∈ post, ∀ b, f e' ≠ some (a,b)

theorem lastTo_append_self (f : ε → Option (α × β)) (l : List ε) (a : α) (e : ε) :
    LastTo f (l++[e]) a e := ⟨l,[],rfl,by simp⟩

theorem LastTo.append {f : ε → Option (α × β)} {l : List ε} {a : α} {e e' : ε}
    (h : LastTo f l a e) (he' : ∀ b, f e' ≠ some (a,b)) : LastTo f (l++[e']) a e := by
  obtain ⟨pre,post,rfl,hpost⟩ := h
  refine ⟨pre,post++[e'],by simp,?_⟩
  intro x hx
  rcases List.mem_append.mp hx with hold | hnew
  · exact hpost x hold
  · rwa [List.mem_singleton.mp hnew]

theorem LastTo.prepend {f : ε → Option (α × β)} {l : List ε} {a : α} {e : ε}
    (h : LastTo f l a e) (pre : List ε) : LastTo f (pre++l) a e := by
  obtain ⟨pre',post,rfl,hpost⟩ := h
  exact ⟨pre++pre',post,by simp,hpost⟩

theorem LastTo.mem {f : ε → Option (α × β)} {l : List ε} {a : α} {e : ε} (h : LastTo f l a e) :
    e ∈ l := by
  obtain ⟨pre,post,rfl,_⟩ := h
  exact List.mem_append_right _ List.mem_cons_self

/-- Where some element writes to a key, some element is the last to do so. -/
theorem exists_lastTo {f : ε → Option (α × β)} {l : List ε} {a : α} {e : ε} {b : β} (h : e ∈ l)
    (he : f e = some (a,b)) : ∃ e' b', LastTo f l a e' ∧ f e' = some (a,b') := by
  induction l using List.reverseRecOn with
  | nil => cases h
  | append_singleton l x ih =>
    by_cases hx : ∃ b', f x = some (a,b')
    · obtain ⟨b',hb'⟩ := hx
      exact ⟨x,b',lastTo_append_self f l a x,hb'⟩
    · have hnot : ∀ b', f x ≠ some (a,b') := fun b' hb' => hx ⟨b',hb'⟩
      rcases List.mem_append.mp h with hold | hnew
      · obtain ⟨e',b',hlast,he'⟩ := ih hold
        exact ⟨e',b',hlast.append hnot,he'⟩
      · rw [List.mem_singleton.mp hnew] at he
        exact absurd he (hnot b)

variable [DecidableEq α]

/-- Go through a list and enter what each element writes, if it writes anything. -/
def writeAll (f : ε → Option (α × β)) (l : List ε) : AList fun _ : α => β :=
  l.foldl (fun m e => (f e).elim m fun w => m.insert w.1 w.2) ∅

theorem writeAll_append_singleton (f : ε → Option (α × β)) (l : List ε) (e : ε) :
    writeAll f (l++[e]) = (f e).elim (writeAll f l) fun w => (writeAll f l).insert w.1 w.2 := by
  rw [writeAll,List.foldl_append,List.foldl_cons,List.foldl_nil,← writeAll]

/-- A key has the value that the last element to write to it writes. -/
theorem lookup_writeAll_of_lastTo {f : ε → Option (α × β)} {l : List ε} {a : α} {e : ε} {b : β}
    (h : LastTo f l a e) (he : f e = some (a,b)) : (writeAll f l).lookup a = some b := by
  obtain ⟨pre,post,rfl,hpost⟩ := h
  induction post using List.reverseRecOn with
  | nil =>
    rw [writeAll_append_singleton,he,Option.elim_some,AList.lookup_insert]
  | append_singleton post x ih =>
    have hkeep := ih fun e' he' => hpost e' (List.mem_append_left _ he')
    have hx := hpost x (List.mem_append_right _ (List.mem_singleton_self x))
    rw [← List.cons_append,← List.append_assoc,writeAll_append_singleton]
    cases hfx : f x with
    | none => exact hkeep
    | some w =>
      have hne : a ≠ w.1 := by
        rintro rfl
        exact hx w.2 hfx
      rw [Option.elim_some,AList.lookup_insert_ne hne]
      exact hkeep

/-- Every value in the map was written by the last element to write to its key. -/
theorem exists_lastTo_of_lookup {f : ε → Option (α × β)} {l : List ε} {a : α} {b : β}
    (h : (writeAll f l).lookup a = some b) : ∃ e, LastTo f l a e ∧ f e = some (a,b) := by
  induction l using List.reverseRecOn with
  | nil => simp [writeAll] at h
  | append_singleton l x ih =>
    rw [writeAll_append_singleton] at h
    cases hfx : f x with
    | none =>
      rw [hfx,Option.elim_none] at h
      obtain ⟨e,hlast,he⟩ := ih h
      exact ⟨e,hlast.append (by simp [hfx]),he⟩
    | some w =>
      rw [hfx,Option.elim_some] at h
      by_cases ha : a = w.1
      · subst ha
        rw [AList.lookup_insert] at h
        refine ⟨x,lastTo_append_self f l _ x,?_⟩
        rw [hfx,← Option.some.inj h]
      · rw [AList.lookup_insert_ne ha] at h
        obtain ⟨e,hlast,he⟩ := ih h
        refine ⟨e,hlast.append ?_,he⟩
        intro b' hb'
        rw [hfx] at hb'
        exact ha (congrArg Prod.fst (Option.some.inj hb')).symm

end Writes

end AssocList
