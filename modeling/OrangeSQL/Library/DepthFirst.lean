import Mathlib.Data.Finset.Card
import Mathlib.Data.List.Nodup
import Mathlib.Logic.Relation
import Mathlib.Tactic

/-! Depth-first search for a cycle with the vertices of the current path as its only marks: a
vertex is forgotten when the search leaves it. The search has fuel, and answers nothing without. -/
namespace DepthFirst

section Loops

variable {α : Type*} {σ : Type*}

/-- Call `f` on the elements of a list in turn, with a state, until it answers true. -/
def loopUntil (f : α → σ → Option (Bool × σ)) : List α → σ → Option (Bool × σ)
  | [], s => some (false,s)
  | a::l, s => match f a s with
    | none => none
    | some (true,s) => some (true,s)
    | some (false,s) => loopUntil f l s

/-- The same loop without a state. -/
def firstTrue (f : α → Option Bool) : List α → Option Bool
  | [] => some false
  | a::l => match f a with
    | none => none
    | some true => some true
    | some false => firstTrue f l

/-- A call with a state gives the answer, and after the answer false its state is as wanted. -/
def Answers (R : σ → Prop) (o : Option (Bool × σ)) (b : Option Bool) : Prop :=
  o.map Prod.fst = b ∧ ∀ s, o = some (false,s) → R s

theorem loopUntil_answers {R : σ → Prop} {f : α → σ → Option (Bool × σ)} {g : α → Option Bool}
    (l : List α) (h : ∀ a s, R s → Answers R (f a s) (g a)) {s : σ} (hs : R s) :
    Answers R (loopUntil f l s) (firstTrue g l) := by
  induction l generalizing s with
  | nil =>
    have hkeep : ∀ s', some (false,s) = some (false,s') → R s' := by
      intro s' hs'
      rwa [← (Prod.mk.inj (Option.some.inj hs')).2]
    exact ⟨rfl,hkeep⟩
  | cons a l ih =>
    have ha := h a s hs
    cases hf : f a s with
    | none =>
      have hg : g a = none := by simpa [hf] using ha.1.symm
      simp [Answers,loopUntil,firstTrue,hf,hg]
    | some r =>
      obtain ⟨b,s'⟩ := r
      have hg : g a = some b := by simpa [hf] using ha.1.symm
      cases b with
      | true => simp [Answers,loopUntil,firstTrue,hf,hg]
      | false => simpa [loopUntil,firstTrue,hf,hg] using ih (ha.2 s' hf)

theorem firstTrue_true {f : α → Option Bool} {l : List α} (h : firstTrue f l = some true) :
    ∃ a ∈ l, f a = some true := by
  induction l with
  | nil => simp [firstTrue] at h
  | cons a l ih =>
    cases hf : f a with
    | none => simp [firstTrue,hf] at h
    | some b =>
      cases b with
      | true => exact ⟨a,List.mem_cons_self,hf⟩
      | false =>
        obtain ⟨x,hx,hfx⟩ := ih (by simpa [firstTrue,hf] using h)
        exact ⟨x,List.mem_cons_of_mem a hx,hfx⟩

theorem firstTrue_false {f : α → Option Bool} {l : List α} (h : firstTrue f l = some false) :
    ∀ a ∈ l, f a = some false := by
  induction l with
  | nil => simp
  | cons a l ih =>
    cases hf : f a with
    | none => simp [firstTrue,hf] at h
    | some b =>
      cases b with
      | true => simp [firstTrue,hf] at h
      | false => simpa [hf] using ih (by simpa [firstTrue,hf] using h)

theorem exists_firstTrue {f : α → Option Bool} {l : List α} (h : ∀ a ∈ l, ∃ b, f a = some b) :
    ∃ b, firstTrue f l = some b := by
  induction l with
  | nil => exact ⟨false,rfl⟩
  | cons a l ih =>
    obtain ⟨b,hb⟩ := h a List.mem_cons_self
    cases b with
    | true => exact ⟨true,by simp [firstTrue,hb]⟩
    | false => simpa [firstTrue,hb] using ih fun x hx => h x (List.mem_cons_of_mem a hx)

/-- Where the answer false leaves the state, an answer true comes from a call on the first state. -/
theorem loopUntil_true {f : α → σ → Option (Bool × σ)} {l : List α} {s s' : σ}
    (hkeep : ∀ a t, f a s = some (false,t) → t = s) (h : loopUntil f l s = some (true,s')) :
    ∃ a ∈ l, f a s = some (true,s') := by
  induction l with
  | nil => simp [loopUntil] at h
  | cons a l ih =>
    cases hf : f a s with
    | none => simp [loopUntil,hf] at h
    | some r =>
      obtain ⟨b,t⟩ := r
      cases b with
      | true =>
        refine ⟨a,List.mem_cons_self,?_⟩
        simpa [loopUntil,hf] using h
      | false =>
        obtain rfl := hkeep a t hf
        obtain ⟨x,hx,hfx⟩ := ih (by simpa [loopUntil,hf] using h)
        exact ⟨x,List.mem_cons_of_mem a hx,hfx⟩

end Loops

variable {V : Type*} [DecidableEq V] (succ : V → List V)

/-- Search below a vertex that was reached along `path`. -/
def search : ℕ → List V → V → Option Bool
  | 0, _, _ => none
  | fuel+1, path, v =>
    if v ∈ path then some true else firstTrue (search fuel (path++[v])) (succ v)

def Edge (a b : V) : Prop := b ∈ succ a

def Reaches (a b : V) : Prop := Relation.ReflTransGen (Edge succ) a b

/-- Some vertex on a cycle is reachable. -/
def ReachesCycle (v : V) : Prop := ∃ u, Reaches succ v u ∧ Relation.TransGen (Edge succ) u u

variable {succ}

omit [DecidableEq V] in
/-- What is reachable is the vertex itself or lies behind one of its successors. -/
theorem Reaches.cases {v u : V} (h : Reaches succ v u) :
    u = v ∨ ∃ c ∈ succ v, Reaches succ c u := by
  rcases Relation.ReflTransGen.cases_head h with rfl | ⟨c,hc,hrest⟩
  · exact Or.inl rfl
  · exact Or.inr ⟨c,hc,hrest⟩

/-- Vertices along edges, with an edge from the last of them back into the list. -/
structure Trail (succ : V → List V) (path : List V) : Prop where
  chain : path.IsChain (Edge succ)
  back : ∃ front last w, path = front++[last] ∧ w ∈ path ∧ Edge succ last w

omit [DecidableEq V] in
/-- Every vertex of a trail has a way to the cycle at its end. -/
theorem Trail.reachesCycle {path : List V} (h : Trail succ path) {v : V} (hv : v ∈ path) :
    ReachesCycle succ v := by
  obtain ⟨front,last,w,hpath,hw,hedge⟩ := h.back
  have hlast : ∀ u ∈ path, Reaches succ u last := by
    apply h.chain.backwards_induction
    · intro a b hab hb
      exact Relation.ReflTransGen.head hab hb
    · intro hne
      have hget : path.getLast hne = last := by simp [hpath]
      rw [hget]
      exact Relation.ReflTransGen.refl
  exact ⟨last,hlast v hv,Relation.TransGen.head' hedge (hlast w hw)⟩

/-- An answer true has a way back to the path or a cycle. -/
theorem reaches_of_search {fuel : ℕ} {path : List V} {v : V}
    (h : search succ fuel path v = some true) :
    (∃ p ∈ path, Reaches succ v p) ∨ ReachesCycle succ v := by
  induction fuel generalizing path v with
  | zero => simp [search] at h
  | succ fuel ih =>
    by_cases hv : v ∈ path
    · exact Or.inl ⟨v,hv,Relation.ReflTransGen.refl⟩
    · rw [search,if_neg hv] at h
      obtain ⟨c,hc,hsearch⟩ := firstTrue_true h
      rcases ih hsearch with ⟨p,hp,hcp⟩ | ⟨u,hcu,hu⟩
      · rcases List.mem_append.mp hp with hold | hnew
        · exact Or.inl ⟨p,hold,Relation.ReflTransGen.head hc hcp⟩
        · rw [List.mem_singleton.mp hnew] at hcp
          exact Or.inr ⟨v,Relation.ReflTransGen.refl,Relation.TransGen.head' hc hcp⟩
      · exact Or.inr ⟨u,Relation.ReflTransGen.head hc hcu,hu⟩

/-- After an answer false there is neither. -/
theorem not_reaches_of_search {fuel : ℕ} {path : List V} {v : V}
    (h : search succ fuel path v = some false) :
    (∀ p ∈ path, ¬Reaches succ v p) ∧ ¬ReachesCycle succ v := by
  induction fuel generalizing path v with
  | zero => simp [search] at h
  | succ fuel ih =>
    by_cases hv : v ∈ path
    · simp [search,hv] at h
    · rw [search,if_neg hv] at h
      have hbelow : ∀ c ∈ succ v,
          (∀ p ∈ path++[v], ¬Reaches succ c p) ∧ ¬ReachesCycle succ c := fun c hc =>
        ih (firstTrue_false h c hc)
      have hpath : ∀ p ∈ path, ¬Reaches succ v p := by
        intro p hp hreach
        rcases hreach.cases with rfl | ⟨c,hc,hcp⟩
        · exact hv hp
        · exact (hbelow c hc).1 p (List.mem_append_left [v] hp) hcp
      have hcycle : ¬ReachesCycle succ v := by
        rintro ⟨u,hreach,hu⟩
        rcases hreach.cases with rfl | ⟨c,hc,hcu⟩
        · obtain ⟨c,hc,hcu⟩ := Relation.TransGen.head'_iff.mp hu
          exact (hbelow c hc).1 u (List.mem_append_right path (List.mem_singleton_self u)) hcu
        · exact (hbelow c hc).2 ⟨u,hcu,hu⟩
      exact ⟨hpath,hcycle⟩

/-- A path repeats no vertex, so that it cannot be longer than there are vertices. -/
theorem exists_search {nodes : Finset V} (hsucc : ∀ a, ∀ b ∈ succ a, b ∈ nodes) {fuel : ℕ}
    {path : List V} {v : V} (hnodup : path.Nodup) (hpath : ∀ p ∈ path, p ∈ nodes) (hv : v ∈ nodes)
    (hfuel : nodes.card < fuel+path.length) : ∃ b, search succ fuel path v = some b := by
  induction fuel generalizing path v with
  | zero =>
    have hsub : path.toFinset ⊆ nodes := fun p hp => hpath p (List.mem_toFinset.mp hp)
    have hcard := Finset.card_le_card hsub
    rw [List.toFinset_card_of_nodup hnodup] at hcard
    omega
  | succ fuel ih =>
    by_cases hmem : v ∈ path
    · exact ⟨true,by simp [search,hmem]⟩
    · rw [search,if_neg hmem]
      apply exists_firstTrue
      intro c hc
      apply ih
      · rw [← List.concat_eq_append]
        exact hnodup.concat hmem
      · intro p hp
        rcases List.mem_append.mp hp with hold | hnew
        · exact hpath p hold
        · rwa [List.mem_singleton.mp hnew]
      · exact hsucc v c hc
      · simp only [List.length_append,List.length_singleton]
        omega

/-- With enough fuel the search says whether a cycle is reachable. -/
theorem search_exact {nodes : Finset V} (hsucc : ∀ a, ∀ b ∈ succ a, b ∈ nodes) {fuel : ℕ} {v : V}
    (hfuel : nodes.card+1 < fuel) :
    ∃ b, search succ fuel [] v = some b ∧ (b = true ↔ ReachesCycle succ v) := by
  have hgrow : ∀ a, ∀ b ∈ succ a, b ∈ insert v nodes := fun a b hb =>
    Finset.mem_insert_of_mem (hsucc a b hb)
  have hcard : (insert v nodes).card < fuel := (Finset.card_insert_le v nodes).trans_lt hfuel
  obtain ⟨b,hb⟩ := exists_search hgrow List.nodup_nil (by simp) (Finset.mem_insert_self v nodes)
    hcard
  cases b with
  | true =>
    rcases reaches_of_search hb with ⟨p,hp,_⟩ | hcycle
    · cases hp
    · exact ⟨true,hb,by simp [hcycle]⟩
  | false => exact ⟨false,hb,by simp [(not_reaches_of_search hb).2]⟩

end DepthFirst
