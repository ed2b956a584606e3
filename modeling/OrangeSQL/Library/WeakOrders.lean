import Mathlib.Data.List.Basic
import Mathlib.Data.List.Perm.Basic
import Mathlib.Data.List.TakeWhile
import Mathlib.Tactic

/-! Sorting by a comparison that is a strict weak order on the elements of a list, where elements that
are tied may come in any order. -/
namespace WeakOrders

variable {α : Type*} {κ : Type*} {lt : α → α → Bool} {l l' s : List α} {a b c : α}

/-- Neither of two elements is less. -/
def Tied (lt : α → α → Bool) (a b : α) : Prop := lt a b = false ∧ lt b a = false

structure StrictWeakOn (lt : α → α → Bool) (l : List α) : Prop where
  irrefl : ∀ a ∈ l, lt a a = false
  trans : ∀ a ∈ l, ∀ b ∈ l, ∀ c ∈ l, lt a b = true → lt b c = true → lt a c = true
  tied : ∀ a ∈ l, ∀ b ∈ l, ∀ c ∈ l, Tied lt a b → Tied lt b c → Tied lt a c

/-- No element is less than one in front of it. -/
def Sorted (lt : α → α → Bool) (l : List α) : Prop := l.Pairwise fun a b => lt b a = false

/-- A sort gives an ordered permutation of a list if the comparison is a strict weak order on it, and
otherwise it may give anything. -/
def Sorts (sort : (α → α → Bool) → List α → List α) : Prop :=
  ∀ lt l, StrictWeakOn lt l → (sort lt l).Perm l ∧ Sorted lt (sort lt l)

section Order

theorem StrictWeakOn.mono (h : StrictWeakOn lt l) (hsub : ∀ a ∈ l', a ∈ l) : StrictWeakOn lt l' :=
  ⟨fun a ha => h.irrefl a (hsub a ha),
    fun a ha b hb c hc => h.trans a (hsub a ha) b (hsub b hb) c (hsub c hc),
    fun a ha b hb c hc => h.tied a (hsub a ha) b (hsub b hb) c (hsub c hc)⟩

theorem StrictWeakOn.asymm (h : StrictWeakOn lt l) (ha : a ∈ l) (hb : b ∈ l) (hab : lt a b = true) :
    lt b a = false := by
  by_contra hba
  have haa := h.trans a ha b hb a ha hab (Bool.of_not_eq_false hba)
  rw [h.irrefl a ha] at haa
  cases haa

/-- What is not less than an element is not less than what that element is not less than. -/
theorem StrictWeakOn.not_less_trans (h : StrictWeakOn lt l) (ha : a ∈ l) (hb : b ∈ l) (hc : c ∈ l)
    (hba : lt b a = false) (hcb : lt c b = false) : lt c a = false := by
  by_contra hca
  have hca := Bool.of_not_eq_false hca
  cases hab : lt a b with
  | true =>
    rw [h.trans c hc a ha b hb hca hab] at hcb
    cases hcb
  | false =>
    cases hbc : lt b c with
    | true =>
      rw [h.trans b hb c hc a ha hbc hca] at hba
      cases hba
    | false =>
      have htied := h.tied a ha b hb c hc ⟨hab,hba⟩ ⟨hbc,hcb⟩
      rw [htied.2] at hca
      cases hca

/-- Tied elements have the same elements below them. -/
theorem StrictWeakOn.less_congr (h : StrictWeakOn lt l) (ha : a ∈ l) (hb : b ∈ l) (hc : c ∈ l)
    (htied : Tied lt a b) : lt c a = lt c b := by
  cases hca : lt c a with
  | true =>
    by_contra hcb
    have hcb := (Bool.of_not_eq_true (Ne.symm hcb))
    rw [h.not_less_trans ha hb hc htied.2 hcb] at hca
    cases hca
  | false => exact (h.not_less_trans hb ha hc htied.1 hca).symm

end Order

section Insertion

variable (lt)

/-- Put an element in front of the first one that is not less. -/
def insertFirst (a : α) (l : List α) : List α :=
  l.takeWhile (fun b => lt b a)++a::l.dropWhile fun b => lt b a

variable {lt}

theorem insertFirst_perm (a : α) (l : List α) : (insertFirst lt a l).Perm (a::l) := by
  have happend := List.takeWhile_append_dropWhile (p := fun b => lt b a) (l := l)
  have hmiddle := @List.perm_middle α a (l.takeWhile fun b => lt b a) (l.dropWhile fun b => lt b a)
  rw [happend] at hmiddle
  exact hmiddle

/-- Nothing behind the place of the element is less. -/
theorem not_less_of_mem_dropWhile (h : StrictWeakOn lt (a::l)) (hl : Sorted lt l)
    (hb : b ∈ l.dropWhile fun b => lt b a) : lt b a = false := by
  induction l with
  | nil => cases hb
  | cons c l ih =>
    have hsub : ∀ x ∈ a::l, x ∈ a::c::l := fun x hx => by
      rcases List.mem_cons.mp hx with rfl | hx
      · exact List.mem_cons_self
      · exact List.mem_cons_of_mem _ (List.mem_cons_of_mem _ hx)
    obtain ⟨hfirst,hrest⟩ := List.pairwise_cons.mp hl
    by_cases hca : lt c a = true
    · rw [List.dropWhile_cons_of_pos (p := fun b => lt b a) hca] at hb
      exact ih (h.mono hsub) hrest hb
    · rw [List.dropWhile_cons_of_neg (p := fun b => lt b a) hca] at hb
      have hca := Bool.of_not_eq_true hca
      rcases List.mem_cons.mp hb with rfl | hb
      · exact hca
      · exact h.not_less_trans List.mem_cons_self (by simp) (by simp [hb]) hca (hfirst b hb)

theorem Sorted.insertFirst (h : StrictWeakOn lt (a::l)) (hl : Sorted lt l) :
    Sorted lt (insertFirst lt a l) := by
  have hbelow : ∀ b ∈ l.takeWhile fun b => lt b a, lt b a = true :=
    fun b hb => List.mem_takeWhile_imp (p := fun b => lt b a) hb
  have habove : ∀ b ∈ l.dropWhile fun b => lt b a, lt b a = false :=
    fun b hb => not_less_of_mem_dropWhile h hl hb
  have hl' := hl
  unfold Sorted at hl'
  rw [← List.takeWhile_append_dropWhile (p := fun b => lt b a) (l := l)] at hl'
  obtain ⟨hfirst,hlast,hcross⟩ := List.pairwise_append.mp hl'
  refine List.pairwise_append.mpr ⟨hfirst,List.pairwise_cons.mpr ⟨habove,hlast⟩,?_⟩
  intro b hb c hc
  rcases List.mem_cons.mp hc with rfl | hc
  · have hmem : b ∈ c::l := List.mem_cons_of_mem _ ((List.takeWhile_sublist _).mem hb)
    exact h.asymm hmem List.mem_cons_self (hbelow b hb)
  · exact hcross b hb c hc

/-- A sort that gives what it is asked for. -/
def insertionSort (lt : α → α → Bool) (l : List α) : List α := l.foldr (WeakOrders.insertFirst lt) []

theorem StrictWeakOn.insertionSort (h : StrictWeakOn lt l) :
    (insertionSort lt l).Perm l ∧ Sorted lt (insertionSort lt l) := by
  induction l with
  | nil => exact ⟨List.Perm.refl _,List.Pairwise.nil⟩
  | cons a l ih =>
    obtain ⟨hperm,hsorted⟩ := ih (h.mono fun x hx => List.mem_cons_of_mem _ hx)
    have hweak : StrictWeakOn lt (a::WeakOrders.insertionSort lt l) :=
      h.mono fun x hx => (hperm.cons a).subset hx
    exact ⟨(insertFirst_perm a _).trans (hperm.cons a),hsorted.insertFirst hweak⟩

theorem StrictWeakOn.exists_sorted (h : StrictWeakOn lt l) : ∃ s, s.Perm l ∧ Sorted lt s :=
  ⟨_,h.insertionSort⟩

/-- An element can come first among those that it is tied with. -/
theorem StrictWeakOn.exists_sorted_first (h : StrictWeakOn lt l) (ha : a ∈ l) :
    ∃ p q, (p++a::q).Perm l ∧ Sorted lt (p++a::q) ∧
      p.length = l.countP (fun b => lt b a) ∧ ∀ b ∈ p, lt b a = true := by
  classical
  have hback := List.perm_cons_erase ha
  obtain ⟨s,hperm,hsorted⟩ := (h.mono fun x hx => List.mem_of_mem_erase hx :
    StrictWeakOn lt (l.erase a)).exists_sorted
  have hall : (a::s).Perm l := (hperm.cons a).trans hback.symm
  have hweak : StrictWeakOn lt (a::s) := h.mono fun x hx => hall.subset hx
  have hresult := (@insertFirst_perm α lt a s).trans hall
  have hbelow : ∀ b ∈ s.takeWhile fun b => lt b a, lt b a = true :=
    fun b hb => List.mem_takeWhile_imp (p := fun b => lt b a) hb
  have haa := h.irrefl a ha
  refine ⟨_,_,hresult,hsorted.insertFirst hweak,?_,hbelow⟩
  rw [← hresult.countP_eq,insertFirst,List.countP_append,List.countP_cons_of_neg (by simp [haa]),
    List.countP_eq_length.mpr hbelow,List.countP_eq_zero.mpr,Nat.add_zero]
  intro b hb
  simp [not_less_of_mem_dropWhile hweak hsorted hb]

end Insertion

section Sorting

open Classical in
/-- A sort can give any result that is allowed, list by list. -/
theorem Sorts.update {sort : (α → α → Bool) → List α → List α} (h : Sorts sort) (lt : α → α → Bool)
    (l s : List α) (hs : StrictWeakOn lt l → s.Perm l ∧ Sorted lt s) :
    ∃ sort', Sorts sort' ∧ sort' lt l = s ∧ ∀ l', l' ≠ l → sort' lt l' = sort lt l' := by
  refine ⟨fun lt' l' => if lt' = lt ∧ l' = l then s else sort lt' l',?_,if_pos ⟨rfl,rfl⟩,?_⟩
  · intro lt' l' hweak
    dsimp only
    split_ifs with hboth
    · obtain ⟨rfl,rfl⟩ := hboth
      exact hs hweak
    · exact h lt' l' hweak
  · intro l' hne
    exact if_neg fun hboth => hne hboth.2

theorem insertionSort_sorts : Sorts (insertionSort : (α → α → Bool) → List α → List α) :=
  fun _ _ h => h.insertionSort

theorem exists_sorts : ∃ sort : (α → α → Bool) → List α → List α, Sorts sort := ⟨_,insertionSort_sorts⟩

end Sorting

section Keys

variable {f : α → κ} {less : κ → κ → Bool} {d t : List κ} {n : ℕ}

theorem Sorted.map (h : Sorted (fun a b => less (f a) (f b)) l) : Sorted less (l.map f) :=
  List.pairwise_map.mpr h

/-- A sorted list begins with one that is put in front of the rest in order, if the elements of that
one are tied with none but themselves. -/
theorem take_of_sorted {k : List κ} (hperm : (k++d).Perm t) (hk : Sorted less (k++d)) (ht : Sorted less t)
    (htied : ∀ x ∈ k, ∀ y ∈ k++d, Tied less x y → x = y) : k = t.take k.length := by
  induction k generalizing t with
  | nil => simp
  | cons x k ih =>
    cases t with
    | nil => exact absurd hperm.length_eq (by simp)
    | cons y t =>
      rw [List.cons_append] at hperm hk
      obtain ⟨hx,hrest⟩ := List.pairwise_cons.mp hk
      obtain ⟨hy,hrest'⟩ := List.pairwise_cons.mp ht
      have hxy : x = y := by
        rcases List.mem_cons.mp (hperm.subset List.mem_cons_self) with heq | hmem
        · exact heq
        rcases List.mem_cons.mp (hperm.symm.subset List.mem_cons_self) with heq | hmem'
        · exact heq.symm
        · exact htied x List.mem_cons_self y (List.mem_cons_of_mem _ hmem') ⟨hy x hmem,hx y hmem'⟩
      subst hxy
      have htail := ih hperm.cons_inv hrest hrest' fun x' hx' y' hy' =>
        htied x' (List.mem_cons_of_mem _ hx') y' (List.mem_cons_of_mem _ hy')
      rw [List.length_cons,List.take_succ_cons,← htail]

/-- The first elements of a list are not above the others, and those that they are tied with have the
same key. -/
def FirstLeast (f : α → κ) (less : κ → κ → Bool) (l : List α) (n : ℕ) : Prop :=
  ∀ a ∈ l.take n, (∀ b ∈ l.drop n, less (f b) (f a) = false) ∧
    ∀ b ∈ l, Tied less (f a) (f b) → f a = f b

theorem FirstLeast.keys_eq (h : FirstLeast f less l n)
    (hweak : StrictWeakOn (fun a b => less (f a) (f b)) l) {p q : List α} (hp : p.Perm (l.take n))
    (hp' : Sorted (fun a b => less (f a) (f b)) p) (hq : q.Perm l)
    (hq' : Sorted (fun a b => less (f a) (f b)) q) : p.map f = (q.map f).take n := by
  obtain ⟨r,hr,hr'⟩ := (hweak.mono fun x hx => List.mem_of_mem_drop hx :
    StrictWeakOn (fun a b => less (f a) (f b)) (l.drop n)).exists_sorted
  have hall : (p++r).Perm l := by
    have happend := hp.append hr
    rwa [List.take_append_drop] at happend
  have hsorted : Sorted (fun a b => less (f a) (f b)) (p++r) := by
    refine List.pairwise_append.mpr ⟨hp',hr',fun a ha b hb => ?_⟩
    exact (h a (hp.subset ha)).1 b (hr.subset hb)
  have hkeys : (p.map f++r.map f).Perm (q.map f) := by
    rw [← List.map_append]
    exact (hall.trans hq.symm).map f
  have htake := take_of_sorted hkeys (by rw [← List.map_append]; exact hsorted.map) hq'.map (by
    rw [← List.map_append]
    intro x hx y hy htied
    obtain ⟨a,ha,rfl⟩ := List.mem_map.mp hx
    obtain ⟨b,hb,rfl⟩ := List.mem_map.mp hy
    exact (h a (hp.subset ha)).2 b (hall.subset hb) htied)
  have hlength : (p.map f).length = min n (q.map f).length := by
    rw [List.length_map,List.length_map,hp.length_eq,hq.length_eq,List.length_take]
  rw [htake,hlength,← List.take_eq_take_min]

theorem firstLeast_of_keys_eq (hweak : StrictWeakOn (fun a b => less (f a) (f b)) l)
    (h : ∀ p q, p.Perm (l.take n) → Sorted (fun a b => less (f a) (f b)) p → q.Perm l →
      Sorted (fun a b => less (f a) (f b)) q → p.map f = (q.map f).take n) : FirstLeast f less l n := by
  obtain ⟨p,hp,hp'⟩ := (hweak.mono fun x hx => List.mem_of_mem_take hx :
    StrictWeakOn (fun a b => less (f a) (f b)) (l.take n)).exists_sorted
  have hmem : ∀ {a}, a ∈ l.take n → f a ∈ p.map f := fun ha =>
    List.mem_map_of_mem (hp.symm.subset ha)
  intro a ha
  have hal := List.mem_of_mem_take ha
  constructor
  · -- a key that is cut off cannot be less than one that is kept
    intro b hb
    obtain ⟨q,hq,hq'⟩ := hweak.exists_sorted
    have hkeys := h p q hp hp' hq hq'
    have hrest : ((q.map f).drop n).Perm ((l.drop n).map f) := by
      have hboth : ((q.map f).take n++(q.map f).drop n).Perm ((l.take n).map f++(l.drop n).map f) := by
        rw [List.take_append_drop,← List.map_append,List.take_append_drop]
        exact hq.map f
      rw [← hkeys] at hboth
      exact (List.perm_append_left_iff _).mp (hboth.trans ((hp.symm.map f).append_right _))
    have hsorted := hq'.map
    unfold Sorted at hsorted
    rw [← List.take_append_drop n (q.map f)] at hsorted
    refine (List.pairwise_append.mp hsorted).2.2 (f a) ?_ (f b) ?_
    · rw [← hkeys]
      exact hmem ha
    · exact hrest.symm.subset (List.mem_map_of_mem hb)
  · -- two tied elements can both come first of their kind
    intro b hb htied
    obtain ⟨q₁,r₁,hq₁,hs₁,hcount₁,hbelow⟩ := hweak.exists_sorted_first hal
    obtain ⟨q₂,r₂,hq₂,hs₂,hcount₂,_⟩ := hweak.exists_sorted_first hb
    have hkeys₁ := h p _ hp hp' hq₁ hs₁
    have hkeys₂ := h p _ hp hp' hq₂ hs₂
    have hlength : q₁.length = q₂.length := by
      rw [hcount₁,hcount₂]
      exact List.countP_congr fun c hc => by rw [hweak.less_congr hal hb hc htied]
    have hlt : q₁.length < n := by
      by_contra hge
      have hkept := hmem ha
      rw [hkeys₁,List.map_append,List.take_append_of_le_length (by simpa using hge)] at hkept
      obtain ⟨c,hc,hca⟩ := List.mem_map.mp (List.mem_of_mem_take hkept)
      have hless := hbelow c hc
      rw [hca,hweak.irrefl a hal] at hless
      cases hless
    have hfirst : (p.map f)[q₁.length]? = some (f a) := by
      rw [hkeys₁,List.getElem?_take_of_lt hlt]
      simp
    have hfirst' : (p.map f)[q₁.length]? = some (f b) := by
      rw [hkeys₂,List.getElem?_take_of_lt hlt,hlength]
      simp
    exact Option.some.inj (hfirst.symm.trans hfirst')

/-- Whatever the sort does with tied elements, it gives the first keys of a list from its first
elements just when there are no others or these are the least. -/
theorem sort_take_iff (f : α → κ) (less : κ → κ → Bool) (l : List α) (hn : 0 < n) :
    (∀ sort : (α → α → Bool) → List α → List α, Sorts sort →
      (sort (fun a b => less (f a) (f b)) (l.take n)).map f =
        ((sort (fun a b => less (f a) (f b)) l).map f).take n) ↔
    StrictWeakOn (fun a b => less (f a) (f b)) l ∧ (l.length ≤ n ∨ FirstLeast f less l n) := by
  have htake : ¬ l.length ≤ n → l.take n ≠ l := fun hlong heq => by
    have hlength := congrArg List.length heq
    rw [List.length_take] at hlength
    omega
  obtain ⟨sort,hsort⟩ := @exists_sorts α
  constructor
  · intro h
    have hweak : StrictWeakOn (fun a b => less (f a) (f b)) l := by
      by_contra hnot
      have hne : l ≠ [] := by
        rintro rfl
        exact hnot ⟨nofun,nofun,nofun⟩
      obtain ⟨x,hx⟩ := List.exists_mem_of_ne_nil l hne
      by_cases hlen : l.length ≤ n
      · -- a result that is too long
        obtain ⟨sort',hsort',hresult,_⟩ := hsort.update _ l (List.replicate (n+1) x)
          fun hweak => absurd hweak hnot
        have hkeys := congrArg List.length (h sort' hsort')
        rw [List.take_of_length_le hlen,hresult] at hkeys
        simp at hkeys
      · -- a result that is empty, or not so where the one for the first elements is
        obtain ⟨sort',hsort',hresult,hsame⟩ := hsort.update (fun a b => less (f a) (f b)) l
          (if (sort (fun a b => less (f a) (f b)) (l.take n)).length = 0 then [x] else [])
          fun hweak => absurd hweak hnot
        have hkeys := congrArg List.length (h sort' hsort')
        rw [hresult,hsame _ (htake hlen),List.length_map] at hkeys
        split_ifs at hkeys with hzero
        · simp [hzero] at hkeys
          omega
        · simp at hkeys
          exact hzero (by simp [hkeys])
    refine ⟨hweak,?_⟩
    by_cases hlen : l.length ≤ n
    · exact Or.inl hlen
    · refine Or.inr (firstLeast_of_keys_eq hweak fun p q hp hp' hq hq' => ?_)
      obtain ⟨sort₁,hsort₁,hfirst,_⟩ := hsort.update _ (l.take n) p fun _ => ⟨hp,hp'⟩
      obtain ⟨sort₂,hsort₂,hall,hsame⟩ := hsort₁.update _ l q fun _ => ⟨hq,hq'⟩
      have hkeys := h sort₂ hsort₂
      rwa [hall,hsame _ (htake hlen),hfirst] at hkeys
  · rintro ⟨hweak,hcases⟩ sort hsort
    obtain ⟨hq,hq'⟩ := hsort _ l hweak
    rcases hcases with hlen | hleast
    · rw [List.take_of_length_le hlen,List.take_of_length_le]
      rwa [List.length_map,hq.length_eq]
    · obtain ⟨hp,hp'⟩ := hsort _ (l.take n) (hweak.mono fun x hx => List.mem_of_mem_take hx)
      exact hleast.keys_eq hweak hp hp' hq hq'

end Keys

end WeakOrders
