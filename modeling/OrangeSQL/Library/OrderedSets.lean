import Mathlib.Data.List.Basic
import Mathlib.Data.List.Pairwise
import Mathlib.Tactic

/-! Sets kept as lists in the order of some keys, where an element is put in unless one with its key is
there, and the count of the elements of a list that are equal to none in front of them. -/
namespace OrderedSets

variable {α κ : Type*} [LinearOrder κ] {lt eq : α → α → Bool} {key : α → κ} {a b : α} {s l : List α}

section Definitions

/-- Put an element in its place, unless one that is neither less nor greater is there. -/
def insertUnique (lt : α → α → Bool) (a : α) : List α → List α
  | [] => [a]
  | b::s => if lt b a then b::insertUnique lt a s else if lt a b then a::b::s else b::s

def insertAll (lt : α → α → Bool) (s l : List α) : List α := l.foldl (fun s a => insertUnique lt a s) s

/-- The elements of the second list that are equal to none in front of them, the first list coming in
front of it. -/
def countNew (eq : α → α → Bool) : List α → List α → ℕ
  | _, [] => 0
  | seen, a::l => (if seen.any fun b => eq b a then 0 else 1)+countNew eq (a::seen) l

/-- A set, as its comparison keeps it. -/
def Ordered (key : α → κ) (s : List α) : Prop := s.Pairwise fun a b => key a < key b

end Definitions

section Images

variable {β : Type*} (f : α → β) (less : β → β → Bool)

theorem insertUnique_map (a : α) (s : List α) :
    insertUnique less (f a) (s.map f) = (insertUnique (fun a b => less (f a) (f b)) a s).map f := by
  induction s with
  | nil => rfl
  | cons b s ih =>
    rw [List.map_cons,insertUnique,insertUnique,ih]
    split_ifs <;> rfl

theorem insertAll_map (s l : List α) :
    insertAll less (s.map f) (l.map f) = (insertAll (fun a b => less (f a) (f b)) s l).map f := by
  induction l generalizing s with
  | nil => rfl
  | cons a l ih =>
    rw [insertAll,List.map_cons,List.foldl_cons,insertUnique_map]
    exact ih _

theorem countNew_map (seen l : List α) :
    countNew less (seen.map f) (l.map f) = countNew (fun a b => less (f a) (f b)) seen l := by
  induction l generalizing seen with
  | nil => rfl
  | cons a l ih =>
    rw [List.map_cons,countNew,countNew,List.any_map,← ih]
    rfl

end Images

section Insertion

theorem key_mem_insertUnique (h : ∀ a b, lt a b = true ↔ key a < key b) (k : κ) :
    k ∈ (insertUnique lt a s).map key ↔ k = key a ∨ k ∈ s.map key := by
  induction s with
  | nil => simp [insertUnique]
  | cons b s ih =>
    rw [insertUnique]
    split_ifs with hba hab
    · rw [List.map_cons,List.mem_cons,ih,List.map_cons,List.mem_cons]
      tauto
    · rw [List.map_cons,List.mem_cons]
    · rw [h] at hba hab
      have hkey := le_antisymm (not_lt.mp hba) (not_lt.mp hab)
      rw [hkey,List.map_cons,List.mem_cons]
      tauto

theorem Ordered.insertUnique (h : ∀ a b, lt a b = true ↔ key a < key b) (hs : Ordered key s) :
    Ordered key (insertUnique lt a s) := by
  induction s with
  | nil => exact List.pairwise_singleton _ _
  | cons b s ih =>
    obtain ⟨hfirst,hrest⟩ := List.pairwise_cons.mp hs
    rw [OrderedSets.insertUnique]
    split_ifs with hba hab
    · refine List.pairwise_cons.mpr ⟨fun c hc => ?_,ih hrest⟩
      rcases (key_mem_insertUnique h (key c)).mp (List.mem_map_of_mem hc) with heq | hmem
      · rw [heq]
        exact (h b a).mp hba
      · obtain ⟨d,hd,hkey⟩ := List.mem_map.mp hmem
        rw [← hkey]
        exact hfirst d hd
    · refine List.pairwise_cons.mpr ⟨fun c hc => ?_,hs⟩
      have hless := (h a b).mp hab
      rcases List.mem_cons.mp hc with rfl | hc
      · exact hless
      · exact hless.trans (hfirst c hc)
    · exact hs

theorem insertUnique_of_mem (h : ∀ a b, lt a b = true ↔ key a < key b) (hs : Ordered key s)
    (ha : key a ∈ s.map key) : insertUnique lt a s = s := by
  induction s with
  | nil => cases ha
  | cons b s ih =>
    obtain ⟨hfirst,hrest⟩ := List.pairwise_cons.mp hs
    rw [insertUnique]
    rcases List.mem_cons.mp ha with heq | hmem
    · rw [if_neg (by rw [h,heq]; exact lt_irrefl _),if_neg (by rw [h,heq]; exact lt_irrefl _)]
    · obtain ⟨c,hc,hkey⟩ := List.mem_map.mp hmem
      rw [if_pos ((h b a).mpr (hkey ▸ hfirst c hc)),ih hrest hmem]

theorem length_insertUnique_of_not_mem (h : ∀ a b, lt a b = true ↔ key a < key b)
    (ha : key a ∉ s.map key) : (insertUnique lt a s).length = s.length+1 := by
  induction s with
  | nil => rfl
  | cons b s ih =>
    obtain ⟨hne,hrest⟩ := not_or.mp (List.mem_cons.not.mp ha)
    rw [insertUnique]
    split_ifs with hba hab
    · rw [List.length_cons,ih hrest,List.length_cons]
    · rfl
    · rw [h] at hba hab
      exact absurd (le_antisymm (not_lt.mp hba) (not_lt.mp hab)) hne

end Insertion

section Counting

/-- Equal elements have one key, and are so in both directions and through others. -/
structure Refines (eq : α → α → Bool) (key : α → κ) : Prop where
  key_eq : ∀ {a b}, eq a b = true → key a = key b
  symm : ∀ {a b}, eq a b = true → eq b a = true
  trans : ∀ {a b c}, eq a b = true → eq b c = true → eq a c = true

/-- Elements with one key are equal, as far as they follow each other. -/
def Told (eq : α → α → Bool) (key : α → κ) (l : List α) : Prop :=
  l.Pairwise fun a b => key a = key b → eq a b = true

omit [LinearOrder κ] in
theorem Told.eq_or (heq : Refines eq key) (h : Told eq key l) (ha : a ∈ l) (hb : b ∈ l)
    (hkey : key a = key b) : a = b ∨ eq a b = true := by
  by_cases hab : a = b
  · exact Or.inl hab
  · have : Std.Symm fun a b => key a = key b → eq a b = true :=
      ⟨fun _ _ hxy hkey => heq.symm (hxy hkey.symm)⟩
    exact Or.inr (List.Pairwise.forall h ha hb hab hkey)

variable {seen : List α}

theorem keys_insertUnique (h : ∀ a b, lt a b = true ↔ key a < key b)
    (hkeys : ∀ k, k ∈ s.map key ↔ k ∈ seen.map key) (k : κ) :
    k ∈ (insertUnique lt a s).map key ↔ k ∈ (a::seen).map key := by
  rw [key_mem_insertUnique h,List.map_cons,List.mem_cons,hkeys]

theorem countNew_cons_of_mem (h : ∃ b ∈ seen, eq b a = true) :
    countNew eq seen (a::l) = countNew eq (a::seen) l := by
  rw [countNew,if_pos (List.any_eq_true.mpr h),Nat.zero_add]

theorem countNew_cons_of_not_mem (h : ¬∃ b ∈ seen, eq b a = true) :
    countNew eq seen (a::l) = 1+countNew eq (a::seen) l := by
  rw [countNew,if_neg fun hany => h (List.any_eq_true.mp hany)]

theorem length_insertAll_le (h : ∀ a b, lt a b = true ↔ key a < key b) (heq : Refines eq key)
    (hs : Ordered key s) (hkeys : ∀ k, k ∈ s.map key ↔ k ∈ seen.map key) :
    (insertAll lt s l).length ≤ s.length+countNew eq seen l := by
  induction l generalizing s seen with
  | nil => exact le_rfl
  | cons a l ih =>
    have hrest := ih (hs.insertUnique h (a := a)) (keys_insertUnique h hkeys)
    change (insertAll lt (insertUnique lt a s) l).length ≤ _
    by_cases hmem : key a ∈ s.map key
    · rw [insertUnique_of_mem h hs hmem] at hrest ⊢
      rw [countNew]
      omega
    · have hnone : ¬∃ b ∈ seen, eq b a = true := by
        rintro ⟨b,hb,hba⟩
        exact hmem ((hkeys _).mpr (heq.key_eq hba ▸ List.mem_map_of_mem hb))
      rw [length_insertUnique_of_not_mem h hmem] at hrest
      rw [countNew_cons_of_not_mem hnone]
      omega

theorem length_insertAll_iff (h : ∀ a b, lt a b = true ↔ key a < key b) (heq : Refines eq key)
    (hs : Ordered key s) (hkeys : ∀ k, k ∈ s.map key ↔ k ∈ seen.map key) (hseen : Told eq key seen) :
    (insertAll lt s l).length = s.length+countNew eq seen l ↔
      (∀ a ∈ l, ∀ b ∈ seen, key b = key a → eq b a = true) ∧ Told eq key l := by
  induction l generalizing s seen with
  | nil => simp [insertAll,countNew,Told]
  | cons a l ih =>
    have hset := hs.insertUnique h (a := a)
    have hnext := @keys_insertUnique _ _ _ _ _ a _ _ h hkeys
    -- what the elements in front of the others are to these
    have hmove : (∀ b ∈ seen, key b = key a → eq b a = true) →
        ((∀ c ∈ l, ∀ b ∈ a::seen, key b = key c → eq b c = true) ∧ Told eq key l ↔
          (∀ c ∈ a::l, ∀ b ∈ seen, key b = key c → eq b c = true) ∧ Told eq key (a::l)) := by
      intro hfirst
      simp only [Told,List.forall_mem_cons,List.pairwise_cons,forall₂_and]
      tauto
    change (insertAll lt (insertUnique lt a s) l).length = _ ↔ _
    by_cases hmem : key a ∈ s.map key
    · rw [insertUnique_of_mem h hs hmem] at hset hnext ⊢
      by_cases hold : ∃ b ∈ seen, eq b a = true
      · have hall : ∀ c ∈ seen, key c = key a → eq c a = true := by
          obtain ⟨b,hb,hba⟩ := hold
          intro c hc hkey
          rcases hseen.eq_or heq hc hb (hkey.trans (heq.key_eq hba).symm) with rfl | hcb
          · exact hba
          · exact heq.trans hcb hba
        have htold : Told eq key (a::seen) :=
          List.pairwise_cons.mpr ⟨fun c hc hkey => heq.symm (hall c hc hkey.symm),hseen⟩
        rw [countNew_cons_of_mem hold,ih hset hnext htold]
        exact hmove hall
      · -- an element that is counted and not put in
        have hle := length_insertAll_le h heq hset hnext (l := l)
        rw [countNew_cons_of_not_mem hold]
        refine iff_of_false (by omega) fun hboth => ?_
        obtain ⟨b,hb,hkey⟩ := List.mem_map.mp ((hkeys _).mp hmem)
        exact hold ⟨b,hb,hboth.1 a List.mem_cons_self b hb hkey⟩
    · have hne : ∀ b ∈ seen, key b ≠ key a := fun b hb hkey =>
        hmem ((hkeys _).mpr (hkey ▸ List.mem_map_of_mem hb))
      have htold : Told eq key (a::seen) :=
        List.pairwise_cons.mpr ⟨fun b hb hkey => absurd hkey.symm (hne b hb),hseen⟩
      have hnone : ¬∃ b ∈ seen, eq b a = true := by
        rintro ⟨b,hb,hba⟩
        exact hne b hb (heq.key_eq hba)
      have hrest := ih hset hnext htold
      rw [length_insertUnique_of_not_mem h hmem] at hrest
      rw [countNew_cons_of_not_mem hnone,← Nat.add_assoc,hrest]
      exact hmove fun b hb hkey => absurd hkey (hne b hb)

/-- The set has as many elements as the list has that are equal to none in front of them, just when
elements with one key are equal. -/
theorem length_insertAll_eq_countNew_iff (h : ∀ a b, lt a b = true ↔ key a < key b)
    (heq : Refines eq key) : (insertAll lt [] l).length = countNew eq [] l ↔ Told eq key l := by
  have hboth := @length_insertAll_iff α κ _ lt eq key [] l [] h heq List.Pairwise.nil (fun _ => Iff.rfl)
    List.Pairwise.nil
  simpa using hboth

end Counting

end OrderedSets
