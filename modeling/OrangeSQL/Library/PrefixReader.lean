import Mathlib.Data.List.TakeWhile

/-! Functions that read a prefix of a list. `Local quiet f` says that the reader `f` looks at
no more than one element behind what it reads, and that a `quiet` element there stops it. -/
namespace PrefixReader

variable {α : Type*} {quiet p : α → Bool} {f g : List α → List α}

def Local (quiet : α → Bool) (f : List α → List α) : Prop :=
  ∀ s c t c' t', f (s++c::t) = s → c' = c ∨ quiet c' → f (s++c'::t') = s

/-- Read one element for which `p` holds and then what `f` reads; else nothing. -/
def guarded (p : α → Bool) (f : List α → List α) : List α → List α
  | c :: t => if p c then c :: f t else []
  | [] => []

/-- Read what `f` reads and behind it what `g` reads. -/
def followedBy (f g : List α → List α) (t : List α) : List α :=
  f t ++ g (t.drop (f t).length)

/-- A reader reads a prefix. -/
def Reader (f : List α → List α) : Prop := ∀ t, f t <+: t

theorem reader_nothing : Reader (fun _ : List α => []) := fun _ => List.nil_prefix

theorem reader_takeWhile : Reader (List.takeWhile p) := fun _ => List.takeWhile_prefix p

theorem reader_guarded (hf : Reader f) : Reader (guarded p f) := by
  intro t
  cases t with
  | nil => exact List.nil_prefix
  | cons c t =>
    simp only [guarded]
    split
    · exact List.cons_prefix_cons.mpr ⟨rfl,hf t⟩
    · exact List.nil_prefix

theorem reader_followedBy (hf : Reader f) (hg : Reader g) : Reader (followedBy f g) := by
  intro t
  obtain ⟨u,hu⟩ := hf t
  obtain ⟨v,hv⟩ := hg u
  have hd := congrArg (List.drop (f t).length) hu
  rw [List.drop_left] at hd
  refine ⟨v,?_⟩
  rw [followedBy,← hd,List.append_assoc,hv,hu]

/-- A reader that reads as many elements as `s` has reads `s`. -/
theorem Reader.eq_of_length (hf : Reader f) {s t : List α}
    (h : (f (s++t)).length = s.length) : f (s++t) = s :=
  (List.prefix_of_prefix_length_le (hf _) (List.prefix_append s t) h.le).eq_of_length h

theorem local_nothing : Local quiet (fun _ => []) := by
  intro s c t c' t' hs hc
  exact hs

theorem drop_length_takeWhile (p : α → Bool) (t : List α) :
    t.drop (t.takeWhile p).length = t.dropWhile p := by
  have hh := @List.drop_left _ (t.takeWhile p) (t.dropWhile p)
  rwa [List.takeWhile_append_dropWhile] at hh

theorem takeWhile_append_stop {s : List α} {c : α} (hs : ∀ x ∈ s, p x) (hc : ¬ p c)
    (t : List α) : (s++c::t).takeWhile p = s := by
  rw [List.takeWhile_append_of_pos hs,List.takeWhile_cons_of_neg (by simpa using hc),
    List.append_nil]

theorem takeWhile_eq_left {s t : List α} {c : α} (hs : (s++c::t).takeWhile p = s) :
    (∀ x ∈ s, p x) ∧ ¬ p c := by
  have hall : ∀ x ∈ s, p x := by
    intro x hx
    rw [← hs] at hx
    exact List.mem_takeWhile_imp hx
  have hc : ¬ p c := by
    intro h
    rw [List.takeWhile_append_of_pos hall,List.takeWhile_cons_of_pos h] at hs
    simp at hs
  exact ⟨hall,hc⟩

theorem local_takeWhile (hp : ∀ c, quiet c → ¬ p c) : Local quiet (List.takeWhile p) := by
  intro s c t c' t' hs hc
  have hh := takeWhile_eq_left hs
  apply takeWhile_append_stop hh.1
  rcases hc with rfl | hc
  · exact hh.2
  · exact hp c' hc

theorem local_guarded (hf : Local quiet f) (hp : ∀ c, quiet c → ¬ p c) :
    Local quiet (guarded p f) := by
  intro s c t c' t' hs hc
  cases s with
  | nil =>
    have hpc : ¬ p c := by
      intro h
      simp [guarded,h] at hs
    have hpc' : ¬ p c' := by
      rcases hc with rfl | hc
      · exact hpc
      · exact hp c' hc
    simp [guarded,hpc']
  | cons a s =>
    have ha : p a := by
      by_contra h
      simp [guarded,h] at hs
    simp only [List.cons_append,guarded,ha,if_true,List.cons.injEq,true_and] at hs ⊢
    exact hf s c t c' t' hs hc

theorem local_followedBy (hf : Local quiet f) (hg : Local quiet g) :
    Local quiet (followedBy f g) := by
  intro s c t c' t' hs hc
  obtain ⟨a,b,ha,hb⟩ : ∃ a b, f (s++c::t) = a ∧ s = a++b := ⟨_,_,rfl,hs.symm⟩
  have hgb : g (b++c::t) = b := by
    have hh := hs
    rw [followedBy,ha,hb,List.append_assoc,List.drop_left] at hh
    exact List.append_cancel_left hh
  have hfa : f (a++b++c'::t') = a := by
    rw [hb] at ha
    cases b with
    | nil => simpa using hf a c t c' t' (by simpa using ha) hc
    | cons d b => simpa using hf a d (b++c::t) d (b++c'::t') (by simpa using ha) (.inl rfl)
  rw [followedBy,hb,hfa,List.append_assoc,List.drop_left,hg b c t c' t' hgb hc]

end PrefixReader
