import OrangeSQL.Catalog

/-! Sequences over whole runs of `nextValue`. A step past the upper limit is cut off there or sent
back to the lower limit. Nothing looks at the lower limit or at the range of the type. -/
namespace OrangeSQL

namespace SequenceInfo

/-- The states that a sequence may be created in. -/
structure Valid (s : SequenceInfo) : Prop where
  ge : s.minValue ≤ s.currentValue
  le : s.currentValue ≤ s.maxValue

/-- The next sum is neither below the lower limit nor past the range of the type. -/
structure StepsInside (s : SequenceInfo) : Prop where
  ge : s.minValue.toInt ≤ s.currentValue.toInt+s.increment.toInt
  lt : s.currentValue.toInt+s.increment.toInt < 2^63

/-- Where the next step goes to. -/
def stepValue (s : SequenceInfo) : ℤ :=
  if s.maxValue.toInt < s.currentValue.toInt+s.increment.toInt then
    if s.cycle then s.minValue.toInt else s.maxValue.toInt
  else s.currentValue.toInt+s.increment.toInt

theorem advance_inside {s : SequenceInfo} (h : s.StepsInside) :
    ∃ v, Catalog.SequenceInfo.advance s = some { s with currentValue := v } ∧
      v.toInt = s.stepValue := by
  have hge : -2^63 ≤ s.currentValue.toInt+s.increment.toInt := by
    have hmin := s.minValue.le_toInt
    have hstep := h.ge
    omega
  have hlt := h.lt
  have hsum : (s.currentValue+s.increment).toInt = s.currentValue.toInt+s.increment.toInt := by
    rw [Int64.toInt_add]
    apply Int.bmod_eq_of_le <;> omega
  have hfits : ¬ (s.currentValue.toInt+s.increment.toInt < -2^63 ∨
      2^63 ≤ s.currentValue.toInt+s.increment.toInt) := by omega
  refine ⟨_,by rw [Catalog.SequenceInfo.advance,if_neg hfits],?_⟩
  unfold stepValue
  simp only [Int64.lt_iff_toInt_lt,hsum]
  split_ifs with hmax hcycle
  · rfl
  · rfl
  · exact hsum

theorem Valid.step {s : SequenceInfo} (hvalid : s.Valid) (hstep : s.StepsInside) :
    s.minValue.toInt ≤ s.stepValue ∧ s.stepValue ≤ s.maxValue.toInt := by
  have hmin := Int64.le_iff_toInt_le.mp hvalid.ge
  have hmax := Int64.le_iff_toInt_le.mp hvalid.le
  have hge := hstep.ge
  unfold stepValue
  split_ifs <;> omega

/-- What a sequence without a cycle returns at its `k`th next call. -/
def valueAt (s : SequenceInfo) (k : ℕ) : ℤ :=
  min (s.currentValue.toInt+k*s.increment.toInt) s.maxValue.toInt

/-- One step and then `k` more are `k+1`, as only a rising sequence gets past its upper limit. -/
theorem valueAt_step {s : SequenceInfo} {v : Int64} (hle : s.currentValue ≤ s.maxValue)
    (hcycle : s.cycle = false) (hv : v.toInt = s.stepValue) (k : ℕ) :
    SequenceInfo.valueAt { s with currentValue := v } k = s.valueAt (k+1) := by
  have hmax := Int64.le_iff_toInt_le.mp hle
  have hsucc : ((k+1 : ℕ) : ℤ)*s.increment.toInt = k*s.increment.toInt+s.increment.toInt := by
    push_cast
    ring
  unfold stepValue at hv
  unfold valueAt
  rw [hsucc]
  by_cases hpast : s.maxValue.toInt < s.currentValue.toInt+s.increment.toInt
  · rw [if_pos hpast,hcycle,if_neg Bool.false_ne_true] at hv
    have hnonneg : (0 : ℤ) ≤ k*s.increment.toInt := by
      apply mul_nonneg (by positivity)
      omega
    simp only [hv]
    omega
  · rw [if_neg hpast] at hv
    simp only [hv]
    omega

/-- A value that comes back is the upper limit, which only a rising sequence stays at. -/
theorem valueAt_eq {s : SequenceInfo} (hvalid : s.Valid) (hinc : s.increment ≠ 0) {i j : ℕ}
    (hij : i < j) (h : s.valueAt i = s.valueAt j) :
    s.valueAt i = s.maxValue.toInt ∧ 0 < s.increment.toInt := by
  have hmax := Int64.le_iff_toInt_le.mp hvalid.le
  have hne : s.increment.toInt ≠ 0 := by
    intro hzero
    exact hinc (Int64.toInt_inj.mp hzero)
  have hj : (i+1 : ℤ) ≤ j := by exact_mod_cast hij
  unfold valueAt at h ⊢
  rcases lt_or_gt_of_ne hne with hneg | hpos
  · have hlt : (j : ℤ)*s.increment.toInt < i*s.increment.toInt := by nlinarith
    have hi : (i : ℤ)*s.increment.toInt ≤ 0 := by nlinarith
    omega
  · have hlt : (i : ℤ)*s.increment.toInt < j*s.increment.toInt := by nlinarith
    omega

/-- The upper limit stays once a rising sequence has come to it. -/
theorem valueAt_stays {s : SequenceInfo} (hinc : 0 < s.increment.toInt) {i j : ℕ} (hij : i ≤ j)
    (h : s.valueAt i = s.maxValue.toInt) : s.valueAt j = s.maxValue.toInt := by
  have hsteps : (i : ℤ)*s.increment.toInt ≤ j*s.increment.toInt :=
    Int.mul_le_mul_of_nonneg_right (by exact_mod_cast hij) hinc.le
  unfold valueAt at h ⊢
  omega

end SequenceInfo

namespace Catalog

/-- The values of `n` calls for one sequence, none where a sum overflows. -/
def nextValues (c : Catalog) (name : Text) : ℕ → Option (List Int64 × Catalog)
  | 0 => some ([],c)
  | n+1 => (c.nextValue name).bind fun (v,c) =>
    (nextValues c name n).map fun (vs,c) => (v::vs,c)

/-- Each of the `n` calls finds the sequence in a state that steps inside. -/
def StepsInside (c : Catalog) (name : Text) : ℕ → Prop
  | 0 => True
  | n+1 => (∀ s, c.sequences.lookup name = some s → s.StepsInside) ∧
    ∀ v c', c.nextValue name = some (v,c') → StepsInside c' name n

theorem nextValue_inside {c : Catalog} {name : Text} {s : SequenceInfo}
    (hlook : c.sequences.lookup name = some s) (hstep : s.StepsInside) :
    ∃ c' v, c.nextValue name = some (s.currentValue,c') ∧ v.toInt = s.stepValue ∧
      c'.sequences.lookup name = some { s with currentValue := v } := by
  obtain ⟨v,hadvance,hv⟩ := SequenceInfo.advance_inside hstep
  let s' := { s with currentValue := v }
  refine ⟨{ c with sequences := c.sequences.insert name s' },v,?_,hv,Finmap.lookup_insert _⟩
  rw [nextValue,hlook]
  simp only [hadvance,Option.map_some,s']

/-- A rising sequence steps inside when the range of the type goes far enough past its limit. -/
theorem stepsInside_of_rising {name : Text} (n : ℕ) :
    ∀ {c : Catalog} {s : SequenceInfo}, c.sequences.lookup name = some s → s.Valid →
      0 < s.increment.toInt → s.maxValue.toInt+s.increment.toInt < 2^63 → c.StepsInside name n := by
  induction n with
  | zero => exact fun _ _ _ _ => trivial
  | succ n ih =>
    intro c s hlook hvalid hinc hmax
    have hmin := Int64.le_iff_toInt_le.mp hvalid.ge
    have hle := Int64.le_iff_toInt_le.mp hvalid.le
    have hstep : s.StepsInside := ⟨by omega,by omega⟩
    refine ⟨fun s' hs' => (Option.some.inj (hlook.symm.trans hs')) ▸ hstep,?_⟩
    intro v c' hnext
    obtain ⟨c₁,v₁,hcall,hv₁,hlook₁⟩ := nextValue_inside hlook hstep
    obtain ⟨_,rfl⟩ := Prod.mk.inj (Option.some.inj (hcall.symm.trans hnext))
    have hrange := hvalid.step hstep
    refine ih hlook₁ ⟨Int64.le_iff_toInt_le.mpr ?_,Int64.le_iff_toInt_le.mpr ?_⟩ hinc hmax
    · exact hv₁ ▸ hrange.1
    · exact hv₁ ▸ hrange.2

/-- The values of a run whose steps are inside. -/
theorem nextValues_of_stepsInside {name : Text} (n : ℕ) :
    ∀ {c : Catalog} {s : SequenceInfo}, c.sequences.lookup name = some s → s.Valid →
      c.StepsInside name n →
      ∃ vs c', c.nextValues name n = some (vs,c') ∧ vs.length = n ∧
        (∀ v ∈ vs, s.minValue ≤ v ∧ v ≤ s.maxValue) ∧
        (s.cycle = false → ∀ k v, vs[k]? = some v → v.toInt = s.valueAt k) := by
  induction n with
  | zero => exact fun {c s} _ _ _ => ⟨[],c,rfl,rfl,by simp,by simp⟩
  | succ n ih =>
    intro c s hlook hvalid hinside
    have hstep := hinside.1 s hlook
    obtain ⟨c₁,v,hcall,hv,hlook₁⟩ := nextValue_inside hlook hstep
    have hrange := hvalid.step hstep
    obtain ⟨vs,c',hrun,hlength,hvs,hat⟩ := ih hlook₁
      ⟨Int64.le_iff_toInt_le.mpr (hv ▸ hrange.1),Int64.le_iff_toInt_le.mpr (hv ▸ hrange.2)⟩
      (hinside.2 _ _ hcall)
    refine ⟨s.currentValue::vs,c',?_,by rw [List.length_cons,hlength],?_,?_⟩
    · rw [nextValues,hcall,Option.bind_some]
      simp only [hrun,Option.map_some]
    · rintro u (_ | ⟨_,hu⟩)
      · exact ⟨hvalid.ge,hvalid.le⟩
      · exact hvs u hu
    · intro hcycle k u hu
      have hle := Int64.le_iff_toInt_le.mp hvalid.le
      cases k with
      | zero =>
        obtain rfl := Option.some.inj hu
        unfold SequenceInfo.valueAt
        omega
      | succ k =>
        rw [hat hcycle k u hu,SequenceInfo.valueAt_step hvalid.le hcycle hv]

/-- In a run whose steps are inside, the values are in range, and without a cycle only the limit
that a rising sequence has come to is returned again, from then on at every call. A rising sequence
far enough from the end of the type has no other runs. -/
theorem nextValues_inside {c : Catalog} {name : Text} {s : SequenceInfo}
    (hlook : c.sequences.lookup name = some s) (hvalid : s.Valid) (hinc : s.increment ≠ 0) :
    (0 < s.increment.toInt → s.maxValue.toInt+s.increment.toInt < 2^63 →
      ∀ n, c.StepsInside name n) ∧
    ∀ n, c.StepsInside name n → ∃ vs c', c.nextValues name n = some (vs,c') ∧ vs.length = n ∧
      (∀ v ∈ vs, s.minValue ≤ v ∧ v ≤ s.maxValue) ∧
      (s.cycle = false → ∀ (i j : ℕ) v, i < j → vs[i]? = some v → vs[j]? = some v →
        v = s.maxValue ∧ 0 < s.increment.toInt) ∧
      (s.cycle = false → 0 < s.increment.toInt → ∀ (i j : ℕ) v, i ≤ j →
        vs[i]? = some s.maxValue → vs[j]? = some v → v = s.maxValue) := by
  refine ⟨fun hpos hmax n => stepsInside_of_rising n hlook hvalid hpos hmax,fun n hinside => ?_⟩
  obtain ⟨vs,c',hrun,hlength,hvs,hat⟩ := nextValues_of_stepsInside n hlook hvalid hinside
  refine ⟨vs,c',hrun,hlength,hvs,fun hcycle i j v hij hi hj => ?_,
    fun hcycle hpos i j v hij hi hj => ?_⟩
  · have hvi := hat hcycle i v hi
    have heq : s.valueAt i = s.valueAt j := by rw [← hvi,hat hcycle j v hj]
    obtain ⟨hlimit,hpos⟩ := SequenceInfo.valueAt_eq hvalid hinc hij heq
    exact ⟨Int64.toInt_inj.mp (hvi.trans hlimit),hpos⟩
  · have hlimit := SequenceInfo.valueAt_stays hpos hij (hat hcycle i _ hi).symm
    exact Int64.toInt_inj.mp ((hat hcycle j v hj).trans hlimit)

/-- A sequence of the numbers 1 and 2. -/
def twoNumbers : SequenceInfo := ⟨"S".toList,1,1,1,1,2,false⟩
def twoNumbersCatalog : Catalog := (new.createSequence twoNumbers).2

theorem twoNumbersCatalog_lookup :
    twoNumbersCatalog.sequences.lookup "S".toList = some twoNumbers := by
  unfold twoNumbersCatalog createSequence
  rw [if_neg (by exact Finmap.notMem_empty)]
  exact Finmap.lookup_insert _

theorem nextValues_inside_two : ∃ vs c',
    twoNumbersCatalog.nextValues "S".toList 4 = some (vs,c') ∧ vs.length = 4 ∧
      (∀ v ∈ vs, 1 ≤ v ∧ v ≤ 2) ∧
      ∀ v, vs[1]? = some 2 → vs[3]? = some v → v = 2 := by
  have h := nextValues_inside twoNumbersCatalog_lookup ⟨by decide,by decide⟩ (by decide)
  obtain ⟨vs,c',hrun,hlength,hvs,_,hstays⟩ := h.2 4 (h.1 (by decide) (by decide) 4)
  exact ⟨vs,c',hrun,hlength,hvs,fun v hi hj => hstays rfl (by decide) 1 3 v (by decide) hi hj⟩

/-- The upper limit comes again and again. -/
theorem nextValues_repeat_limit : ¬ ∀ (c : Catalog) (name : Text) (s : SequenceInfo) (n : ℕ),
    c.sequences.lookup name = some s → s.Valid → s.increment ≠ 0 →
    ∃ vs c', c.nextValues name n = some (vs,c') ∧
      (∀ v ∈ vs, s.minValue ≤ v ∧ v ≤ s.maxValue) ∧ (s.cycle = false → vs.Nodup) := by
  intro h
  have hlook := twoNumbersCatalog_lookup
  have hvalid : twoNumbers.Valid := ⟨by decide,by decide⟩
  have hinside := stepsInside_of_rising 3 hlook hvalid (by decide) (by decide)
  obtain ⟨vs,c',hrun,hlength,_,hat⟩ := nextValues_of_stepsInside 3 hlook hvalid hinside
  obtain ⟨vs',c'',hrun',_,hnodup⟩ := h _ _ _ 3 hlook hvalid (by decide)
  obtain ⟨rfl,_⟩ := Prod.mk.inj (Option.some.inj (hrun.symm.trans hrun'))
  match vs,hlength with
  | [a,b,d],_ =>
    have hb := hat rfl 1 b rfl
    have hd := hat rfl 2 d rfl
    have heq : b = d := Int64.toInt_inj.mp (by rw [hb,hd]; decide)
    have hrest := (List.nodup_cons.mp (hnodup rfl)).2
    exact (List.nodup_cons.mp hrest).1 (List.mem_singleton.mpr heq)

end Catalog
end OrangeSQL
