import OrangeSQL.ValueComparisons

/-! The aggregates over a list of values. The least and the greatest value depend on the order of the
list only among values that compare equal; the sum is narrowed to 32 bits, and the mean is taken by a
division without signs. -/
namespace OrangeSQL

open Comparators

inductive AggregateFunction
  | COUNT | SUM | AVG | MIN | MAX | GROUP_CONCAT | STDDEV | VARIANCE
  deriving DecidableEq, Repr

/-- The loop `sum += v.data.int_val` over an `int64_t`. -/
def sumValues (values : List Value) : Int64 :=
  values.foldl (fun sum v => sum+Int64.ofInt v.intVal) 0

def aggregateValues (values : List Value) (func : AggregateFunction) : Value :=
  match values with
  | [] => .null
  | first::rest =>
    match func with
    | .COUNT => .ofInt (Int32.ofNat values.length)
    | .SUM => if first.type = .integer then .ofInt (sumValues values).toInt32 else first
    | .AVG =>
      if first.type = .integer then
        -- the sum becomes unsigned, as the number of the values is
        .ofInt ((sumValues values).toUInt64/UInt64.ofNat values.length).toUInt32.toInt32
      else first
    | .MIN => best (fun v result => decide (compareValuesOrdered v result < 0)) first rest
    | .MAX => best (fun v result => decide (compareValuesOrdered v result > 0)) first rest
    | .GROUP_CONCAT | .STDDEV | .VARIANCE => first

section Extremes

variable {values values' : List Value}

theorem aggregateValues_min (h : values ≠ []) :
    aggregateValues values .MIN ∈ values ∧
      ∀ v ∈ values, compareValuesOrdered (aggregateValues values .MIN) v ≤ 0 := by
  cases values with
  | nil => exact absurd rfl h
  | cons first rest =>
    refine ⟨best_mem,fun v hv => (compareValuesOrdered_orders.nonpos _ _).mpr ?_⟩
    exact best_le (fun a b => by rw [decide_eq_true_eq,compareValuesOrdered_orders.neg]) v hv

/-- For the greatest value the order is the other way. -/
theorem aggregateValues_max (h : values ≠ []) :
    aggregateValues values .MAX ∈ values ∧
      ∀ v ∈ values, 0 ≤ compareValuesOrdered (aggregateValues values .MAX) v := by
  cases values with
  | nil => exact absurd rfl h
  | cons first rest =>
    refine ⟨best_mem,fun v hv => (compareValuesOrdered_orders.nonneg _ _).mpr ?_⟩
    have hleast := @best_le Value ValueKeyᵒᵈ _ (fun a => OrderDual.toDual (orderKey a))
      (fun v result => decide (compareValuesOrdered v result > 0)) first rest
      (fun a b => by
        rw [decide_eq_true_eq,gt_iff_lt,compareValuesOrdered_orders.pos,OrderDual.toDual_lt_toDual])
    exact OrderDual.toDual_le_toDual.mp (hleast v hv)

/-- The comparison is a total preorder, and the least and the greatest value are extremes in it,
whatever the order of the list. -/
theorem aggregateValues_extremes :
    (∀ a b, (compareValuesOrdered b a).sign = -(compareValuesOrdered a b).sign) ∧
    (∀ a b c, compareValuesOrdered a b ≤ 0 → compareValuesOrdered b c ≤ 0 →
      compareValuesOrdered a c ≤ 0) ∧
    ∀ values, values ≠ [] →
      (aggregateValues values .MIN ∈ values ∧
        ∀ v ∈ values, compareValuesOrdered (aggregateValues values .MIN) v ≤ 0) ∧
      (aggregateValues values .MAX ∈ values ∧
        ∀ v ∈ values, 0 ≤ compareValuesOrdered (aggregateValues values .MAX) v) ∧
      ∀ values', values'.Perm values →
        compareValuesOrdered (aggregateValues values' .MIN) (aggregateValues values .MIN) = 0 ∧
        compareValuesOrdered (aggregateValues values' .MAX) (aggregateValues values .MAX) = 0 := by
  refine ⟨compareValuesOrdered_orders.sign_swap,fun a b c => compareValuesOrdered_orders.trans,?_⟩
  intro values hne
  have hmin := aggregateValues_min hne
  have hmax := aggregateValues_max hne
  refine ⟨hmin,hmax,fun values' hperm => ?_⟩
  have hne' : values' ≠ [] := fun hnil => hne (hnil ▸ hperm).nil_eq.symm
  have hmin' := aggregateValues_min hne'
  have hmax' := aggregateValues_max hne'
  simp only [compareValuesOrdered_orders.zero,compareValuesOrdered_orders.nonpos,
    compareValuesOrdered_orders.nonneg] at hmin hmax hmin' hmax' ⊢
  constructor
  · exact le_antisymm (hmin'.2 _ (hperm.mem_iff.mpr hmin.1)) (hmin.2 _ (hperm.mem_iff.mp hmin'.1))
  · exact le_antisymm (hmax.2 _ (hperm.mem_iff.mp hmax'.1)) (hmax'.2 _ (hperm.mem_iff.mpr hmax.1))

/-- A number is less than a string, whatever they are. -/
theorem aggregateValues_extremes_mixed :
    compareValuesOrdered (.ofInt 7) (.ofText ['3']) ≤ 0 ∧
    aggregateValues [.ofText ['3'],.ofInt 7] .MIN = .ofInt 7 ∧
    compareValuesOrdered (aggregateValues [.ofText ['3'],.ofInt 7] .MAX)
      (aggregateValues [.ofInt 7,.ofText ['3']] .MAX) = 0 := by
  have h := aggregateValues_extremes
  refine ⟨h.2.1 _ (.ofInt 8) _ (by decide) (by decide),by decide,?_⟩
  exact ((h.2.2 [.ofInt 7,.ofText ['3']] (by decide)).2.2 _ (List.Perm.swap _ _ _)).2

end Extremes

section Sums

variable {values : List Value}

/-- The mathematical sum of the integers. -/
def integerSum (values : List Value) : ℤ := (values.map Value.intVal).sum

theorem intVal_bounds (v : Value) : -2^31 ≤ v.intVal ∧ v.intVal < 2^31 :=
  ⟨Int32.le_toInt _,Int32.toInt_lt _⟩

theorem integerSum_bounds (values : List Value) :
    -2^31*(values.length:ℤ) ≤ integerSum values ∧ integerSum values ≤ (2^31-1)*values.length := by
  induction values with
  | nil => decide
  | cons v values ih =>
    have hv := intVal_bounds v
    simp only [integerSum,List.map_cons,List.sum_cons,List.length_cons,Nat.cast_add_one] at ih ⊢
    omega

theorem toInt_sumValues (h : values.length < 2^31) :
    (sumValues values).toInt = integerSum values := by
  have hrun : ∀ (l : List Value) (sum : Int64),
      (l.foldl (fun sum v => sum+Int64.ofInt v.intVal) sum).toInt =
        (sum.toInt+integerSum l).bmod (2^64) := by
    intro l
    induction l with
    | nil =>
      intro sum
      simp [integerSum]
    | cons v l ih =>
      intro sum
      rw [List.foldl_cons,ih]
      simp [integerSum,Int.add_assoc]
  obtain ⟨hlow,hhigh⟩ := integerSum_bounds values
  rw [sumValues,hrun,Int64.toInt_zero,Int.zero_add]
  exact Int.bmod_eq_of_le (by omega) (by omega)

theorem toNat_toUInt64 (x : Int64) : (x.toUInt64.toNat:ℤ) = x.toInt%2^64 := by
  have hlt : (x.toBitVec.toNat:ℤ) < 2^64 := by exact_mod_cast x.toBitVec.isLt
  change (x.toBitVec.toNat:ℤ) = x.toBitVec.toInt%2^64
  rw [BitVec.toInt_eq_toNat_bmod]
  exact (Int.bmod_emod.trans (Int.emod_eq_of_lt (Int.natCast_nonneg _) hlt)).symm

theorem intVal_sum (h : ∀ v ∈ values, v.type = .integer) (hne : values ≠ [])
    (hlen : values.length < 2^31) :
    (aggregateValues values .SUM).intVal = (integerSum values).bmod (2^32) := by
  have hsum := toInt_sumValues hlen
  cases values with
  | nil => exact absurd rfl hne
  | cons first rest =>
    rw [aggregateValues,if_pos (h first List.mem_cons_self),intVal_ofInt,Int64.toInt_toInt32,hsum]

theorem intVal_avg (h : ∀ v ∈ values, v.type = .integer) (hne : values ≠ [])
    (hlen : values.length < 2^31) :
    (aggregateValues values .AVG).intVal =
      ((((integerSum values)%2^64).toNat/values.length:ℕ):ℤ).bmod (2^32) := by
  have hsum := toNat_toUInt64 (sumValues values)
  rw [toInt_sumValues hlen] at hsum
  cases values with
  | nil => exact absurd rfl hne
  | cons first rest =>
    rw [aggregateValues,if_pos (h first List.mem_cons_self),intVal_ofInt]
    have hint : ∀ x : UInt32, x.toInt32.toInt = (x.toNat:ℤ).bmod (2^32) :=
      fun x => BitVec.toInt_eq_toNat_bmod x.toBitVec
    have hsize : (first::rest).length < UInt64.size := hlen.trans (by decide)
    rw [hint,UInt64.toNat_toUInt32,UInt64.toNat_div,UInt64.toNat_ofNat_of_lt' hsize,← hsum,
      Int.toNat_natCast,Int.natCast_mod,Int.emod_bmod]

/-- Taking away a number lowers the quotient by the one of the number, or by one more where the
remainder is too small. -/
theorem sub_div_add {n q r t u : ℕ} (hr : r < n) (hu : u < n) (h : n*t+u ≤ n*q+r) :
    (n*q+r-(n*t+u))/n+t = if u ≤ r then q else q-1 := by
  have hn : 0 < n := by omega
  have htq : t ≤ q := by
    by_contra hlt
    have hmul := Nat.mul_le_mul_left n (Nat.lt_of_not_le hlt)
    rw [Nat.mul_succ] at hmul
    omega
  obtain ⟨d,rfl⟩ := Nat.exists_eq_add_of_le htq
  rw [Nat.mul_add] at h ⊢
  split_ifs with hle
  · have hdiff : n*t+n*d+r-(n*t+u) = (r-u)+n*d := by omega
    rw [hdiff,Nat.add_mul_div_left _ _ hn,Nat.div_eq_of_lt (by omega)]
    omega
  · cases d with
    | zero => omega
    | succ d =>
      rw [Nat.mul_succ]
      have hdiff : n*t+(n*d+n)+r-(n*t+u) = (n+r-u)+n*d := by omega
      rw [hdiff,Nat.add_mul_div_left _ _ hn,Nat.div_eq_of_lt (by omega)]
      omega

/-- A quotient of 2^64 is divisible by 2^32 only where nothing is left over, and never is it one more
than such a number. -/
theorem dvd_quotient {n q r : ℕ} (hlt : n < 2^31) (hr : r < n) (h : n*q+r = 2^64) :
    (2^32 ∣ q ↔ ∃ k, n = 2^k) ∧ (2^32 ∣ q → r = 0) ∧ ¬2^32 ∣ q-1 := by
  have hzero : 2^32 ∣ q → r = 0 := by
    rintro ⟨m,rfl⟩
    have hdvd : 2^32 ∣ r := by
      refine (Nat.dvd_add_right ⟨n*m,?_⟩).mp (h ▸ ⟨2^32,rfl⟩ : 2^32 ∣ n*(2^32*m)+r)
      ring
    exact Nat.eq_zero_of_dvd_of_lt hdvd (by omega)
  refine ⟨⟨fun hdvd => ?_,?_⟩,hzero,?_⟩
  · have hn : n ∣ 2^64 := ⟨q,by rw [← h,hzero hdvd,Nat.add_zero]⟩
    obtain ⟨k,_,hk⟩ := (Nat.dvd_prime_pow Nat.prime_two).mp hn
    exact ⟨k,hk⟩
  · rintro ⟨k,rfl⟩
    have hk : k < 31 := (Nat.pow_lt_pow_iff_right (by decide)).mp hlt
    have hpow : 2^64 = 2^k*(2^32*2^(32-k)) := by
      rw [← pow_add,← pow_add]
      congr 1
      omega
    have hq : q = 2^64/2^k := by
      rw [← h,Nat.add_div_of_dvd_right ⟨q,rfl⟩,Nat.mul_div_cancel_left _ (by positivity),
        Nat.div_eq_of_lt hr]
      rfl
    rw [hq,hpow,Nat.mul_div_cancel_left _ (by positivity)]
    exact ⟨_,rfl⟩
  · rintro ⟨m,hm⟩
    have hq : q = 2^32*m+1 := by
      rcases q with _ | q
      · omega
      · omega
    have hdvd : 2^32 ∣ n+r := by
      have hall : 2^32 ∣ 2^32*(n*m)+(n+r) := by
        rw [hq] at h
        refine ⟨2^32,?_⟩
        linarith
      exact (Nat.dvd_add_right ⟨n*m,rfl⟩).mp hall
    exact absurd (Nat.le_of_dvd (by omega) hdvd) (by omega)

/-- The division without signs gives the negative quotient, as far as 32 bits show it, only where
nothing is left over. -/
theorem unsigned_quotient_iff {n s : ℕ} (hlt : n < 2^31) (hs : s ≤ 2^31*n) (hn : 0 < n) :
    2^32 ∣ (2^64-s)/n+s/n ↔ (∃ k, n = 2^k) ∧ n ∣ s := by
  have hrest := Nat.mod_lt (2^64) hn
  have hrest' := Nat.mod_lt s hn
  have htotal := Nat.div_add_mod (2^64) n
  have hsplit := Nat.div_add_mod s n
  obtain ⟨hpow,hzero,hone⟩ := dvd_quotient hlt hrest htotal
  have hquot := sub_div_add hrest hrest' (by rw [htotal,hsplit]; omega)
  rw [htotal,hsplit] at hquot
  rw [hquot,← hpow,Nat.dvd_iff_mod_eq_zero (m := n) (n := s)]
  split_ifs with hle
  · exact ⟨fun hdvd => ⟨hdvd,by rw [hzero hdvd] at hle; omega⟩,And.left⟩
  · exact iff_of_false hone fun hboth => hle (by omega)

/-- The sum is exact where 32 bits hold it, and the mean where the sum is not negative or a power of
two divides it. -/
theorem aggregateValues_exact_iff (values : List Value) (hne : values ≠ [])
    (htype : ∀ v ∈ values, v.type = .integer) (hlen : values.length < 2^31) :
    ((aggregateValues values .SUM).intVal = integerSum values ↔
      -2^31 ≤ integerSum values ∧ integerSum values < 2^31) ∧
    ((aggregateValues values .AVG).intVal = (integerSum values).tdiv values.length ↔
      0 ≤ integerSum values ∨
        (∃ k, values.length = 2^k) ∧ (values.length:ℤ) ∣ integerSum values) := by
  have hpos : 0 < values.length := List.length_pos_iff.mpr hne
  obtain ⟨hlow,hhigh⟩ := integerSum_bounds values
  rw [intVal_sum htype hne hlen,intVal_avg htype hne hlen]
  generalize integerSum values = sum at hlow hhigh ⊢
  generalize values.length = n at hlow hhigh hlen hpos ⊢
  constructor
  · rw [Int.bmod_eq_iff (by decide)]
    omega
  · rcases lt_or_ge sum 0 with hsum | hsum
    · obtain ⟨s,rfl⟩ : ∃ s : ℕ, sum = -(s:ℤ) := ⟨sum.natAbs,by omega⟩
      have hs : s ≤ 2^31*n := by omega
      have hquot : s/n ≤ 2^31 := Nat.div_le_of_le_mul (by omega)
      have hmod : -(s:ℤ)%2^64 = ((2^64-s:ℕ):ℤ) := by omega
      rw [hmod,Int.toNat_natCast,Int.neg_tdiv,← Int.ofNat_tdiv,Int.bmod_eq_iff (by decide),Int.dvd_neg,
        Int.natCast_dvd_natCast,← unsigned_quotient_iff hlen hs hpos]
      generalize s/n = t at hquot ⊢
      generalize (2^64-s)/n = q
      constructor
      · rintro ⟨_,_,hdvd⟩
        exact Or.inr (by omega)
      · rintro (hneg | hdvd)
        · omega
        · exact ⟨by omega,by omega,by omega⟩
    · -- the quotient is not above the greatest integer
      refine iff_of_true ?_ (Or.inl hsum)
      obtain ⟨s,rfl⟩ := Int.eq_ofNat_of_zero_le hsum
      have hquot : s/n < 2^31 := Nat.div_lt_of_lt_mul (by nlinarith)
      rw [Int.emod_eq_of_lt hsum (by omega),Int.toNat_natCast,← Int.ofNat_tdiv]
      generalize s/n = t at hquot ⊢
      exact Int.bmod_eq_of_le (by omega) (by omega)

/-- Two numbers with the sum -4. -/
theorem aggregateValues_exact_even :
    (aggregateValues [.ofInt (-1),.ofInt (-3)] .SUM).intVal = -4 ∧
    (aggregateValues [.ofInt (-1),.ofInt (-3)] .AVG).intVal = -2 := by
  have h := aggregateValues_exact_iff [.ofInt (-1),.ofInt (-3)] (by decide) (by decide) (by decide)
  exact ⟨h.1.mpr ⟨by decide,by decide⟩,h.2.mpr (Or.inr ⟨⟨1,rfl⟩,by decide⟩)⟩

/-- The mean of three times -1 is a great positive number, and a sum of positive numbers is negative. -/
theorem aggregateValues_inexact :
    (aggregateValues [.ofInt (-1),.ofInt (-1),.ofInt (-1)] .AVG).intVal = 1431655764 ∧
    (integerSum [.ofInt (-1),.ofInt (-1),.ofInt (-1)]).tdiv 3 = -1 ∧
    (aggregateValues [.ofInt 2147483647,.ofInt 1] .SUM).intVal = -2147483648 ∧
    integerSum [.ofInt 2147483647,.ofInt 1] = 2147483648 := by
  decide

end Sums

end OrangeSQL
