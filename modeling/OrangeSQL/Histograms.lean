import Mathlib.Data.Rat.Floor
import Mathlib.Data.List.GetD
import OrangeSQL.DistinctValues
import OrangeSQL.Library.ListCuts

/-! The histogram of a sample: the sorted values are cut into runs, and a bucket describes each of them.
A percentile is the last value of the run that reaches its position. -/
namespace OrangeSQL

open Comparators WeakOrders ListCuts

structure Bucket where
  min : Value
  max : Value
  count : ℕ
  distinctRatio : ℚ

structure Histogram where
  columnName : Text
  buckets : List Bucket
  totalCount : ℕ
  distinctCount : ℕ
  minValue : Value
  maxValue : Value

/-- What the loop writes in the bucket of the values between two positions. -/
def Bucket.between (sorted : List Value) (pos stop : ℕ) : Bucket where
  min := sorted.getD pos .null
  max := sorted.getD (stop-1) .null
  count := stop-pos
  distinctRatio := (distinctSet ((sorted.drop pos).take (stop-pos))).length/((stop-pos:ℕ):ℚ)

/-- The loop that fills buckets from a position on, for at most so many rounds. -/
def buildBuckets (sorted : List Value) (bucketSize : ℕ) : ℕ → ℕ → Option (List Bucket)
  | 0, _ => none
  | fuel+1, pos =>
    if pos < sorted.length then
      let stop := min (pos+bucketSize) sorted.length
      (buildBuckets sorted bucketSize fuel stop).map (Bucket.between sorted pos stop::·)
    else some []

/-- The comparison that the values are sorted by. -/
def orderedBefore (a b : Value) : Bool := decide (compareValuesOrdered a b < 0)

/-- Nothing where the number of buckets is zero, by which the code divides, or where the rounds do not
suffice; the null pointer for an empty sample. -/
def buildHistogram (sort : (Value → Value → Bool) → List Value → List Value) (fuel : ℕ)
    (sample : List Value) (column : Text) (numBuckets : ℕ) : Option (Option Histogram) :=
  if sample = [] then some none
  else if numBuckets = 0 then none
  else
    let sorted := sort orderedBefore sample
    let quotient := sample.length/numBuckets
    let bucketSize := if quotient = 0 then 1 else quotient
    (buildBuckets sorted bucketSize fuel 0).map fun buckets => some {
      columnName := column, buckets := buckets, totalCount := sample.length
      distinctCount := (distinctSet sorted).length
      minValue := sorted.headD .null, maxValue := sorted.getLastD .null }

namespace Histogram

/-- The loop over the buckets, with the count of the values in front of them. -/
def percentileLoop (target : ℕ) : List Bucket → ℕ → Option Value
  | [], _ => none
  | bucket::buckets, cumulative =>
    if cumulative+bucket.count ≥ target then some bucket.max
    else percentileLoop target buckets (cumulative+bucket.count)

/-- The product with the count is taken exactly. -/
def getPercentile (hist : Histogram) (p : ℚ) : Value :=
  if hist.buckets = [] ∨ p < 0 ∨ p > 1 then .null
  else
    let target := ⌊hist.totalCount*p⌋₊
    (percentileLoop target hist.buckets 0).getD ((hist.buckets.getLast?.map Bucket.max).getD .null)

end Histogram

/-- The bucket describes the run. -/
structure Bucket.Of (run : List Value) (b : Bucket) : Prop where
  first : run.head? = some b.min
  last : run.getLast? = some b.max
  count : b.count = run.length

section Building

variable {sorted : List Value} {size pos stop : ℕ}

theorem between_of (h : pos < stop) (hle : stop ≤ sorted.length) :
    Bucket.Of ((sorted.drop pos).take (stop-pos)) (Bucket.between sorted pos stop) := by
  have hlength : ((sorted.drop pos).take (stop-pos)).length = stop-pos := by
    rw [List.length_take,List.length_drop]
    omega
  have hget : ∀ i, i < sorted.length → sorted[i]? = some (sorted.getD i .null) := fun i hi => by
    rw [List.getD_eq_getElem _ _ hi,List.getElem?_eq_getElem hi]
  refine ⟨?_,?_,hlength.symm⟩
  · rw [List.head?_take,if_neg (by omega),List.head?_drop]
    exact hget pos (by omega)
  · rw [List.getLast?_eq_getElem?,hlength,List.getElem?_take_of_lt (by omega),List.getElem?_drop]
    have hindex : pos+(stop-pos-1) = stop-1 := by omega
    rw [hindex]
    exact hget _ (by omega)

/-- The loop ends, with a bucket for each run of the rest of the values. -/
theorem buildBuckets_spec (hsize : 0 < size) (sorted : List Value) (pos : ℕ) : ∃ buckets runs,
    (∀ fuel, sorted.length-pos < fuel → buildBuckets sorted size fuel pos = some buckets) ∧
    runs.flatten = sorted.drop pos ∧ List.Forall₂ Bucket.Of runs buckets ∧ CutsBy size runs := by
  induction hrest : sorted.length-pos using Nat.strong_induction_on generalizing pos with
  | _ rest ih =>
    by_cases hpos : pos < sorted.length
    · obtain ⟨stop,hstop⟩ : ∃ stop, stop = min (pos+size) sorted.length := ⟨_,rfl⟩
      obtain ⟨buckets,runs,hbuild,hflat,hof,hcuts⟩ := ih (sorted.length-stop) (by omega) stop rfl
      refine ⟨Bucket.between sorted pos stop::buckets,(sorted.drop pos).take (stop-pos)::runs,
        ?_,?_,?_,?_⟩
      · intro fuel hfuel
        cases fuel with
        | zero => omega
        | succ fuel =>
          rw [buildBuckets,if_pos hpos,← hstop]
          dsimp only
          rw [hbuild fuel (by omega)]
          rfl
      · have hback : sorted.drop stop = (sorted.drop pos).drop (stop-pos) := by
          rw [List.drop_drop]
          congr 1
          omega
        rw [List.flatten_cons,hflat,hback,List.take_append_drop]
      · exact List.Forall₂.cons (between_of (by omega) (by omega)) hof
      · have hlength : ((sorted.drop pos).take (stop-pos)).length = stop-pos := by
          rw [List.length_take,List.length_drop]
          omega
        refine hcuts.cons (List.length_pos_iff.mp (by omega)) (by omega) fun hne => ?_
        -- there is another run, and so this one was not cut short
        have hmore : sorted.drop stop ≠ [] := by
          obtain ⟨run,hrun⟩ := List.exists_mem_of_ne_nil runs hne
          rw [← hflat]
          exact List.flatten_ne_nil_iff.mpr ⟨run,hrun,hcuts.nonempty run hrun⟩
        rw [Ne,List.drop_eq_nil_iff] at hmore
        omega
    · refine ⟨[],[],fun fuel hfuel => ?_,?_,List.Forall₂.nil,CutsBy.nil⟩
      · cases fuel with
        | zero => omega
        | succ fuel => rw [buildBuckets,if_neg hpos]
      · rw [List.flatten_nil,List.drop_of_length_le (by omega)]

end Building

section Partitions

/-- The buckets describe consecutive runs of the sorted values. -/
structure Histogram.Partitions (hist : Histogram) (sorted : List Value) : Prop where
  runs : ∃ runs, runs.flatten = sorted ∧ List.Forall₂ Bucket.Of runs hist.buckets
  positive : ∀ b ∈ hist.buckets, 0 < b.count
  total : (hist.buckets.map Bucket.count).sum = hist.totalCount
  within : ∀ b ∈ hist.buckets, compareValuesOrdered b.min b.max ≤ 0
  following : hist.buckets.IsChain fun b c => compareValuesOrdered b.max c.min ≤ 0
  minValue : hist.buckets.head?.map Bucket.min = some hist.minValue
  maxValue : hist.buckets.getLast?.map Bucket.max = some hist.maxValue
  equalDepth : ∃ count, ∀ b ∈ hist.buckets.dropLast, b.count = count

variable {runs : List (List Value)} {buckets : List Bucket}

theorem map_count (h : List.Forall₂ Bucket.Of runs buckets) :
    buckets.map Bucket.count = runs.map List.length := by
  induction h with
  | nil => rfl
  | cons hof _ ih => rw [List.map_cons,List.map_cons,ih,hof.count]

theorem head?_flatten (h : List.Forall₂ Bucket.Of runs buckets) :
    runs.flatten.head? = buckets.head?.map Bucket.min := by
  cases h with
  | nil => rfl
  | cons hof _ =>
    rw [List.flatten_cons,List.head?_append,hof.first]
    rfl

theorem getLast?_flatten (h : List.Forall₂ Bucket.Of runs buckets) :
    runs.flatten.getLast? = buckets.getLast?.map Bucket.max := by
  induction h with
  | nil => rfl
  | cons hof _ ih =>
    rw [List.flatten_cons,List.getLast?_append,ih,hof.last,List.getLast?_cons]
    cases List.getLast? _ <;> rfl

theorem first_le_last {run : List Value} {x y : Value}
    (h : run.Pairwise fun a b => compareValuesOrdered a b ≤ 0) (hx : run.head? = some x)
    (hy : run.getLast? = some y) : compareValuesOrdered x y ≤ 0 := by
  cases run with
  | nil => cases hx
  | cons a run =>
    obtain rfl : a = x := Option.some.inj hx
    rcases List.mem_cons.mp (List.mem_of_getLast? hy) with rfl | hmem
    · exact ((compareValuesOrdered_orders.zero y y).mpr rfl).le
    · exact (List.pairwise_cons.mp h).1 y hmem

theorem within_following (h : List.Forall₂ Bucket.Of runs buckets)
    (hsorted : runs.flatten.Pairwise fun a b => compareValuesOrdered a b ≤ 0) :
    (∀ b ∈ buckets, compareValuesOrdered b.min b.max ≤ 0) ∧
      buckets.IsChain fun b c => compareValuesOrdered b.max c.min ≤ 0 := by
  induction h with
  | nil => exact ⟨List.forall_mem_nil _,List.IsChain.nil⟩
  | @cons run b runs buckets hof hrest ih =>
    rw [List.flatten_cons] at hsorted
    obtain ⟨hrun,hlater,hcross⟩ := List.pairwise_append.mp hsorted
    obtain ⟨hwithin,hfollowing⟩ := ih hlater
    refine ⟨List.forall_mem_cons.mpr ⟨first_le_last hrun hof.first hof.last,hwithin⟩,?_⟩
    refine List.isChain_cons.mpr ⟨fun c hc => ?_,hfollowing⟩
    have hfirst : runs.flatten.head? = some c.min := by
      rw [head?_flatten hrest,Option.mem_def.mp hc,Option.map_some]
    exact hcross b.max (List.mem_of_getLast? hof.last) c.min (List.mem_of_head? hfirst)

/-- What the construction of a histogram gives: the sorted sample, and the runs of it that the buckets
describe. -/
theorem buildHistogram_spec {sort : (Value → Value → Bool) → List Value → List Value}
    {sample : List Value} {numBuckets : ℕ} (hsort : Sorts sort) (hne : sample ≠ []) (column : Text)
    (hbuckets : 0 < numBuckets) : ∃ hist runs,
    (∀ fuel, sample.length < fuel →
      buildHistogram sort fuel sample column numBuckets = some (some hist)) ∧
    (sort orderedBefore sample).Perm sample ∧
    (sort orderedBefore sample).Pairwise (fun a b => compareValuesOrdered a b ≤ 0) ∧
    hist.totalCount = sample.length ∧
    some hist.minValue = (sort orderedBefore sample).head? ∧
    some hist.maxValue = (sort orderedBefore sample).getLast? ∧
    runs.flatten = sort orderedBefore sample ∧ List.Forall₂ Bucket.Of runs hist.buckets ∧
    CutsBy (max 1 (sample.length/numBuckets)) runs := by
  obtain ⟨hperm,hsorted⟩ := hsort orderedBefore sample (compareValuesOrdered_orders.strictWeakOn sample)
  have hsorted := (compareValuesOrdered_orders.sorted_iff _).mp hsorted
  have hne' : sort orderedBefore sample ≠ [] := fun hnil => hne (hnil ▸ hperm).nil_eq.symm
  have hsize : (if sample.length/numBuckets = 0 then 1 else sample.length/numBuckets) =
      max 1 (sample.length/numBuckets) := by
    generalize sample.length/numBuckets = quotient
    split_ifs <;> omega
  have hpos : 0 < max 1 (sample.length/numBuckets) := lt_of_lt_of_le Nat.one_pos (le_max_left _ _)
  obtain ⟨buckets,runs,hbuild,hflat,hof,hcuts⟩ :=
    buildBuckets_spec hpos (sort orderedBefore sample) 0
  refine ⟨⟨column,buckets,sample.length,(distinctSet (sort orderedBefore sample)).length,
    (sort orderedBefore sample).headD .null,(sort orderedBefore sample).getLastD .null⟩,runs,
    fun fuel hfuel => ?_,hperm,hsorted,rfl,?_,?_,hflat,hof,hcuts⟩
  · rw [buildHistogram,if_neg hne,if_neg hbuckets.ne']
    dsimp only
    rw [hsize,hbuild fuel (by rw [hperm.length_eq]; exact hfuel)]
    rfl
  · obtain ⟨v,l,hv⟩ := List.exists_cons_of_ne_nil hne'
    rw [hv]
    rfl
  · rw [List.getLastD_eq_getLast?,List.getLast?_eq_getLast_of_ne_nil hne']
    rfl

/-- A histogram of a sample that is not empty cuts it, in order, into runs. -/
theorem buildHistogram_partitions (sort : (Value → Value → Bool) → List Value → List Value)
    (hsort : Sorts sort) (sample : List Value) (hne : sample ≠ []) (column : Text) (numBuckets : ℕ)
    (hbuckets : 0 < numBuckets) :
    (∀ values, StrictWeakOn orderedBefore values) ∧ ∃ hist,
      (∀ fuel, sample.length < fuel →
        buildHistogram sort fuel sample column numBuckets = some (some hist)) ∧
      (sort orderedBefore sample).Perm sample ∧
      (sort orderedBefore sample).Pairwise (fun a b => compareValuesOrdered a b ≤ 0) ∧
      hist.totalCount = sample.length ∧ hist.Partitions (sort orderedBefore sample) := by
  refine ⟨compareValuesOrdered_orders.strictWeakOn,?_⟩
  obtain ⟨hist,runs,hbuild,hperm,hsorted,htotal,hmin,hmax,hflat,hof,hcuts⟩ :=
    buildHistogram_spec hsort hne column hbuckets
  have hcount := map_count hof
  obtain ⟨hwithin,hfollowing⟩ := within_following hof (hflat ▸ hsorted)
  refine ⟨hist,hbuild,hperm,hsorted,htotal,⟨runs,hflat,hof⟩,?_,?_,hwithin,hfollowing,?_,?_,?_⟩
  · intro b hb
    have hmem := List.mem_map_of_mem (f := Bucket.count) hb
    rw [hcount] at hmem
    obtain ⟨run,hrun,hlength⟩ := List.mem_map.mp hmem
    rw [← hlength]
    exact List.length_pos_iff.mpr (hcuts.nonempty run hrun)
  · rw [hcount,← List.length_flatten,hflat,hperm.length_eq,htotal]
  · rw [hmin,← hflat,head?_flatten hof]
  · rw [hmax,← hflat,getLast?_flatten hof]
  · refine ⟨max 1 (sample.length/numBuckets),fun b hb => ?_⟩
    have hmem := List.mem_map_of_mem (f := Bucket.count) hb
    rw [List.map_dropLast,hcount,← List.map_dropLast] at hmem
    obtain ⟨run,hrun,hlength⟩ := List.mem_map.mp hmem
    rw [← hlength]
    exact hcuts.full run hrun

/-- Three values of two types in two buckets. -/
theorem buildHistogram_partitions_mixed : ∃ hist,
    buildHistogram insertionSort 4 [.ofInt 3,.ofText [ 'a'],.ofInt 1] [ 'c'] 2 = some (some hist) ∧
    hist.totalCount = 3 ∧ hist.Partitions [.ofInt 1,.ofInt 3,.ofText [ 'a']] := by
  have hsort : insertionSort orderedBefore [.ofInt 3,.ofText [ 'a'],.ofInt 1] =
      [.ofInt 1,.ofInt 3,.ofText [ 'a']] := by decide
  obtain ⟨hist,hbuild,_,_,htotal,hparts⟩ := (buildHistogram_partitions insertionSort
    insertionSort_sorts [.ofInt 3,.ofText [ 'a'],.ofInt 1] (by decide) [ 'c'] 2 (by decide)).2
  rw [hsort] at hparts
  exact ⟨hist,hbuild 4 (by decide),htotal,hparts⟩

end Partitions

section Percentiles

variable {runs : List (List Value)} {buckets : List Bucket} {target seen : ℕ}

/-- The loop ends at the last value of the run that reaches the target. -/
theorem percentileLoop_eq (h : List.Forall₂ Bucket.Of runs buckets) (hne : ∀ r ∈ runs, r ≠ [])
    (hsome : runs ≠ []) (htarget : target ≤ seen+runs.flatten.length) :
    Histogram.percentileLoop target buckets seen =
      runs.flatten[crossing target seen runs-seen-1]? := by
  induction h generalizing seen with
  | nil => exact absurd rfl hsome
  | @cons run b runs buckets hof hrest ih =>
    obtain ⟨hrun,hruns⟩ := List.forall_mem_cons.mp hne
    have hpos := List.length_pos_iff.mpr hrun
    rw [List.flatten_cons,List.length_append] at htarget
    rw [Histogram.percentileLoop,crossing,hof.count,List.flatten_cons]
    split_ifs with hreached
    · rw [List.getElem?_append_left (by omega),← hof.last,List.getLast?_eq_getElem?]
      congr 1
      omega
    · have hmore : runs ≠ [] := by
        rintro rfl
        exact hreached (by simpa using htarget)
      have hcross := @lt_crossing _ (seen+run.length) target runs hruns hmore
      rw [ih hruns hmore (by omega),List.getElem?_append_right (by omega)]
      congr 1
      omega

theorem floor_mul_le (n : ℕ) {p : ℚ} (hp : p ≤ 1) : ⌊(n:ℚ)*p⌋₊ ≤ n :=
  Nat.floor_le_of_le (mul_le_of_le_one_right (Nat.cast_nonneg _) hp)

theorem getPercentile_eq {hist : Histogram} {p : ℚ} (h : List.Forall₂ Bucket.Of runs hist.buckets)
    (hne : ∀ r ∈ runs, r ≠ []) (hsome : runs ≠ []) (htotal : hist.totalCount = runs.flatten.length)
    (hp : 0 ≤ p) (hp' : p ≤ 1) :
    runs.flatten[crossing ⌊(runs.flatten.length:ℚ)*p⌋₊ 0 runs-1]? = some (hist.getPercentile p) := by
  have hbuckets : hist.buckets ≠ [] := by
    intro hnil
    rw [hnil] at h
    cases h
    exact hsome rfl
  have htarget : ⌊(runs.flatten.length:ℚ)*p⌋₊ ≤ 0+runs.flatten.length := by
    rw [Nat.zero_add]
    exact floor_mul_le _ hp'
  have hloop := percentileLoop_eq h hne hsome htarget
  have hcross := @lt_crossing _ 0 ⌊(runs.flatten.length:ℚ)*p⌋₊ runs hne hsome
  have hbound := @crossing_le_length _ 0 ⌊(runs.flatten.length:ℚ)*p⌋₊ runs
  rw [Nat.sub_zero,List.getElem?_eq_getElem (by omega)] at hloop
  rw [Histogram.getPercentile,if_neg (by simp [hbuckets,hp,hp']),htotal]
  dsimp only
  rw [hloop,List.getElem?_eq_getElem (by omega)]
  rfl

theorem compare_of_index_le {sorted : List Value} {i j : ℕ} {x y : Value}
    (h : sorted.Pairwise fun a b => compareValuesOrdered a b ≤ 0) (hij : i ≤ j)
    (hx : sorted[i]? = some x) (hy : sorted[j]? = some y) : compareValuesOrdered x y ≤ 0 := by
  obtain ⟨hi,rfl⟩ := List.getElem?_eq_some_iff.mp hx
  obtain ⟨hj,rfl⟩ := List.getElem?_eq_some_iff.mp hy
  rcases hij.lt_or_eq with hlt | rfl
  · exact List.pairwise_iff_getElem.mp h i j hi hj hlt
  · exact ((compareValuesOrdered_orders.zero _ _).mpr rfl).le

theorem countP_le_of_index {sorted : List Value} {i : ℕ} {x : Value}
    (h : sorted.Pairwise fun a b => compareValuesOrdered a b ≤ 0) (hx : sorted[i]? = some x) :
    i+1 ≤ sorted.countP fun v => decide (compareValuesOrdered v x ≤ 0) := by
  have hi := (List.getElem?_eq_some_iff.mp hx).1
  have hfirst : (sorted.take (i+1)).countP (fun v => decide (compareValuesOrdered v x ≤ 0)) = i+1 := by
    have hlength : (sorted.take (i+1)).length = i+1 := by
      rw [List.length_take]
      omega
    rw [List.countP_eq_length.mpr,hlength]
    intro v hv
    obtain ⟨j,hj,hget⟩ := List.mem_take_iff_getElem.mp hv
    rw [decide_eq_true_eq]
    exact compare_of_index_le h (by omega) (List.getElem?_eq_some_iff.mpr ⟨_,hget⟩) hx
  rw [← hfirst]
  exact (List.take_sublist _ _).countP_le

/-- A percentile is a value of the sample, at most a run behind its position in the sorted sample and
not in front of it, and the percentiles are in order. -/
theorem getPercentile_sound (sort : (Value → Value → Bool) → List Value → List Value)
    (hsort : Sorts sort) (sample : List Value) (hne : sample ≠ []) (column : Text) (numBuckets : ℕ)
    (hbuckets : 0 < numBuckets) : ∃ hist,
    (∀ fuel, sample.length < fuel →
      buildHistogram sort fuel sample column numBuckets = some (some hist)) ∧
    (∀ p : ℚ, 0 ≤ p → p ≤ 1 → hist.getPercentile p ∈ sample ∧
      ⌊sample.length*p⌋₊ ≤
        sample.countP (fun v => decide (compareValuesOrdered v (hist.getPercentile p) ≤ 0)) ∧
      ∃ i, (sort orderedBefore sample)[i]? = some (hist.getPercentile p) ∧
        i ≤ ⌊sample.length*p⌋₊+max 1 (sample.length/numBuckets)-1) ∧
    ∀ p q : ℚ, 0 ≤ p → p ≤ q → q ≤ 1 →
      compareValuesOrdered (hist.getPercentile p) (hist.getPercentile q) ≤ 0 := by
  obtain ⟨hist,runs,hbuild,hperm,hsorted,htotal,_,_,hflat,hof,hcuts⟩ :=
    buildHistogram_spec hsort hne column hbuckets
  have hlength : runs.flatten.length = sample.length := by rw [hflat,hperm.length_eq]
  have hsome : runs ≠ [] := by
    rintro rfl
    exact hne (List.length_eq_zero_iff.mp hlength.symm)
  have hget : ∀ p : ℚ, 0 ≤ p → p ≤ 1 → (sort orderedBefore sample)[
      crossing ⌊(sample.length:ℚ)*p⌋₊ 0 runs-1]? = some (hist.getPercentile p) := by
    intro p hp hp'
    have hgot := getPercentile_eq hof hcuts.nonempty hsome (htotal.trans hlength.symm) hp hp'
    rwa [hlength,hflat] at hgot
  refine ⟨hist,hbuild,fun p hp hp' => ?_,fun p q hp hpq hq => ?_⟩
  · have hv := hget p hp hp'
    have hcross := @lt_crossing _ 0 ⌊(sample.length:ℚ)*p⌋₊ runs hcuts.nonempty hsome
    have hbound := @crossing_le _ _ 0 ⌊(sample.length:ℚ)*p⌋₊ runs hcuts.length_le
    have htarget : ⌊(sample.length:ℚ)*p⌋₊ ≤ crossing ⌊(sample.length:ℚ)*p⌋₊ 0 runs := by
      refine target_le_crossing ?_
      rw [Nat.zero_add,hlength]
      exact floor_mul_le _ hp'
    refine ⟨hperm.subset (List.mem_of_getElem? hv),?_,_,hv,by omega⟩
    have hcount := countP_le_of_index hsorted hv
    rw [hperm.countP_eq] at hcount
    omega
  · have hfloor : ⌊(sample.length:ℚ)*p⌋₊ ≤ ⌊(sample.length:ℚ)*q⌋₊ :=
      Nat.floor_mono (mul_le_mul_of_nonneg_left hpq (Nat.cast_nonneg _))
    have hmono := @crossing_mono _ 0 _ _ runs hfloor
    exact compare_of_index_le hsorted (Nat.sub_le_sub_right hmono 1) (hget p hp (hpq.trans hq))
      (hget q (hp.trans hpq) hq)

/-- The half of three values, of which each is in a bucket of its own. -/
theorem getPercentile_sound_half : ∃ hist,
    buildHistogram insertionSort 4 [.ofInt 3,.ofText [ 'a'],.ofInt 1] [ 'c'] 2 = some (some hist) ∧
    hist.getPercentile (1/2) ∈ [.ofInt 3,.ofText [ 'a'],.ofInt 1] ∧
    compareValuesOrdered (hist.getPercentile (1/2)) (hist.getPercentile 1) ≤ 0 := by
  obtain ⟨hist,hbuild,hvalue,horder⟩ := getPercentile_sound insertionSort insertionSort_sorts
    [.ofInt 3,.ofText [ 'a'],.ofInt 1] (by decide) [ 'c'] 2 (by decide)
  exact ⟨hist,hbuild 4 (by decide),(hvalue (1/2) (by norm_num) (by norm_num)).1,
    horder (1/2) 1 (by norm_num) (by norm_num) (by norm_num)⟩

end Percentiles

end OrangeSQL
