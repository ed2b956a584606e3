import Mathlib.Tactic

/-! Streams of bits in groups of a fixed width. A number stands for its low bits, the highest of them
first. An accumulator takes in groups of one width and gives out groups of another width; between the
two no bit is lost and none changes its place. -/
namespace BitStreams

/-- The `w` low bits of a number. -/
def bits : ℕ → ℕ → List Bool
  | 0, _ => []
  | w+1, n => n.testBit w::bits w n

variable {v w m n : ℕ}

@[simp] theorem length_bits (w n : ℕ) : (bits w n).length = w := by
  induction w with
  | zero => rfl
  | succ w ih => rw [bits,List.length_cons,ih]

theorem bits_eq_iff : bits w m = bits w n ↔ ∀ i < w, m.testBit i = n.testBit i := by
  induction w with
  | zero => simp [bits]
  | succ w ih =>
    simp only [bits,List.cons.injEq,ih]
    constructor
    · rintro ⟨hlast,hrest⟩ i hi
      rcases Nat.lt_succ_iff_lt_or_eq.mp hi with hlt | rfl
      · exact hrest i hlt
      · exact hlast
    · intro h
      exact ⟨h w (Nat.lt_succ_self w),fun i hi => h i (Nat.lt_succ_of_lt hi)⟩

theorem bits_inj (hm : m < 2^w) (hn : n < 2^w) (h : bits w m = bits w n) : m = n := by
  apply Nat.eq_of_testBit_eq
  intro i
  by_cases hi : i < w
  · exact bits_eq_iff.mp h i hi
  · have hpow : 2^w ≤ 2^i := Nat.pow_le_pow_right (by decide) (Nat.not_lt.mp hi)
    rw [Nat.testBit_lt_two_pow (hm.trans_le hpow),Nat.testBit_lt_two_pow (hn.trans_le hpow)]

/-- Only the low bits of a number count. -/
theorem bits_mod (h : w ≤ m) : bits w (n%2^m) = bits w n := by
  apply bits_eq_iff.mpr
  intro i hi
  rw [Nat.testBit_mod_two_pow,decide_eq_true (hi.trans_le h),Bool.true_and]

/-- The group of the `v` highest bits comes out. -/
theorem bits_shiftRight (v w n : ℕ) : bits (v+w) n = bits v (n >>> w)++bits w n := by
  induction v with
  | zero => rw [Nat.zero_add,bits,List.nil_append]
  | succ v ih =>
    rw [Nat.add_right_comm,bits,bits,Nat.testBit_shiftRight,ih,Nat.add_comm w v,List.cons_append]

/-- A group of `w` bits goes in behind the others, in a word that has room for all of them. -/
theorem bits_shiftLeft_or {acc b : ℕ} (hb : b < 2^w) (hroom : v+w ≤ m) :
    bits (v+w) (acc <<< w%2^m ||| b) = bits v acc++bits w b := by
  rw [bits_shiftRight]
  congr 1
  · apply bits_eq_iff.mpr
    intro i hi
    have hpow : b < 2^(w+i) := hb.trans_le (Nat.pow_le_pow_right (by decide) (Nat.le_add_right w i))
    have hlt : w+i < m := by omega
    rw [Nat.testBit_shiftRight,Nat.testBit_or,Nat.testBit_lt_two_pow hpow,Nat.testBit_mod_two_pow,
      Nat.testBit_shiftLeft,decide_eq_true hlt,decide_eq_true (Nat.le_add_right w i),
      Nat.add_sub_cancel_left,Bool.true_and,Bool.true_and,Bool.or_false]
  · apply bits_eq_iff.mpr
    intro i hi
    rw [Nat.testBit_or,Nat.testBit_mod_two_pow,Nat.testBit_shiftLeft,
      decide_eq_false (Nat.not_le.mpr hi),Bool.false_and,Bool.and_false,Bool.false_or]

section Groups

variable {l l' : List ℕ} {x y : List Bool}

theorem length_flatMap_bits (w : ℕ) (l : List ℕ) : (l.flatMap (bits w)).length = w*l.length := by
  induction l with
  | nil => rfl
  | cons n l ih =>
    rw [List.flatMap_cons,List.length_append,length_bits,ih,List.length_cons,Nat.mul_succ,
      Nat.add_comm]

/-- Streams that agree so far have the same groups so far. -/
theorem groups_inj (hl : ∀ n ∈ l, n < 2^w) (hl' : ∀ n ∈ l', n < 2^w) (hlength : l.length = l'.length)
    (h : l.flatMap (bits w)++x = l'.flatMap (bits w)++y) : l = l' := by
  induction l generalizing l' with
  | nil => exact (List.length_eq_zero_iff.mp hlength.symm).symm
  | cons n l ih =>
    cases l' with
    | nil => cases hlength
    | cons n' l' =>
      rw [List.flatMap_cons,List.flatMap_cons,List.append_assoc,List.append_assoc] at h
      obtain ⟨hfirst,hrest⟩ := List.append_inj h (by rw [length_bits,length_bits])
      have hn := bits_inj (hl n List.mem_cons_self) (hl' n' List.mem_cons_self) hfirst
      have htail := ih (fun k hk => hl k (List.mem_cons_of_mem _ hk))
        (fun k hk => hl' k (List.mem_cons_of_mem _ hk)) (Nat.succ.inj hlength) hrest
      rw [hn,htail]

end Groups

end BitStreams
