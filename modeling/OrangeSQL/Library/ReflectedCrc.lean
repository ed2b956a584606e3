import Mathlib.Tactic

/-! Cyclic redundancy codes with reflected bits: a register that shifts to the right, into which the
polynomial goes whenever a one falls out. A shift is linear, so that what several shifts make of a
register is what they make of its low bits and the rest of it moved down. -/
namespace ReflectedCrc

variable {w : ℕ} (poly : BitVec w)

def shift (r : BitVec w) : BitVec w := if r.getLsbD 0 then (r >>> 1) ^^^ poly else r >>> 1

/-- One byte, bit by bit. -/
def feed (r : BitVec w) (byte : BitVec 8) : BitVec w := (shift poly)^[8] (r ^^^ byte.setWidth w)

/-- The code of some bytes, with the register complemented before and after. -/
def crc (bytes : List (BitVec 8)) (start : BitVec w) : BitVec w :=
  ~~~(bytes.foldl (feed poly) (~~~start))

theorem shift_xor (x y : BitVec w) : shift poly (x ^^^ y) = shift poly x ^^^ shift poly y := by
  have hcancel : ∀ a b : BitVec w, (a ^^^ poly) ^^^ (b ^^^ poly) = a ^^^ b := by
    intro a b
    rw [BitVec.xor_comm b,BitVec.xor_assoc,← BitVec.xor_assoc poly,BitVec.xor_self,BitVec.zero_xor]
  simp only [shift,BitVec.getLsbD_xor,BitVec.ushiftRight_xor_distrib]
  cases hx : x.getLsbD 0 with
  | false =>
    cases hy : y.getLsbD 0 with
    | false => rfl
    | true => exact BitVec.xor_assoc ..
  | true =>
    cases hy : y.getLsbD 0 with
    | false =>
      change x >>> 1 ^^^ y >>> 1 ^^^ poly = x >>> 1 ^^^ poly ^^^ y >>> 1
      rw [BitVec.xor_assoc,BitVec.xor_comm (y >>> 1),← BitVec.xor_assoc]
    | true => exact (hcancel ..).symm

theorem iterate_shift_xor (n : ℕ) (x y : BitVec w) :
    (shift poly)^[n] (x ^^^ y) = (shift poly)^[n] x ^^^ (shift poly)^[n] y := by
  induction n with
  | zero => rfl
  | succ n ih => rw [Function.iterate_succ_apply',Function.iterate_succ_apply',
      Function.iterate_succ_apply',ih,shift_xor]

variable {r : BitVec w} {n : ℕ}

/-- As long as only zeros fall out the register just moves. -/
theorem iterate_shift_of_zeros (h : ∀ i < n, r.getLsbD i = false) : (shift poly)^[n] r = r >>> n := by
  induction n with
  | zero => rw [Function.iterate_zero_apply,BitVec.ushiftRight_zero]
  | succ n ih =>
    have hlast : (r >>> n).getLsbD 0 = false := by
      rw [BitVec.getLsbD_ushiftRight]
      exact h n (Nat.lt_succ_self n)
    rw [Function.iterate_succ_apply',ih fun i hi => h i (Nat.lt_succ_of_lt hi),shift,hlast,
      BitVec.shiftRight_add]
    rfl

/-- A register in two parts. -/
theorem low_xor_high (r : BitVec w) (n : ℕ) :
    (r &&& BitVec.ofNat w (2^n-1)) ^^^ ((r >>> n) <<< n) = r := by
  apply BitVec.eq_of_getLsbD_eq
  intro i hi
  rw [BitVec.getLsbD_xor,BitVec.getLsbD_and,BitVec.getLsbD_ofNat,Nat.testBit_two_pow_sub_one,
    BitVec.getLsbD_shiftLeft,BitVec.getLsbD_ushiftRight]
  by_cases hlow : i < n
  · simp [hi,hlow]
  · simp [hi,hlow,Nat.add_sub_cancel' (Nat.not_lt.mp hlow)]

theorem high_shiftRight (r : BitVec w) (n : ℕ) : ((r >>> n) <<< n) >>> n = r >>> n := by
  apply BitVec.eq_of_getLsbD_eq
  intro i _
  rw [BitVec.getLsbD_ushiftRight,BitVec.getLsbD_shiftLeft,BitVec.getLsbD_ushiftRight,
    BitVec.getLsbD_ushiftRight,Nat.add_sub_cancel_left]
  by_cases hi : n+i < w
  · simp [hi]
  · rw [BitVec.getLsbD_of_ge r (n+i) (Nat.not_lt.mp hi)]
    simp

/-- What shifts make of a register: a table of the low bits holds all that is not a move. -/
theorem iterate_shift_eq (n : ℕ) (r : BitVec w) :
    (shift poly)^[n] r = (shift poly)^[n] (r &&& BitVec.ofNat w (2^n-1)) ^^^ (r >>> n) := by
  have hzeros : ∀ i < n, ((r >>> n) <<< n).getLsbD i = false := by
    intro i hi
    simp [BitVec.getLsbD_shiftLeft,hi]
  conv_lhs => rw [← low_xor_high r n]
  rw [iterate_shift_xor,iterate_shift_of_zeros poly hzeros,high_shiftRight]

/-- The code goes on from where it was. -/
theorem crc_append (bytes bytes' : List (BitVec 8)) (start : BitVec w) :
    crc poly bytes' (crc poly bytes start) = crc poly (bytes++bytes') start := by
  rw [crc,crc,crc,BitVec.not_not,List.foldl_append]

end ReflectedCrc
