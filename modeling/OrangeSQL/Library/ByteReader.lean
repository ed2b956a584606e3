import OrangeSQL.Library.Bytes

/-! Checked reads of a byte string at a position, and what they find in a string that was put
together from parts. -/
namespace Bytes

theorem leNat_lt (bs : List UInt8) : leNat bs < 256^bs.length := by
  induction bs with
  | nil => simp [leNat]
  | cons b bs ih =>
    have hb : b.toNat < 256 := b.toNat_lt
    rw [leNat,List.length_cons,pow_succ]
    omega

theorem leNat_append (front rest : List UInt8) :
    leNat (front++rest) = leNat front+256^front.length*leNat rest := by
  induction front with
  | nil => simp [leNat]
  | cons b front ih =>
    rw [List.cons_append,leNat,leNat,ih,List.length_cons,pow_succ]
    ring

/-- The part that begins behind `front`. -/
theorem slice_between (front bs rest : List UInt8) :
    slice (front++bs++rest) front.length bs.length = bs := by
  rw [slice,List.append_assoc,List.drop_left,List.take_left]

/-- A field that begins here, and what comes behind a field. -/
theorem slice_here (w n : ℕ) (rest : List UInt8) :
    slice (leBytes w n++rest) 0 w = leBytes w n := by
  rw [slice,List.drop_zero,List.take_left' (leBytes_length w n)]

theorem slice_behind (w n : ℕ) (rest : List UInt8) {pos k : ℕ} (h : w ≤ pos) :
    slice (leBytes w n++rest) pos k = slice rest (pos-w) k := by
  obtain ⟨pos,rfl⟩ := Nat.exists_eq_add_of_le h
  rw [slice,slice,← List.drop_drop,List.drop_left' (leBytes_length w n),Nat.add_sub_cancel_left]

theorem slice_length_le (file : List UInt8) (pos n : ℕ) : (slice file pos n).length ≤ n := by
  simp only [slice,List.length_take]
  omega

theorem slice_length_iff (content : List UInt8) (offset : ℕ) {size : ℕ} (h : 0 < size) :
    (slice content offset size).length = size ↔ offset+size ≤ content.length := by
  simp only [slice,List.length_take,List.length_drop]
  omega

/-- A read of `n` bytes from `pos` on is defined only inside the string. -/
def readBytes (data : List UInt8) (pos n : ℕ) : Option (List UInt8) :=
  if pos+n ≤ data.length then some (slice data pos n) else none

theorem readBytes_of_le {data : List UInt8} {pos n : ℕ} (h : pos+n ≤ data.length) :
    readBytes data pos n = some (slice data pos n) := if_pos h

theorem readBytes_between (front bs rest : List UInt8) :
    readBytes (front++bs++rest) front.length bs.length = some bs := by
  rw [readBytes_of_le (by simp),slice_between]

/-- Memory that bytes were stored in from its beginning. -/
theorem readMem_writeMem_slice (mem : ℕ → UInt8) (bs : List UInt8) {pos n : ℕ}
    (h : pos+n ≤ bs.length) : readMem (writeMem mem 0 bs) pos n = slice bs pos n := by
  have hparts : bs = bs.take pos++slice bs pos n++(bs.drop pos).drop n := by
    rw [slice,List.append_assoc,List.take_append_drop,List.take_append_drop]
  have hpart := readMem_writeMem_part mem 0 (bs.take pos) (slice bs pos n) ((bs.drop pos).drop n)
  rwa [← hparts,slice_length bs pos n h,List.length_take,Nat.zero_add,
    min_eq_left (by omega)] at hpart

end Bytes
