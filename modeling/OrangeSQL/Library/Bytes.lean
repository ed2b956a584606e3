import Mathlib.Data.Finmap
import Mathlib.Tactic

/-! Little-endian integers and byte regions.
A file is the list of its bytes; a block of memory is a function from addresses to
bytes, so that overlapping writes and reads need no bounds bookkeeping. -/
namespace Bytes

/-- The `w` low bytes of `n`, least significant first, as `memcpy` of an integer lays them out. -/
def leBytes : ℕ → ℕ → List UInt8
  | 0, _ => []
  | w+1, n => UInt8.ofNat n :: leBytes w (n/256)

def leNat : List UInt8 → ℕ
  | [] => 0
  | b::bs => b.toNat + 256*leNat bs

@[simp] theorem leBytes_length (w n : ℕ) : (leBytes w n).length = w := by
  induction w generalizing n with
  | zero => rfl
  | succ w ih => simp [leBytes,ih]

theorem leNat_leBytes (w n : ℕ) : leNat (leBytes w n) = n%256^w := by
  induction w generalizing n with
  | zero => simp [leBytes,leNat,Nat.mod_one]
  | succ w ih =>
    rw [leBytes,leNat,ih,pow_succ',Nat.mod_mul]
    rfl

/-- The `n` bytes of a file from position `pos` on, fewer at its end. -/
def slice (file : List UInt8) (pos n : ℕ) : List UInt8 := (file.drop pos).take n

theorem slice_length (file : List UInt8) (pos n : ℕ) (h : pos+n ≤ file.length) :
    (slice file pos n).length = n := by
  simp only [slice,List.length_take,List.length_drop]
  omega

/-- Overwrite a file from `pos` on, extending it with the bytes that run past its end. -/
def writeAt (file : List UInt8) (pos : ℕ) (bs : List UInt8) : List UInt8 :=
  file.take pos ++ List.replicate (pos-file.length) 0 ++ bs ++ file.drop (pos+bs.length)

theorem writeAt_length (file : List UInt8) (pos : ℕ) (bs : List UInt8) (h : pos ≤ file.length) :
    (writeAt file pos bs).length = max file.length (pos+bs.length) := by
  simp only [writeAt,List.length_append,List.length_take,List.length_replicate,List.length_drop]
  omega

/-- What was written is read back. -/
theorem slice_writeAt (file : List UInt8) (pos : ℕ) (bs : List UInt8) :
    slice (writeAt file pos bs) pos bs.length = bs := by
  have hlength : (file.take pos++List.replicate (pos-file.length) 0).length = pos := by
    simp only [List.length_append,List.length_take,List.length_replicate]
    omega
  rw [slice,writeAt,List.append_assoc _ bs,List.drop_left' hlength,List.take_left]

/-- Read `n` bytes of memory at an address. -/
def readMem (mem : ℕ → UInt8) (pos n : ℕ) : List UInt8 := (List.range n).map fun i => mem (pos+i)

/-- Store bytes at an address; everything outside the region keeps its value. -/
def writeMem (mem : ℕ → UInt8) (pos : ℕ) (bs : List UInt8) : ℕ → UInt8 :=
  fun i => if pos ≤ i then bs.getD (i-pos) (mem i) else mem i

theorem writeMem_of_lt (mem : ℕ → UInt8) {pos i : ℕ} (bs : List UInt8) (h : i < pos) :
    writeMem mem pos bs i = mem i := by
  rw [writeMem,if_neg (Nat.not_le.mpr h)]

theorem writeMem_of_le (mem : ℕ → UInt8) {pos i : ℕ} (bs : List UInt8) (h : pos+bs.length ≤ i) :
    writeMem mem pos bs i = mem i := by
  have hout : bs.length ≤ i-pos := by omega
  rw [writeMem,if_pos (by omega),List.getD_eq_getElem?_getD,List.getElem?_eq_none hout,
    Option.getD_none]

theorem readMem_congr {mem mem' : ℕ → UInt8} {pos n : ℕ}
    (h : ∀ i, pos ≤ i → i < pos+n → mem i = mem' i) : readMem mem pos n = readMem mem' pos n := by
  apply List.map_congr_left
  intro i hi
  have hlt : i < n := List.mem_range.mp hi
  exact h (pos+i) (by omega) (by omega)

theorem readMem_add (mem : ℕ → UInt8) (pos m n : ℕ) :
    readMem mem pos (m+n) = readMem mem pos m++readMem mem (pos+m) n := by
  unfold readMem
  rw [List.range_add,List.map_append,List.map_map]
  simp only [Function.comp_def,Nat.add_assoc]

theorem readMem_append_eq {mem : ℕ → UInt8} {pos : ℕ} {front rest : List UInt8}
    (h : readMem mem pos (front++rest).length = front++rest) :
    readMem mem pos front.length = front ∧ readMem mem (pos+front.length) rest.length = rest := by
  rw [List.length_append,readMem_add] at h
  exact List.append_inj h (by simp [readMem])

/-- A part of what was written is read back from its place. -/
theorem readMem_writeMem_part (mem : ℕ → UInt8) (pos : ℕ) (front bs rest : List UInt8) :
    readMem (writeMem mem pos (front++bs++rest)) (pos+front.length) bs.length = bs := by
  apply List.ext_getElem
  · simp [readMem]
  · intro i hi hi'
    have hback : (front++bs++rest)[front.length+i]? = some bs[i] := by
      rw [List.append_assoc,List.getElem?_append_right (by omega),Nat.add_sub_cancel_left,
        List.getElem?_append_left hi',List.getElem?_eq_getElem hi']
    simp [readMem,writeMem,Nat.add_assoc,-List.append_assoc,hback]

/-- Memory that is filled from the front: a write behind the first `n` bytes extends what is read
from the front. -/
theorem readMem_writeMem_append (mem : ℕ → UInt8) (n : ℕ) (bs : List UInt8) :
    readMem (writeMem mem n bs) 0 (n+bs.length) = readMem mem 0 n++bs := by
  unfold readMem
  rw [List.range_add,List.map_append,List.map_map]
  congr 1
  · apply List.map_congr_left
    intro i hi
    have hlt : i < n := List.mem_range.mp hi
    simp only [writeMem,Nat.zero_add,if_neg (Nat.not_le.mpr hlt)]
  · apply List.ext_getElem
    · simp
    · intro i hi hi'
      simp [writeMem,hi']

end Bytes
