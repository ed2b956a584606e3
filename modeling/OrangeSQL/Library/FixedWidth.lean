import OrangeSQL.Library.Bytes

/-! Types whose values take a fixed number of bytes in memory, as `memcpy` of an object sees them:
words, padding, structures and arrays. -/
namespace Bytes

/-- Only a valid value is promised to be read back: an integer that its word can hold. -/
structure FixedWidth (α : Type) where
  size : ℕ
  encode : α → List UInt8
  decode : List UInt8 → α
  Valid : α → Prop
  length_encode : ∀ a, (encode a).length = size
  decode_encode : ∀ a, Valid a → decode (encode a) = a

namespace FixedWidth

variable {α β : Type}

def nat (w : ℕ) : FixedWidth ℕ where
  size := w
  encode := leBytes w
  decode := leNat
  Valid n := n < 256^w
  length_encode := leBytes_length w
  decode_encode n h := by rw [leNat_leBytes,Nat.mod_eq_of_lt h]

def padding (w : ℕ) : FixedWidth Unit where
  size := w
  encode _ := List.replicate w 0
  decode _ := ()
  Valid _ := True
  length_encode _ := List.length_replicate
  decode_encode _ _ := rfl

/-- The bytes of an object as they are. -/
def raw (w : ℕ) : FixedWidth (Vector UInt8 w) where
  size := w
  encode := Vector.toList
  decode bs := Vector.ofFn fun i => bs.getD i 0
  Valid _ := True
  length_encode _ := Vector.length_toList
  decode_encode v _ := by ext i hi; simp

/-- Another view of the same bytes. -/
def via (c : FixedWidth α) (there : β → α) (back : α → β) (h : ∀ b, back (there b) = b) : FixedWidth β where
  size := c.size
  encode b := c.encode (there b)
  decode bs := back (c.decode bs)
  Valid b := c.Valid (there b)
  length_encode b := c.length_encode (there b)
  decode_encode b hb := by rw [c.decode_encode _ hb,h]

def pair (c : FixedWidth α) (d : FixedWidth β) : FixedWidth (α × β) where
  size := c.size+d.size
  encode p := c.encode p.1++d.encode p.2
  decode bs := (c.decode (bs.take c.size),d.decode (bs.drop c.size))
  Valid p := c.Valid p.1 ∧ d.Valid p.2
  length_encode p := by rw [List.length_append,c.length_encode,d.length_encode]
  decode_encode p h := by
    rw [List.take_left' (c.length_encode p.1),List.drop_left' (c.length_encode p.1),
      c.decode_encode _ h.1,d.decode_encode _ h.2]

def uint16 : FixedWidth UInt16 :=
  (nat 2).via UInt16.toNat UInt16.ofNat fun _ => UInt16.ofNat_toNat
def uint32 : FixedWidth UInt32 :=
  (nat 4).via UInt32.toNat UInt32.ofNat fun _ => UInt32.ofNat_toNat
def uint64 : FixedWidth UInt64 :=
  (nat 8).via UInt64.toNat UInt64.ofNat fun _ => UInt64.ofNat_toNat
def int32 : FixedWidth Int32 := uint32.via Int32.toUInt32 UInt32.toInt32 fun _ => rfl
def int64 : FixedWidth Int64 := uint64.via Int64.toUInt64 UInt64.toInt64 fun _ => rfl

theorem valid_uint16 (n : UInt16) : uint16.Valid n := n.toNat_lt
theorem valid_uint32 (n : UInt32) : uint32.Valid n := n.toNat_lt
theorem valid_uint64 (n : UInt64) : uint64.Valid n := n.toNat_lt
theorem valid_int32 (n : Int32) : int32.Valid n := valid_uint32 n.toUInt32
theorem valid_int64 (n : Int64) : int64.Valid n := valid_uint64 n.toUInt64

section Arrays

variable (c : FixedWidth α)

/-- The first `n` cells of an array, one behind the other. -/
def encodeArray (a : ℕ → α) : ℕ → List UInt8
  | 0 => []
  | n+1 => encodeArray a n++c.encode (a n)

def decodeArray (bs : List UInt8) (i : ℕ) : α := c.decode (slice bs (i*c.size) c.size)

@[simp] theorem length_encodeArray (a : ℕ → α) (n : ℕ) :
    (c.encodeArray a n).length = n*c.size := by
  induction n with
  | zero => simp [encodeArray]
  | succ n ih => rw [encodeArray,List.length_append,ih,c.length_encode,Nat.succ_mul]

/-- The bytes of one cell of an array. -/
theorem slice_encodeArray (a : ℕ → α) {i n : ℕ} (rest : List UInt8) (hi : i < n) :
    slice (c.encodeArray a n++rest) (i*c.size) c.size = c.encode (a i) := by
  induction n generalizing rest with
  | zero => exact absurd hi (Nat.not_lt_zero i)
  | succ n ih =>
    rw [encodeArray,List.append_assoc]
    rcases Nat.lt_succ_iff_lt_or_eq.mp hi with hlt | rfl
    · exact ih _ hlt
    · rw [slice,List.drop_left' (c.length_encodeArray a i),List.take_left' (c.length_encode _)]

theorem decodeArray_encodeArray (a : ℕ → α) {i n : ℕ} (rest : List UInt8) (hi : i < n)
    (hvalid : c.Valid (a i)) : c.decodeArray (c.encodeArray a n++rest) i = a i := by
  rw [decodeArray,slice_encodeArray c a rest hi,c.decode_encode _ hvalid]

end Arrays

end FixedWidth
end Bytes
