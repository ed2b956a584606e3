import OrangeSQL.Wal
import OrangeSQL.Library.ByteReader

/-! Values as bytes: what the record codecs write for a value, and how much of a value a copy of
these bytes brings back. -/
namespace OrangeSQL

open Bytes
open WalManager (serializeValue valueSize)

/-- The size of the union's member for a type, where the type has one that is written. -/
def DataType.scalarWidth : DataType → Option ℕ
  | .integer => some 4
  | .bigint => some 8
  | .boolean => some 1
  | _ => none

namespace Value

/-- A `Value` that was constructed and then given a type. The constructor sets the low half of the
union; `unset` is what the high half has. -/
def blank (unset : UInt32) (type : DataType) : Value :=
  { Value.null with type := type, data := UInt64.ofNat (2^32*unset.toNat) }

/-- `memcpy` to the beginning of the union; the bytes behind keep what they had. -/
def withBytes (v : Value) (bs : List UInt8) : Value :=
  { v with data := UInt64.ofNat (leNat (bs++(leBytes 8 v.data.toNat).drop bs.length)) }

/-- The same type and the same member for that type. -/
def Same (a b : Value) : Prop :=
  a.type = b.type ∧ match a.type with
    | .integer => a.data.toUInt32 = b.data.toUInt32
    | .bigint => a.data = b.data
    | .boolean => a.data.toUInt8 = b.data.toUInt8
    | .varchar => a.strVal = b.strVal
    | .nullType => True
    | _ => a = b

/-- The length of a string fits the four bytes that are written for it. -/
def ShortString (v : Value) : Prop := v.type = .varchar → v.strVal.length < 2^32

instance (v : Value) : Decidable v.ShortString := inferInstanceAs (Decidable (_ → _))

/-- Nothing but the type: zero, false, the empty string or NULL. -/
def IsBlank (unset : UInt32) (v : Value) : Prop := v.Same (blank unset v.type)

@[simp] theorem withBytes_type (v : Value) (bs : List UInt8) : (v.withBytes bs).type = v.type := rfl
@[simp] theorem blank_type (unset : UInt32) (type : DataType) : (blank unset type).type = type :=
  rfl

theorem withBytes_data (v : Value) (bs : List UInt8) (h : bs.length ≤ 8) :
    (v.withBytes bs).data.toNat%256^bs.length = leNat bs := by
  have hall : leNat (bs++(leBytes 8 v.data.toNat).drop bs.length) < 2^64 := by
    have hlt := leNat_lt (bs++(leBytes 8 v.data.toNat).drop bs.length)
    have hlen : (bs++(leBytes 8 v.data.toNat).drop bs.length).length = 8 := by
      simp only [List.length_append,List.length_drop,leBytes_length]
      omega
    rwa [hlen] at hlt
  rw [withBytes,UInt64.toNat_ofNat',Nat.mod_eq_of_lt hall,leNat_append,Nat.add_mul_mod_self_left,
    Nat.mod_eq_of_lt (leNat_lt bs)]

theorem scalarWidth_le {type : DataType} {w : ℕ} (h : type.scalarWidth = some w) :
    0 < w ∧ w ≤ 8 := by
  unfold DataType.scalarWidth at h
  split at h <;> simp_all <;> omega

/-- Two scalars are the same if the bytes of their member are. -/
theorem same_scalar_iff {a b : Value} {w : ℕ} (h : a.type.scalarWidth = some w) :
    a.Same b ↔ a.type = b.type ∧ a.data.toNat%256^w = b.data.toNat%256^w := by
  have hdata : ∀ x : UInt64, x.toNat%256^8 = x.toNat := fun x => Nat.mod_eq_of_lt x.toNat_lt
  unfold Same
  cases htype : a.type <;> rw [htype] at h <;> cases h
  · simp [← UInt32.toNat_inj]
  · simp only [hdata,UInt64.toNat_inj]
  · simp [← UInt8.toNat_inj]

/-- The bytes of a member, copied into any value of the type, bring it back. -/
theorem same_withBytes {v u : Value} {w : ℕ} (h : v.type.scalarWidth = some w)
    (htype : v.type = u.type) : v.Same (u.withBytes (leBytes w v.data.toNat)) := by
  have hdata := withBytes_data u (leBytes w v.data.toNat)
  rw [leBytes_length,leNat_leBytes] at hdata
  exact (same_scalar_iff h).mpr ⟨htype,(hdata (scalarWidth_le h).2).symm⟩

theorem same_varchar_iff {a b : Value} (h : a.type = .varchar) :
    a.Same b ↔ a.type = b.type ∧ a.strVal = b.strVal := by
  simp [Same,h]

theorem same_null {a b : Value} (h : a.type = .nullType) (hb : b.type = .nullType) :
    a.Same b := by
  simp [Same,h,hb]

end Value

theorem serializeValue_scalar {v : Value} {w : ℕ} (h : v.type.scalarWidth = some w) :
    serializeValue v = leBytes w v.data.toNat ∧ valueSize v = w := by
  unfold serializeValue valueSize
  cases htype : v.type <;> rw [htype] at h <;> cases h <;> exact ⟨rfl,rfl⟩

theorem serializeValue_varchar {v : Value} (h : v.type = .varchar) :
    serializeValue v = leBytes 4 v.strVal.length++v.strVal.take (v.strVal.length%2^32) ∧
      valueSize v = 4+v.strVal.length := by
  simp [serializeValue,valueSize,h]

theorem serializeValue_other {v : Value} (h : v.type.scalarWidth = none) (hv : v.type ≠ .varchar) :
    serializeValue v = [] ∧ valueSize v = 0 := by
  unfold serializeValue valueSize
  cases htype : v.type <;> simp_all [DataType.scalarWidth]

/-- Only the length of a string that is too long is not what the size says. -/
theorem length_serializeValue (v : Value) : (serializeValue v).length =
    if v.type = .varchar then 4+v.strVal.length%2^32 else valueSize v := by
  split
  · next hv =>
    rw [(serializeValue_varchar hv).1,List.length_append,leBytes_length,List.length_take,
      min_eq_left (Nat.mod_le _ _)]
  · next hv =>
    cases hw : v.type.scalarWidth with
    | none => rw [(serializeValue_other hw hv).1,(serializeValue_other hw hv).2,List.length_nil]
    | some w => rw [(serializeValue_scalar hw).1,(serializeValue_scalar hw).2,leBytes_length]

theorem length_serializeValue_iff (v : Value) :
    (serializeValue v).length = valueSize v ↔ v.ShortString := by
  rw [length_serializeValue,Value.ShortString]
  split
  · next hv =>
    rw [(serializeValue_varchar hv).2]
    constructor
    · intro h _
      omega
    · intro h
      rw [Nat.mod_eq_of_lt (h hv)]
  · next hv => simp [hv]

theorem length_serializeValue_le (v : Value) : (serializeValue v).length ≤ valueSize v := by
  rw [length_serializeValue]
  split
  · next hv =>
    rw [(serializeValue_varchar hv).2]
    exact Nat.add_le_add_left (Nat.mod_le _ _) 4
  · exact le_rfl

end OrangeSQL
