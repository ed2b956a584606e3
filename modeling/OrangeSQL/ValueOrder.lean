import OrangeSQL.QueryExecutor

/-! The comparisons of values, as their operators define them and as the evaluator of expressions
makes them: on the member `int_val` of the union, whatever the type is. -/
namespace OrangeSQL

namespace Value

/-- The other members of the union. -/
def bigintVal (val : Value) : ℤ := val.data.toInt64.toInt
def smallintVal (val : Value) : ℤ := val.data.toUInt16.toInt16.toInt
def doubleVal (val : Value) : Float := Float.ofBits val.data
def floatVal (val : Value) : Float32 := Float32.ofBits val.data.toUInt32

/-- `operator==`. -/
def isEqual (a b : Value) : Bool :=
  if a.type ≠ b.type then false
  else
    match a.type with
    | .integer => decide (a.intVal = b.intVal)
    | .bigint => decide (a.bigintVal = b.bigintVal)
    | .smallint => decide (a.smallintVal = b.smallintVal)
    | .boolean => a.boolVal == b.boolVal
    | .double => a.doubleVal == b.doubleVal
    | .float => a.floatVal == b.floatVal
    | .varchar | .char | .text => decide (a.strVal = b.strVal)
    | .blob => decide (a.blobVal = b.blobVal)
    | .nullType => true
    | _ => false

/-- `operator<`; strings are in the order of their bytes. -/
def isLess (a b : Value) : Bool :=
  if a.type ≠ b.type then decide (a.type.code < b.type.code)
  else
    match a.type with
    | .integer => decide (a.intVal < b.intVal)
    | .bigint => decide (a.bigintVal < b.bigintVal)
    | .smallint => decide (a.smallintVal < b.smallintVal)
    | .boolean => !a.boolVal && b.boolVal
    | .double => decide (a.doubleVal < b.doubleVal)
    | .float => decide (a.floatVal < b.floatVal)
    | .varchar | .char | .text => decide (a.strVal < b.strVal)
    | _ => false

def isNotEqual (a b : Value) : Bool := !a.isEqual b
def isLessEqual (a b : Value) : Bool := a.isLess b || a.isEqual b
def isGreater (a b : Value) : Bool := !a.isLessEqual b
def isGreaterEqual (a b : Value) : Bool := !a.isLess b

end Value

inductive Comparison
  | EQ | NE | LT | LE | GT | GE
  deriving DecidableEq, Repr

namespace Comparison

def operator : Comparison → Operator
  | EQ => .EQ
  | NE => .NE
  | LT => .LT
  | LE => .LE
  | GT => .GT
  | GE => .GE

/-- What the operator of the class `Value` returns. -/
def ofValues : Comparison → Value → Value → Bool
  | EQ => Value.isEqual
  | NE => Value.isNotEqual
  | LT => Value.isLess
  | LE => Value.isLessEqual
  | GT => Value.isGreater
  | GE => Value.isGreaterEqual

/-- Each comparison in terms of less and equal. -/
def combine (less equal : Bool) : Comparison → Bool
  | EQ => equal
  | NE => !equal
  | LT => less
  | LE => less || equal
  | GT => !(less || equal)
  | GE => !less

theorem ofValues_eq (op : Comparison) (a b : Value) :
    op.ofValues a b = op.combine (a.isLess b) (a.isEqual b) := by
  cases op <;> rfl

end Comparison

section Members

@[simp] theorem intVal_ofInt (v : Int32) : (Value.ofInt v).intVal = v.toInt := by
  simp [Value.intVal,Value.ofInt]

@[simp] theorem bigintVal_ofBigint (v : Int64) : (Value.ofBigint v.toUInt64).bigintVal = v.toInt := by
  simp [Value.bigintVal,Value.ofBigint]

theorem toInt32_toUInt32_toUInt64 (v : Int64) : v.toUInt64.toUInt32.toInt32 = v.toInt32 := by
  apply Int32.toBitVec_inj.mp
  change BitVec.setWidth 32 v.toBitVec = v.toBitVec.signExtend 32
  exact (BitVec.signExtend_eq_setWidth_of_le _ (by decide)).symm

/-- The low word of a 64-bit integer, with its sign. -/
@[simp] theorem intVal_ofBigint (v : Int64) :
    (Value.ofBigint v.toUInt64).intVal = v.toInt.bmod (2^32) := by
  rw [← Int64.toInt_toInt32,← toInt32_toUInt32_toUInt64]
  rfl

@[simp] theorem intVal_ofText (text : Text) (unset : UInt64) :
    (Value.ofText text unset).intVal = unset.toUInt32.toInt32.toInt := rfl

@[simp] theorem intVal_null : Value.null.intVal = 0 := rfl

/-- The low byte is the truth value, whatever the memory held. -/
theorem data_ofBool (v : Bool) (unset : UInt64) :
    (Value.ofBool v unset).data.toNat = unset.toNat/256*256+v.toNat := by
  have hlt := unset.toNat_lt
  have hbit : (if v then 1 else 0 : UInt64).toNat = v.toNat := by cases v <;> rfl
  have hle := v.toNat_le
  rw [Value.ofBool,UInt64.toNat_add,UInt64.toNat_mul,UInt64.toNat_div,hbit]
  simp only [UInt64.reduceToNat]
  omega

@[simp] theorem boolVal_ofBool (v : Bool) (unset : UInt64) : (Value.ofBool v unset).boolVal = v := by
  have hlow : (Value.ofBool v unset).data.toUInt8.toNat = v.toNat := by
    have hle := v.toNat_le
    rw [UInt64.toNat_toUInt8,data_ofBool]
    omega
  cases v with
  | false => exact decide_eq_false (not_not.mpr (UInt8.toNat_inj.mp hlow))
  | true =>
    refine decide_eq_true fun hzero => ?_
    rw [hzero] at hlow
    cases hlow

/-- `int_val` has the truth value in its low byte. -/
theorem bmod_intVal_ofBool (v : Bool) (unset : UInt64) :
    (Value.ofBool v unset).intVal.bmod (2^8) = v.toNat := by
  have hle := v.toNat_le
  have hword : (Value.ofBool v unset).intVal =
      (Value.ofBool v unset).data.toUInt32.toBitVec.toInt := rfl
  rw [hword,BitVec.toInt_eq_toNat_bmod,UInt32.toNat_toBitVec,UInt64.toNat_toUInt32,data_ofBool,
    Int.bmod_def,Int.bmod_def]
  push_cast
  split_ifs <;> omega

theorem ofBool_inj {a b : Bool} : Value.ofBool a = Value.ofBool b ↔ a = b := by
  cases a <;> cases b <;> decide

end Members

namespace QueryExecutor

theorem evaluateOperator_comparison (op : Comparison) (a b : Value) :
    evaluateOperator op.operator a b =
      some (.ofBool (op.combine (decide (a.intVal < b.intVal)) (decide (a.intVal = b.intVal)))) := by
  have hle : decide (a.intVal ≤ b.intVal) =
      (decide (a.intVal < b.intVal) || decide (a.intVal = b.intVal)) := by
    rw [Bool.eq_iff_iff]
    simp only [Bool.or_eq_true,decide_eq_true_eq]
    omega
  have hgt : decide (a.intVal > b.intVal) = !decide (a.intVal ≤ b.intVal) := by
    rw [Bool.eq_iff_iff]
    simp
  have hge : decide (a.intVal ≥ b.intVal) = !decide (a.intVal < b.intVal) := by
    rw [Bool.eq_iff_iff]
    simp
  cases op with
  | EQ | LT => rfl
  | NE => simp [Comparison.operator,evaluateOperator,Comparison.combine]
  | LE => simp only [Comparison.operator,evaluateOperator,Comparison.combine,hle]
  | GT => simp only [Comparison.operator,evaluateOperator,Comparison.combine,hgt,hle]
  | GE => simp only [Comparison.operator,evaluateOperator,Comparison.combine,hge]

end QueryExecutor

/-- Two values of one type that literals can have, none of them NULL, and what the memory held that
the constructors of truth values and strings leave unset. -/
inductive LiteralPair
  | integer (a b : Int32)
  | bigint (a b : Int64)
  | boolean (a b : Bool) (unset unset' : UInt64)
  | varchar (a b : Text) (unset unset' : UInt64)

namespace LiteralPair

def left : LiteralPair → Value
  | integer a _ => .ofInt a
  | bigint a _ => .ofBigint a.toUInt64
  | boolean a _ unset _ => .ofBool a unset
  | varchar a _ unset _ => .ofText a unset

def right : LiteralPair → Value
  | integer _ b => .ofInt b
  | bigint _ b => .ofBigint b.toUInt64
  | boolean _ b _ unset => .ofBool b unset
  | varchar _ b _ unset => .ofText b unset

/-- The same literals over other memory. -/
def inMemory (unset unset' : UInt64) : LiteralPair → LiteralPair
  | integer a b => integer a b
  | bigint a b => bigint a b
  | boolean a b _ _ => boolean a b unset unset'
  | varchar a b _ _ => varchar a b unset unset'

end LiteralPair

namespace Comparison

/-- The order of two integers shows in their parts below `m`: what is above these is the same, or it
is in the same order as they are. -/
def ShowsBelow (m : ℕ) (x y : ℤ) : Comparison → Prop
  | EQ | NE => x.bmod m = y.bmod m → x.bdiv m = y.bdiv m
  | LT | GE =>
    x.bdiv m = y.bdiv m ∨ x.bdiv m < y.bdiv m ∧ x.bmod m < y.bmod m ∨
    y.bdiv m < x.bdiv m ∧ y.bmod m ≤ x.bmod m
  | LE | GT =>
    x.bdiv m = y.bdiv m ∨ x.bdiv m < y.bdiv m ∧ x.bmod m ≤ y.bmod m ∨
    y.bdiv m < x.bdiv m ∧ y.bmod m < x.bmod m

/-- What the memory held is, as numbers, ordered as the strings are. -/
def MemoryFollows (x y : ℤ) (s t : List UInt8) : Comparison → Prop
  | EQ | NE => x = y ↔ s = t
  | LT | GE => x < y ↔ s < t
  | LE | GT => x ≤ y ↔ s ≤ t

/-- The values compare as their members `int_val` do: those of 64-bit integers have the low words
only, those of truth values and strings have what the memory held. -/
def DecidedByInt (op : Comparison) : LiteralPair → Prop
  | .integer _ _ => True
  | .bigint a b => op.ShowsBelow (2^32) a.toInt b.toInt
  | .boolean a b unset unset' =>
    op.ShowsBelow (2^8) (Value.ofBool a unset).intVal (Value.ofBool b unset').intVal
  | .varchar a b unset unset' =>
    op.MemoryFollows unset.toUInt32.toInt32.toInt unset'.toUInt32.toInt32.toInt
      (Value.ofText a).strVal (Value.ofText b).strVal

/-- They do so whatever the memory held. -/
def DecidedByType (op : Comparison) : LiteralPair → Prop
  | .integer _ _ => True
  | .bigint a b => op.ShowsBelow (2^32) a.toInt b.toInt
  | .boolean a b _ _ => (op = EQ ∨ op = NE) ∧ a ≠ b
  | .varchar _ _ _ _ => False

variable {m : ℕ}

theorem bmod_sub_bmod_lt (hm : 0 < m) (x y : ℤ) : x.bmod m-y.bmod m < m := by
  have hx := @Int.bmod_lt x m hm
  have hy := @Int.le_bmod y m hm
  omega

theorem lt_of_bdiv_lt (hm : 0 < m) {x y : ℤ} (h : x.bdiv m < y.bdiv m) : x < y := by
  have hstep : (m : ℤ)*(x.bdiv m+1) ≤ m*y.bdiv m := Int.mul_le_mul_of_nonneg_left h (by omega)
  have hlow := bmod_sub_bmod_lt hm x y
  rw [← Int.bdiv_add_bmod x m,← Int.bdiv_add_bmod y m]
  rw [Int.mul_add,Int.mul_one] at hstep
  omega

/-- The order of two integers is that of the parts above `m`, and below it where these are the
same. -/
theorem lt_iff_parts (hm : 0 < m) (x y : ℤ) :
    x < y ↔ x.bdiv m < y.bdiv m ∨ x.bdiv m = y.bdiv m ∧ x.bmod m < y.bmod m := by
  rcases lt_trichotomy (x.bdiv m) (y.bdiv m) with hlt | heq | hgt
  · exact iff_of_true (lt_of_bdiv_lt hm hlt) (.inl hlt)
  · have hx := Int.bdiv_add_bmod x m
    have hy := Int.bdiv_add_bmod y m
    rw [heq] at hx
    omega
  · have hyx := lt_of_bdiv_lt hm hgt
    exact iff_of_false (by omega) (by omega)

theorem eq_iff_parts (x y : ℤ) : x = y ↔ x.bdiv m = y.bdiv m ∧ x.bmod m = y.bmod m := by
  refine ⟨fun h => by rw [h]; exact ⟨rfl,rfl⟩,fun h => ?_⟩
  rw [← Int.bdiv_add_bmod x m,← Int.bdiv_add_bmod y m,h.1,h.2]

theorem combine_showsBelow (hm : 0 < m) (op : Comparison) (x y : ℤ) :
    op.combine (decide (x.bmod m < y.bmod m)) (decide (x.bmod m = y.bmod m)) =
      op.combine (decide (x < y)) (decide (x = y)) ↔ op.ShowsBelow m x y := by
  have hless := lt_iff_parts hm x y
  have hequal := eq_iff_parts (m := m) x y
  rw [Bool.eq_iff_iff]
  cases op <;>
    simp only [combine,ShowsBelow,Bool.or_eq_true,Bool.not_eq_true',Bool.or_eq_false_iff,
      decide_eq_true_eq,decide_eq_false_iff_not,hless,hequal] <;> omega

theorem combine_memoryFollows (op : Comparison) (x y : ℤ) (s t : List UInt8) :
    op.combine (decide (x < y)) (decide (x = y)) = op.combine (decide (s < t)) (decide (s = t)) ↔
      op.MemoryFollows x y s t := by
  have hstrings : s ≤ t ↔ s < t ∨ s = t := List.le_iff_lt_or_eq
  have hnumbers : x ≤ y ↔ x < y ∨ x = y := le_iff_lt_or_eq
  rw [Bool.eq_iff_iff]
  cases op <;>
    simp only [combine,MemoryFollows,hstrings,hnumbers,Bool.or_eq_true,Bool.not_eq_true',
      Bool.or_eq_false_iff,decide_eq_true_eq,decide_eq_false_iff_not] <;> tauto

end Comparison

namespace QueryExecutor

/-- The evaluator returns the truth value that the operator of the values returns. -/
def ComparesAsValues (row : List Value) (op : Comparison) (p : LiteralPair) : Prop :=
  evaluateExpression row (.binary op.operator (.literal p.left) (some (.literal p.right))) =
    some (.ofBool (op.ofValues p.left p.right))

theorem comparesAsValues_iff_combine (row : List Value) (op : Comparison) (p : LiteralPair) :
    ComparesAsValues row op p ↔
      op.combine (decide (p.left.intVal < p.right.intVal)) (decide (p.left.intVal = p.right.intVal)) =
        op.combine (p.left.isLess p.right) (p.left.isEqual p.right) := by
  have heval : evaluateExpression row
      (.binary op.operator (.literal p.left) (some (.literal p.right))) =
        evaluateOperator op.operator p.left p.right := rfl
  rw [ComparesAsValues,heval,evaluateOperator_comparison,Comparison.ofValues_eq,Option.some.injEq,
    ofBool_inj]

theorem comparesAsValues_iff_decidedByInt (row : List Value) (op : Comparison) (p : LiteralPair) :
    ComparesAsValues row op p ↔ op.DecidedByInt p := by
  rw [comparesAsValues_iff_combine]
  cases p with
  | integer a b => exact iff_of_true rfl trivial
  | bigint a b =>
    rw [Comparison.DecidedByInt,← Comparison.combine_showsBelow (by decide)]
    have hless : (LiteralPair.bigint a b).left.isLess (LiteralPair.bigint a b).right =
        decide (a.toInt < b.toInt) := rfl
    have hequal : (LiteralPair.bigint a b).left.isEqual (LiteralPair.bigint a b).right =
        decide (a.toInt = b.toInt) := rfl
    rw [hless,hequal]
    simp only [LiteralPair.left,LiteralPair.right,intVal_ofBigint]
  | boolean a b unset unset' =>
    rw [Comparison.DecidedByInt,← Comparison.combine_showsBelow (by decide),bmod_intVal_ofBool,
      bmod_intVal_ofBool]
    have hless : (Value.ofBool a unset).isLess (.ofBool b unset') =
        decide ((a.toNat : ℤ) < b.toNat) := by
      have hkind : (Value.ofBool a unset).isLess (.ofBool b unset') =
          (!(Value.ofBool a unset).boolVal && (Value.ofBool b unset').boolVal) := rfl
      rw [hkind,boolVal_ofBool,boolVal_ofBool]
      cases a <;> cases b <;> rfl
    have hequal : (Value.ofBool a unset).isEqual (.ofBool b unset') =
        decide ((a.toNat : ℤ) = b.toNat) := by
      have hkind : (Value.ofBool a unset).isEqual (.ofBool b unset') =
          ((Value.ofBool a unset).boolVal == (Value.ofBool b unset').boolVal) := rfl
      rw [hkind,boolVal_ofBool,boolVal_ofBool]
      cases a <;> cases b <;> rfl
    simp only [LiteralPair.left,LiteralPair.right,hless,hequal]
    exact eq_comm
  | varchar a b unset unset' => exact Comparison.combine_memoryFollows op _ _ _ _

theorem showsBelow_boolean_iff (op : Comparison) (a b : Bool) :
    (∀ unset unset', op.ShowsBelow (2^8) (Value.ofBool a unset).intVal (Value.ofBool b unset').intVal) ↔
      (op = .EQ ∨ op = .NE) ∧ a ≠ b := by
  constructor
  · -- the memory of one side exceeds that of the other by one unit above the truth value
    intro h
    simp only [← Comparison.combine_showsBelow (m := 2^8) (by decide)] at h
    have hfirst := h 256 0
    have hsecond := h 0 256
    revert hfirst hsecond
    cases op <;> cases a <;> cases b <;> decide
  · rintro ⟨hop,hne⟩ unset unset'
    have hlow : ¬((Value.ofBool a unset).intVal.bmod (2^8) = (Value.ofBool b unset').intVal.bmod (2^8)) := by
      rw [bmod_intVal_ofBool,bmod_intVal_ofBool]
      revert hne
      cases a <;> cases b <;> decide
    obtain rfl | rfl := hop
    · exact fun h => absurd h hlow
    · exact fun h => absurd h hlow

theorem not_memoryFollows (op : Comparison) (s t : List UInt8) :
    ¬∀ unset unset' : UInt64,
      op.MemoryFollows unset.toUInt32.toInt32.toInt unset'.toUInt32.toInt32.toInt s t := by
  intro h
  have hsame := h 0 0
  have hup := h 0 1
  have hdown := h 1 0
  simp only [Comparison.MemoryFollows] at hsame hup hdown
  cases op <;> simp_all

/-- Integers compare right, and 64-bit integers where their order shows in the low words. The answer
on truth values and strings hangs on what the memory held; right whatever this was are only the
answers that two different truth values are not equal. -/
theorem comparesAsValues_iff (row : List Value) (op : Comparison) (p : LiteralPair) :
    (ComparesAsValues row op p ↔ op.DecidedByInt p) ∧
    ((∀ unset unset', ComparesAsValues row op (p.inMemory unset unset')) ↔ op.DecidedByType p) := by
  refine ⟨comparesAsValues_iff_decidedByInt row op p,?_⟩
  simp only [comparesAsValues_iff_decidedByInt]
  cases p with
  | integer a b => exact iff_of_true (fun _ _ => trivial) trivial
  | bigint a b => exact ⟨fun h => h 0 0,fun h _ _ => h⟩
  | boolean a b => exact showsBelow_boolean_iff op a b
  | varchar a b => exact iff_of_false (not_memoryFollows op _ _) not_false

/-- 2^32 and 0 have the same low word; TRUE over memory that held 256 is 257. -/
theorem bigint_compared_by_low_word :
    evaluateExpression []
        (.binary .EQ (.literal (.ofBigint 4294967296)) (some (.literal (.ofBigint 0)))) =
      some (.ofBool true) ∧
    (Value.ofBigint 4294967296).isEqual (.ofBigint 0) = false ∧
    ¬ComparesAsValues [] .EQ (.bigint 4294967296 0) ∧
    ¬ComparesAsValues [] .EQ (.boolean true true 256 0) := by
  refine ⟨by decide,by decide,?_,?_⟩
  · rw [ComparesAsValues]
    decide
  · rw [ComparesAsValues]
    decide

end QueryExecutor

end OrangeSQL
