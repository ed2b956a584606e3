import Mathlib.Data.Prod.Lex
import Mathlib.Data.List.Lex
import Mathlib.Order.Lex
import OrangeSQL.ValueOrder
import OrangeSQL.Library.Comparators

/-! The comparison of values that the statistics and the aggregates use, and the keys whose order it is:
the number of the type, then the scalar member, then the string. -/
namespace OrangeSQL

open Comparators

/-- The order of the keys is the one of the numbers of the types, and within a type the one of the
integers and then of the byte strings. -/
abbrev ValueKey := ℕ ×ₗ ℤ ×ₗ List ℕ

def valueKey (code : ℕ) (scalar : ℤ) (str : List UInt8) : ValueKey :=
  toLex (code,toLex (scalar,str.map UInt8.toNat))

theorem map_toNat_lt (s t : List UInt8) : s.map UInt8.toNat < t.map UInt8.toNat ↔ s < t := by
  induction s generalizing t with
  | nil => cases t <;> simp
  | cons a s ih =>
    cases t with
    | nil => simp
    | cons b t =>
      rw [List.map_cons,List.map_cons,List.cons_lt_cons_iff,List.cons_lt_cons_iff,ih,UInt8.toNat_inj,
        UInt8.lt_iff_toNat_lt]

section Keys

variable {m n : ℕ} {x y : ℤ} {s t : List UInt8}

theorem valueKey_lt : valueKey m x s < valueKey n y t ↔ m < n ∨ m = n ∧ (x < y ∨ x = y ∧ s < t) := by
  rw [valueKey,valueKey,Prod.Lex.toLex_lt_toLex,Prod.Lex.toLex_lt_toLex,map_toNat_lt]

theorem valueKey_inj : valueKey m x s = valueKey n y t ↔ m = n ∧ x = y ∧ s = t := by
  rw [valueKey,valueKey,toLex_inj,Prod.mk_inj,toLex_inj,Prod.mk_inj,
    (List.map_injective_iff.mpr fun a b => UInt8.toNat_inj.mp).eq_iff]

end Keys

/-- `std::string::compare`, of which only the sign is used. -/
def compareStrings (s t : List UInt8) : ℤ := if s < t then -1 else if t < s then 1 else 0

/-- An enumerator is its number here: two types are the same if their numbers are. -/
def compareValuesOrdered (a b : Value) : ℤ :=
  if a.type.code ≠ b.type.code then (a.type.code:ℤ)-b.type.code
  else
    match DataType.ofCode a.type.code with
    | .integer => if a.intVal < b.intVal then -1 else if a.intVal > b.intVal then 1 else 0
    | .bigint => if a.bigintVal < b.bigintVal then -1 else if a.bigintVal > b.bigintVal then 1 else 0
    | .boolean => if !a.boolVal && b.boolVal then -1 else if a.boolVal && !b.boolVal then 1 else 0
    | .varchar => compareStrings a.strVal b.strVal
    | _ => 0

/-- What `compareValuesOrdered` compares. -/
def orderKey (a : Value) : ValueKey :=
  match DataType.ofCode a.type.code with
  | .integer => valueKey a.type.code a.intVal []
  | .bigint => valueKey a.type.code a.bigintVal []
  | .boolean => valueKey a.type.code a.boolVal.toInt []
  | .varchar => valueKey a.type.code 0 a.strVal
  | _ => valueKey a.type.code 0 []

section Signs

variable {x y : ℤ} {p q : Bool} {s t : List UInt8} {a b : Value}

theorem compareIntegers_sign :
    ((if x < y then -1 else if x > y then 1 else 0 : ℤ) < 0 ↔ x < y) ∧
      (0 < (if x < y then -1 else if x > y then 1 else 0 : ℤ) ↔ y < x) := by
  split_ifs <;> omega

theorem compareBooleans_sign :
    ((if !p && q then -1 else if p && !q then 1 else 0 : ℤ) < 0 ↔ p.toInt < q.toInt) ∧
      (0 < (if !p && q then -1 else if p && !q then 1 else 0 : ℤ) ↔ q.toInt < p.toInt) := by
  cases p <;> cases q <;> decide

theorem compareStrings_sign : (compareStrings s t < 0 ↔ s < t) ∧ (0 < compareStrings s t ↔ t < s) := by
  rw [compareStrings]
  split_ifs with hlt hgt
  · exact ⟨iff_of_true (by decide) hlt,iff_of_false (by decide) (List.lt_asymm hlt)⟩
  · exact ⟨iff_of_false (by decide) hlt,iff_of_true (by decide) hgt⟩
  · exact ⟨iff_of_false (by decide) hlt,iff_of_false (by decide) hgt⟩

theorem orderKey_lt_of_code (h : a.type.code < b.type.code) : orderKey a < orderKey b := by
  unfold orderKey
  split <;> split <;> exact valueKey_lt.mpr (Or.inl h)

theorem compareValuesOrdered_sign (a b : Value) :
    (compareValuesOrdered a b < 0 ↔ orderKey a < orderKey b) ∧
      (0 < compareValuesOrdered a b ↔ orderKey b < orderKey a) := by
  rcases lt_trichotomy a.type.code b.type.code with hlt | heq | hgt
  · have hkey := orderKey_lt_of_code hlt
    rw [compareValuesOrdered,if_pos hlt.ne]
    exact ⟨iff_of_true (by omega) hkey,iff_of_false (by omega) hkey.asymm⟩
  · -- values of one type
    rw [compareValuesOrdered,if_neg (not_not.mpr heq),orderKey,orderKey,← heq]
    split <;>
      simp only [valueKey_lt,lt_self_iff_false,List.not_lt_nil,true_and,false_or,and_false,or_false]
    · exact compareIntegers_sign
    · exact compareIntegers_sign
    · exact compareBooleans_sign
    · exact compareStrings_sign
  · have hkey := orderKey_lt_of_code hgt
    rw [compareValuesOrdered,if_pos hgt.ne']
    exact ⟨iff_of_false (by omega) hkey.asymm,iff_of_true (by omega) hkey⟩

end Signs

theorem compareValuesOrdered_orders : OrdersBy compareValuesOrdered orderKey :=
  ⟨fun a b => (compareValuesOrdered_sign a b).1,fun a b => (compareValuesOrdered_sign a b).2⟩

end OrangeSQL
