import OrangeSQL.ValueComparisons
import OrangeSQL.Library.OrderedSets

/-! The operators of the values as an order, and the sets of values that are kept by it. Values with no
order between them are not always equal: blobs are not ordered, and of some types not even a value and
itself are equal. -/
namespace OrangeSQL

open OrderedSets

/-- A value whose type is the one of its number, and no floating-point one. -/
def Value.Exact (v : Value) : Prop :=
  DataType.ofCode v.type.code = v.type ∧ v.type ≠ .float ∧ v.type ≠ .double

instance (v : Value) : Decidable v.Exact := inferInstanceAs (Decidable (_ ∧ _ ∧ _))

abbrev ExactValue := {v : Value // v.Exact}

namespace Value

/-- What `operator<` compares. -/
def lessKey (v : Value) : ValueKey :=
  match v.type with
  | .integer => valueKey v.type.code v.intVal []
  | .bigint => valueKey v.type.code v.bigintVal []
  | .smallint => valueKey v.type.code v.smallintVal []
  | .boolean => valueKey v.type.code v.boolVal.toInt []
  | .varchar | .char | .text => valueKey v.type.code 0 v.strVal
  | _ => valueKey v.type.code 0 []

end Value

/-- The types that both operators name. -/
def DataType.isOrdered : DataType → Bool
  | .integer | .bigint | .smallint | .boolean | .varchar | .char | .text | .nullType => true
  | _ => false

/-- The values are of different types or of one that is ordered, or they are equal blobs. -/
def Compared (a b : Value) : Prop :=
  a.type ≠ b.type ∨ a.type.isOrdered = true ∨ a.type = .blob ∧ a.blobVal = b.blobVal

instance (a b : Value) : Decidable (Compared a b) := inferInstanceAs (Decidable (_ ∨ _ ∨ _ ∧ _))

section Order

variable {a b : Value}

theorem lessKey_code (h : a.type.code < b.type.code) : a.lessKey < b.lessKey := by
  unfold Value.lessKey
  split <;> split <;> exact valueKey_lt.mpr (Or.inl h)

theorem code_ne (ha : a.Exact) (hb : b.Exact) (h : a.type ≠ b.type) : a.type.code ≠ b.type.code :=
  fun hcode => h (by rw [← ha.1,hcode,hb.1])

theorem booleans_less {p q : Bool} : (!p && q) = true ↔ p.toInt < q.toInt := by
  cases p <;> cases q <;> decide

theorem booleans_equal {p q : Bool} : (p == q) = true ↔ p.toInt = q.toInt := by
  cases p <;> cases q <;> decide

theorem isLess_iff (ha : a.Exact) (hb : b.Exact) : a.isLess b = true ↔ a.lessKey < b.lessKey := by
  by_cases htype : a.type = b.type
  · have hfloat := ha.2
    cases ht : a.type <;> rw [ht] at htype hfloat <;>
      simp only [Value.isLess,Value.lessKey,ht,← htype,valueKey_lt,booleans_less,decide_eq_true_eq,
        lt_self_iff_false,List.not_lt_nil,ne_eq,not_true_eq_false,if_false,true_and,false_and,
        false_or,and_false,or_false,reduceCtorEq] at hfloat ⊢
  · rw [Value.isLess,if_pos htype,decide_eq_true_eq]
    rcases (code_ne ha hb htype).lt_or_gt with hlt | hgt
    · exact iff_of_true hlt (lessKey_code hlt)
    · exact iff_of_false hgt.asymm (lessKey_code hgt).asymm

theorem isEqual_iff (ha : a.Exact) (hb : b.Exact) :
    a.isEqual b = true ↔ a.lessKey = b.lessKey ∧ Compared a b := by
  by_cases htype : a.type = b.type
  · have hfloat := ha.2
    cases ht : a.type <;> rw [ht] at htype hfloat <;>
      simp only [Value.isEqual,Value.lessKey,Compared,DataType.isOrdered,ht,← htype,valueKey_inj,
        booleans_equal,decide_eq_true_eq,ne_eq,not_true_eq_false,if_false,true_and,and_true,
        false_and,false_or,or_false,and_false,reduceCtorEq] at hfloat ⊢
  · rw [Value.isEqual,if_pos htype]
    refine iff_of_false (by decide) fun hboth => ?_
    rcases (code_ne ha hb htype).lt_or_gt with hlt | hgt
    · exact (lessKey_code hlt).ne hboth.1
    · exact (lessKey_code hgt).ne' hboth.1

/-- Values with different keys are of different types, or of one that is ordered. -/
theorem compared_of_lessKey_ne (h : a.lessKey ≠ b.lessKey) : Compared a b := by
  by_contra hnot
  obtain ⟨htype,hrest⟩ := not_or.mp hnot
  have htype := not_not.mp htype
  obtain ⟨hordered,_⟩ := not_or.mp hrest
  apply h
  cases ht : a.type <;> rw [ht] at htype hordered <;>
    simp only [DataType.isOrdered,Value.lessKey,ht,← htype,reduceCtorEq,not_true_eq_false] at hordered ⊢

theorem type_eq_of_lessKey (ha : a.Exact) (hb : b.Exact) (h : a.lessKey = b.lessKey) :
    a.type = b.type := by
  by_contra htype
  rcases (code_ne ha hb htype).lt_or_gt with hlt | hgt
  · exact (lessKey_code hlt).ne h
  · exact (lessKey_code hgt).ne' h

theorem Compared.symm (h : Compared a b) : Compared b a := by
  by_cases htype : a.type = b.type
  · rw [Compared,htype] at h
    rw [Compared]
    rcases h with hne | hordered | ⟨hblob,heq⟩
    · exact absurd rfl hne
    · exact Or.inr (Or.inl hordered)
    · exact Or.inr (Or.inr ⟨hblob,heq.symm⟩)
  · exact Or.inl (Ne.symm htype)

theorem Compared.trans {c : Value} (hab : Compared a b) (hbc : Compared b c)
    (htype : a.type = b.type) (htype' : b.type = c.type) : Compared a c := by
  rcases hab with hne | hordered | ⟨hblob,heq⟩
  · exact absurd htype hne
  · exact Or.inr (Or.inl hordered)
  · rcases hbc with hne | hordered | ⟨_,heq'⟩
    · exact absurd htype' hne
    · exact Or.inr (Or.inl (htype ▸ hordered))
    · exact Or.inr (Or.inr ⟨hblob,heq.trans heq'⟩)

end Order

section Sets

/-- `std::set<Value>`, filled with values. -/
def distinctSet (values : List Value) : List Value := insertAll Value.isLess [] values

def ExactlyOne (p q r : Bool) : Prop := p.toNat+q.toNat+r.toNat = 1

/-- One of three relations holds between two values, and greater is less the other way. -/
def InOrder (a b : Value) : Prop :=
  ExactlyOne (a.isLess b) (a.isEqual b) (a.isGreater b) ∧ (a.isGreater b = true ↔ b.isLess a = true)

variable (a b : ExactValue) (l : List ExactValue)

theorem exactlyOne : ExactlyOne (a.1.isLess b.1) (a.1.isEqual b.1) (a.1.isGreater b.1) := by
  have hboth : ¬(a.1.isLess b.1 = true ∧ a.1.isEqual b.1 = true) := by
    rw [isLess_iff a.2 b.2,isEqual_iff a.2 b.2]
    exact fun h => h.1.ne h.2.1
  rw [Value.isGreater,Value.isLessEqual]
  cases hless : a.1.isLess b.1 <;> cases hequal : a.1.isEqual b.1
  · rfl
  · rfl
  · rfl
  · exact absurd ⟨hless,hequal⟩ hboth

theorem inOrder_iff : InOrder a.1 b.1 ↔ Compared a.1 b.1 := by
  have hgreater : a.1.isGreater b.1 = true ↔
      ¬a.1.lessKey < b.1.lessKey ∧ ¬(a.1.lessKey = b.1.lessKey ∧ Compared a.1 b.1) := by
    rw [Value.isGreater,Value.isLessEqual,Bool.not_eq_true',Bool.or_eq_false_iff,← isLess_iff a.2 b.2,
      ← isEqual_iff a.2 b.2,Bool.not_eq_true,Bool.not_eq_true]
  rw [InOrder,hgreater,isLess_iff b.2 a.2,and_iff_right (exactlyOne a b)]
  constructor
  · intro h
    by_contra hnot
    have hkey : a.1.lessKey = b.1.lessKey := not_not.mp fun hne => hnot (compared_of_lessKey_ne hne)
    exact (h.mp ⟨hkey.not_lt,fun hboth => hnot hboth.2⟩).ne' hkey
  · intro h
    rw [and_iff_left h,not_lt,lt_iff_le_and_ne,ne_comm]

theorem refines : Refines (fun a b : ExactValue => a.1.isEqual b.1) fun a => a.1.lessKey where
  key_eq {a b} h := ((isEqual_iff a.2 b.2).mp h).1
  symm {a b} h := by
    obtain ⟨hkey,hcompared⟩ := (isEqual_iff a.2 b.2).mp h
    exact (isEqual_iff b.2 a.2).mpr ⟨hkey.symm,hcompared.symm⟩
  trans {a b c} hab hbc := by
    obtain ⟨hkey,hcompared⟩ := (isEqual_iff a.2 b.2).mp hab
    obtain ⟨hkey',hcompared'⟩ := (isEqual_iff b.2 c.2).mp hbc
    refine (isEqual_iff a.2 c.2).mpr ⟨hkey.trans hkey',hcompared.trans hcompared' ?_ ?_⟩
    · exact type_eq_of_lessKey a.2 b.2 hkey
    · exact type_eq_of_lessKey b.2 c.2 hkey'

/-- The set has one element for each distinct value just when all pairs of the values are compared. -/
theorem length_distinctSet_iff :
    (distinctSet (l.map Subtype.val)).length = countNew Value.isEqual [] (l.map Subtype.val) ↔
      l.Pairwise fun a b => Compared a.1 b.1 := by
  have hset := insertAll_map Subtype.val Value.isLess ([] : List ExactValue) l
  have hcount := countNew_map Subtype.val Value.isEqual ([] : List ExactValue) l
  rw [List.map_nil] at hset hcount
  have hiff := @length_insertAll_eq_countNew_iff ExactValue ValueKey _ (fun a b => a.1.isLess b.1)
    (fun a b => a.1.isEqual b.1) (fun a => a.1.lessKey) l (fun a b => isLess_iff a.2 b.2) refines
  rw [distinctSet,hset,hcount,List.length_map,hiff,Told]
  have hpair : ∀ a b : ExactValue, (a.1.lessKey = b.1.lessKey → a.1.isEqual b.1 = true) ↔
      Compared a.1 b.1 := fun a b => by
    rw [isEqual_iff a.2 b.2]
    by_cases hkey : a.1.lessKey = b.1.lessKey
    · simp [hkey]
    · simp [hkey,compared_of_lessKey_ne hkey]
  simp only [hpair]

/-- The values are in order, and a set of them counts the distinct ones, as far as they are of
different types or of an ordered one, or equal blobs. -/
theorem values_inOrder_iff (a b c : ExactValue) (l : List ExactValue) :
    (InOrder a.1 b.1 ↔ Compared a.1 b.1) ∧
    (a.1.isLess b.1 = true → b.1.isLess c.1 = true → a.1.isLess c.1 = true) ∧
    ((distinctSet (l.map Subtype.val)).length = countNew Value.isEqual [] (l.map Subtype.val) ↔
      l.Pairwise fun a b => Compared a.1 b.1) := by
  refine ⟨inOrder_iff a b,fun hab hbc => ?_,length_distinctSet_iff l⟩
  rw [isLess_iff] at hab hbc ⊢
  exacts [hab.trans hbc,a.2,c.2,b.2,c.2,a.2,b.2]

/-- An integer, a greater one and a string. -/
theorem values_inOrder_mixed :
    InOrder (.ofInt 2) (.ofInt 5) ∧
    (Value.ofInt 2).isLess (.ofText [ 'a']) = true ∧
    (distinctSet [.ofInt 5,.ofText [ 'a'],.ofInt 2,.ofInt 5]).length = 3 := by
  have h := values_inOrder_iff ⟨.ofInt 2,by decide⟩ ⟨.ofInt 5,by decide⟩ ⟨.ofText [ 'a'],by decide⟩
    [⟨.ofInt 5,by decide⟩,⟨.ofText [ 'a'],by decide⟩,⟨.ofInt 2,by decide⟩,⟨.ofInt 5,by decide⟩]
  exact ⟨h.1.mpr (by decide),h.2.1 (by decide) (by decide),h.2.2.mpr (by decide)⟩

/-- The constructor from bytes. -/
def Value.ofBlob (bytes : List UInt8) : Value := ⟨.blob,0,[],bytes⟩

/-- Two blobs that are greater than each other, and a set that has only one of them. -/
theorem blobs_not_inOrder :
    (Value.ofBlob [1]).isGreater (.ofBlob [2]) = true ∧
    (Value.ofBlob [2]).isGreater (.ofBlob [1]) = true ∧
    (Value.ofBlob [2]).isLess (.ofBlob [1]) = false ∧
    (distinctSet [.ofBlob [1],.ofBlob [2]]).length = 1 ∧
    countNew Value.isEqual [] [.ofBlob [1],.ofBlob [2]] = 2 := by
  decide

end Sets

end OrangeSQL
