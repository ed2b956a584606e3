import OrangeSQL.ExpressionPrinting
import OrangeSQL.ValueOrder

/-! What the evaluator makes of expressions over literals. An operator that it does not know gives
NULL, which the operators around it read as zero; the four operations on integers are those of a
signed 32-bit machine, without a result where they overflow. -/
namespace OrangeSQL

open Parsing SQLParser

/-- The values of an `int32_t`. -/
def FitsInt (z : ℤ) : Prop := -2^31 ≤ z ∧ z < 2^31

inductive ArithOp
  | PLUS | MINUS | MULTIPLY | DIVIDE
  deriving DecidableEq, Repr

namespace ArithOp

def operator : ArithOp → Operator
  | PLUS => .PLUS
  | MINUS => .MINUS
  | MULTIPLY => .MULTIPLY
  | DIVIDE => .DIVIDE

/-- The exact result, the quotient truncated toward zero; a quotient by zero is zero. -/
def exact : ArithOp → ℤ → ℤ → ℤ
  | PLUS, a, b => a+b
  | MINUS, a, b => a-b
  | MULTIPLY, a, b => a*b
  | DIVIDE, a, b => a.tdiv b

def ofOperator : Operator → Option ArithOp
  | .PLUS => some PLUS
  | .MINUS => some MINUS
  | .MULTIPLY => some MULTIPLY
  | .DIVIDE => some DIVIDE
  | _ => none

theorem operator_of_ofOperator {op : Operator} {a : ArithOp} (h : ofOperator op = some a) :
    op = a.operator := by
  cases op <;> simp only [ofOperator,Option.some.injEq,reduceCtorEq] at h <;> rw [← h] <;> rfl

@[simp] theorem ofOperator_operator (op : ArithOp) : ofOperator op.operator = some op := by
  cases op <;> rfl

end ArithOp

namespace QueryExecutor

section Arithmetic

theorem ofSum_of_fits {z : ℤ} (h : FitsInt z) :
    Value.ofSum z = some (.ofInt (Int32.ofInt z)) := if_pos h

theorem ofSum_of_not_fits {z : ℤ} (h : ¬FitsInt z) : Value.ofSum z = none := if_neg h

theorem toInt_ofInt_of_fits {z : ℤ} (h : FitsInt z) : (Int32.ofInt z).toInt = z :=
  Int32.toInt_ofInt_of_le h.1 h.2

/-- A quotient by zero is NULL; every other result is computed as a signed `int`. -/
theorem evaluateOperator_arith (op : ArithOp) (a b : Value) :
    evaluateOperator op.operator a b =
      if op = .DIVIDE ∧ b.intVal = 0 then some .null else Value.ofSum (op.exact a.intVal b.intVal) := by
  cases op with
  | PLUS | MINUS | MULTIPLY => rfl
  | DIVIDE =>
    simp only [ArithOp.operator,evaluateOperator,ArithOp.exact,true_and,ite_not]

theorem exact_zero_divisor {op : ArithOp} {a b : ℤ} (hop : op = .DIVIDE) (hb : b = 0) :
    op.exact a b = 0 := by
  rw [hop,hb]
  exact Int.tdiv_zero a

end Arithmetic

/-- The number that the operators around an expression read: exact where its operators are the four
above, zero for every other one. -/
def reading : ASTNode → ℤ
  | .literal v => v.intVal
  | .binary op x (some y) =>
    match ArithOp.ofOperator op with
    | some a => a.exact (reading x) (reading y)
    | none => 0
  | _ => 0

/-- No operation on integers within the expression overflows. What stands under a unary operator is
not evaluated. -/
def Fits : ASTNode → Prop
  | .binary op x (some y) =>
    Fits x ∧ Fits y ∧ ∀ a, ArithOp.ofOperator op = some a → FitsInt (a.exact (reading x) (reading y))
  | _ => True

/-- The operators of the evaluator's table. -/
def isEvaluated : Operator → Bool
  | .EQ | .NE | .LT | .LE | .GT | .GE | .AND | .OR | .PLUS | .MINUS | .MULTIPLY | .DIVIDE => true
  | _ => false

/-- The expression is a literal, or its outermost operator is in the table and is no division by
what is read as zero. -/
def Covered : ASTNode → Prop
  | .literal _ => True
  | .binary op _ (some y) => isEvaluated op = true ∧ (op = .DIVIDE → reading y ≠ 0)
  | _ => False

end QueryExecutor

inductive ExprKind
  | integer | boolean | text
  deriving DecidableEq, Repr

/-- The binary operators of the parser with the kind of their operands and of their results. -/
inductive Suits : Operator → ExprKind → ExprKind → Prop
  | arithmetic {op : Operator} (h : op ∈ [.PLUS,.MINUS,.MULTIPLY,.DIVIDE,.MODULO]) :
    Suits op .integer .integer
  | comparison {op : Operator} (h : op ∈ [.EQ,.NE,.LT,.LE,.GT,.GE]) (k : ExprKind) :
    Suits op k .boolean
  | logical {op : Operator} (h : op ∈ [.AND,.OR]) : Suits op .boolean .boolean
  | pattern {op : Operator} (h : op ∈ [.LIKE,.NOT_LIKE]) : Suits op .text .boolean
  | concat : Suits .CONCAT .text .text

/-- The expressions over literals of the three kinds whose operands suit their operators. -/
inductive Suited : ASTNode → ExprKind → Prop
  | integer (n : Int32) : Suited (.literal (.ofInt n)) .integer
  | boolean (v : Bool) : Suited (.literal (.ofBool v)) .boolean
  | string (text : Text) : Suited (.literal (.ofText text)) .text
  | sign {op : Operator} {x : ASTNode} (hop : op ∈ [.PLUS,.MINUS]) (h : Suited x .integer) :
    Suited (.unary op x) .integer
  | not {x : ASTNode} (h : Suited x .boolean) : Suited (.unary .NOT x) .boolean
  | isNull {op : Operator} {x : ASTNode} {k : ExprKind} (hop : op ∈ [.IS_NULL,.IS_NOT_NULL])
    (h : Suited x k) : Suited (.unary op x) .boolean
  | binary {op : Operator} {x y : ASTNode} {k k' : ExprKind} (hop : Suits op k k')
    (hx : Suited x k) (hy : Suited y k) : Suited (.binary op x (some y)) k'

namespace QueryExecutor

/-- The value is one of the kind, and for integers the one that is read. -/
def OfKind (x : ASTNode) (v : Value) : ExprKind → Prop
  | .integer => v = .ofInt (Int32.ofInt (reading x)) ∧ FitsInt (reading x)
  | .boolean => ∃ b, v = .ofBool b
  | .text => ∃ t, v = .ofText t

/-- What becomes of an expression without overflow. -/
structure Gives (row : List Value) (x : ASTNode) (k : ExprKind) (v : Value) : Prop where
  eval : evaluateExpression row x = some v
  covered : Covered x → OfKind x v k
  uncovered : ¬Covered x → v = .null ∧ reading x = 0

section Gives

variable {row : List Value} {x y : ASTNode} {k k' : ExprKind} {v a b : Value} {op : Operator}

theorem Gives.intVal (h : Gives row x .integer v) : v.intVal = reading x := by
  by_cases hc : Covered x
  · obtain ⟨hv,hfits⟩ := h.covered hc
    rw [hv,intVal_ofInt,toInt_ofInt_of_fits hfits]
  · obtain ⟨hv,hzero⟩ := h.uncovered hc
    rw [hv,hzero,intVal_null]

theorem Gives.type_ne (h : Gives row x k v) : v.type ≠ .nullType ↔ Covered x := by
  by_cases hc : Covered x
  · refine iff_of_true ?_ hc
    have hkind := h.covered hc
    cases k with
    | integer =>
      rw [hkind.1]
      exact nofun
    | boolean =>
      obtain ⟨b,rfl⟩ := hkind
      exact nofun
    | text =>
      obtain ⟨t,rfl⟩ := hkind
      exact nofun
  · refine iff_of_false ?_ hc
    rw [(h.uncovered hc).1]
    exact fun hne => hne rfl

theorem evaluateExpression_binary (op : Operator) (hx : evaluateExpression row x = some a)
    (hy : evaluateExpression row y = some b) :
    evaluateExpression row (.binary op x (some y)) = evaluateOperator op a b := by
  simp [evaluateExpression,hx,hy]

/-- The operators that the evaluator does not know. -/
theorem evaluateOperator_unknown (h : isEvaluated op = false) (a b : Value) :
    evaluateOperator op a b = some .null := by
  cases op <;> first | rfl | cases h

theorem gives_arith {op : ArithOp} (hx : Gives row x .integer a) (hy : Gives row y .integer b)
    (hfits : FitsInt (op.exact (reading x) (reading y))) :
    ∃ v, Gives row (.binary op.operator x (some y)) .integer v := by
  have heval := evaluateExpression_binary op.operator hx.eval hy.eval
  have hreading : reading (.binary op.operator x (some y)) = op.exact (reading x) (reading y) := by
    simp [reading]
  rw [evaluateOperator_arith,hx.intVal,hy.intVal] at heval
  by_cases hzero : op = .DIVIDE ∧ reading y = 0
  · rw [if_pos hzero] at heval
    refine ⟨.null,heval,fun hc => ?_,fun _ => ⟨rfl,?_⟩⟩
    · obtain ⟨rfl,hy⟩ := hzero
      exact absurd hy (hc.2 rfl)
    · rw [hreading,exact_zero_divisor hzero.1 hzero.2]
  · rw [if_neg hzero,ofSum_of_fits hfits] at heval
    refine ⟨_,heval,fun _ => ?_,fun hc => absurd ?_ hc⟩
    · exact ⟨by rw [hreading],by rwa [hreading]⟩
    · cases op <;> simp_all [Covered,isEvaluated,ArithOp.operator]

theorem gives_binary (hop : Suits op k k') (hx : Gives row x k a) (hy : Gives row y k b)
    (hfits : ∀ a, ArithOp.ofOperator op = some a → FitsInt (a.exact (reading x) (reading y))) :
    ∃ v, Gives row (.binary op x (some y)) k' v := by
  have heval := evaluateExpression_binary op hx.eval hy.eval
  have hunknown : isEvaluated op = false → ∃ v, Gives row (.binary op x (some y)) k' v := by
    intro h
    rw [evaluateOperator_unknown h] at heval
    refine ⟨.null,heval,fun hc => ?_,fun _ => ⟨rfl,?_⟩⟩
    · rw [hc.1] at h
      cases h
    · cases op <;> first | rfl | cases h
  have htruth : isEvaluated op = true → op ≠ .DIVIDE →
      (∃ v, evaluateOperator op a b = some (.ofBool v)) →
      ∃ v, Gives row (.binary op x (some y)) .boolean v := by
    rintro h hdivide ⟨v,hv⟩
    exact ⟨_,heval.trans hv,fun _ => ⟨v,rfl⟩,fun hc => absurd ⟨h,fun hd => absurd hd hdivide⟩ hc⟩
  cases hop with
  | arithmetic h =>
    cases harith : ArithOp.ofOperator op with
    | some op' =>
      rw [ArithOp.operator_of_ofOperator harith]
      exact gives_arith hx hy (hfits op' harith)
    | none =>
      apply hunknown
      simp only [List.mem_cons,List.not_mem_nil,or_false] at h
      rcases h with rfl | rfl | rfl | rfl | rfl <;> first | rfl | cases harith
  | comparison h k =>
    simp only [List.mem_cons,List.not_mem_nil,or_false] at h
    rcases h with rfl | rfl | rfl | rfl | rfl | rfl <;> exact htruth rfl (by decide) ⟨_,rfl⟩
  | logical h =>
    simp only [List.mem_cons,List.not_mem_nil,or_false] at h
    rcases h with rfl | rfl <;> exact htruth rfl (by decide) ⟨_,rfl⟩
  | pattern h =>
    simp only [List.mem_cons,List.not_mem_nil,or_false] at h
    rcases h with rfl | rfl <;> exact hunknown rfl
  | concat => exact hunknown rfl

/-- An operation on integers that overflows has no result. -/
theorem evaluateExpression_overflow (hop : Suits op k k') (hx : Gives row x k a)
    (hy : Gives row y k b)
    (hfits : ¬∀ a, ArithOp.ofOperator op = some a → FitsInt (a.exact (reading x) (reading y))) :
    evaluateExpression row (.binary op x (some y)) = none := by
  push Not at hfits
  obtain ⟨op',harith,hover⟩ := hfits
  have heval := evaluateExpression_binary op hx.eval hy.eval
  have hk : k = .integer := by
    cases hop with
    | arithmetic _ => rfl
    | comparison h _ | logical h | pattern h =>
      cases op <;> first | exact absurd h (by decide) | cases harith
    | concat => cases harith
  subst hk
  obtain rfl := ArithOp.operator_of_ofOperator harith
  have hzero : ¬(op' = .DIVIDE ∧ reading y = 0) := by
    rintro ⟨hop',hy⟩
    rw [exact_zero_divisor hop' hy] at hover
    exact hover (by norm_num [FitsInt])
  rw [heval,evaluateOperator_arith,hx.intVal,hy.intVal,if_neg hzero,ofSum_of_not_fits hover]

theorem gives_unary (row : List Value) (op : Operator) (x : ASTNode) (k : ExprKind) :
    Gives row (.unary op x) k .null := ⟨rfl,False.elim,fun _ => ⟨rfl,rfl⟩⟩

theorem evaluateExpression_binary_none (op : Operator)
    (hdefined : Fits x → ∃ v, Gives row x k v) (hundefined : ¬Fits x → evaluateExpression row x = none)
    (hundefined' : ¬Fits y → evaluateExpression row y = none) (hfits : ¬(Fits x ∧ Fits y)) :
    evaluateExpression row (.binary op x (some y)) = none := by
  by_cases hfx : Fits x
  · obtain ⟨a,ha⟩ := hdefined hfx
    have hfy : ¬Fits y := fun hfy => hfits ⟨hfx,hfy⟩
    simp [evaluateExpression,ha.eval,hundefined' hfy]
  · simp [evaluateExpression,hundefined hfx]

theorem evaluate_cases (row : List Value) (h : Suited x k) :
    (Fits x → ∃ v, Gives row x k v) ∧ (¬Fits x → evaluateExpression row x = none) := by
  induction h with
  | integer n =>
    have hread : reading (.literal (.ofInt n)) = n.toInt := intVal_ofInt n
    refine ⟨fun _ => ⟨.ofInt n,rfl,fun _ => ?_,fun hc => absurd trivial hc⟩,fun hf => absurd trivial hf⟩
    rw [OfKind,hread,Int32.ofInt_toInt]
    exact ⟨rfl,n.le_toInt,n.toInt_lt⟩
  | boolean v =>
    exact ⟨fun _ => ⟨_,rfl,fun _ => ⟨v,rfl⟩,fun hc => absurd trivial hc⟩,fun hf => absurd trivial hf⟩
  | string text =>
    exact ⟨fun _ => ⟨_,rfl,fun _ => ⟨text,rfl⟩,fun hc => absurd trivial hc⟩,fun hf => absurd trivial hf⟩
  | sign _ _ _ | not _ _ | isNull _ _ _ =>
    exact ⟨fun _ => ⟨_,gives_unary row _ _ _⟩,fun hf => absurd trivial hf⟩
  | @binary op x y k k' hop hx hy ihx ihy =>
    constructor
    · rintro ⟨hfx,hfy,hfits⟩
      obtain ⟨a,ha⟩ := ihx.1 hfx
      obtain ⟨b,hb⟩ := ihy.1 hfy
      exact gives_binary hop ha hb hfits
    · intro hfits
      by_cases hboth : Fits x ∧ Fits y
      · obtain ⟨hfx,hfy⟩ := hboth
        obtain ⟨a,ha⟩ := ihx.1 hfx
        obtain ⟨b,hb⟩ := ihy.1 hfy
        exact evaluateExpression_overflow hop ha hb fun h => hfits ⟨hfx,hfy,h⟩
      · exact evaluateExpression_binary_none op ihx.1 ihx.2 ihy.2 hboth

/-- An expression evaluates to a value other than NULL just when nothing in it overflows and its
outermost operator is covered. -/
theorem evaluates_iff (row : List Value) (h : Suited x k) :
    (∃ v, evaluateExpression row x = some v ∧ v.type ≠ .nullType) ↔ Fits x ∧ Covered x := by
  obtain ⟨hdefined,hundefined⟩ := evaluate_cases row h
  by_cases hfits : Fits x
  · obtain ⟨v,hv⟩ := hdefined hfits
    rw [hv.eval]
    constructor
    · rintro ⟨w,hw,hne⟩
      rw [← Option.some.inj hw] at hne
      exact ⟨hfits,hv.type_ne.mp hne⟩
    · rintro ⟨_,hc⟩
      exact ⟨v,rfl,hv.type_ne.mpr hc⟩
  · rw [hundefined hfits]
    exact iff_of_false (fun ⟨_,hnone,_⟩ => nomatch hnone) fun hboth => hfits hboth.1

end Gives

/-- A negative literal is its digits under a minus, which the evaluator does not know. -/
theorem negative_literal_null :
    Parses (parseExpression (calls (fun _ => none) 5)) [⟨.MINUS,['-']⟩,⟨.INTEGER,['5']⟩]
      (.unary .MINUS (.literal (.ofInt 5))) [] ∧
    Suited (.unary .MINUS (.literal (.ofInt 5))) .integer ∧
    evaluateExpression [] (.unary .MINUS (.literal (.ofInt 5))) = some .null :=
  ⟨rfl,.sign (by decide) (.integer 5),rfl⟩

/-- `7/2 > 3`. -/
theorem evaluates_quotient_comparison :
    ∃ v, evaluateExpression [] (.binary .GT (.binary .DIVIDE (.literal (.ofInt 7))
      (some (.literal (.ofInt 2)))) (some (.literal (.ofInt 3)))) = some v ∧ v.type ≠ .nullType := by
  have hsuited : Suited (.binary .GT (.binary .DIVIDE (.literal (.ofInt 7))
      (some (.literal (.ofInt 2)))) (some (.literal (.ofInt 3)))) .boolean :=
    .binary (.comparison (by decide) .integer)
      (.binary (.arithmetic (by decide)) (.integer 7) (.integer 2)) (.integer 3)
  refine (evaluates_iff [] hsuited).mpr ⟨⟨⟨trivial,trivial,?_⟩,trivial,nofun⟩,rfl,nofun⟩
  rintro a ha
  obtain rfl := Option.some.inj ha
  exact ⟨by decide,by decide⟩

end QueryExecutor

/-- The expressions of the four operations over INTEGER literals. -/
inductive IntTree
  | literal (n : Int32)
  | node (op : ArithOp) (left right : IntTree)

namespace IntTree

def toNode : IntTree → ASTNode
  | literal n => .literal (.ofInt n)
  | node op left right => .binary op.operator left.toNode (some right.toNode)

/-- The exact result, where a quotient by zero counts as zero. -/
def exact : IntTree → ℤ
  | literal n => n.toInt
  | node op left right => op.exact left.exact right.exact

def AllFit : IntTree → Prop
  | literal _ => True
  | node op left right => left.AllFit ∧ right.AllFit ∧ FitsInt (op.exact left.exact right.exact)

def NoZeroDivisor : IntTree → Prop
  | literal _ => True
  | node op left right =>
    left.NoZeroDivisor ∧ right.NoZeroDivisor ∧ (op = .DIVIDE → right.exact ≠ 0)

theorem suited_toNode (t : IntTree) : Suited t.toNode .integer := by
  induction t with
  | literal n => exact .integer n
  | node op left right ihl ihr =>
    exact .binary (.arithmetic (by cases op <;> decide)) ihl ihr

end IntTree

namespace QueryExecutor

theorem reading_toNode (t : IntTree) : reading t.toNode = t.exact := by
  induction t with
  | literal n => exact intVal_ofInt n
  | node op left right ihl ihr => simp [IntTree.toNode,reading,IntTree.exact,ihl,ihr]

theorem fits_toNode (t : IntTree) : Fits t.toNode ↔ t.AllFit := by
  induction t with
  | literal n => exact Iff.rfl
  | node op left right ihl ihr =>
    simp only [IntTree.toNode,Fits,IntTree.AllFit,ihl,ihr,reading_toNode,ArithOp.ofOperator_operator,
      Option.some.injEq,forall_eq']

theorem covered_toNode {t : IntTree} (h : t.NoZeroDivisor) : Covered t.toNode := by
  cases t with
  | literal n => trivial
  | node op left right =>
    refine ⟨by cases op <;> rfl,fun hop => ?_⟩
    rw [reading_toNode]
    exact h.2.2 (by cases op <;> first | rfl | cases hop)

/-- No operation overflows, none divides by zero, and if all exact results fit and no divisor is zero
the value is the exact one. -/
def ExactOrNull (row : List Value) (t : IntTree) : Prop :=
  (∃ v, evaluateExpression row t.toNode = some v) ∧
    (t.AllFit → t.NoZeroDivisor →
      evaluateExpression row t.toNode = some (.ofInt (Int32.ofInt t.exact)))

/-- The evaluator checks for a divisor of zero, and for nothing else. -/
theorem exactOrNull_iff (row : List Value) (t : IntTree) : ExactOrNull row t ↔ t.AllFit := by
  obtain ⟨hdefined,hundefined⟩ := evaluate_cases row t.suited_toNode
  rw [fits_toNode] at hdefined hundefined
  constructor
  · rintro ⟨⟨v,hv⟩,_⟩
    by_contra hfits
    rw [hundefined hfits] at hv
    cases hv
  · intro hfits
    obtain ⟨v,hv⟩ := hdefined hfits
    refine ⟨⟨v,hv.eval⟩,fun _ hzero => ?_⟩
    have hkind := hv.covered (covered_toNode hzero)
    rw [hv.eval,hkind.1,reading_toNode]

theorem maximum_plus_one :
    ¬ExactOrNull [] (.node .PLUS (.literal 2147483647) (.literal 1)) ∧
    ¬ExactOrNull [] (.node .DIVIDE (.literal (-2147483648)) (.literal (-1))) := by
  constructor
  · rintro ⟨⟨v,hv⟩,_⟩
    cases hv
  · rintro ⟨⟨v,hv⟩,_⟩
    cases hv

end QueryExecutor

end OrangeSQL
