import OrangeSQL.QueryPlans
import Mathlib.Algebra.Order.Field.Rat
import Mathlib.Tactic.Linarith
import Mathlib.Tactic.NormNum
import Mathlib.Tactic.Positivity

/-! What the optimizer estimates: the share of the rows that a condition leaves, and the rows and
the cost of a plan. The arithmetic of doubles is a parameter. -/
namespace OrangeSQL

open FiniteMap

structure TableStatistics where
  rowCount : ℕ
  pageCount : ℕ
  distinctValues : Finmap (fun _ : Text => ℕ)

/-- The default constructor. -/
def TableStatistics.new : TableStatistics := ⟨0,0,∅⟩

/-- What the estimates are made from. `order` is that of the entries of a schema,
`estimateDistinctValues` is declared by the source and not defined, and `toSize` is the conversion
of a double to a size. -/
structure CostModel (R : Type) where
  catalog : Catalog
  order : TableSchema → List Text
  statistics : Finmap (fun _ : Text => TableStatistics)
  estimateDistinctValues : TableStatistics → Text → ℕ
  toSize : R → ℕ
  log : R → R

structure Cost (R : Type) where
  cpuCost : R
  ioCost : R
  totalCost : R
  estimatedRows : ℕ

namespace CostModel

section Estimates

variable {R : Type} [NatCast R] [OfScientific R] [Add R] [Sub R] [Mul R] [Div R]
  (m : CostModel R)

/-- The statistics of a table, zeros where there are none. -/
def stats (table : Text) : TableStatistics := (m.statistics.lookup table).getD .new

/-- The estimate for an operator from those for its operands. -/
def operatorSelectivity (table : Text) (op : Operator) (left : ASTNode) (leftSel rightSel : R) : R :=
  match op with
  | .EQ =>
    match left with
    | .columnRef _ column =>
      let distinct := m.estimateDistinctValues (m.stats table) column
      if 0 < distinct then 1.0/(distinct : R) else 0.1
    | _ => 0.1
  | .LIKE => 0.05
  | .AND => leftSel*rightSel
  | .OR => leftSel+rightSel-leftSel*rightSel
  | .LT | .LE | .GT | .GE => 0.3
  | _ => 0.5

/-- The operand on the right may be missing, which leaves all rows. -/
def estimateSelectivity (table : Text) : ASTNode → R
  | .binary op left none =>
    m.operatorSelectivity table op left (estimateSelectivity table left) 1.0
  | .binary op left (some right) =>
    m.operatorSelectivity table op left (estimateSelectivity table left)
      (estimateSelectivity table right)
  | _ => 0.5

/-- The estimate for a condition that may be missing. -/
def selectivityOf (table : Text) : Option ASTNode → R
  | none => 1.0
  | some condition => m.estimateSelectivity table condition

variable [LT R] [DecidableLT R]

def shouldUseIndex (table _column : Text) (condition : ASTNode) : Bool :=
  decide (m.estimateSelectivity table condition < 0.2)

def containsColumn (col : Text) : ASTNode → Bool
  | .columnRef _ column => column = col
  | .binary _ left none => containsColumn col left
  | .binary _ left (some right) => containsColumn col left || containsColumn col right
  | _ => false

def findUsableIndexes (table : Text) (condition : ASTNode) : List Text :=
  match m.catalog.tables.lookup table with
  | none => []
  | some schema => (m.order schema).filter fun col => containsColumn col condition

/-- A division of sizes as doubles, which is to have a divisor. -/
def divide (n d : ℕ) : Option R := if d = 0 then none else some ((n : R)/(d : R))

/-- A logarithm, which is to have a positive argument. -/
def logarithm (n : ℕ) : Option R := if n = 0 then none else some (m.log (n : R))

/-- The cost of a plan, unless a division has no divisor or a logarithm no positive argument. -/
def estimateCost : PlanNode → Option (Cost R)
  | .null => some ⟨0.0,0.0,0.0,0⟩
  | .node type left right tableName _ filterCondition _ limit => do
    let cost : Cost R ← match type with
      | .SEQ_SCAN => do
        let stats := m.stats tableName
        return ⟨(stats.rowCount : R)*0.01,(stats.pageCount : R)*1.0,0.0,stats.rowCount⟩
      | .INDEX_SCAN => do
        let stats := m.stats tableName
        let selectivity := m.selectivityOf tableName filterCondition
        return ⟨(stats.rowCount : R)*selectivity*0.05,(stats.pageCount : R)*selectivity*0.1,0.0,
          m.toSize ((stats.rowCount : R)*selectivity)⟩
      | .FILTER => do
        let child ← estimateCost left
        let selectivity := m.selectivityOf tableName filterCondition
        return ⟨child.cpuCost+(child.estimatedRows : R)*0.01,child.ioCost,0.0,
          m.toSize ((child.estimatedRows : R)*selectivity)⟩
      | .JOIN => do
        let _ ← estimateCost left
        let _ ← estimateCost right
        return ⟨0.0,0.0,0.0,0⟩
      | .NESTED_LOOP_JOIN => do
        let l ← estimateCost left
        let r ← estimateCost right
        return ⟨l.cpuCost+(l.estimatedRows : R)*r.cpuCost,
          l.ioCost+(l.estimatedRows : R)*r.ioCost,0.0,l.estimatedRows*r.estimatedRows%2^64⟩
      | .HASH_JOIN => do
        let l ← estimateCost left
        let r ← estimateCost right
        return ⟨l.cpuCost+r.cpuCost+(l.estimatedRows : R)*0.1,l.ioCost+r.ioCost,0.0,
          l.estimatedRows*r.estimatedRows%2^64⟩
      | .MERGE_JOIN => do
        let l ← estimateCost left
        let r ← estimateCost right
        let rows : ℕ := (l.estimatedRows+r.estimatedRows)%2^64
        return ⟨l.cpuCost+r.cpuCost+(rows : R)*0.05,l.ioCost+r.ioCost,0.0,
          l.estimatedRows*r.estimatedRows%2^64⟩
      | .SORT => do
        let child ← estimateCost left
        let log ← m.logarithm child.estimatedRows
        return ⟨child.cpuCost+(child.estimatedRows : R)*log*0.01,child.ioCost*2.0,0.0,
          child.estimatedRows⟩
      | .LIMIT => do
        let child ← estimateCost left
        let rows := min child.estimatedRows limit
        let share : R ← divide rows child.estimatedRows
        return ⟨child.cpuCost*share,child.ioCost*share,0.0,rows⟩
      | .PROJECT | .AGGREGATE | .UNION | .INTERSECT | .EXCEPT => estimateCost left
    return { cost with totalCost := cost.ioCost*10.0+cost.cpuCost }

/-- The optimizer that works with these estimates. -/
def optimizer (mode : ExecutionMode) (optimizationLevel : ℕ) (enabled : String → Bool) :
    QueryOptimizer where
  findUsableIndexes := m.findUsableIndexes
  shouldUseIndex := m.shouldUseIndex
  estimatedRows plan := ((m.estimateCost plan).map Cost.estimatedRows).getD 0
  cheaper plan other :=
    match m.estimateCost plan, m.estimateCost other with
    | some cost, some best => decide (cost.totalCost < best.totalCost)
    | _, _ => false
  mode := mode
  optimizationLevel := optimizationLevel
  enabled := enabled

end Estimates

section Probabilities

variable (m : CostModel ℚ) (table : Text)

/-- A share of the rows that leaves some. -/
def IsShare (p : ℚ) : Prop := 0 < p ∧ p ≤ 1

/-- The estimate for an operator on estimates that are shares. -/
theorem isShare_operatorSelectivity (op : Operator) (left : ASTNode) {a b : ℚ} (ha : IsShare a)
    (hb : IsShare b) : IsShare (m.operatorSelectivity table op left a b) := by
  obtain ⟨hapos,hale⟩ := ha
  obtain ⟨hbpos,hble⟩ := hb
  unfold IsShare
  cases op with
  | EQ =>
    cases left with
    | columnRef t column =>
      simp only [operatorSelectivity]
      split_ifs with hdistinct
      · have hone : (1 : ℚ) ≤ m.estimateDistinctValues (m.stats table) column := by
          exact_mod_cast hdistinct
        have hpos : (0 : ℚ) < m.estimateDistinctValues (m.stats table) column := by linarith
        norm_num only
        exact ⟨div_pos one_pos hpos,(div_le_one hpos).mpr hone⟩
      · norm_num
    | _ => norm_num [operatorSelectivity]
  | AND => exact ⟨mul_pos hapos hbpos,mul_le_one₀ hale hbpos.le hble⟩
  | OR =>
    simp only [operatorSelectivity]
    constructor <;> nlinarith
  | _ => norm_num [operatorSelectivity]

theorem isShare_one : IsShare 1.0 := by norm_num [IsShare]

theorem isShare_estimateSelectivity (condition : ASTNode) :
    IsShare (m.estimateSelectivity table condition) := by
  fun_induction estimateSelectivity m table condition with
  | case1 op left ih => exact m.isShare_operatorSelectivity table op left ih isShare_one
  | case2 op left right ihleft ihright =>
    exact m.isShare_operatorSelectivity table op left ihleft ihright
  | case3 => norm_num [IsShare]

theorem isShare_selectivityOf (condition : Option ASTNode) :
    IsShare (m.selectivityOf table condition) := by
  cases condition with
  | none => exact isShare_one
  | some condition => exact m.isShare_estimateSelectivity table condition

theorem estimateSelectivity_binary (op : Operator) (left : ASTNode) (right : Option ASTNode) :
    m.estimateSelectivity table (.binary op left right) =
      m.operatorSelectivity table op left (m.estimateSelectivity table left)
        (m.selectivityOf table right) := by
  cases right <;> rfl

/-- The estimate for a condition is a share of the rows, for an AND at most that of each operand,
and for an OR at least that of each and at most their sum. -/
theorem estimateSelectivity_bounds :
    (∀ condition, 0 < m.selectivityOf table condition ∧ m.selectivityOf table condition ≤ 1) ∧
    ∀ left right, m.estimateSelectivity table (.binary .AND left right) ≤
        m.estimateSelectivity table left ∧
      m.estimateSelectivity table (.binary .AND left right) ≤ m.selectivityOf table right ∧
      m.estimateSelectivity table left ≤ m.estimateSelectivity table (.binary .OR left right) ∧
      m.selectivityOf table right ≤ m.estimateSelectivity table (.binary .OR left right) ∧
      m.estimateSelectivity table (.binary .OR left right) ≤
        m.estimateSelectivity table left+m.selectivityOf table right := by
  refine ⟨m.isShare_selectivityOf table,fun left right => ?_⟩
  obtain ⟨hapos,hale⟩ := m.isShare_estimateSelectivity table left
  obtain ⟨hbpos,hble⟩ := m.isShare_selectivityOf table right
  rw [estimateSelectivity_binary,estimateSelectivity_binary]
  simp only [operatorSelectivity]
  refine ⟨?_,?_,?_,?_,?_⟩
  · exact mul_le_of_le_one_right hapos.le hble
  · exact mul_le_of_le_one_left hbpos.le hale
  all_goals nlinarith

end Probabilities

section Plans

variable {R : Type} [NatCast R] [OfScientific R] [Add R] [Sub R] [Mul R] [Div R]
  (m : CostModel R)

/-- The plan has a cost, and is estimated to have `rows` rows. -/
def HasRows (plan : PlanNode) (rows : ℕ) : Prop :=
  ∃ cost, m.estimateCost plan = some cost ∧ cost.estimatedRows = rows

/-- What the two phases do to the nodes of a plan: a join may become a join of another kind. -/
structure Realizes (f : PlanNode → PlanNode) : Prop where
  join : ∀ left, ∃ type ∈ [OperatorType.JOIN,.NESTED_LOOP_JOIN,.HASH_JOIN,.MERGE_JOIN],
    f (.node .JOIN left .null [] [] none [] 0) = .node type (f left) .null [] [] none [] 0
  other : ∀ type left tableName indexName filterCondition orderBy limit, type ≠ .JOIN →
    f (.node type left .null tableName indexName filterCondition orderBy limit) =
      .node type (f left) .null tableName indexName filterCondition orderBy limit
  null : f .null = .null

theorem realizes_id : Realizes id :=
  ⟨fun _ => ⟨.JOIN,by decide,rfl⟩,fun _ _ _ _ _ _ _ _ => rfl,rfl⟩

theorem realizes_convert (o : QueryOptimizer) : Realizes o.convert := by
  refine ⟨fun left => ?_,fun type left _ _ _ _ _ htype => ?_,rfl⟩
  · rw [QueryOptimizer.convert,if_pos rfl]
    refine ⟨_,?_,rfl⟩
    split_ifs <;> decide
  · rw [QueryOptimizer.convert,if_neg htype]
    rfl

variable {m} {f : PlanNode → PlanNode}

theorem hasRows_join {type : OperatorType} {left : PlanNode} {rows : ℕ}
    (htype : type ∈ [OperatorType.JOIN,.NESTED_LOOP_JOIN,.HASH_JOIN,.MERGE_JOIN])
    (h : m.HasRows left rows) : m.HasRows (.node type left .null [] [] none [] 0) 0 := by
  obtain ⟨cost,hcost,_⟩ := h
  simp only [List.mem_cons,List.not_mem_nil,or_false] at htype
  rcases htype with rfl | rfl | rfl | rfl
  all_goals
    refine ⟨_,by simp only [estimateCost,hcost]; rfl,?_⟩
    simp

theorem hasRows_joinNodes (hf : Realizes f) (joins : List JoinClause) :
    ∀ {source : PlanNode} {rows : ℕ}, m.HasRows (f source) rows →
      m.HasRows (f (QueryOptimizer.joinNodes source joins)) (if joins = [] then rows else 0) := by
  induction joins with
  | nil => exact fun h => h
  | cons join joins ih =>
    intro source rows h
    obtain ⟨type,htype,heq⟩ := hf.join source
    have hjoin : m.HasRows (f (.node .JOIN source .null [] [] none [] 0)) 0 :=
      heq ▸ hasRows_join htype h
    have hrest := ih hjoin
    rw [ite_self] at hrest
    rw [if_neg (List.cons_ne_nil _ _)]
    exact hrest

theorem hasRows_project {left : PlanNode} {rows : ℕ} (h : m.HasRows left rows) :
    m.HasRows (.node .PROJECT left .null [] [] none [] 0) rows := by
  obtain ⟨cost,hcost,hrows⟩ := h
  simp only [HasRows,estimateCost,hcost]
  exact ⟨_,rfl,hrows⟩

/-- A sort takes the logarithm of the rows below it. -/
theorem estimateCost_sort {left : PlanNode} {rows : ℕ} (h : m.HasRows left rows)
    (orderBy : List (Text × Bool)) :
    (rows ≠ 0 → m.HasRows (.node .SORT left .null [] [] none orderBy 0) rows) ∧
    (rows = 0 → m.estimateCost (.node .SORT left .null [] [] none orderBy 0) = none) := by
  obtain ⟨cost,hcost,rfl⟩ := h
  simp only [HasRows,estimateCost,hcost,Option.bind_eq_bind,Option.bind_some,logarithm]
  constructor
  · intro hrows
    rw [if_neg hrows]
    exact ⟨_,rfl,rfl⟩
  · intro hrows
    rw [if_pos hrows]
    rfl

/-- A limit divides by the rows below it. -/
theorem isSome_estimateCost_limit {left : PlanNode} {rows : ℕ} (h : m.HasRows left rows)
    (limit : ℕ) :
    (m.estimateCost (.node .LIMIT left .null [] [] none [] limit)).isSome ↔ rows ≠ 0 := by
  obtain ⟨cost,hcost,rfl⟩ := h
  simp only [estimateCost,hcost,Option.bind_eq_bind,Option.bind_some,divide]
  by_cases hrows : cost.estimatedRows = 0
  · rw [if_pos hrows]
    exact iff_of_false nofun (not_not.mpr hrows)
  · rw [if_neg hrows]
    exact iff_of_true rfl hrows

theorem estimateCost_limit_none {left : PlanNode} (h : m.estimateCost left = none) (limit : ℕ) :
    m.estimateCost (.node .LIMIT left .null [] [] none [] limit) = none := by
  simp only [estimateCost,h]
  rfl

theorem isSome_estimateCost_limitNode (hf : Realizes f) {plan : PlanNode} {rows : ℕ}
    (h : m.HasRows (f plan) rows ∨ rows = 0 ∧ m.estimateCost (f plan) = none)
    (limit : Option LimitNode) :
    (m.estimateCost (f (QueryOptimizer.limitNode plan limit))).isSome ↔
      (m.estimateCost (f plan)).isSome ∧ ((∃ l, limit = some l ∧ 0 < l.limit) → rows ≠ 0) := by
  cases limit with
  | none => simp [QueryOptimizer.limitNode]
  | some l =>
    by_cases hpos : 0 < l.limit
    · have hnode : QueryOptimizer.limitNode plan (some l) =
          .node .LIMIT plan .null [] [] none [] l.limit.toInt.toNat := if_pos hpos
      rw [hnode,hf.other _ _ _ _ _ _ _ (by decide)]
      rcases h with h | ⟨rfl,hnone⟩
      · obtain ⟨cost,hcost,_⟩ := id h
        rw [isSome_estimateCost_limit h,hcost]
        simp [hpos]
      · simp [estimateCost_limit_none hnone,hnone]
    · simp [QueryOptimizer.limitNode,hpos]

/-- The nodes above the joins need rows below them for an ORDER BY and a LIMIT. -/
theorem isSome_estimateCost (hf : Realizes f) {core : PlanNode} {rows : ℕ}
    (h : m.HasRows (f core) rows) (orderBy : Option OrderByNode) (limit : Option LimitNode) :
    (m.estimateCost (f (QueryOptimizer.limitNode (QueryOptimizer.sortNode
      (.node .PROJECT core .null [] [] none [] 0) orderBy) limit))).isSome ↔
    (orderBy.isSome ∨ (∃ l, limit = some l ∧ 0 < l.limit) → rows ≠ 0) := by
  have hproject : m.HasRows (f (.node .PROJECT core .null [] [] none [] 0)) rows := by
    rw [hf.other _ _ _ _ _ _ _ (by decide)]
    exact hasRows_project h
  cases orderBy with
  | none =>
    have hsome : (m.estimateCost (f (.node .PROJECT core .null [] [] none [] 0))).isSome := by
      obtain ⟨cost,hcost,_⟩ := hproject
      rw [hcost]
      rfl
    rw [QueryOptimizer.sortNode,isSome_estimateCost_limitNode hf (Or.inl hproject)]
    simp [hsome]
  | some orderBy =>
    have hsort : ∀ left keys, f (.node .SORT left .null [] [] none keys 0) =
        .node .SORT (f left) .null [] [] none keys 0 :=
      fun _ _ => hf.other _ _ _ _ _ _ _ (by decide)
    obtain ⟨hrows,hnone⟩ := estimateCost_sort hproject
      (orderBy.items.map fun item => ([],item.ascending))
    rw [← hsort] at hrows hnone
    by_cases hzero : rows = 0
    · rw [QueryOptimizer.sortNode,isSome_estimateCost_limitNode hf (Or.inr ⟨hzero,hnone hzero⟩),
        hnone hzero]
      simp [hzero]
    · obtain ⟨cost,hcost,_⟩ := id (hrows hzero)
      rw [QueryOptimizer.sortNode,isSome_estimateCost_limitNode hf (Or.inl (hrows hzero)),hcost]
      simp [hzero]

variable (m) [LT R] [DecidableLT R]

/-- The rows of the first table, as they are estimated for the scan that is chosen. -/
def sourceRows (select : SelectNode) : ℕ :=
  match select.fromTables with
  | [] => 0
  | tableRef::_ =>
    let rowCount := (m.stats tableRef.tableName).rowCount
    match select.whereClause with
    | none => rowCount
    | some w =>
      match m.findUsableIndexes tableRef.tableName w.condition with
      | [] => rowCount
      | index::_ =>
        if m.shouldUseIndex tableRef.tableName index w.condition then
          m.toSize ((rowCount : R)*m.estimateSelectivity tableRef.tableName w.condition)
        else rowCount

theorem hasRows_sourceNode (hf : Realizes f) (mode : ExecutionMode) (level : ℕ)
    (enabled : String → Bool) (select : SelectNode) :
    m.HasRows (f ((m.optimizer mode level enabled).sourceNode select)) (m.sourceRows select) := by
  have hseq : ∀ tableName filterCondition,
      m.HasRows (f (QueryOptimizer.seqScanNode tableName filterCondition))
        (m.stats tableName).rowCount := by
    intro tableName filterCondition
    rw [QueryOptimizer.seqScanNode,hf.other _ _ _ _ _ _ _ (by decide)]
    exact ⟨_,rfl,rfl⟩
  unfold QueryOptimizer.sourceNode sourceRows
  cases select.fromTables with
  | nil =>
    dsimp only
    rw [hf.null]
    exact ⟨_,rfl,rfl⟩
  | cons tableRef tables =>
    cases select.whereClause with
    | none => exact hseq _ _
    | some w =>
      have hfind : (m.optimizer mode level enabled).findUsableIndexes = m.findUsableIndexes := rfl
      have huse : (m.optimizer mode level enabled).shouldUseIndex = m.shouldUseIndex := rfl
      rw [hfind,huse]
      dsimp only
      cases m.findUsableIndexes tableRef.tableName w.condition with
      | nil => exact hseq _ _
      | cons index indexes =>
        dsimp only
        split_ifs with hindex
        · rw [hf.other _ _ _ _ _ _ _ (by decide)]
          exact ⟨_,rfl,rfl⟩
        · exact hseq _ _

/-- The costs of both plans are made without a division by zero and a logarithm of zero just when
no ORDER BY and no LIMIT is there to look at the rows, or there are rows: no join, a table, and
some rows of it by the estimate. -/
theorem estimateCost_defined_iff (mode : ExecutionMode) (level : ℕ) (enabled : String → Bool)
    (select : SelectNode) :
    ((m.estimateCost ((m.optimizer mode level enabled).logicalOptimization select)).isSome ∧
      (m.estimateCost ((m.optimizer mode level enabled).physicalOptimization
        ((m.optimizer mode level enabled).logicalOptimization select))).isSome) ↔
    (select.orderBy.isSome ∨ (∃ l, select.limit = some l ∧ 0 < l.limit) →
      select.joins = [] ∧ m.sourceRows select ≠ 0) := by
  have hplan : ∀ {f}, Realizes f → ((m.estimateCost (f
      ((m.optimizer mode level enabled).logicalOptimization select))).isSome ↔
        (select.orderBy.isSome ∨ (∃ l, select.limit = some l ∧ 0 < l.limit) →
          select.joins = [] ∧ m.sourceRows select ≠ 0)) := by
    intro f hf
    have hcore := hasRows_joinNodes hf select.joins (m.hasRows_sourceNode hf mode level enabled select)
    have hsome := isSome_estimateCost hf hcore select.orderBy select.limit
    rw [QueryOptimizer.logicalOptimization,hsome]
    simp only [ne_eq,ite_eq_right_iff,not_forall,exists_prop]
  have hlogical := hplan realizes_id
  have hphysical := hplan (realizes_convert (m.optimizer mode level enabled))
  exact ⟨fun h => hlogical.mp h.1,fun h => ⟨hlogical.mpr h,hphysical.mpr h⟩⟩

end Plans

/-- Nothing is known of any table. -/
def noStatistics : CostModel ℚ where
  catalog := Catalog.new
  order _ := []
  statistics := ∅
  estimateDistinctValues _ _ := 0
  toSize p := p.floor.toNat
  log p := p

/-- `SELECT a FROM t LIMIT 1`. -/
def limitedSelect : SelectNode :=
  ⟨false,[.columnRef [] ['a']],[⟨['t'],[],none⟩],[],none,none,none,none,some ⟨1,0⟩,.NONE,none⟩

/-- The limit divides by the rows of a table without statistics. -/
theorem limit_divides_by_zero : ¬ ∀ (m : CostModel ℚ) (mode : ExecutionMode) (level : ℕ)
    (enabled : String → Bool) (select : SelectNode),
    (m.estimateCost ((m.optimizer mode level enabled).logicalOptimization select)).isSome ∧
      (m.estimateCost ((m.optimizer mode level enabled).physicalOptimization
        ((m.optimizer mode level enabled).logicalOptimization select))).isSome := by
  intro h
  have hsome := (h noStatistics .NORMAL 0 (fun _ => false) limitedSelect).1
  have hscan : noStatistics.HasRows (QueryOptimizer.seqScanNode ['t'] none) 0 := ⟨_,rfl,rfl⟩
  exact (isSome_estimateCost_limit (hasRows_project hscan) 1).mp hsome rfl

end CostModel
end OrangeSQL
