import OrangeSQL.ExecutorOperators
import OrangeSQL.ExpressionPrinting

/-! From a SELECT to its operators: the plan of the optimizer, and the tree that the executor builds
of it. The rules of the optimizer and its search for alternatives change no plan. -/
namespace OrangeSQL

open PullStreams Parsing

inductive OperatorType
  | SEQ_SCAN | INDEX_SCAN | FILTER | PROJECT | JOIN | AGGREGATE | SORT | LIMIT | HASH_JOIN
  | NESTED_LOOP_JOIN | MERGE_JOIN | UNION | INTERSECT | EXCEPT
  deriving DecidableEq, Repr

/-- A node of a plan, or a null pointer. -/
inductive PlanNode
  | null
  | node (type : OperatorType) (left right : PlanNode) (tableName indexName : Text)
    (filterCondition : Option ASTNode) (orderBy : List (Text × Bool)) (limit : ℕ)

inductive ExecutionMode
  | NORMAL | EXPLAIN | EXPLAIN_ANALYZE
  deriving DecidableEq, Repr

/-- The optimizer of a context. What it takes from the catalog and from costs in floating point is
given by functions: the indexes on columns of a condition, the choice of one, the rows that a plan
is estimated to have, and which of two plans costs less. -/
structure QueryOptimizer where
  findUsableIndexes : Text → ASTNode → List Text
  shouldUseIndex : Text → Text → ASTNode → Bool
  estimatedRows : PlanNode → ℕ
  cheaper : PlanNode → PlanNode → Bool
  mode : ExecutionMode
  optimizationLevel : ℕ
  enabled : String → Bool

namespace QueryOptimizer

variable (o : QueryOptimizer)

def applyRule_IndexScan (_query : SelectNode) : PlanNode := .null

def applyRule_JoinReordering (_query : SelectNode) : PlanNode := .null

def applyRule_PredicatePushdown (_query : SelectNode) : PlanNode := .null

def applyRule_ProjectionPushdown (_query : SelectNode) : PlanNode := .null

def applyRule_SubqueryUnnesting (_query : SelectNode) : PlanNode := .null

def applyRule_ViewMerging (_query : SelectNode) : PlanNode := .null

def rules : List (String × (SelectNode → PlanNode)) :=
  [("index_scan",applyRule_IndexScan),("join_reordering",applyRule_JoinReordering),
    ("predicate_pushdown",applyRule_PredicatePushdown),
    ("projection_pushdown",applyRule_ProjectionPushdown),
    ("subquery_unnesting",applyRule_SubqueryUnnesting),("view_merging",applyRule_ViewMerging)]

/-- The loop over the rules: a cheaper plan replaces the one so far. -/
def applyRules (query : SelectNode) (plan : PlanNode) : PlanNode :=
  rules.foldl (fun plan rule =>
    if o.enabled rule.1 then
      match rule.2 query with
      | .null => plan
      | alternative => if o.cheaper alternative plan then alternative else plan
    else plan) plan

def seqScanNode (tableName : Text) (filterCondition : Option ASTNode) : PlanNode :=
  .node .SEQ_SCAN .null .null tableName [] filterCondition [] 0

/-- The source of the data: the first table, through an index if one is worth it. -/
def sourceNode (select : SelectNode) : PlanNode :=
  match select.fromTables with
  | [] => .null
  | tableRef::_ =>
    match select.whereClause with
    | none => seqScanNode tableRef.tableName none
    | some w =>
      match o.findUsableIndexes tableRef.tableName w.condition with
      | [] => seqScanNode tableRef.tableName (some w.condition)
      | index::_ =>
        if o.shouldUseIndex tableRef.tableName index w.condition then
          .node .INDEX_SCAN .null .null tableRef.tableName index (some w.condition) [] 0
        else seqScanNode tableRef.tableName (some w.condition)

/-- The table on the right of a join is missing. -/
def joinNodes (source : PlanNode) (joins : List JoinClause) : PlanNode :=
  joins.foldl (fun left _ => .node .JOIN left .null [] [] none [] 0) source

/-- The sort keeps only the directions of its keys. -/
def sortNode (child : PlanNode) : Option OrderByNode → PlanNode
  | none => child
  | some orderBy =>
    .node .SORT child .null [] [] none (orderBy.items.map fun item => ([],item.ascending)) 0

def limitNode (child : PlanNode) : Option LimitNode → PlanNode
  | none => child
  | some limit =>
    if 0 < limit.limit then .node .LIMIT child .null [] [] none [] limit.limit.toInt.toNat
    else child

def logicalOptimization (select : SelectNode) : PlanNode :=
  let projectNode :=
    .node .PROJECT (joinNodes (o.sourceNode select) select.joins) .null [] [] none [] 0
  limitNode (sortNode projectNode select.orderBy) select.limit

/-- `estimateCost` of a null pointer has no rows. -/
def rowsOf : PlanNode → ℕ
  | .null => 0
  | plan => o.estimatedRows plan

def convert : PlanNode → PlanNode
  | .null => .null
  | .node type left right tableName indexName filterCondition orderBy limit =>
    let type :=
      if type = .JOIN then
        if o.rowsOf left < 100 ∨ o.rowsOf right < 100 then .NESTED_LOOP_JOIN
        else if o.rowsOf left*o.rowsOf right%2^64 < 1000000 then .HASH_JOIN
        else .MERGE_JOIN
      else type
    .node type (convert left) (convert right) tableName indexName filterCondition orderBy limit

def physicalOptimization (plan : PlanNode) : PlanNode := o.convert plan

def generateAlternatives : List PlanNode := []

def costBasedOptimization (plan : PlanNode) : PlanNode :=
  generateAlternatives.foldl (fun best alternative =>
    if o.cheaper alternative best then alternative else best) plan

def optimize (select : SelectNode) : PlanNode :=
  let plan := o.logicalOptimization select
  if o.mode = .EXPLAIN then plan
  else
    let plan := if 1 ≤ o.optimizationLevel then o.applyRules select plan else plan
    let plan := o.physicalOptimization plan
    if 2 ≤ o.optimizationLevel then o.costBasedOptimization plan else plan

end QueryOptimizer

/-- How the scans are made that a plan has at its leaves. -/
structure Scans where
  seqScan : Text → Option ASTNode → ExecutorOperator
  indexScan : Text → Text → Option ASTNode → ExecutorOperator

namespace QueryExecutor

/-- The scans of the executor, with their iterators as they are constructed. -/
def scans : Scans where
  seqScan tableName filterCondition := .seqScan tableName filterCondition ⟨invalidPageId,0,none⟩
  indexScan := .indexScan

/-- A filter without a condition dereferences a null pointer. -/
def buildPlan (scans : Scans) : PlanNode → ExecutorOperator
  | .null => .null
  | .node type left right tableName indexName filterCondition orderBy limit =>
    match type with
    | .SEQ_SCAN => scans.seqScan tableName filterCondition
    | .INDEX_SCAN => scans.indexScan tableName indexName filterCondition
    | .FILTER =>
      match filterCondition with
      | none => .null
      | some condition => .filter (buildPlan scans left) condition
    | .PROJECT => .project (buildPlan scans left) []
    | .HASH_JOIN =>
      .join (buildPlan scans left) (buildPlan scans right) none .INNER .HASH [] [] 0
    | .NESTED_LOOP_JOIN =>
      .join (buildPlan scans left) (buildPlan scans right) none .INNER .NESTED_LOOP [] [] 0
    | .JOIN | .MERGE_JOIN =>
      .join (buildPlan scans left) (buildPlan scans right) none .INNER .MERGE [] [] 0
    | .SORT => .sort (buildPlan scans left) (orderBy.map fun key => key.2) [] 0
    | .LIMIT => .limit (buildPlan scans left) limit 0 0
    | .AGGREGATE | .UNION | .INTERSECT | .EXCEPT => .null

end QueryExecutor

namespace QueryOptimizer

variable {o : QueryOptimizer}

def NoJoin : PlanNode → Prop
  | .null => True
  | .node type left right _ _ _ _ _ => type ≠ .JOIN ∧ NoJoin left ∧ NoJoin right

theorem convert_of_noJoin {plan : PlanNode} (h : NoJoin plan) : o.convert plan = plan := by
  induction plan with
  | null => rfl
  | node type left right tableName indexName filterCondition orderBy limit ihleft ihright =>
    obtain ⟨htype,hleft,hright⟩ := h
    rw [convert,if_neg htype,ihleft hleft,ihright hright]

theorem noJoin_sourceNode (select : SelectNode) : NoJoin (o.sourceNode select) := by
  have hseq : ∀ tableName filterCondition, NoJoin (seqScanNode tableName filterCondition) :=
    fun _ _ => ⟨by decide,trivial,trivial⟩
  rw [sourceNode]
  cases select.fromTables with
  | nil => trivial
  | cons tableRef tables =>
    cases select.whereClause with
    | none => exact hseq _ _
    | some w =>
      dsimp only
      cases o.findUsableIndexes tableRef.tableName w.condition with
      | nil => exact hseq _ _
      | cons index indexes =>
        dsimp only
        split_ifs
        · exact ⟨by decide,trivial,trivial⟩
        · exact hseq _ _

theorem noJoin_logicalOptimization {select : SelectNode} (h : select.joins = []) :
    NoJoin (o.logicalOptimization select) := by
  have hproject : NoJoin (.node .PROJECT (joinNodes (o.sourceNode select) select.joins) .null [] []
      none [] 0) := by
    rw [h]
    exact ⟨by decide,noJoin_sourceNode select,trivial⟩
  have hsort : ∀ orderBy, NoJoin (sortNode (.node .PROJECT (joinNodes (o.sourceNode select)
      select.joins) .null [] [] none [] 0) orderBy) := by
    rintro (_ | orderBy)
    · exact hproject
    · exact ⟨nofun,hproject,trivial⟩
  rw [logicalOptimization]
  cases select.limit with
  | none => exact hsort _
  | some limit =>
    dsimp only [limitNode]
    split_ifs
    · exact ⟨nofun,hsort _,trivial⟩
    · exact hsort _

theorem applyRules_eq (query : SelectNode) (plan : PlanNode) : o.applyRules query plan = plan := by
  simp [applyRules,rules,applyRule_IndexScan,applyRule_JoinReordering,applyRule_PredicatePushdown,
    applyRule_ProjectionPushdown,applyRule_SubqueryUnnesting,applyRule_ViewMerging]

/-- Without joins the optimizer leaves its first plan as it is. -/
theorem optimize_eq {select : SelectNode} (h : select.joins = []) :
    o.optimize select = o.logicalOptimization select := by
  have hplan : o.physicalOptimization (o.logicalOptimization select) = o.logicalOptimization select :=
    convert_of_noJoin (noJoin_logicalOptimization h)
  simp only [optimize,applyRules_eq,ite_self,hplan]
  simp [costBasedOptimization,generateAlternatives]

end QueryOptimizer

end OrangeSQL
