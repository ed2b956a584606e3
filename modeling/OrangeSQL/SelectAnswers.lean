import OrangeSQL.LimitPlanning
import OrangeSQL.QueryExecutor
import OrangeSQL.SelectFailures
import OrangeSQL.SelfDeadlock

/-! What a SELECT answers, over the operators of the executor themselves. The sequential scan has an
iterator without a table, so no stored row is ever read: the rows are empty, and there are as many
as the limit, the cap and the clock let through. A failed one aborts its transaction and does not
come back. -/
namespace OrangeSQL

open PullStreams ExecutorOperator

/-- What a SELECT finds around it besides the catalog. `checkTimeout` is the outcome of each of its
calls. -/
structure SelectEnvironment where
  optimizer : QueryOptimizer
  stdSort : (Row → Row → Bool) → List Row → List Row
  perm : ∀ less rows, (stdSort less rows).Perm rows
  explainPlan : PlanNode → Bool → Row
  maxRows : ℤ
  checkTimeout : ℕ → Bool

namespace SelectEnvironment

section Definitions

variable (env : SelectEnvironment) (catalog : Catalog)

def operators : ExecutorContext where
  hasTable name := decide (name ∈ catalog.tables)
  stdSort := env.stdSort
  perm := env.perm

/-- The row that is the last one, by the cap or by the clock. -/
def LastRow (before : ℕ) : ℕ → Prop
  | 0 => False
  | k+1 => (0 < env.maxRows ∧ env.maxRows ≤ (before+k+1 : ℕ)) ∨ env.checkTimeout k = true

/-- The loop of `executeSelect`, at its `i`th call; each call of the operators may have no result. -/
def fetchRows : ℕ → ℕ → ExecutorOperator → List Row → Option (List Row)
  | 0, _, _, _ => none
  | fuel+1, i, root, results => do
    match ← root.next fuel with
    | (none,_) => some results
    | (some row,root) =>
      let results := results++[row]
      if 0 < env.maxRows ∧ env.maxRows ≤ results.length then some results
      else if env.checkTimeout i then some results
      else fetchRows fuel (i+1) root results

def executeSelect (fuel : ℕ) (select : SelectNode) (results : List Row) :
    Option (Status × List Row) :=
  let plan := env.optimizer.optimize select
  if env.optimizer.mode = .EXPLAIN then some (.ok,results++[env.explainPlan plan false])
  else
    match QueryExecutor.buildPlan QueryExecutor.scans plan with
    | .null => some (.error,results)
    | root => do
      let (status,root) ← root.open (env.operators catalog) fuel
      if status ≠ .ok then some (status,results)
      else
        let results ← env.fetchRows fuel 0 root results
        if env.optimizer.mode = .EXPLAIN_ANALYZE then some (.ok,[env.explainPlan plan true])
        else some (.ok,results)

/-- The end of the transaction. An abort that waits for its own thread has no result. -/
def finish (m : TransactionManager) (tx : Option TransactionId) (status : Status)
    (around : Surroundings) : Option TransactionManager :=
  match tx with
  | none => some m
  | some id =>
    if status = .ok then
      some (m.commit id around.pages around.transactions around.now around.others).2
    else (Guarded.abort m id around.transactions around.now []).toOption.map fun r => r.1.2

/-- A SELECT in a transaction of its own. -/
def execute (fuel : ℕ) (db : Database) (around : Surroundings) (select : SelectNode)
    (results : List Row) : Option (Status × List Row × Database) := do
  let (tx,m) := db.manager.begin .repeatableRead .readWrite around.now
  let (status,results) ← env.executeSelect db.catalog fuel select results
  let m ← finish m tx status around
  return (status,results,{ db with manager := m })

/-- The limit of a statement; one that is not positive is none. -/
def rowLimit (select : SelectNode) : Option ℕ :=
  select.limit.bind fun l => if 0 < l.limit then some l.limit.toInt.toNat else none

/-- Whether the first table is scanned through an index. -/
def usesIndex (tableName : Text) (whereClause : Option WhereClause) : Bool :=
  match whereClause with
  | none => false
  | some w =>
    match env.optimizer.findUsableIndexes tableName w.condition with
    | [] => false
    | index::_ => env.optimizer.shouldUseIndex tableName index w.condition

/-- The loop ends with this many rows, at the limit or after its last row. -/
def Stops (limit : Option ℕ) (before k : ℕ) : Prop := limit = some k ∨ env.LastRow before k

/-- The rows that the loop has fetched, or the plan instead of them. -/
def answer (select : SelectNode) (rows : List Row) : List Row :=
  if env.optimizer.mode = .EXPLAIN_ANALYZE then
    [env.explainPlan (env.optimizer.optimize select) true]
  else rows

/-- What a SELECT answers. There is no answer for one without a table, with a join, through an index
or in order, unless its table is missing; nor for one that nothing stops. -/
inductive Answers (select : SelectNode) (results : List Row) : Status → List Row → Prop
  | explained : env.optimizer.mode = .EXPLAIN → Answers select results .ok
      (results++[env.explainPlan (env.optimizer.optimize select) false])
  | missing {table : TableRef} {tables : List TableRef} : env.optimizer.mode ≠ .EXPLAIN →
      select.fromTables = table::tables → table.tableName ∉ catalog.tables →
      Answers select results .notFound results
  | rows {table : TableRef} {tables : List TableRef} {k : ℕ} : env.optimizer.mode ≠ .EXPLAIN →
      select.fromTables = table::tables → table.tableName ∈ catalog.tables → select.joins = [] →
      env.usesIndex table.tableName select.whereClause = false → select.orderBy = none →
      IsLeast {k | env.Stops (rowLimit select) results.length k} k →
      Answers select results .ok (env.answer select (results++List.replicate k []))

end Definitions

section Loop

variable {env : SelectEnvironment} {limit : Option ℕ} {before i k : ℕ} {op : ExecutorOperator}
  {results rows : List Row}

variable {s : ℕ → ExecutorOperator}

end Loop

section Trees

variable {env : SelectEnvironment} {catalog : Catalog} {context : ExecutorContext}
  {leaf leaf' op op' : ExecutorOperator} {status : Status} {joined : Bool}

end Trees

section Plans

open QueryExecutor (buildPlan scans)

variable {env : SelectEnvironment} {catalog : Catalog} {o : QueryOptimizer} {select : SelectNode}
  {leaf : ExecutorOperator} {joined : Bool}

end Plans

section Scans

variable {context : ExecutorContext} {tableName indexName : Text} {filter_ : Option ASTNode}
  {op op' : ExecutorOperator} {r : Option Row × ExecutorOperator} {read : List Row} {i : ℕ}

/-- A limit over operators, after `i` rows. -/
def limited (limit : Option ℕ) (i : ℕ) (child : ExecutorOperator) : ExecutorOperator :=
  match limit with
  | none => child
  | some n => .limit child n 0 i

end Scans

section Answers

open QueryExecutor (buildPlan scans)

variable {env : SelectEnvironment} {catalog : Catalog} {select : SelectNode}
  {results rows : List Row} {status : Status} {table : TableRef} {tables : List TableRef}

end Answers

section Calls

variable {env : SelectEnvironment} {catalog : Catalog} {context : SelectContext ExecutorOperator}
  {select : SelectNode} {results : List Row}

/-- Calls on any operators that do what these operators do, where that is anything. -/
structure Follows (context : SelectContext ExecutorOperator) (env : SelectEnvironment)
    (catalog : Catalog) : Prop where
  optimizer : context.optimizer = env.optimizer
  explainPlan : context.explainPlan = env.explainPlan
  maxRows : context.maxRows = env.maxRows
  checkTimeout : context.checkTimeout = env.checkTimeout
  null : ∀ plan, QueryExecutor.buildPlan QueryExecutor.scans plan = .null →
    context.buildPlan plan = none
  buildPlan : ∀ plan, QueryExecutor.buildPlan QueryExecutor.scans plan ≠ .null →
    context.buildPlan plan = some (QueryExecutor.buildPlan QueryExecutor.scans plan)
  opened : ∀ op status op', Opens (env.operators catalog) op status op' →
    context.calls.open op = (status,op')
  more : ∀ op row op', Next op (some row,op') → context.calls.next op = (.ok,row,op')
  done : ∀ op op', Next op (none,op') → (context.calls.next op).1 = .notFound

theorem Follows.fetchRows (h : Follows context env catalog) {fuel i : ℕ} {root : ExecutorOperator}
    {rows : List Row} (hfetch : env.fetchRows fuel i root results = some rows) :
    ∃ status, QueryExecutor.fetchRows context fuel i root results = some (status,rows) := by
  induction fuel generalizing i root results with
  | zero => cases hfetch
  | succ fuel ih =>
    obtain ⟨⟨row,root'⟩,hnext,hrest⟩ := Option.bind_eq_some_iff.mp hfetch
    rw [QueryExecutor.fetchRows]
    cases row with
    | none =>
      obtain rfl := Option.some.inj hrest
      have hdone := h.done _ _ ⟨fuel,hnext⟩
      cases hcall : context.calls.next root with
      | mk status rest =>
        rw [hcall] at hdone
        obtain rfl : status = .notFound := hdone
        exact ⟨_,rfl⟩
    | some row =>
      rw [h.more _ _ _ ⟨fuel,hnext⟩]
      simp only [QueryExecutor.AtCap,h.maxRows,h.checkTimeout] at hrest ⊢
      split_ifs at hrest ⊢
      · exact ⟨_,congrArg (fun rows => some (Status.ok,rows)) (Option.some.inj hrest)⟩
      · exact ⟨_,congrArg (fun rows => some (Status.error,rows)) (Option.some.inj hrest)⟩
      · exact ih hrest

/-- Over these operators `executeSelect` returns what it returns over any operators. -/
theorem Follows.executeSelect (h : Follows context env catalog) {r : Status × List Row}
    (hselect : Returns (fun n => env.executeSelect catalog n select results) r) :
    Returns (fun n => QueryExecutor.executeSelect context n select results) r := by
  obtain ⟨n,hn⟩ := hselect
  refine ⟨n,?_⟩
  dsimp only at hn ⊢
  unfold SelectEnvironment.executeSelect at hn
  rw [QueryExecutor.executeSelect,h.optimizer,h.explainPlan]
  dsimp only at hn ⊢
  by_cases hmode : env.optimizer.mode = .EXPLAIN
  · rw [if_pos hmode] at hn ⊢
    exact hn
  · rw [if_neg hmode] at hn ⊢
    split at hn
    · next hnull =>
      rw [h.null _ hnull]
      exact hn
    · next hnull =>
      rw [h.buildPlan _ hnull]
      obtain ⟨⟨status,root⟩,hopen,hrest⟩ := Option.bind_eq_some_iff.mp hn
      have hcall := h.opened _ _ _ ⟨n,hopen⟩
      dsimp only
      rw [hcall]
      by_cases hok : status = .ok
      · subst hok
        simp only [ne_eq,not_true_eq_false,if_false] at hrest
        obtain ⟨rows,hrows,hr⟩ := Option.bind_eq_some_iff.mp hrest
        obtain ⟨status,hfetch⟩ := h.fetchRows hrows
        refine Option.bind_eq_some_iff.mpr ⟨_,hfetch,?_⟩
        split_ifs at hr ⊢ <;> exact hr
      · simp only [ne_eq,hok,not_false_eq_true,if_true] at hrest
        cases status with
        | ok => exact absurd rfl hok
        | _ => exact hrest

end Calls

end SelectEnvironment

end OrangeSQL
