import OrangeSQL.Ast
import OrangeSQL.Engine
import OrangeSQL.TableStore

/-! The executor of INSERT, UPDATE, DELETE and of the statements on transactions. Every statement
has a transaction of its own. There is no result where the source has no defined behaviour: signed
overflow, an index past the end of a row, a null transaction, a loop that does not end. -/
namespace OrangeSQL

open LogManager (LogCall)

/-- The members of the union that are read. -/
def Value.intVal (val : Value) : ℤ := val.data.toUInt32.toInt32.toInt
def Value.boolVal (val : Value) : Bool := decide (val.data.toUInt8 ≠ 0)

/-- An `int` result. -/
def Value.ofSum (n : ℤ) : Option Value :=
  if -2^31 ≤ n ∧ n < 2^31 then some (Value.ofInt (Int32.ofInt n)) else none

namespace QueryExecutor

/-- Both operands are integers or truth values, whatever their types are. -/
def evaluateOperator (op : Operator) (left right : Value) : Option Value :=
  match op with
  | .EQ => some (.ofBool (decide (left.intVal = right.intVal)))
  | .NE => some (.ofBool (decide (left.intVal ≠ right.intVal)))
  | .LT => some (.ofBool (decide (left.intVal < right.intVal)))
  | .LE => some (.ofBool (decide (left.intVal ≤ right.intVal)))
  | .GT => some (.ofBool (decide (left.intVal > right.intVal)))
  | .GE => some (.ofBool (decide (left.intVal ≥ right.intVal)))
  | .AND => some (.ofBool (left.boolVal && right.boolVal))
  | .OR => some (.ofBool (left.boolVal || right.boolVal))
  | .PLUS => Value.ofSum (left.intVal+right.intVal)
  | .MINUS => Value.ofSum (left.intVal-right.intVal)
  | .MULTIPLY => Value.ofSum (left.intVal*right.intVal)
  | .DIVIDE => if right.intVal ≠ 0 then Value.ofSum (left.intVal.tdiv right.intVal) else some .null
  | _ => some .null

/-- Every column is the first one. -/
def evaluateExpression (row : List Value) : ASTNode → Option Value
  | .literal value => some value
  | .columnRef _ _ => some (row.head?.getD .null)
  | .binary op left none => do
    let left ← evaluateExpression row left
    evaluateOperator op left .null
  | .binary op left (some right) => do
    let left ← evaluateExpression row left
    let right ← evaluateExpression row right
    evaluateOperator op left right
  -- the list of IN is empty: the cast to a literal is undefined
  | .list => none
  | _ => some .null

/-- Whether a statement is about a row. -/
def matchesWhere (condition : Option WhereClause) (row : List Value) : Option Bool :=
  match condition with
  | none => some true
  | some w => (evaluateExpression row w.condition).map Value.boolVal

/-- The first column of the name, the first of all where there is none. -/
def columnIndex (schema : TableSchema) (name : Text) : ℕ :=
  (schema.columns.findIdx? fun col => col.name = name).getD 0

/-- The assignments one after the other, each evaluated on the old row. -/
def applyAssignments (schema : TableSchema) (row : List Value) :
    List Assignment → List Value → Option (List Value)
  | [], new => some new
  | a::rest, new => do
    let val ← evaluateExpression row a.value
    if columnIndex schema a.column < new.length then
      applyAssignments schema row rest (new.set (columnIndex schema a.column) val)
    else none

end QueryExecutor

structure Database where
  catalog : Catalog
  store : Store
  manager : TransactionManager

/-- What else a call finds: the time, the orders of the hash maps it walks through, and the calls
on the log that other threads make meanwhile. -/
structure Surroundings where
  now : ℤ
  pages : List PageId
  transactions : List TransactionId
  others : List LogCall

namespace QueryExecutor

/-- The note of a modified page; there is none for a null transaction. -/
def addModifiedPage (m : TransactionManager) (tx : Option TransactionId) (rid : RecordId) :
    Option TransactionManager :=
  tx.map fun id => Engine.addModifiedPage m id (pageOf rid) 0

/-- The loop over the rows. -/
def insertRows (tx : Option TransactionId) :
    List (List ASTNode) → OpenTable → Store → TransactionManager →
    Option (Status × Store × TransactionManager)
  | [], _, s, m => some (.ok,s,m)
  | exprs::rows, t, s, m => do
    let values ← exprs.mapM (evaluateExpression [])
    match ← t.insertRecord s values with
    | (none,_,s) => return (.error,s,m)
    | (some rid,t,s) =>
      let m ← addModifiedPage m tx rid
      insertRows tx rows t s m

/-- The loop of an UPDATE from an iterator on. -/
def updateRows (u : UpdateNode) (tx : Option TransactionId) (t : OpenTable) :
    ℕ → TableCursor → Store → TransactionManager → Option (Status × Store × TransactionManager)
  | 0, _, _, _ => none
  | fuel+1, it, s, m =>
    if it.atEnd then some (.ok,s,m)
    else do
      let row := it.row s t.tableId
      if ← matchesWhere u.whereClause row then
        let new ← applyAssignments t.schema row u.assignments row
        let (status,s) := t.updateRecord s it.recordId new
        if status ≠ .ok then return (status,s,m)
        else
          let m ← addModifiedPage m tx it.recordId
          let it ← it.increment s t.tableId fuel
          updateRows u tx t fuel it s m
      else
        let it ← it.increment s t.tableId fuel
        updateRows u tx t fuel it s m

def deleteRows (d : DeleteNode) (tx : Option TransactionId) (t : OpenTable) :
    ℕ → TableCursor → Store → TransactionManager → Option (Status × Store × TransactionManager)
  | 0, _, _, _ => none
  | fuel+1, it, s, m =>
    if it.atEnd then some (.ok,s,m)
    else do
      if ← matchesWhere d.whereClause (it.row s t.tableId) then
        let (status,s) := t.deleteRecord s it.recordId
        if status ≠ .ok then return (status,s,m)
        else
          let m ← addModifiedPage m tx it.recordId
          let it ← it.increment s t.tableId fuel
          deleteRows d tx t fuel it s m
      else
        let it ← it.increment s t.tableId fuel
        deleteRows d tx t fuel it s m

section Execute

variable (fuel : ℕ) (db : Database) (tx : Option TransactionId)

/-- Open the table of a name and work on it. -/
def withTable (name : Text)
    (work : OpenTable → Store → Option (Status × Store × TransactionManager)) :
    Option (Status × Database) :=
  match db.catalog.tables.lookup name with
  | none => some (.notFound,db)
  | some schema => do
    let (t,s) ← OpenTable.make fuel db.store schema
    let (status,s,m) ← work t s
    return (status,{ db with store := s, manager := m })

def executeInsert (node : InsertNode) : Option (Status × Database) :=
  withTable fuel db node.table fun t s => insertRows tx node.values t s db.manager

def executeUpdate (node : UpdateNode) : Option (Status × Database) :=
  withTable fuel db node.table fun t s => do
    let it ← t.begin fuel s
    updateRows node tx t fuel it s db.manager

def executeDelete (node : DeleteNode) : Option (Status × Database) :=
  withTable fuel db node.table fun t s => do
    let it ← t.begin fuel s
    deleteRows node tx t fuel it s db.manager

end Execute

end QueryExecutor

/-- The statements on rows and on transactions. The latter have no effect of their own. -/
inductive RowStatement
  | insert (node : InsertNode)
  | update (node : UpdateNode)
  | delete (node : DeleteNode)
  | begin (node : TransactionNode)
  | commit (node : TransactionNode)
  | rollback (node : TransactionNode)

namespace QueryExecutor

def executeStatement (fuel : ℕ) (db : Database) (tx : Option TransactionId) :
    RowStatement → Option (Status × Database)
  | .insert node => executeInsert fuel db tx node
  | .update node => executeUpdate fuel db tx node
  | .delete node => executeDelete fuel db tx node
  | .begin _ | .commit _ | .rollback _ => some (.ok,db)

/-- The end of the transaction; a null one can be neither committed nor aborted. -/
def finish (m : TransactionManager) (tx : Option TransactionId) (status : Status)
    (around : Surroundings) : TransactionManager :=
  match tx with
  | none => m
  | some id =>
    if status = .ok then (m.commit id around.pages around.transactions around.now around.others).2
    else (m.abort id around.transactions around.now).2

def execute (fuel : ℕ) (db : Database) (around : Surroundings) (statement : RowStatement) :
    Option (Status × Database) := do
  let (tx,m) := db.manager.begin .repeatableRead .readWrite around.now
  let (status,db) ← executeStatement fuel { db with manager := m } tx statement
  return (status,{ db with manager := finish db.manager tx status around })

/-- Statements one after the other, whatever their statuses are. -/
def executeAll (fuel : ℕ) (db : Database) :
    List (Surroundings × RowStatement) → Option Database
  | [] => some db
  | (around,statement)::rest => do
    let (_,db) ← execute fuel db around statement
    executeAll fuel db rest

end QueryExecutor
end OrangeSQL
