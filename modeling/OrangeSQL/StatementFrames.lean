import OrangeSQL.StatementRollback
import OrangeSQL.TableHeaps

/-! What sequences of statements do to the rows of a table that has the buffer pool to itself. A row
goes only where an UPDATE or a DELETE matches it, and a row comes only from the values of an INSERT or
from a row that an UPDATE matches; all others stay where they are. -/
namespace OrangeSQL

open Page Store TableCursor

namespace QueryExecutor

section Definitions

/-- If the name is that of a table, it is that of the table with this id. -/
def Names (catalog : Catalog) (table : TableId) (name : Text) : Prop :=
  ∀ schema, catalog.tables.lookup name = some schema → schema.id.toNat = table

/-- The rows that a statement may take away. -/
def Takes (row : List Value) : RowStatement → Prop
  | .update u => matchesWhere u.whereClause row = some true
  | .delete d => matchesWhere d.whereClause row = some true
  | _ => False

/-- The values of one of the rows of an INSERT. -/
def Inserts (node : InsertNode) (record : List Value) : Prop :=
  ∃ exprs ∈ node.values, exprs.mapM (evaluateExpression []) = some record

/-- What an UPDATE makes of one of the rows that it matches. -/
def Replaces (u : UpdateNode) (schema : TableSchema) (record : List Value) : Prop :=
  ∃ old, matchesWhere u.whereClause old = some true ∧
    applyAssignments schema old u.assignments old = some record

/-- The rows that a statement may put into the table, as they are read. -/
def Puts (catalog : Catalog) (row : List Value) : RowStatement → Prop
  | .insert node => ∃ record, Inserts node record ∧ ReadsAs record (some row)
  | .update u => ∃ schema, catalog.tables.lookup u.table = some schema ∧
      ∃ record, Replaces u schema record ∧ ReadsAs record (some row)
  | _ => False

/-- From one store to another, on the pages of one table. -/
structure Framed (table : TableId) (takes puts : List Value → Prop) (s s' : Store) : Prop where
  heap : RecordHeap.Framed takes puts (s.heap table) (s'.heap table)
  elsewhere : SameElsewhere table s s'

end Definitions

section Frames

variable {s s' s'' : Store} {table : TableId} {takes puts : List Value → Prop} {pid : PageId}
  {p q : Page} {values : List Value}

theorem Framed.refl (s : Store) : Framed table takes puts s s := ⟨.refl _,.refl _ _⟩

theorem Framed.trans (h : Framed table takes puts s s') (h' : Framed table takes puts s' s'') :
    Framed table takes puts s s'' := ⟨h.heap.trans h'.heap,h.elsewhere.trans h'.elsewhere⟩

theorem Framed.mono {takes' puts' : List Value → Prop} (h : Framed table takes puts s s')
    (htakes : ∀ row, takes row → takes' row) (hputs : ∀ row, puts row → puts' row) :
    Framed table takes' puts' s s' := ⟨h.heap.mono htakes hputs,h.elsewhere⟩

end Frames

section Loops

variable {s s' : Store} {takes puts : List Value → Prop} {t t' : OpenTable} {it : TableCursor}
  {m m' : TransactionManager} {values : List Value} {tx : Option TransactionId} {fuel : ℕ}
  {status : Status} {rid : Option RecordId} {u : UpdateNode} {d : DeleteNode}
  {rows : List (List ASTNode)}

end Loops

section Statements

variable {fuel : ℕ} {db db' : Database} {tx : Option TransactionId} {status : Status}
  {around : Surroundings} {statement : RowStatement} {table : TableId}
  {statements : List (Surroundings × RowStatement)}

end Statements

end QueryExecutor
end OrangeSQL
