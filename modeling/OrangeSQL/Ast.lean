import OrangeSQL.Lexer

/-! The syntax trees that the parser builds. A pointer that may be null is an `Option`, and a
string that may be missing is empty, as in the source. Line and column of a node, which the
parser leaves at zero, are left out. -/
namespace OrangeSQL

open Bytes

inductive Operator
  | PLUS | MINUS | MULTIPLY | DIVIDE | MODULO
  | EQ | NE | LT | LE | GT | GE | LIKE | NOT_LIKE | IN | NOT_IN
  | IS_NULL | IS_NOT_NULL | BETWEEN | NOT_BETWEEN
  | AND | OR | NOT
  | ASSIGN | CONCAT
  deriving DecidableEq, Repr

def operatorToString : Operator → Text
  | .PLUS => "+".toList
  | .MINUS => "-".toList
  | .MULTIPLY => "*".toList
  | .DIVIDE => "/".toList
  | .MODULO => "%".toList
  | .EQ => "=".toList
  | .NE => "!=".toList
  | .LT => "<".toList
  | .LE => "<=".toList
  | .GT => ">".toList
  | .GE => ">=".toList
  | .LIKE => "LIKE".toList
  | .NOT_LIKE => "NOT LIKE".toList
  | .IN => "IN".toList
  | .NOT_IN => "NOT IN".toList
  | .IS_NULL => "IS NULL".toList
  | .IS_NOT_NULL => "IS NOT NULL".toList
  | .BETWEEN => "BETWEEN".toList
  | .NOT_BETWEEN => "NOT BETWEEN".toList
  | .AND => "AND".toList
  | .OR => "OR".toList
  | .NOT => "NOT".toList
  | .ASSIGN => ":=".toList
  | .CONCAT => "||".toList

inductive JoinType
  | INNER | LEFT | RIGHT | FULL | CROSS | NATURAL
  deriving DecidableEq, Repr

inductive SetOperation
  | NONE | UNION | UNION_ALL | INTERSECT | EXCEPT
  deriving DecidableEq, Repr

structure LimitNode where
  limit : Int32
  offset : Int32
  deriving DecidableEq, Repr

mutual

/-- `list` is the empty node that stands for the list of an IN. -/
inductive ASTNode where
  | literal (value : Value)
  | columnRef (table column : Text)
  | binary (op : Operator) (left : ASTNode) (right : Option ASTNode)
  | unary (op : Operator) (expr : ASTNode)
  | functionCall (name : Text) (arguments : List ASTNode)
  | list
  | select (node : SelectNode)

structure WhereClause where
  condition : ASTNode

structure JoinClause where
  type : JoinType
  table : Text
  aliasName : Text
  condition : Option ASTNode
  usingColumns : List Text

structure OrderByItem where
  expr : ASTNode
  ascending : Bool

structure OrderByNode where
  items : List OrderByItem

structure GroupByNode where
  columns : List ASTNode

structure TableRef where
  tableName : Text
  aliasName : Text
  subquery : Option SelectNode

structure SelectNode where
  distinct : Bool
  selectList : List ASTNode
  fromTables : List TableRef
  joins : List JoinClause
  whereClause : Option WhereClause
  groupBy : Option GroupByNode
  having : Option WhereClause
  orderBy : Option OrderByNode
  limit : Option LimitNode
  setOperation : SetOperation
  setOperand : Option SelectNode

end

structure InsertNode where
  table : Text
  columns : List Text
  values : List (List ASTNode)
  select : Option SelectNode

structure Assignment where
  column : Text
  value : ASTNode

structure UpdateNode where
  table : Text
  assignments : List Assignment
  whereClause : Option WhereClause

structure DeleteNode where
  table : Text
  whereClause : Option WhereClause

/-- What the parser sets of a column; its length, default and check stay empty. -/
structure ColumnDef where
  name : Text
  type : DataType
  nullable : Bool
  primaryKey : Bool
  unique : Bool

inductive ConstraintType
  | PRIMARY_KEY | FOREIGN_KEY | UNIQUE | CHECK
  deriving DecidableEq, Repr

structure Constraint where
  type : ConstraintType
  columns : List Text
  refTable : Text
  refColumns : List Text
  checkExpr : Text

structure CreateTableNode where
  tableName : Text
  columns : List ColumnDef
  constraints : List Constraint

structure CreateIndexNode where
  indexName : Text
  tableName : Text
  columns : List Text
  unique : Bool

structure DropTableNode where
  tableName : Text
  ifExists : Bool

/-- BEGIN, COMMIT and ROLLBACK nodes have the same members. -/
structure TransactionNode where
  name : Text
  isSavepoint : Bool

inductive Statement
  | select (node : SelectNode)
  | insert (node : InsertNode)
  | update (node : UpdateNode)
  | delete (node : DeleteNode)
  | createTable (node : CreateTableNode)
  | createIndex (node : CreateIndexNode)
  | dropTable (node : DropTableNode)
  | begin (node : TransactionNode)
  | commit (node : TransactionNode)
  | rollback (node : TransactionNode)

/-- The constructor from a string: its characters are its bytes. It leaves the union unset, which
then has what the memory held, zero where nothing else is said. -/
def Value.ofText (text : Text) (unset : UInt64 := 0) : Value :=
  ⟨.varchar,unset,text.map fun c => c.toNat.toUInt8,[]⟩

/-- The constructor from `bool` sets the low byte of the union and leaves the others unset. -/
def Value.ofBool (v : Bool) (unset : UInt64 := 0) : Value :=
  ⟨.boolean,unset/256*256+(if v then 1 else 0),[],[]⟩

/-- The constructor from `int64_t`. -/
def Value.ofBigint (v : UInt64) : Value := ⟨.bigint,v,[],[]⟩

end OrangeSQL
