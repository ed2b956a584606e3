import OrangeSQL.ExpressionPrinting

/-! Printing of SELECT, INSERT, UPDATE and DELETE trees over a rendering of their expressions,
and the rendering that `Expr` gives. -/
namespace OrangeSQL

open Parsing

def UnaryOp.ofOperator : Operator → Option UnaryOp
  | .PLUS => some .plus
  | .MINUS => some .minus
  | .NOT => some .not
  | _ => none

def BinaryOp.ofOperator : Operator → Option BinaryOp
  | .OR => some .or
  | .AND => some .and
  | .EQ => some .eq
  | .NE => some .ne
  | .LT => some .lt
  | .LE => some .le
  | .GT => some .gt
  | .GE => some .ge
  | .LIKE => some .like
  | .NOT_LIKE => some .notLike
  | .PLUS => some .plus
  | .MINUS => some .minus
  | .CONCAT => some .concat
  | .MULTIPLY => some .multiply
  | .DIVIDE => some .divide
  | .MODULO => some .modulo
  | _ => none

/-- The literal of a value, for the types whose literals are printed. -/
def Expr.ofValue (v : Value) : Option Expr :=
  match v.type with
  | .integer => if h : v.data.toNat < 2147483648 then some (.integer ⟨v.data.toNat,h⟩) else none
  | .varchar => some (.string (v.strVal.map fun b => Char.ofNat b.toNat))
  | .boolean => some (.boolean (v.data = 1))
  | .nullType => some .null
  | _ => none

/-- An expression that stands for a tree. -/
def Expr.ofNode : ASTNode → Option Expr
  | .literal v => Expr.ofValue v
  | .columnRef table name => some (if table = [] then .column name else .tableColumn table name)
  | .unary op x => do
    let op ← UnaryOp.ofOperator op
    let e ← Expr.ofNode x
    return .unary op e
  | .binary op x (some y) => do
    let op ← BinaryOp.ofOperator op
    let left ← Expr.ofNode x
    let right ← Expr.ofNode y
    return .binary op left right
  | _ => none

/-- The rendering of the trees that are expressions. -/
def printNode (x : ASTNode) : List Lexeme :=
  match Expr.ofNode x with
  | some e => e.print
  | none => []

theorem UnaryOp.ofOperator_operator (op : UnaryOp) : UnaryOp.ofOperator op.operator = some op := by
  cases op <;> rfl

theorem BinaryOp.ofOperator_operator (op : BinaryOp) :
    BinaryOp.ofOperator op.operator = some op := by
  cases op <;> rfl

theorem Expr.ofNode_toNode (e : Expr) :
    ∃ e', Expr.ofNode e.toNode = some e' ∧ e'.toNode = e.toNode := by
  induction e with
  | integer n =>
    have hn := n.isLt
    have hdata : (Int32.ofInt n).toUInt32.toUInt64.toNat = n := by
      rw [UInt32.toNat_toUInt64]
      change ((n.val:ℤ) % 2^32).toNat = n.val
      omega
    refine ⟨.integer n,?_,rfl⟩
    simp only [toNode,ofNode,ofValue,Value.ofInt,hdata,n.isLt,dite_true]
  | string text =>
    have hb : ∀ b : UInt8, (Char.ofNat b.toNat).toNat.toUInt8 = b := by
      intro b
      have hv : b.toNat.isValidChar := .inl (by have := b.toNat_lt; omega)
      rw [Char.ofNat,dif_pos hv]
      exact UInt8.ofNat_toNat
    refine ⟨_,rfl,?_⟩
    simp only [toNode,Value.ofText,List.map_map]
    congr 2
    apply List.map_congr_left
    intro c _
    exact hb c.toNat.toUInt8
  | boolean v => exact ⟨.boolean v,by cases v <;> rfl,rfl⟩
  | null => exact ⟨.null,rfl,rfl⟩
  | column name => exact ⟨.column name,rfl,rfl⟩
  | tableColumn table name =>
    by_cases h : table = []
    · exact ⟨.column name,by rw [toNode,ofNode,if_pos h],by rw [h]; rfl⟩
    · exact ⟨.tableColumn table name,by rw [toNode,ofNode,if_neg h],rfl⟩
  | unary op e ih =>
    obtain ⟨e',he,heq⟩ := ih
    refine ⟨.unary op e',?_,by rw [toNode,heq,toNode]⟩
    rw [toNode,ofNode,UnaryOp.ofOperator_operator,he]
    rfl
  | binary op left right ihl ihr =>
    obtain ⟨left',hl,hleft⟩ := ihl
    obtain ⟨right',hr,hright⟩ := ihr
    refine ⟨.binary op left' right',?_,by rw [toNode,hleft,hright,toNode]⟩
    rw [toNode,ofNode,BinaryOp.ofOperator_operator,hl,hr]
    rfl

def keyword (t : TokenType) (text : String) : Lexeme := ⟨t,text.toList⟩

def comma : Lexeme := ⟨.COMMA,[',']⟩

def commaSeparated : List (List Lexeme) → List Lexeme
  | [] => []
  | [ts] => ts
  | ts::us::list => ts++comma::commaSeparated (us::list)

def printOptional {α : Type} (render : α → List Lexeme) : Option α → List Lexeme
  | none => []
  | some a => render a

def printAlias (aliasName : Text) : List Lexeme :=
  if aliasName = [] then [] else [keyword .AS "AS",identifier aliasName]

def printColumnList (columns : List Text) : List Lexeme :=
  inParentheses (commaSeparated (columns.map fun name => [identifier name]))

def printJoinType : JoinType → List Lexeme
  | .INNER => [keyword .INNER "INNER"]
  | .LEFT => [keyword .LEFT "LEFT"]
  | .RIGHT => [keyword .RIGHT "RIGHT"]
  | .FULL => [keyword .FULL "FULL"]
  | .CROSS => [keyword .CROSS "CROSS"]
  | .NATURAL => []

def printCount (v : Int32) : Lexeme := ⟨.INTEGER,Nat.toDigits 10 v.toInt.toNat⟩

def printLimit (l : LimitNode) : List Lexeme :=
  [keyword .LIMIT "LIMIT",printCount l.limit,keyword .OFFSET "OFFSET",printCount l.offset]

def printSetOperation : SetOperation → List Lexeme
  | .NONE => []
  | .UNION => [keyword .UNION "UNION"]
  | .UNION_ALL => [keyword .UNION "UNION",keyword .ALL "ALL"]
  | .INTERSECT => [keyword .INTERSECT "INTERSECT"]
  | .EXCEPT => [keyword .EXCEPT "EXCEPT"]

/-- What `SELECT *` has in its list. -/
def starNode : ASTNode := .literal (.ofText ['*'])

section

variable (pr : ASTNode → List Lexeme)

def printSelectItem : ASTNode → List Lexeme
  | .literal v => if v = .ofText ['*'] then [⟨.STAR,['*']⟩] else pr (.literal v)
  | x => pr x

/-- ON or USING of a join, or neither. -/
def printJoinCondition : Option ASTNode → List Text → List Lexeme
  | some x, _ => keyword .ON "ON"::pr x
  | none, [] => []
  | none, columns => keyword .USING "USING"::printColumnList columns

def printJoin (j : JoinClause) : List Lexeme :=
  printJoinType j.type++keyword .JOIN "JOIN"::identifier j.table::(printAlias j.aliasName++
    printJoinCondition pr j.condition j.usingColumns)

def printWhere (w : WhereClause) : List Lexeme := keyword .WHERE "WHERE"::pr w.condition

def printHaving (w : WhereClause) : List Lexeme := keyword .HAVING "HAVING"::pr w.condition

def printGroupBy (g : GroupByNode) : List Lexeme :=
  keyword .GROUP "GROUP"::keyword .BY "BY"::commaSeparated (g.columns.map pr)

def printOrderByItem (i : OrderByItem) : List Lexeme :=
  pr i.expr++[if i.ascending then keyword .ASC "ASC" else keyword .DESC "DESC"]

def printOrderBy (o : OrderByNode) : List Lexeme :=
  keyword .ORDER "ORDER"::keyword .BY "BY"::commaSeparated (o.items.map (printOrderByItem pr))

mutual

/-- The tokens of a SELECT, its clauses in the order of the grammar. -/
def printSelect : SelectNode → List Lexeme
  | ⟨distinct,selectList,fromTables,joins,whereClause,groupBy,having,orderBy,limit,setOperation,
      setOperand⟩ =>
    keyword .SELECT "SELECT"::((if distinct then [keyword .DISTINCT "DISTINCT"] else [])++
      (commaSeparated (selectList.map (printSelectItem pr))++
      keyword .FROM "FROM"::(commaSeparated (printTables fromTables)++
      (joins.flatMap (printJoin pr)++
      (printOptional (printWhere pr) whereClause++
      (printOptional (printGroupBy pr) groupBy++
      (printOptional (printHaving pr) having++
      (printOptional (printOrderBy pr) orderBy++
      (printOptional printLimit limit++
      (printSetOperation setOperation++printOperand setOperand))))))))))

def printTables : List TableRef → List (List Lexeme)
  | [] => []
  | t::tables => printTable t::printTables tables

def printTable : TableRef → List Lexeme
  | ⟨tableName,aliasName,none⟩ => identifier tableName::printAlias aliasName
  | ⟨_,aliasName,some q⟩ => inParentheses (printSelect q)++printAlias aliasName

def printOperand : Option SelectNode → List Lexeme
  | none => []
  | some q => printSelect q

end

/-- The node without its set operation. -/
def SelectNode.body (s : SelectNode) : SelectNode :=
  { s with setOperation := .NONE, setOperand := none }

theorem printSelect_eq (s : SelectNode) :
    printSelect pr s =
      printSelect pr s.body++(printSetOperation s.setOperation++printOperand pr s.setOperand) := by
  cases s
  simp [SelectNode.body,printSelect,printSetOperation,printOperand]

theorem length_printSelect_pos (s : SelectNode) : 0 < (printSelect pr s).length := by
  cases s
  rw [printSelect]
  exact Nat.zero_lt_succ _

def printInsert (i : InsertNode) : List Lexeme :=
  keyword .INSERT "INSERT"::keyword .INTO "INTO"::identifier i.table::
    ((if i.columns = [] then [] else printColumnList i.columns)++
      keyword .VALUES "VALUES"::commaSeparated
        (i.values.map fun row => inParentheses (commaSeparated (row.map pr))))

def printAssignment (a : Assignment) : List Lexeme :=
  identifier a.column::⟨.ASSIGN,['=']⟩::pr a.value

def printUpdate (u : UpdateNode) : List Lexeme :=
  keyword .UPDATE "UPDATE"::identifier u.table::keyword .SET "SET"::
    (commaSeparated (u.assignments.map (printAssignment pr))++
      printOptional (printWhere pr) u.whereClause)

def printDelete (d : DeleteNode) : List Lexeme :=
  keyword .DELETE "DELETE"::keyword .FROM "FROM"::identifier d.table::
    printOptional (printWhere pr) d.whereClause

/-- Only the four statements below are printed. -/
def printStatement : Statement → List Lexeme
  | .select s => printSelect pr s
  | .insert i => printInsert pr i
  | .update u => printUpdate pr u
  | .delete d => printDelete pr d
  | _ => []

end

section

variable (good : ASTNode → Prop)

/-- An ON expression or a list of USING, or neither of them. -/
structure JoinClause.Printable (j : JoinClause) : Prop where
  type : j.type ≠ .NATURAL
  condition : ∀ x, j.condition = some x → good x
  either : j.condition = none ∨ j.usingColumns = []

/-- The SELECT trees with non-empty lists, all of whose expressions, also those of sub-selects
and set operands, are good. A count that is printed is not negative, and a table is a name or a
sub-select. -/
inductive SelectNode.Printable : SelectNode → Prop
  | intro (s : SelectNode)
    (selectList : s.selectList ≠ [])
    (items : ∀ x ∈ s.selectList, x = starNode ∨ good x)
    (fromTables : s.fromTables ≠ [])
    (tables : ∀ t ∈ s.fromTables, t.tableName = [] ∨ t.subquery = none)
    (subqueries : ∀ t ∈ s.fromTables, ∀ q, t.subquery = some q → Printable q)
    (joins : ∀ j ∈ s.joins, j.Printable good)
    (whereClause : ∀ w, s.whereClause = some w → good w.condition)
    (groupBy : ∀ g, s.groupBy = some g → g.columns ≠ [] ∧ ∀ x ∈ g.columns, good x)
    (having : ∀ w, s.having = some w → good w.condition)
    (orderBy : ∀ o, s.orderBy = some o → o.items ≠ [] ∧ ∀ i ∈ o.items, good i.expr)
    (limit : ∀ l, s.limit = some l → 0 ≤ l.limit.toInt ∧ 0 ≤ l.offset.toInt)
    (setOperation : s.setOperation = .NONE ↔ s.setOperand = none)
    (setOperand : ∀ q, s.setOperand = some q → Printable q) : Printable s

theorem SelectNode.Printable.body {good : ASTNode → Prop} {s : SelectNode} (hs : s.Printable good) :
    s.body.Printable good := by
  cases hs with
  | intro s hlist hitems htables htable hsub hjoins hwhere hgroup hhaving horder hlimit =>
    exact .intro _ hlist hitems htables htable hsub hjoins hwhere hgroup hhaving horder hlimit
      ⟨fun _ => rfl,fun _ => rfl⟩ nofun

/-- The trees of INSERT ... VALUES with one or more non-empty rows. -/
structure InsertNode.Printable (i : InsertNode) : Prop where
  values : i.values ≠ []
  rows : ∀ row ∈ i.values, row ≠ [] ∧ ∀ x ∈ row, good x
  select : i.select = none

structure UpdateNode.Printable (u : UpdateNode) : Prop where
  assignments : u.assignments ≠ []
  values : ∀ a ∈ u.assignments, good a.value
  whereClause : ∀ w, u.whereClause = some w → good w.condition

structure DeleteNode.Printable (d : DeleteNode) : Prop where
  whereClause : ∀ w, d.whereClause = some w → good w.condition

def Statement.Printable : Statement → Prop
  | .select s => s.Printable good
  | .insert i => i.Printable good
  | .update u => u.Printable good
  | .delete d => d.Printable good
  | _ => False

end

end OrangeSQL
