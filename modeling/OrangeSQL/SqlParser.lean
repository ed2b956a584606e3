import OrangeSQL.Ast
import OrangeSQL.Library.Parsing

/-! The recursive descent parser. Its state is the list of tokens from the current one on; the
empty list is the END_OF_FILE that the lexer returns for ever. Recursive calls go through the
record `Calls`, so that the recursion of the source is tied once, with fuel, in `calls`. -/
namespace OrangeSQL

open Parsing

/-- What a parse throws: `error` with its message and the tokens from the current one on, or
the exceptions of `std::stoi` and `std::stod`. -/
inductive Failure
  | syntaxError (message : String) (rest : List Lexeme)
  | invalidArgument
  | outOfRange

/-- A parser; its ghost events are what stands behind each CASE it enters. -/
abbrev SQLParser (α : Type) := Parser Lexeme Failure (List Lexeme) α

def endOfFile : Lexeme := ⟨.END_OF_FILE,[]⟩

namespace SQLParser

/-- `current_token_`. -/
def currentToken : SQLParser Lexeme := do
  let rest ← Parser.remaining
  return rest.headD endOfFile

/-- The token behind the current one, which the lexer's `peekToken` returns. -/
def peekToken : SQLParser Lexeme := do
  let rest ← Parser.remaining
  return rest.tail.headD endOfFile

def nextToken : SQLParser Unit := Parser.advance

def error {α : Type} (message : String) : SQLParser α := do
  let rest ← Parser.remaining
  Parser.fail (.syntaxError message rest)

/-- `match`. -/
def isMatch (expected : TokenType) : SQLParser Bool := do
  let token ← currentToken
  return token.type = expected

def matchAny (types : List TokenType) : SQLParser Bool := do
  let token ← currentToken
  return token.type ∈ types

def expect (expected : TokenType) : SQLParser Unit := do
  let token ← currentToken
  if token.type = expected then pure ()
  else error s!"Esperado {expected.ctorIdx}, encontrado '{String.ofList token.text}'"

def consume (expected : TokenType) : SQLParser Lexeme := do
  let token ← currentToken
  expect expected
  nextToken
  return token

/-- `expect(t); nextToken();`. -/
def expectNext (t : TokenType) : SQLParser Unit := do
  expect t
  nextToken

/-- `if (match(t)) nextToken()`, and whether it did. -/
def accept (t : TokenType) : SQLParser Bool := do
  if ← isMatch t then
    nextToken
    return true
  else return false

/-- An `if (match(t))` whose branch sets a pointer. -/
def optional {α : Type} (t : TokenType) (p : SQLParser α) : SQLParser (Option α) := do
  if ← isMatch t then
    let a ← p
    return some a
  else return none

/-- The same for a token that the branch itself skips. -/
def acceptThen {α : Type} (t : TokenType) (p : SQLParser α) : SQLParser (Option α) := do
  if ← accept t then
    let a ← p
    return some a
  else return none

/-- The `do` loop over a list whose items are separated by commas. -/
def commaList {α : Type} (fuel : ℕ) (item : SQLParser α) : SQLParser (List α) :=
  Parser.loop fuel (fun list => do
    let a ← item
    if ← accept .COMMA then return .inl (list++[a]) else return .inr (list++[a])) []

/-- A `while (matchAny(types))` loop that collects items. -/
def whileAny {α : Type} (fuel : ℕ) (types : List TokenType) (item : SQLParser α) :
    SQLParser (List α) :=
  Parser.loop fuel (fun list => do
    if ← matchAny types then
      let a ← item
      return .inl (list++[a])
    else return .inr list) []

end SQLParser

/-- `std::stoi`: whitespace, a sign and the digits behind it. -/
def stoi (text : Text) : Except Failure Int32 :=
  let text := text.dropWhile isspace
  let digits := (text.drop (signAt text).length).takeWhile Char.isDigit
  let magnitude : ℤ := Nat.ofDigitChars 10 digits 0
  let value := if signAt text = ['-'] then -magnitude else magnitude
  if digits = [] then .error .invalidArgument
  else if value < -2147483648 ∨ 2147483647 < value then .error .outOfRange
  else .ok (Int32.ofInt value)

theorem stoi_toDigits (n : ℕ) (hn : n < 2147483648) :
    stoi (Nat.toDigits 10 n) = .ok (Int32.ofInt n) := by
  have hne : Nat.toDigits 10 n ≠ [] := Nat.toDigits_ne_nil
  have hvalue := @Nat.ofDigitChars_ten_toDigits n
  simp only [stoi,dropWhile_isspace_toDigits,signAt_toDigits,List.length_nil,List.drop_zero,
    takeWhile_isDigit_toDigits,hvalue]
  rw [if_neg hne]
  simp only [List.nil_eq,reduceCtorEq,if_false]
  rw [if_neg (by omega)]

theorem stoi_toDigits_of_le (n : ℕ) (hn : 2147483648 ≤ n) :
    stoi (Nat.toDigits 10 n) = .error .outOfRange := by
  have hne : Nat.toDigits 10 n ≠ [] := Nat.toDigits_ne_nil
  have hvalue := @Nat.ofDigitChars_ten_toDigits n
  simp only [stoi,dropWhile_isspace_toDigits,signAt_toDigits,List.length_nil,List.drop_zero,
    takeWhile_isDigit_toDigits,hvalue]
  rw [if_neg hne]
  simp only [List.nil_eq,reduceCtorEq,if_false]
  rw [if_pos (by omega)]

/-- The procedures that call each other recursively, with the fuel for loops. `stod` is
`static_cast<int64_t>(std::stod(text))`, or `none` where it throws. -/
structure Calls where
  fuel : ℕ
  stod : Text → Option UInt64
  expression : SQLParser ASTNode
  select : SQLParser SelectNode

namespace SQLParser

def liftStoi (text : Text) : SQLParser Int32 :=
  match stoi text with
  | .ok v => pure v
  | .error e => Parser.fail e

/-- The operator that the current token stands for in a table, read if there is one. -/
def operatorIn (table : List (TokenType × Operator)) : SQLParser (Option Operator) := do
  let token ← currentToken
  match table.lookup token.type with
  | none => return none
  | some op =>
    nextToken
    return some op

/-- A round of the loop of a level of binary operators, with what is parsed so far. -/
def binaryRound (operator : SQLParser (Option Operator)) (operand : SQLParser ASTNode)
    (left : ASTNode) : SQLParser (ASTNode ⊕ ASTNode) := do
  match ← operator with
  | none => return .inr left
  | some op =>
    let right ← operand
    return .inl (.binary op left (some right))

/-- A level of binary operators: operands from the left, as long as there is an operator of
the level. -/
def leftAssociative (fuel : ℕ) (operator : SQLParser (Option Operator))
    (operand : SQLParser ASTNode) : SQLParser ASTNode := do
  let left ← operand
  Parser.loop fuel (binaryRound operator operand) left

/-- CASE: everything through END is skipped. -/
def skipCase (c : Calls) : SQLParser Unit := do
  nextToken
  let behind ← Parser.remaining
  Parser.emit behind
  Parser.loop c.fuel (fun _ => do
    if ← isMatch .END then return .inr ()
    else
      nextToken
      return .inl ()) ()
  expectNext .END

def parseColumnRef : SQLParser ASTNode := do
  let first ← consume .IDENTIFIER
  if ← accept .DOT then
    let second ← consume .IDENTIFIER
    return .columnRef first.text second.text
  else return .columnRef [] first.text

/-- The branch for a function call, behind the one for column references, which takes every
identifier. -/
def parseFunctionCall (c : Calls) : SQLParser ASTNode := do
  let name ← consume .IDENTIFIER
  let _ ← consume .LPAREN
  if ← isMatch .RPAREN then
    expectNext .RPAREN
    return .functionCall name.text []
  else
    let arguments ← commaList c.fuel c.expression
    expectNext .RPAREN
    return .functionCall name.text arguments

def parseParenthesised (c : Calls) : SQLParser ASTNode := do
  if ← isMatch .SELECT then
    let subquery ← c.select
    expectNext .RPAREN
    return .select subquery
  else
    let expr ← c.expression
    expectNext .RPAREN
    return expr

def parsePrimary (c : Calls) : SQLParser ASTNode := do
  let token ← currentToken
  let next ← peekToken
  if token.type = .INTEGER then
    match stoi token.text with
    | .ok v =>
      nextToken
      return .literal (.ofInt v)
    | .error e => Parser.fail e
  else if token.type = .FLOAT then
    match c.stod token.text with
    | some v =>
      nextToken
      return .literal (.ofBigint v)
    | none => Parser.fail .outOfRange
  else if token.type = .STRING then
    nextToken
    return .literal (.ofText token.text)
  else if token.type = .BOOLEAN then
    nextToken
    return .literal (.ofBool (token.text = "TRUE".toList))
  else if token.type = .NULL then
    nextToken
    return .literal .null
  else if token.type = .IDENTIFIER then parseColumnRef
  else if token.type = .IDENTIFIER ∧ next.type = .LPAREN then parseFunctionCall c
  else if token.type = .LPAREN then
    nextToken
    parseParenthesised c
  else if token.type = .CASE then
    skipCase c
    error "Expressão inválida"
  else error "Expressão inválida"

/-- The recursion of `parseUnary` on itself, at most `n` operators deep. -/
def parseUnaryWith (c : Calls) : ℕ → SQLParser ASTNode
  | 0 => Parser.outOfFuel
  | n+1 => do
    match ← operatorIn [(.PLUS,.PLUS),(.MINUS,.MINUS),(.NOT,.NOT)] with
    | some op =>
      let expr ← parseUnaryWith c n
      return .unary op expr
    | none => parsePrimary c

def parseUnary (c : Calls) : SQLParser ASTNode := parseUnaryWith c c.fuel

def parseMultiplicative (c : Calls) : SQLParser ASTNode :=
  leftAssociative c.fuel
    (operatorIn [(.STAR,.MULTIPLY),(.SLASH,.DIVIDE),(.PERCENT,.MODULO)]) (parseUnary c)

def parseAdditive (c : Calls) : SQLParser ASTNode :=
  leftAssociative c.fuel
    (operatorIn [(.PLUS,.PLUS),(.MINUS,.MINUS),(.CONCAT,.CONCAT)]) (parseMultiplicative c)

/-- The operators of `parseRelational`, of which NOT LIKE has two tokens. -/
def relationalOperator : SQLParser (Option Operator) := do
  if ← accept .NOT then
    expectNext .LIKE
    return some .NOT_LIKE
  else operatorIn [(.LT,.LT),(.LE,.LE),(.GT,.GT),(.GE,.GE),(.LIKE,.LIKE)]

def parseRelational (c : Calls) : SQLParser ASTNode :=
  leftAssociative c.fuel relationalOperator (parseAdditive c)

/-- IS [NOT] NULL behind `left`. -/
def parseIsNull (left : ASTNode) : SQLParser ASTNode := do
  if ← accept .IS then
    let negated ← accept .NOT
    expectNext .NULL
    return .unary (if negated then .IS_NOT_NULL else .IS_NULL) left
  else return left

/-- [NOT] IN behind `left`; a list of values is not parsed. -/
def parseIn (c : Calls) (left : ASTNode) : SQLParser ASTNode := do
  let token ← currentToken
  let next ← peekToken
  if token.type = .IN ∨ token.type = .NOT ∧ next.type = .IN then
    let negated ← accept .NOT
    expectNext .IN
    expectNext .LPAREN
    let right ← optional .SELECT c.select
    expectNext .RPAREN
    return .binary (if negated then .NOT_IN else .IN) left
      (some ((right.map ASTNode.select).getD .list))
  else return left

/-- [NOT] BETWEEN behind `left`; the bounds are parsed and dropped. -/
def parseBetween (c : Calls) (left : ASTNode) : SQLParser ASTNode := do
  let token ← currentToken
  let next ← peekToken
  if token.type = .BETWEEN ∨ token.type = .NOT ∧ next.type = .BETWEEN then
    let negated ← accept .NOT
    expectNext .BETWEEN
    let _ ← c.expression
    expectNext .AND
    let _ ← c.expression
    return .binary (if negated then .NOT_BETWEEN else .BETWEEN) left none
  else return left

def parseEquality (c : Calls) : SQLParser ASTNode := do
  let left ← leftAssociative c.fuel (operatorIn [(.EQ,.EQ),(.NE,.NE)]) (parseRelational c)
  let left ← parseIsNull left
  let left ← parseIn c left
  parseBetween c left

def parseLogicalAnd (c : Calls) : SQLParser ASTNode :=
  leftAssociative c.fuel (operatorIn [(.AND,.AND)]) (parseEquality c)

def parseLogicalOr (c : Calls) : SQLParser ASTNode :=
  leftAssociative c.fuel (operatorIn [(.OR,.OR)]) (parseLogicalAnd c)

def parseExpression (c : Calls) : SQLParser ASTNode := parseLogicalOr c

def parseWhere (c : Calls) : SQLParser WhereClause := do
  let _ ← consume .WHERE
  let condition ← c.expression
  return ⟨condition⟩

def parseOrderByItem (c : Calls) : SQLParser OrderByItem := do
  let expr ← c.expression
  if ← accept .ASC then return ⟨expr,true⟩
  else if ← accept .DESC then return ⟨expr,false⟩
  else return ⟨expr,true⟩

def parseOrderBy (c : Calls) : SQLParser OrderByNode := do
  let _ ← consume .ORDER
  expectNext .BY
  let items ← commaList c.fuel (parseOrderByItem c)
  return ⟨items⟩

def parseGroupBy (c : Calls) : SQLParser GroupByNode := do
  let _ ← consume .GROUP
  expectNext .BY
  let columns ← commaList c.fuel c.expression
  return ⟨columns⟩

/-- `std::stoi(consume(INTEGER).text)` where the current token is an INTEGER, else `old`. -/
def parseCount (old : Int32) : SQLParser Int32 := do
  if ← isMatch .INTEGER then
    let token ← consume .INTEGER
    liftStoi token.text
  else return old

/-- LIMIT n, LIMIT n OFFSET m, or LIMIT m, n. -/
def parseLimit : SQLParser LimitNode := do
  let _ ← consume .LIMIT
  let limit ← parseCount (-1)
  if ← accept .OFFSET then
    let offset ← parseCount 0
    return ⟨limit,offset⟩
  else if ← accept .COMMA then
    let count ← parseCount limit
    return ⟨count,limit⟩
  else return ⟨limit,0⟩

/-- The type of a join that begins with a keyword other than JOIN, an OUTER behind it skipped
where the source allows one. -/
def parseJoinType : SQLParser JoinType := do
  let token ← currentToken
  match token.type with
  | .INNER =>
    nextToken
    return .INNER
  | .LEFT =>
    nextToken
    let _ ← accept .OUTER
    return .LEFT
  | .RIGHT =>
    nextToken
    let _ ← accept .OUTER
    return .RIGHT
  | .FULL =>
    nextToken
    let _ ← accept .OUTER
    return .FULL
  | .CROSS =>
    nextToken
    return .CROSS
  | _ => return .INNER

/-- An optional alias, with or without AS. -/
def parseAlias : SQLParser Text := do
  if ← accept .AS then
    let name ← consume .IDENTIFIER
    return name.text
  else if ← isMatch .IDENTIFIER then
    let name ← consume .IDENTIFIER
    return name.text
  else return []

def parseIdentifier : SQLParser Text := do
  let token ← consume .IDENTIFIER
  return token.text

def parseIdentifierList (c : Calls) : SQLParser (List Text) := commaList c.fuel parseIdentifier

/-- A list of identifiers between parentheses. -/
def parseColumnList (c : Calls) : SQLParser (List Text) := do
  expectNext .LPAREN
  let columns ← parseIdentifierList c
  expectNext .RPAREN
  return columns

def parseJoin (c : Calls) : SQLParser JoinClause := do
  let type ← parseJoinType
  expectNext .JOIN
  let table ← consume .IDENTIFIER
  let aliasName ← parseAlias
  if ← accept .ON then
    let condition ← c.expression
    return ⟨type,table.text,aliasName,some condition,[]⟩
  else if ← accept .USING then
    let columns ← parseColumnList c
    return ⟨type,table.text,aliasName,none,columns⟩
  else return ⟨type,table.text,aliasName,none,[]⟩

/-- An item of the select list; its alias is parsed and dropped. -/
def parseSelectItem (c : Calls) : SQLParser ASTNode := do
  if ← accept .STAR then return .literal (.ofText ['*'])
  else
    let expr ← c.expression
    let _ ← parseAlias
    return expr

def parseSelectList (c : Calls) : SQLParser (List ASTNode) := commaList c.fuel (parseSelectItem c)

def parseExpressionList (c : Calls) : SQLParser (List ASTNode) := commaList c.fuel c.expression

def parseRow (c : Calls) : SQLParser (List ASTNode) := do
  expectNext .LPAREN
  let row ← parseExpressionList c
  expectNext .RPAREN
  return row

def parseValuesList (c : Calls) : SQLParser (List (List ASTNode)) := commaList c.fuel (parseRow c)

def parseTableRef (c : Calls) : SQLParser TableRef := do
  if ← accept .LPAREN then
    let subquery ← c.select
    expectNext .RPAREN
    let aliasName ← parseAlias
    return ⟨[],aliasName,some subquery⟩
  else
    let table ← consume .IDENTIFIER
    let aliasName ← parseAlias
    return ⟨table.text,aliasName,none⟩

def parseDistinct : SQLParser Bool := do
  if ← accept .DISTINCT then return true
  else
    let _ ← accept .ALL
    return false

/-- UNION, INTERSECT and EXCEPT with what they are applied to; an ALL behind one of them is
skipped, and changes UNION only. -/
def parseSetOperation (c : Calls) : SQLParser (SetOperation × Option SelectNode) := do
  if ← accept .UNION then
    let all ← accept .ALL
    let operand ← c.select
    return (if all then .UNION_ALL else .UNION,some operand)
  else if ← accept .INTERSECT then
    let _ ← accept .ALL
    let operand ← c.select
    return (.INTERSECT,some operand)
  else if ← accept .EXCEPT then
    let _ ← accept .ALL
    let operand ← c.select
    return (.EXCEPT,some operand)
  else return (.NONE,none)

def joinKeywords : List TokenType := [.JOIN,.INNER,.LEFT,.RIGHT,.FULL,.CROSS]

def parseFrom (c : Calls) : SQLParser (List TableRef) := do
  if ← accept .FROM then commaList c.fuel (parseTableRef c)
  else error "Esperado FROM após lista de SELECT"

def parseHaving (c : Calls) : SQLParser (Option WhereClause) :=
  acceptThen .HAVING do
    let condition ← c.expression
    return ⟨condition⟩

def parseSelect (c : Calls) : SQLParser SelectNode := do
  let _ ← consume .SELECT
  let distinct ← parseDistinct
  let selectList ← parseSelectList c
  let fromTables ← parseFrom c
  let joins ← whileAny c.fuel joinKeywords (parseJoin c)
  let whereClause ← optional .WHERE (parseWhere c)
  let groupBy ← optional .GROUP (parseGroupBy c)
  let having ← parseHaving c
  let orderBy ← optional .ORDER (parseOrderBy c)
  let limit ← optional .LIMIT parseLimit
  let (setOperation,setOperand) ← parseSetOperation c
  return ⟨distinct,selectList,fromTables,joins,whereClause,groupBy,having,orderBy,limit,
    setOperation,setOperand⟩

def parseInsert (c : Calls) : SQLParser InsertNode := do
  let _ ← consume .INSERT
  expectNext .INTO
  let table ← consume .IDENTIFIER
  let columns ← optional .LPAREN (parseColumnList c)
  if ← accept .VALUES then
    let values ← parseValuesList c
    return ⟨table.text,columns.getD [],values,none⟩
  else if ← isMatch .SELECT then
    let select ← c.select
    return ⟨table.text,columns.getD [],[],some select⟩
  else error "Esperado VALUES ou SELECT após INSERT"

def parseAssignment (c : Calls) : SQLParser Assignment := do
  let column ← consume .IDENTIFIER
  expectNext .ASSIGN
  let value ← c.expression
  return ⟨column.text,value⟩

def parseUpdate (c : Calls) : SQLParser UpdateNode := do
  let _ ← consume .UPDATE
  let table ← consume .IDENTIFIER
  expectNext .SET
  let assignments ← commaList c.fuel (parseAssignment c)
  let whereClause ← optional .WHERE (parseWhere c)
  return ⟨table.text,assignments,whereClause⟩

def parseDelete (c : Calls) : SQLParser DeleteNode := do
  let _ ← consume .DELETE
  expectNext .FROM
  let table ← consume .IDENTIFIER
  let whereClause ← optional .WHERE (parseWhere c)
  return ⟨table.text,whereClause⟩

def parseDataType : SQLParser DataType := do
  if ← isMatch .IDENTIFIER then
    let token ← consume .IDENTIFIER
    if token.text = "INT".toList ∨ token.text = "INTEGER".toList then return .integer
    else if token.text = "BIGINT".toList then return .bigint
    else if token.text = "VARCHAR".toList ∨ token.text = "STRING".toList then
      let _ ← acceptThen .LPAREN do
        let _ ← accept .INTEGER
        expectNext .RPAREN
      return .varchar
    else if token.text = "BOOLEAN".toList ∨ token.text = "BOOL".toList then return .boolean
    else if token.text = "DATE".toList then return .date
    else if token.text = "DECIMAL".toList ∨ token.text = "NUMERIC".toList then return .decimal
    else error "Tipo de dado inválido"
  else error "Tipo de dado inválido"

/-- NOT NULL, skipped where both tokens are there. -/
def acceptNotNull : SQLParser Bool := do
  let token ← currentToken
  let next ← peekToken
  if token.type = .NOT ∧ next.type = .NULL then
    nextToken
    nextToken
    return true
  else return false

/-- The constraints behind a column; DEFAULT skips the token behind it, whatever it is. -/
def parseColumnConstraints (c : Calls) (column : ColumnDef) : SQLParser ColumnDef :=
  Parser.loop c.fuel (fun (column : ColumnDef) => do
    if ← acceptNotNull then return .inl { column with nullable := false }
    else if ← accept .NULL then return .inl { column with nullable := true }
    else if ← accept .PRIMARY then
      expectNext .KEY
      return .inl { column with primaryKey := true }
    else if ← accept .UNIQUE then return .inl { column with unique := true }
    else if ← accept .DEFAULT then
      nextToken
      return .inl column
    else return .inr column) column

def parseColumnDef (c : Calls) : SQLParser ColumnDef := do
  let name ← consume .IDENTIFIER
  let type ← parseDataType
  parseColumnConstraints c ⟨name.text,type,true,false,false⟩

/-- A column or a constraint of CREATE TABLE. The source looks for CONSTRAINT only where one of
the four keywords below stands, so it never finds it. -/
def parseTableElement (c : Calls) : SQLParser (ColumnDef ⊕ Constraint) := do
  if ← accept .PRIMARY then
    expectNext .KEY
    let columns ← parseColumnList c
    return .inr ⟨.PRIMARY_KEY,columns,[],[],[]⟩
  else if ← accept .FOREIGN then
    expectNext .KEY
    let columns ← parseColumnList c
    expectNext .REFERENCES
    let refTable ← consume .IDENTIFIER
    let refColumns ← parseColumnList c
    return .inr ⟨.FOREIGN_KEY,columns,refTable.text,refColumns,[]⟩
  else if ← accept .UNIQUE then
    let columns ← parseColumnList c
    return .inr ⟨.UNIQUE,columns,[],[],[]⟩
  else if ← accept .CHECK then
    expectNext .LPAREN
    expectNext .RPAREN
    return .inr ⟨.CHECK,[],[],[],"TODO".toList⟩
  else
    let column ← parseColumnDef c
    return .inl column

def parseCreateTable (c : Calls) : SQLParser CreateTableNode := do
  let _ ← consume .TABLE
  let table ← consume .IDENTIFIER
  expectNext .LPAREN
  let elements ← commaList c.fuel (parseTableElement c)
  expectNext .RPAREN
  return ⟨table.text,elements.filterMap Sum.getLeft?,elements.filterMap Sum.getRight?⟩

def parseCreateIndex (c : Calls) : SQLParser CreateIndexNode := do
  let _ ← consume .INDEX
  let unique ← accept .UNIQUE
  let index ← consume .IDENTIFIER
  expectNext .ON
  let table ← consume .IDENTIFIER
  let columns ← parseColumnList c
  return ⟨index.text,table.text,columns,unique⟩

/-- The IF of IF EXISTS is no keyword of the lexer, so this clause is never there. -/
def parseDropTable : SQLParser DropTableNode := do
  let _ ← consume .TABLE
  let table ← consume .IDENTIFIER
  return ⟨table.text,false⟩

/-- BEGIN, COMMIT or ROLLBACK with an optional TRANSACTION and a name. The TO of ROLLBACK TO
SAVEPOINT is no keyword of the lexer. -/
def parseTransaction (t : TokenType) : SQLParser TransactionNode := do
  let _ ← consume t
  let _ ← accept .TRANSACTION
  let name ← optional .IDENTIFIER (consume .IDENTIFIER)
  return ⟨(name.map Lexeme.text).getD [],name.isSome⟩

def parseBegin : SQLParser TransactionNode := parseTransaction .BEGIN
def parseCommit : SQLParser TransactionNode := parseTransaction .COMMIT
def parseRollback : SQLParser TransactionNode := parseTransaction .ROLLBACK

def parseCreate (c : Calls) : SQLParser Statement := do
  if ← isMatch .TABLE then
    let node ← parseCreateTable c
    return .createTable node
  else if ← isMatch .INDEX then
    let node ← parseCreateIndex c
    return .createIndex node
  else error "Esperado TABLE ou INDEX após CREATE"

def parseDrop : SQLParser Statement := do
  if ← isMatch .TABLE then
    let node ← parseDropTable
    return .dropTable node
  else error "Esperado TABLE após DROP"

def parseStatement (c : Calls) : SQLParser Statement := do
  let token ← currentToken
  match token.type with
  | .SELECT => Statement.select <$> parseSelect c
  | .INSERT => Statement.insert <$> parseInsert c
  | .UPDATE => Statement.update <$> parseUpdate c
  | .DELETE => Statement.delete <$> parseDelete c
  | .CREATE =>
    nextToken
    parseCreate c
  | .DROP =>
    nextToken
    parseDrop
  | .BEGIN => Statement.begin <$> parseBegin
  | .COMMIT => Statement.commit <$> parseCommit
  | .ROLLBACK => Statement.rollback <$> parseRollback
  | _ => error "Instrução SQL não reconhecida"

/-- A statement and nothing behind it. -/
def parseAll (c : Calls) : SQLParser Statement := do
  let stmt ← parseStatement c
  if ← isMatch .END_OF_FILE then return stmt
  else error "Tokens não processados após o fim da instrução"

/-- The procedures with fuel for `n` recursive calls inside each other. -/
def calls (stod : Text → Option UInt64) : ℕ → Calls
  | 0 => ⟨1,stod,Parser.outOfFuel,Parser.outOfFuel⟩
  | n+1 => ⟨n+2,stod,parseExpression (calls stod n),parseSelect (calls stod n)⟩

/-- `parse` with fuel `n`. -/
def parse (stod : Text → Option UInt64) (n : ℕ) (query : Text) :
    Run Lexeme Failure (List Lexeme) Statement :=
  parseAll (calls stod n) (lexemes query)

/-- `getLastError` after a parse that `error` ended, on which the lexer has read the current
token and all before it. The exceptions of `std::stoi` and `std::stod` do not set it. -/
def getLastError (query : Text) : Failure → Option String
  | .syntaxError message rest =>
    let read := (lexemes query).length-rest.length+1
    let lexer := (fun lx => (Lexer.nextToken lx).2)^[read] (Lexer.new query)
    some ("Erro de sintaxe em " ++ lexer.getPosition ++ ": " ++ message)
  | .invalidArgument => none
  | .outOfRange => none

end SQLParser

end OrangeSQL
