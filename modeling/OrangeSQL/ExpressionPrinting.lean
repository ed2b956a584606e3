import OrangeSQL.ParserSteps
import Mathlib.Data.List.TakeWhile

/-! Printing of expressions with the parentheses that the levels of the operators require, and
the proof that `parseExpression` inverts it. -/
namespace OrangeSQL

open Parsing

inductive UnaryOp
  | plus | minus | not
  deriving DecidableEq, Repr

namespace UnaryOp

def operator : UnaryOp → Operator
  | plus => .PLUS
  | minus => .MINUS
  | not => .NOT

def token : UnaryOp → Lexeme
  | plus => ⟨.PLUS,['+']⟩
  | minus => ⟨.MINUS,['-']⟩
  | not => ⟨.NOT,"NOT".toList⟩

end UnaryOp

inductive BinaryOp
  | or | and | eq | ne | lt | le | gt | ge | like | notLike
  | plus | minus | concat | multiply | divide | modulo
  deriving DecidableEq, Repr

namespace BinaryOp

def operator : BinaryOp → Operator
  | or => .OR
  | and => .AND
  | eq => .EQ
  | ne => .NE
  | lt => .LT
  | le => .LE
  | gt => .GT
  | ge => .GE
  | like => .LIKE
  | notLike => .NOT_LIKE
  | plus => .PLUS
  | minus => .MINUS
  | concat => .CONCAT
  | multiply => .MULTIPLY
  | divide => .DIVIDE
  | modulo => .MODULO

/-- OR, AND, equality, relational, additive and multiplicative operators, in this order. -/
def level : BinaryOp → ℕ
  | or => 1
  | and => 2
  | eq | ne => 3
  | lt | le | gt | ge | like | notLike => 4
  | plus | minus | concat => 5
  | multiply | divide | modulo => 6

def tokens : BinaryOp → List Lexeme
  | or => [⟨.OR,"OR".toList⟩]
  | and => [⟨.AND,"AND".toList⟩]
  | eq => [⟨.EQ,"==".toList⟩]
  | ne => [⟨.NE,"!=".toList⟩]
  | lt => [⟨.LT,"<".toList⟩]
  | le => [⟨.LE,"<=".toList⟩]
  | gt => [⟨.GT,">".toList⟩]
  | ge => [⟨.GE,">=".toList⟩]
  | like => [⟨.LIKE,"LIKE".toList⟩]
  | notLike => [⟨.NOT,"NOT".toList⟩,⟨.LIKE,"LIKE".toList⟩]
  | plus => [⟨.PLUS,"+".toList⟩]
  | minus => [⟨.MINUS,"-".toList⟩]
  | concat => [⟨.CONCAT,"||".toList⟩]
  | multiply => [⟨.STAR,"*".toList⟩]
  | divide => [⟨.SLASH,"/".toList⟩]
  | modulo => [⟨.PERCENT,"%".toList⟩]

theorem level_bounds (op : BinaryOp) : 1 ≤ op.level ∧ op.level ≤ 6 := by
  cases op <;> decide

theorem tokens_ne_nil (op : BinaryOp) : op.tokens ≠ [] := by
  cases op <;> decide

end BinaryOp

/-- The expressions that are printed: literals that fit an `int`, strings, booleans and NULL,
columns with and without a table, and the operators above. -/
inductive Expr
  | integer (n : Fin 2147483648)
  | string (text : Text)
  | boolean (v : Bool)
  | null
  | column (name : Text)
  | tableColumn (table name : Text)
  | unary (op : UnaryOp) (e : Expr)
  | binary (op : BinaryOp) (left right : Expr)
  deriving DecidableEq, Repr

def identifier (name : Text) : Lexeme := ⟨.IDENTIFIER,name⟩

def inParentheses (ts : List Lexeme) : List Lexeme := ⟨.LPAREN,['(']⟩ :: (ts++[⟨.RPAREN,[')']⟩])

namespace Expr

/-- The tree that an expression stands for. -/
def toNode : Expr → ASTNode
  | integer n => .literal (.ofInt (Int32.ofInt n))
  | string text => .literal (.ofText text)
  | boolean v => .literal (.ofBool v)
  | null => .literal .null
  | column name => .columnRef [] name
  | tableColumn table name => .columnRef table name
  | unary op e => .unary op.operator e.toNode
  | binary op left right => .binary op.operator left.toNode (some right.toNode)

def level : Expr → ℕ
  | unary _ _ => 7
  | binary op _ _ => op.level
  | _ => 8

/-- The tokens of an expression: an operand stands in parentheses when its level is below the
one of its operator, a right operand also when it is the same. -/
def print : Expr → List Lexeme
  | integer n => [⟨.INTEGER,Nat.toDigits 10 n⟩]
  | string text => [⟨.STRING,text⟩]
  | boolean v => [⟨.BOOLEAN,if v then "TRUE".toList else "FALSE".toList⟩]
  | null => [⟨.NULL,"NULL".toList⟩]
  | column name => [identifier name]
  | tableColumn table name => [identifier table,⟨.DOT,['.']⟩,identifier name]
  | unary op e => op.token :: (if e.level < 7 then inParentheses e.print else e.print)
  | binary op left right =>
    (if left.level < op.level then inParentheses left.print else left.print) ++ op.tokens ++
      (if right.level ≤ op.level then inParentheses right.print else right.print)

theorem level_pos (e : Expr) : 1 ≤ e.level := by
  cases e with
  | binary op left right => exact op.level_bounds.1
  | _ => exact Nat.succ_pos _

end Expr

namespace SQLParser

/-- The level at which a token goes on with an expression that stands before it. -/
def continuation : TokenType → ℕ
  | .OR => 1
  | .AND => 2
  | .EQ | .NE | .IS | .IN | .BETWEEN => 3
  | .LT | .LE | .GT | .GE | .LIKE | .NOT => 4
  | .PLUS | .MINUS | .CONCAT => 5
  | .STAR | .SLASH | .PERCENT => 6
  | .DOT => 8
  | _ => 0

/-- What follows does not go on with an expression of level `k` or above. -/
def Stops (k : ℕ) (rest : List Lexeme) : Prop := continuation (headType rest) < k

theorem Stops.mono {k k' : ℕ} {rest : List Lexeme} (h : Stops k rest) (hk : k ≤ k') :
    Stops k' rest :=
  Nat.lt_of_lt_of_le h hk

theorem Stops.ne {k : ℕ} {rest : List Lexeme} (h : Stops k rest) {t : TokenType}
    (ht : k ≤ continuation t) : headType rest ≠ t := by
  intro heq
  rw [Stops,heq] at h
  omega

/-- The procedure for the expressions of a level. -/
def levelParser (c : Calls) : ℕ → SQLParser ASTNode
  | 1 => parseLogicalOr c
  | 2 => parseLogicalAnd c
  | 3 => parseEquality c
  | 4 => parseRelational c
  | 5 => parseAdditive c
  | 6 => parseMultiplicative c
  | 7 => parseUnary c
  | _ => parsePrimary c

/-- The operators of a level. -/
def levelOperator : ℕ → SQLParser (Option Operator)
  | 1 => operatorIn [(.OR,.OR)]
  | 2 => operatorIn [(.AND,.AND)]
  | 3 => operatorIn [(.EQ,.EQ),(.NE,.NE)]
  | 4 => relationalOperator
  | 5 => operatorIn [(.PLUS,.PLUS),(.MINUS,.MINUS),(.CONCAT,.CONCAT)]
  | _ => operatorIn [(.STAR,.MULTIPLY),(.SLASH,.DIVIDE),(.PERCENT,.MODULO)]

theorem parses_operatorIn {table : List (TokenType × Operator)} {l : Lexeme} {op : Operator}
    (h : table.lookup l.type = some op) (ts : List Lexeme) :
    Parses (operatorIn table) (l::ts) (some op) ts := by
  have hlook : table.lookup ((l::ts).headD endOfFile).type = some op := h
  apply parses_currentToken.bind
  rw [hlook]
  exact parses_nextToken.bind (Parses.pure _ _)

theorem parses_operatorIn_none {table : List (TokenType × Operator)} {ts : List Lexeme}
    (h : table.lookup (headType ts) = none) : Parses (operatorIn table) ts none ts := by
  have hlook : table.lookup (ts.headD endOfFile).type = none := h
  apply parses_currentToken.bind
  rw [hlook]
  exact Parses.pure _ _

/-- Where nothing goes on at the level of an operator table, no operator is read. -/
theorem parses_operatorIn_stops {table : List (TokenType × Operator)} {k : ℕ}
    {rest : List Lexeme} (hk : ∀ e ∈ table, k ≤ continuation e.1) (h : Stops k rest) :
    Parses (operatorIn table) rest none rest := by
  apply parses_operatorIn_none
  rw [List.lookup_eq_none_iff]
  intro e he
  rw [bne_iff_ne]
  exact h.ne (hk e he)

theorem parses_relationalOperator {l : Lexeme} {op : Operator} (hl : l.type ≠ .NOT)
    (h : List.lookup l.type [(TokenType.LT,Operator.LT),(.LE,.LE),(.GT,.GT),(.GE,.GE),
      (.LIKE,.LIKE)] = some op) (ts : List Lexeme) :
    Parses relationalOperator (l::ts) (some op) ts := by
  unfold relationalOperator
  exact parses_ifAccept_not (by exact hl) (parses_operatorIn h ts)

theorem parses_levelOperator (op : BinaryOp) (ts : List Lexeme) :
    Parses (levelOperator op.level) (op.tokens++ts) (some op.operator) ts := by
  cases op with
  | notLike =>
    change Parses relationalOperator (_::_::ts) _ ts
    unfold relationalOperator
    apply parses_ifAccept (by rfl)
    exact (parses_expectNext (by rfl)).bind (Parses.pure _ _)
  | lt | le | gt | ge | like => exact parses_relationalOperator (by decide) rfl ts
  | _ => exact parses_operatorIn rfl ts

theorem parses_levelOperator_none {k : ℕ} (hk : 1 ≤ k ∧ k ≤ 6) {rest : List Lexeme}
    (h : Stops k rest) : Parses (levelOperator k) rest none rest := by
  match k, hk with
  | 1, _ => exact parses_operatorIn_stops (by decide) h
  | 2, _ => exact parses_operatorIn_stops (by decide) h
  | 3, _ => exact parses_operatorIn_stops (by decide) h
  | 4, _ =>
    exact parses_ifAccept_not (h.ne (by decide)) (parses_operatorIn_stops (by decide) h)
  | 5, _ => exact parses_operatorIn_stops (by decide) h
  | 6, _ => exact parses_operatorIn_stops (by decide) h

section Tail

variable {c : Calls} {left : ASTNode} {rest : List Lexeme}

theorem parses_isNull_not (h : headType rest ≠ .IS) : Parses (parseIsNull left) rest left rest :=
  (parses_accept_not h).bind (Parses.pure _ _)

theorem parses_in_not (hin : headType rest ≠ .IN) (hnot : headType rest ≠ .NOT) :
    Parses (parseIn c left) rest left rest := by
  apply parses_currentToken.bind
  apply parses_peekToken.bind
  have hn : ¬ ((rest.headD endOfFile).type = .IN ∨ (rest.headD endOfFile).type = .NOT ∧
      (rest.tail.headD endOfFile).type = .IN) := by
    rintro (he | ⟨he,-⟩)
    · exact hin he
    · exact hnot he
  rw [if_neg hn]
  exact Parses.pure _ _

theorem parses_between_not (hbetween : headType rest ≠ .BETWEEN) (hnot : headType rest ≠ .NOT) :
    Parses (parseBetween c left) rest left rest := by
  apply parses_currentToken.bind
  apply parses_peekToken.bind
  have hn : ¬ ((rest.headD endOfFile).type = .BETWEEN ∨
      (rest.headD endOfFile).type = .NOT ∧
      (rest.tail.headD endOfFile).type = .BETWEEN) := by
    rintro (he | ⟨he,-⟩)
    · exact hbetween he
    · exact hnot he
  rw [if_neg hn]
  exact Parses.pure _ _

/-- Behind the operands of an equality nothing is read where nothing goes on. -/
theorem parses_equality_tail (h : Stops 3 rest) (left : ASTNode) :
    Parses (do let left ← parseIsNull left; let left ← parseIn c left; parseBetween c left) rest
      left rest := by
  have hnot : headType rest ≠ .NOT := h.ne (by decide)
  apply (parses_isNull_not (h.ne (by decide))).bind
  apply (parses_in_not (h.ne (by decide)) hnot).bind
  exact parses_between_not (h.ne (by decide)) hnot

end Tail

/-- A level reads what its loop over operands and operators reads. -/
theorem parses_level {c : Calls} {k : ℕ} (hk : 1 ≤ k ∧ k ≤ 6) {ts rest : List Lexeme}
    {x : ASTNode} (h : Stops k rest)
    (hl : Parses (leftAssociative c.fuel (levelOperator k) (levelParser c (k+1))) ts x rest) :
    Parses (levelParser c k) ts x rest := by
  match k, hk with
  | 1, _ => exact hl
  | 2, _ => exact hl
  | 3, _ => exact hl.bind (parses_equality_tail h x)
  | 4, _ => exact hl
  | 5, _ => exact hl
  | 6, _ => exact hl

/-- The level `k` reads the tokens `ts` as `x`, before everything that does not go on. -/
def Prints (c : Calls) (k : ℕ) (ts : List Lexeme) (x : ASTNode) : Prop :=
  ∀ rest, Stops k rest → Parses (levelParser c k) (ts++rest) x rest

/-- The loop of the level `k` reads `ts` as `x` in `r` rounds and goes on behind it. -/
def Spine (c : Calls) (k : ℕ) (ts : List Lexeme) (x : ASTNode) (r : ℕ) : Prop :=
  ∀ m a mid rest, Stops (k+1) mid →
    Parses (Parser.loop m (binaryRound (levelOperator k) (levelParser c (k+1))) x) mid a rest →
    Parses (leftAssociative (m+r) (levelOperator k) (levelParser c (k+1))) (ts++mid) a rest

section

variable {c : Calls} {k : ℕ} {ts : List Lexeme} {x y : ASTNode} {r : ℕ}

/-- A round of a level that finds no operator. -/
theorem parses_binaryRound_stop (hk : 1 ≤ k ∧ k ≤ 6) {rest : List Lexeme} (h : Stops k rest) :
    Parses (binaryRound (levelOperator k) (levelParser c (k+1)) x) rest (.inr x) rest :=
  (parses_levelOperator_none hk h).bind (Parses.pure _ _)

/-- A round of a level that finds an operator and an operand of the next level. -/
theorem parses_binaryRound_next (op : BinaryOp) {us rest : List Lexeme}
    (h : Parses (levelParser c (op.level+1)) us y rest) :
    Parses (binaryRound (levelOperator op.level) (levelParser c (op.level+1)) x) (op.tokens++us)
      (.inl (.binary op.operator x (some y))) rest :=
  (parses_levelOperator op us).bind (h.bind (Parses.pure _ _))

theorem spine_zero (h : Prints c (k+1) ts x) : Spine c k ts x 0 := by
  intro m a mid rest hmid hl
  exact (h mid hmid).bind hl

theorem stops_op (op : BinaryOp) (rest : List Lexeme) : Stops (op.level+1) (op.tokens++rest) := by
  cases op <;> exact Nat.lt_succ_self _

theorem spine_succ (op : BinaryOp) {us : List Lexeme} (hx : Spine c op.level ts x r)
    (hy : Prints c (op.level+1) us y) :
    Spine c op.level (ts++op.tokens++us) (.binary op.operator x (some y)) (r+1) := by
  intro m a mid rest hmid hl
  have hround := parses_binaryRound_next op (x:=x) (hy mid hmid)
  have hh := hx (m+1) a _ rest (stops_op op (us++mid)) (Parses.loop_next hround hl)
  rw [show m+(r+1) = m+1+r by omega]
  simpa only [List.append_assoc] using hh

theorem prints_of_spine (hk : 1 ≤ k ∧ k ≤ 6) (h : Spine c k ts x r) (hf : r < c.fuel) :
    Prints c k ts x := by
  intro rest hrest
  obtain ⟨m,hm⟩ := Nat.exists_eq_add_of_lt hf
  have hl := h (m+1) x rest rest (hrest.mono (by omega))
    (Parses.loop_stop (parses_binaryRound_stop hk hrest))
  rw [show m+1+r = c.fuel by omega] at hl
  exact parses_level hk hrest hl

/-- Where nothing goes on, the lower levels leave a tree as it is. -/
theorem parses_level_of_le {j : ℕ} {rest : List Lexeme} (hj : j ≤ 7) (hk : 1 ≤ k) (hkj : k ≤ j)
    (hf : 0 < c.fuel) (h : Parses (levelParser c j) ts x rest) (hrest : Stops k rest) :
    Parses (levelParser c k) ts x rest := by
  induction j, hkj using Nat.le_induction with
  | base => exact h
  | succ j hkj ih =>
    have hlevel : 1 ≤ j ∧ j ≤ 6 := ⟨hk.trans hkj,by omega⟩
    have hstops := hrest.mono hkj
    obtain ⟨m,hm⟩ := Nat.exists_eq_add_of_lt hf
    apply ih (by omega)
    apply parses_level hlevel hstops
    apply h.bind
    rw [hm]
    exact Parses.loop_stop (parses_binaryRound_stop hlevel hstops)

/-- What a level reads, every lower level reads too. -/
theorem prints_of_le {j : ℕ} (hj : j ≤ 7) (hk : 1 ≤ k) (hkj : k ≤ j) (hf : 0 < c.fuel)
    (h : Prints c j ts x) : Prints c k ts x :=
  fun rest hrest => parses_level_of_le hj hk hkj hf (h rest (hrest.mono hkj)) hrest

/-- What a level reads is a first operand of every lower level. -/
theorem spine_of_lt {j : ℕ} (hj : j ≤ 7) (hkj : k < j) (hf : 0 < c.fuel) (h : Prints c j ts x) :
    Spine c k ts x 0 :=
  spine_zero (prints_of_le hj (by omega) hkj hf h)

end

/-- Tokens that begin an operand without an operator before it. -/
def isPrimaryStart : TokenType → Bool
  | .INTEGER | .STRING | .BOOLEAN | .NULL | .IDENTIFIER | .LPAREN => true
  | _ => false

theorem parses_integer (c : Calls) {n : ℕ} (hn : n < 2147483648) (rest : List Lexeme) :
    Parses (parsePrimary c) (⟨.INTEGER,Nat.toDigits 10 n⟩::rest)
      (.literal (.ofInt (Int32.ofInt n))) rest := by
  have hvalue := stoi_toDigits n hn
  apply parses_currentToken.bind
  apply parses_peekToken.bind
  rw [if_pos (by rfl),List.headD_cons]
  dsimp only
  rw [hvalue]
  exact parses_nextToken.bind (Parses.pure _ _)

theorem parses_columnRef (c : Calls) (name : Text) {rest : List Lexeme} (h : Stops 8 rest) :
    Parses (parsePrimary c) (identifier name::rest) (.columnRef [] name) rest := by
  apply parses_currentToken.bind
  apply parses_peekToken.bind
  have hp : Parses parseColumnRef (identifier name::rest) (.columnRef [] name) rest := by
    apply (parses_consume (by rfl)).bind
    exact parses_ifAccept_not (h.ne (by decide)) (Parses.pure _ _)
  exact hp

theorem parses_tableColumnRef (c : Calls) (table name : Text) (rest : List Lexeme) :
    Parses (parsePrimary c) (identifier table::⟨.DOT,['.']⟩::identifier name::rest)
      (.columnRef table name) rest := by
  apply parses_currentToken.bind
  apply parses_peekToken.bind
  have hp : Parses parseColumnRef (identifier table::⟨.DOT,['.']⟩::identifier name::rest)
      (.columnRef table name) rest := by
    apply (parses_consume (by rfl)).bind
    apply parses_ifAccept (by rfl)
    exact (parses_consume (by rfl)).bind (Parses.pure _ _)
  exact hp

/-- An expression that the recursive call reads, read between parentheses. -/
theorem parses_parentheses {c : Calls} {ts : List Lexeme} {x : ASTNode} {rest : List Lexeme}
    (hs : headType ts ≠ .SELECT) (hne : ts ≠ [])
    (h : Parses c.expression (ts++⟨.RPAREN,[')']⟩::rest) x (⟨.RPAREN,[')']⟩::rest)) :
    Parses (parsePrimary c) (inParentheses ts++rest) x rest := by
  apply parses_currentToken.bind
  apply parses_peekToken.bind
  have hhead : headType (ts++⟨.RPAREN,[')']⟩::rest) ≠ .SELECT := by
    cases ts with
    | nil => exact absurd rfl hne
    | cons t ts => exact hs
  have hp : Parses (do nextToken; parseParenthesised c)
      (⟨.LPAREN,['(']⟩::(ts++⟨.RPAREN,[')']⟩::rest)) x rest := by
    apply parses_nextToken.bind
    apply parses_ifMatch_not hhead
    apply h.bind
    exact (parses_expectNext (by rfl)).bind (Parses.pure _ _)
  have hl : inParentheses ts++rest = ⟨.LPAREN,['(']⟩::(ts++⟨.RPAREN,[')']⟩::rest) := by
    simp [inParentheses]
  rw [hl]
  exact hp

theorem prints_primary (c : Calls) {e : Expr} (he : e.level = 8) :
    Prints c 8 e.print e.toNode := by
  intro rest hrest
  cases e with
  | integer n => exact parses_integer c n.isLt rest
  | string text => exact rfl
  | boolean v => cases v <;> rfl
  | null => exact rfl
  | column name => exact parses_columnRef c name hrest
  | tableColumn table name => exact parses_tableColumnRef c table name rest
  | unary op e => cases he
  | binary op left right => cases op <;> cases he

/-- Tokens that begin an expression. -/
def isOperandStart (t : TokenType) : Bool :=
  isPrimaryStart t ∨ t = .PLUS ∨ t = .MINUS ∨ t = .NOT

theorem headType_append {ts : List Lexeme} (h : ts ≠ []) (rest : List Lexeme) :
    headType (ts++rest) = headType ts := by
  cases ts with
  | nil => exact absurd rfl h
  | cons t ts => rfl

theorem print_start (e : Expr) : e.print ≠ [] ∧ isOperandStart (headType e.print) := by
  induction e with
  | unary op e ih =>
    refine ⟨List.cons_ne_nil _ _,?_⟩
    cases op <;> rfl
  | binary op left right ihl ihr =>
    have hl : (if left.level < op.level then inParentheses left.print else left.print) ≠ [] ∧
        isOperandStart (headType
          (if left.level < op.level then inParentheses left.print else left.print)) := by
      split
      · exact ⟨List.cons_ne_nil _ _,rfl⟩
      · exact ihl
    rw [Expr.print,List.append_assoc,headType_append hl.1]
    exact ⟨by simp [hl.1],hl.2⟩
  | _ => exact ⟨List.cons_ne_nil _ _,rfl⟩

theorem primaryStart_print {e : Expr} (he : e.level = 8) : isPrimaryStart (headType e.print) := by
  cases e with
  | unary op e => cases he
  | binary op left right => cases op <;> cases he
  | _ => rfl

theorem parses_unary_of_primary {c : Calls} {ts rest : List Lexeme} {x : ASTNode} {m : ℕ}
    (hm : 0 < m) (hs : isPrimaryStart (headType ts)) (hne : ts ≠ [])
    (h : Parses (parsePrimary c) (ts++rest) x rest) :
    Parses (parseUnaryWith c m) (ts++rest) x rest := by
  obtain ⟨m,rfl⟩ := Nat.exists_eq_add_of_le' (show 1 ≤ m by omega)
  have hop : Parses (operatorIn [(.PLUS,.PLUS),(.MINUS,.MINUS),(.NOT,.NOT)]) (ts++rest) none
      (ts++rest) := by
    apply parses_operatorIn_none
    rw [headType_append hne]
    generalize headType ts = t at hs
    rw [List.lookup_eq_none_iff]
    intro e he
    rw [bne_iff_ne]
    rintro rfl
    revert e
    decide
  exact hop.bind h

theorem parses_unary_operator {c : Calls} (op : UnaryOp) {ts rest : List Lexeme} {x : ASTNode}
    {m : ℕ} (h : Parses (parseUnaryWith c m) ts x rest) :
    Parses (parseUnaryWith c (m+1)) (op.token::ts) (.unary op.operator x) rest := by
  have hop : Parses (operatorIn [(.PLUS,.PLUS),(.MINUS,.MINUS),(.NOT,.NOT)]) (op.token::ts)
      (some op.operator) ts := by
    cases op <;> exact parses_operatorIn rfl ts
  exact hop.bind (h.bind (Parses.pure _ _))

theorem calls_fuel (stod : Text → Option UInt64) (n : ℕ) : (calls stod n).fuel = n+1 := by
  cases n <;> rfl

/-- The loops of the binary levels and the recursion of `parseUnary` read the tokens of `e`,
each as far as the level of `e` allows. -/
structure ReadsBack (c : Calls) (e : Expr) : Prop where
  spine : ∀ k, 1 ≤ k → k ≤ 6 → k ≤ e.level →
    ∃ r, r ≤ e.print.length ∧ Spine c k e.print e.toNode r
  unary : 7 ≤ e.level → ∀ m, e.print.length ≤ m → ∀ rest, Stops 7 rest →
    Parses (parseUnaryWith c m) (e.print++rest) e.toNode rest

theorem ReadsBack.prints {c : Calls} {e : Expr} (h : ReadsBack c e)
    (hf : e.print.length < c.fuel) {k : ℕ} (hk : 1 ≤ k) (hk' : k ≤ 7) (he : k ≤ e.level) :
    Prints c k e.print e.toNode := by
  by_cases h7 : k = 7
  · subst h7
    exact h.unary he c.fuel hf.le
  · obtain ⟨r,hr,hs⟩ := h.spine k hk (by omega) he
    exact prints_of_spine ⟨hk,by omega⟩ hs (by omega)

/-- What `parseUnary` reads, the binary levels read as a first operand. -/
theorem ReadsBack.of_unary {c : Calls} {e : Expr} (hf : e.print.length ≤ c.fuel)
    (h : ∀ m, e.print.length ≤ m → ∀ rest, Stops 7 rest →
      Parses (parseUnaryWith c m) (e.print++rest) e.toNode rest) : ReadsBack c e := by
  have hpos := List.length_pos_iff.mpr (print_start e).1
  have h7 : Prints c 7 e.print e.toNode := h c.fuel hf
  constructor
  · intro k _ hk _
    exact ⟨0,Nat.zero_le _,spine_of_lt le_rfl (by omega) (by omega) h7⟩
  · intro _
    exact h

section

variable {stod : Text → Option UInt64} {e : Expr} {n : ℕ}

/-- An expression in parentheses is read by the recursive call. -/
theorem parses_wrapped (h : ∀ m, e.print.length ≤ m → ReadsBack (calls stod m) e)
    (hn : (inParentheses e.print).length ≤ n) (rest : List Lexeme) :
    Parses (parsePrimary (calls stod n)) (inParentheses e.print++rest) e.toNode rest := by
  have hlen : (inParentheses e.print).length = e.print.length+2 := by simp [inParentheses]
  obtain ⟨n,rfl⟩ := Nat.exists_eq_add_of_le' (show 1 ≤ n by omega)
  have hp : Prints (calls stod n) 1 e.print e.toNode :=
    (h n (by omega)).prints (by rw [calls_fuel]; omega) le_rfl (by decide) e.level_pos
  have hs : headType e.print ≠ .SELECT := by
    intro heq
    have hh := (print_start e).2
    rw [heq] at hh
    cases hh
  exact parses_parentheses hs (print_start e).1 (hp _ (by exact Nat.zero_lt_one))

theorem parses_unary_wrapped (h : ∀ m, e.print.length ≤ m → ReadsBack (calls stod m) e)
    (hn : (inParentheses e.print).length ≤ n) {m : ℕ} (hm : 0 < m) (rest : List Lexeme) :
    Parses (parseUnaryWith (calls stod n) m) (inParentheses e.print++rest) e.toNode rest :=
  parses_unary_of_primary hm rfl (by simp [inParentheses]) (parses_wrapped h hn rest)

/-- An operand at the level `j`, in parentheses where its own level is below. -/
theorem prints_operand (h : ∀ m, e.print.length ≤ m → ReadsBack (calls stod m) e) {j : ℕ}
    (hj : 1 ≤ j) (hj' : j ≤ 7)
    (hn : (if e.level < j then inParentheses e.print else e.print).length ≤ n) :
    Prints (calls stod n) j (if e.level < j then inParentheses e.print else e.print)
      e.toNode := by
  have hf := calls_fuel stod n
  split at hn
  case isTrue hlt =>
    have h7 : Prints (calls stod n) 7 (inParentheses e.print) e.toNode := by
      intro rest hrest
      exact parses_unary_wrapped h hn (by omega) rest
    rw [if_pos hlt]
    exact prints_of_le le_rfl hj hj' (by omega) h7
  case isFalse hlt =>
    rw [if_neg hlt]
    exact (h n hn).prints (by omega) hj hj' (by omega)

theorem readsBack_primary (he : e.level = 8) {c : Calls} (hf : e.print.length ≤ c.fuel) :
    ReadsBack c e := by
  apply ReadsBack.of_unary hf
  intro m hm rest hrest
  have hpos := List.length_pos_iff.mpr (print_start e).1
  exact parses_unary_of_primary (by omega) (primaryStart_print he) (print_start e).1
    (prints_primary c he rest (hrest.mono (by decide)))

theorem readsBack_unary (op : UnaryOp) (h : ∀ m, e.print.length ≤ m → ReadsBack (calls stod m) e)
    (hn : (Expr.unary op e).print.length ≤ n) : ReadsBack (calls stod n) (.unary op e) := by
  have hf := calls_fuel stod n
  apply ReadsBack.of_unary (by omega)
  intro m hm rest hrest
  rw [Expr.print,List.length_cons] at hm hn
  obtain ⟨m,rfl⟩ := Nat.exists_eq_add_of_le' (show 1 ≤ m by omega)
  apply parses_unary_operator
  split at hn
  case isTrue hlt =>
    rw [if_pos hlt] at hm ⊢
    have hpos : 0 < (inParentheses e.print).length := Nat.succ_pos _
    exact parses_unary_wrapped h (by omega) (by omega) rest
  case isFalse hlt =>
    rw [if_neg hlt] at hm ⊢
    exact (h n (by omega)).unary (by omega) m (by omega) rest hrest

theorem readsBack_binary (op : BinaryOp) {left right : Expr}
    (hl : ∀ m, left.print.length ≤ m → ReadsBack (calls stod m) left)
    (hr : ∀ m, right.print.length ≤ m → ReadsBack (calls stod m) right)
    (hn : (Expr.binary op left right).print.length ≤ n) :
    ReadsBack (calls stod n) (.binary op left right) := by
  have hf := calls_fuel stod n
  have hop := op.level_bounds
  have hpos := List.length_pos_iff.mpr op.tokens_ne_nil
  have hright : (if right.level ≤ op.level then inParentheses right.print else right.print) =
      if right.level < op.level+1 then inParentheses right.print else right.print := by
    simp only [Nat.lt_succ_iff]
  have hprint : (Expr.binary op left right).print =
      (if left.level < op.level then inParentheses left.print else left.print) ++ op.tokens ++
      (if right.level < op.level+1 then inParentheses right.print else right.print) := by
    rw [Expr.print,hright]
  have hlen := congrArg List.length hprint
  rw [List.length_append,List.length_append] at hlen
  have hy := prints_operand hr (j := op.level+1) (by omega) (by omega) (n := n) (by omega)
  have hx : ∃ r, r ≤ (if left.level < op.level then inParentheses left.print
        else left.print).length ∧
      Spine (calls stod n) op.level (if left.level < op.level then inParentheses left.print
        else left.print) left.toNode r := by
    by_cases hlt : left.level < op.level
    · have h7 : Prints (calls stod n) 7 (inParentheses left.print) left.toNode := by
        intro rest hrest
        rw [if_pos hlt] at hlen
        exact parses_unary_wrapped hl (by omega) (by omega) rest
      rw [if_pos hlt]
      exact ⟨0,Nat.zero_le _,spine_of_lt le_rfl (by omega) (by omega) h7⟩
    · rw [if_neg hlt] at hlen ⊢
      exact (hl n (by omega)).spine op.level hop.1 hop.2 (by omega)
  obtain ⟨r,hr',hs⟩ := hx
  have hspine : Spine (calls stod n) op.level (Expr.binary op left right).print
      (Expr.binary op left right).toNode (r+1) := by
    rw [hprint]
    exact spine_succ op hs hy
  constructor
  · intro k hk hk' hke
    by_cases heq : k = op.level
    · subst heq
      exact ⟨r+1,by omega,hspine⟩
    · have hp := prints_of_spine hop hspine (by omega)
      have hke : k ≤ op.level := hke
      exact ⟨0,Nat.zero_le _,spine_of_lt (by omega) (by omega) (by omega) hp⟩
  · intro h7
    have h7 : 7 ≤ op.level := h7
    omega

theorem readsBack (stod : Text → Option UInt64) (e : Expr) :
    ∀ n, e.print.length ≤ n → ReadsBack (calls stod n) e := by
  induction e with
  | unary op e ih => exact fun n hn => readsBack_unary op ih hn
  | binary op left right ihl ihr => exact fun n hn => readsBack_binary op ihl ihr hn
  | _ => exact fun n hn => readsBack_primary rfl (by rw [calls_fuel]; omega)

end

/-- `parseExpression` reads the tokens of an expression back, before every token that does not
go on with one. -/
theorem parses_expression (stod : Text → Option UInt64) (e : Expr) {n : ℕ}
    (hn : e.print.length ≤ n) {rest : List Lexeme} (h : Stops 1 rest) :
    Parses (parseExpression (calls stod n)) (e.print++rest) e.toNode rest :=
  (readsBack stod e n hn).prints (by rw [calls_fuel]; omega) le_rfl (by decide) e.level_pos rest h

theorem parseExpression_print (stod : Text → Option UInt64) (e : Expr) (n : ℕ)
    (hn : e.print.length ≤ n) (rest : List Lexeme)
    (h : headType rest = .END_OF_FILE ∨ headType rest = .RPAREN ∨ headType rest = .COMMA) :
    Parses (parseExpression (calls stod n)) (e.print++rest) e.toNode rest := by
  apply parses_expression stod e hn
  rw [Stops]
  rcases h with h | h | h <;> rw [h] <;> decide

/-- A right operand of the same level keeps its parentheses: `t.a-(b-1) NOT LIKE NOT 'x'` before
a closing parenthesis. -/
theorem parseExpression_print_notLike :
    Parses (parseExpression (calls (fun _ => none) 20))
      ((Expr.binary .notLike (.binary .minus (.tableColumn ['t'] ['a'])
        (.binary .minus (.column ['b']) (.integer 1))) (.unary .not (.string ['x']))).print++
        [⟨.RPAREN,[')']⟩])
      (.binary .NOT_LIKE (.binary .MINUS (.columnRef ['t'] ['a'])
        (some (.binary .MINUS (.columnRef [] ['b']) (some (.literal (.ofInt 1))))))
        (some (.unary .NOT (.literal (.ofText ['x']))))) [⟨.RPAREN,[')']⟩] :=
  parseExpression_print (fun _ => none) (.binary .notLike (.binary .minus (.tableColumn ['t'] ['a'])
    (.binary .minus (.column ['b']) (.integer 1))) (.unary .not (.string ['x']))) 20 (by decide)
    [⟨.RPAREN,[')']⟩] (by decide)

end SQLParser

end OrangeSQL
