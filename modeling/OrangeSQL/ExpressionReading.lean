import OrangeSQL.ParserTermination
import OrangeSQL.StatementPrinting

/-! Expressions as any tokens that a level of the parser reads, not only the printed ones: where a
NOT before a comparison goes, and what becomes of the tokens of a function call. -/
namespace OrangeSQL

open Parsing

namespace SQLParser

/-- The level `k` reads the tokens as the tree, whatever follows that does not go on with it. -/
def ReadAs (stod : Text → Option UInt64) (k : ℕ) (ts : List Lexeme) (x : ASTNode) : Prop :=
  ∀ n, ts.length ≤ n → Prints (calls stod n) k ts x

theorem readAs_print (stod : Text → Option UInt64) {e : Expr} {k : ℕ} (hk : 1 ≤ k) (hk' : k ≤ 7)
    (he : k ≤ e.level) : ReadAs stod k e.print e.toNode := by
  intro n hn
  exact (readsBack stod e n hn).prints (by rw [calls_fuel]; omega) hk hk' he

theorem ReadAs.of_le {stod : Text → Option UInt64} {j k : ℕ} {ts : List Lexeme} {x : ASTNode}
    (h : ReadAs stod j ts x) (hj : j ≤ 7) (hk : 1 ≤ k) (hkj : k ≤ j) : ReadAs stod k ts x := by
  intro n hn
  exact prints_of_le hj hk hkj (by rw [calls_fuel]; omega) (h n hn)

section Levels

variable {c : Calls} {ts us rest : List Lexeme} {x y : ASTNode}

/-- One operator of a level, between two operands of the next. -/
theorem parses_level_binary (op : BinaryOp) (hf : 1 < c.fuel)
    (hx : Parses (levelParser c (op.level+1)) ts x (op.tokens++us))
    (hy : Parses (levelParser c (op.level+1)) us y rest) (hrest : Stops op.level rest) :
    Parses (levelParser c op.level) ts (.binary op.operator x (some y)) rest := by
  obtain ⟨m,hm⟩ := Nat.exists_eq_add_of_lt hf
  apply parses_level op.level_bounds hrest
  apply hx.bind
  rw [show c.fuel = m+1+1 by omega]
  apply Parses.loop_next (parses_binaryRound_next op hy)
  exact Parses.loop_stop (parses_binaryRound_stop op.level_bounds hrest)

end Levels

section Leftmost

/-- The second tree is the first one with `x'` for `x`, which is its operand furthest to the left,
however many operators stand behind it. -/
inductive Leftmost (x x' : ASTNode) : ASTNode → ASTNode → Prop
  | here : Leftmost x x' x x'
  | left {op : Operator} {a a' : ASTNode} {right : Option ASTNode} (h : Leftmost x x' a a') :
    Leftmost x x' (.binary op a right) (.binary op a' right)

theorem Leftmost.trans {x x' y y' a a' : ASTNode} (h : Leftmost x x' y y')
    (h' : Leftmost y y' a a') : Leftmost x x' a a' := by
  induction h' with
  | here => exact h
  | left _ ih => exact .left ih

variable {operator : SQLParser (Option Operator)} {operand : SQLParser ASTNode} {fuel : ℕ}
  {ts mid rest : List Lexeme} {x a : ASTNode}

theorem loop_replace (h : Parses (Parser.loop fuel (binaryRound operator operand) x) ts a rest)
    (x' : ASTNode) : ∃ a', Leftmost x x' a a' ∧
      Parses (Parser.loop fuel (binaryRound operator operand) x') ts a' rest := by
  induction fuel generalizing ts x x' with
  | zero => cases h
  | succ fuel ih =>
    obtain ⟨next,mid,hround,hrest⟩ := h.of_bind
    obtain ⟨op,behind,hop,hbody⟩ := hround.of_bind
    cases op with
    | none =>
      obtain ⟨rfl,rfl⟩ := hbody.unique (Parses.pure _ _)
      obtain ⟨rfl,rfl⟩ := hrest.unique (Parses.pure _ _)
      exact ⟨x',.here,Parses.loop_stop (hop.bind (Parses.pure _ _))⟩
    | some op =>
      obtain ⟨right,mid',hright,hnext⟩ := hbody.of_bind
      obtain ⟨rfl,rfl⟩ := hnext.unique (Parses.pure _ _)
      obtain ⟨a',hleft,hloop⟩ := ih hrest (.binary op x' (some right))
      have hround' : Parses (binaryRound operator operand x') ts
          (.inl (.binary op x' (some right))) mid :=
        hop.bind (hright.bind (Parses.pure _ _))
      exact ⟨a',(Leftmost.left .here).trans hleft,Parses.loop_next hround' hloop⟩

/-- A level reads on behind its first operand, whatever that is. -/
theorem leftAssociative_replace (h : Parses (leftAssociative fuel operator operand) ts a rest) :
    ∃ x mid, Parses operand ts x mid ∧ ∀ ts' x', Parses operand ts' x' mid →
      ∃ a', Leftmost x x' a a' ∧ Parses (leftAssociative fuel operator operand) ts' a' rest := by
  obtain ⟨x,mid,hx,hloop⟩ := h.of_bind
  refine ⟨x,mid,hx,fun ts' x' hx' => ?_⟩
  obtain ⟨a',hleft,hloop'⟩ := loop_replace hloop x'
  exact ⟨a',hleft,hx'.bind hloop'⟩

end Leftmost

section Not

variable {stod : Text → Option UInt64} {n : ℕ} {ts ta tb mid rest : List Lexeme} {a b u : ASTNode}

/-- One operator more leaves one call less for the recursion, which is still enough. -/
theorem parses_unary_not (h : Parses (parseUnary (calls stod n)) ts u mid) (hn : ts.length < n) :
    Parses (parseUnary (calls stod n)) (UnaryOp.not.token::ts) (.unary .NOT u) mid := by
  have hreturns := returns_parseUnaryWith (goodCalls stod (le_refl n) (le_refl n))
    (Nat.le_succ n) (Nat.le_succ n) (le_refl n)
  have hsame : parseUnaryWith (calls stod n) (n+1) ts = parseUnaryWith (calls stod n) n ts :=
    (hreturns ts hn).same
  rw [parseUnary,calls_fuel] at h ⊢
  rw [Parses,hsame] at h
  exact parses_unary_operator .not h

/-- Before an expression without comparisons, NOT takes its first operand. -/
theorem parses_additive_not (h : Parses (parseAdditive (calls stod n)) ts a mid)
    (hn : ts.length < n) :
    ∃ u behind a', Parses (parseUnary (calls stod n)) ts u behind ∧
      Leftmost u (.unary .NOT u) a a' ∧
      Parses (parseAdditive (calls stod n)) (UnaryOp.not.token::ts) a' mid := by
  obtain ⟨x,_,hx,hadditive⟩ := leftAssociative_replace h
  obtain ⟨u,behind,hu,hmultiplicative⟩ := leftAssociative_replace hx
  obtain ⟨x',hleft,hx'⟩ := hmultiplicative _ _ (parses_unary_not hu hn)
  obtain ⟨a',hleft',ha'⟩ := hadditive _ _ hx'
  exact ⟨u,behind,a',hu,hleft.trans hleft',ha'⟩

/-- Before a comparison too: the comparison has the NOT within its left side. -/
theorem parses_not_comparison (stod : Text → Option UInt64) (op : BinaryOp)
    (hop : op.level = 3 ∨ op.level = 4) {ta tb : List Lexeme} {a b : ASTNode}
    (ha : ReadAs stod 5 ta a) (hb : ReadAs stod 5 tb b) {rest : List Lexeme}
    (hrest : Stops 1 rest) (n : ℕ) (hn : (ta++(op.tokens++(tb++rest))).length < n) :
    ∃ u behind a', Parses (parseUnary (calls stod n)) (ta++(op.tokens++(tb++rest))) u behind ∧
      Leftmost u (.unary .NOT u) a a' ∧
      Parses (parseExpression (calls stod n)) (UnaryOp.not.token::(ta++(op.tokens++(tb++rest))))
        (.binary op.operator a' (some b)) rest := by
  have hfuel := calls_fuel stod n
  have hlength := hn
  simp only [List.length_append] at hlength
  have hnext : Stops (op.level+1) (op.tokens++(tb++rest)) := stops_op op _
  have hfirst : Parses (levelParser (calls stod n) 5) (ta++(op.tokens++(tb++rest))) a
      (op.tokens++(tb++rest)) := ha n (by omega) _ (hnext.mono (by omega))
  obtain ⟨u,behind,a',hu,hleft,ha'⟩ := parses_additive_not hfirst hn
  refine ⟨u,behind,a',hu,hleft,?_⟩
  have hx : Parses (levelParser (calls stod n) (op.level+1))
      (UnaryOp.not.token::(ta++(op.tokens++(tb++rest)))) a' (op.tokens++(tb++rest)) :=
    parses_level_of_le (j := 5) (by decide) (by omega) (by omega) (by omega) ha' hnext
  have hy : Parses (levelParser (calls stod n) (op.level+1)) (tb++rest) b rest :=
    hb.of_le (by decide) (by omega) (by omega) n (by omega) rest (hrest.mono (by omega))
  have hbinary := parses_level_binary op (by omega) hx hy (hrest.mono (by omega))
  exact parses_level_of_le (k := 1) (by omega) le_rfl (by omega) (by omega) hbinary hrest

/-- `NOT X+1 LIKE 'Y'` compares `(NOT X)+1`. -/
theorem parses_not_comparison_like :
    ∃ u behind a', Parses (parseUnary (calls (fun _ => none) 20))
        ((Expr.binary .plus (.column ['X']) (.integer 1)).print++(BinaryOp.like.tokens++
          ((Expr.string ['Y']).print++[]))) u behind ∧
      Leftmost u (.unary .NOT u) (Expr.binary .plus (.column ['X']) (.integer 1)).toNode a' ∧
      Parses (parseExpression (calls (fun _ => none) 20))
        (UnaryOp.not.token::((Expr.binary .plus (.column ['X']) (.integer 1)).print++
          (BinaryOp.like.tokens++((Expr.string ['Y']).print++[]))))
        (.binary .LIKE a' (some (Expr.string ['Y']).toNode)) [] :=
  parses_not_comparison (fun _ => none) .like (Or.inr rfl)
    (readAs_print _ (by decide) (by decide) (by decide))
    (readAs_print _ (by decide) (by decide) (by decide)) (by exact Nat.zero_lt_one) 20 (by decide)

/-- The comparison stands under the NOT. -/
def ParsesUnderNot (stod : Text → Option UInt64) (op : BinaryOp) (ta tb : List Lexeme)
    (a b : ASTNode) : Prop :=
  ∀ n, (ta++(op.tokens++tb)).length < n →
    Parses (parseExpression (calls stod n)) (UnaryOp.not.token::(ta++(op.tokens++tb)))
      (.unary .NOT (.binary op.operator a (some b))) []

theorem not_parsesUnderNot_eq :
    ReadAs (fun _ => none) 5 [identifier ['X']] (.columnRef [] ['X']) ∧
    ReadAs (fun _ => none) 5 [identifier ['Y']] (.columnRef [] ['Y']) ∧
    ¬ParsesUnderNot (fun _ => none) .eq [identifier ['X']] [identifier ['Y']] (.columnRef [] ['X'])
      (.columnRef [] ['Y']) := by
  refine ⟨readAs_print (e := .column ['X']) _ (by decide) (by decide) (by decide),
    readAs_print (e := .column ['Y']) _ (by decide) (by decide) (by decide),?_⟩
  intro h
  have hnot := h 5 (by decide)
  have hreads : Parses (parseExpression (calls (fun _ => none) 5))
      (UnaryOp.not.token::([identifier ['X']]++(BinaryOp.eq.tokens++[identifier ['Y']])))
      (.binary .EQ (.unary .NOT (.columnRef [] ['X'])) (some (.columnRef [] ['Y']))) [] := rfl
  cases (hnot.unique hreads).1

end Not

section Call

variable {stod : Text → Option UInt64} {n : ℕ} {f : Text} {arguments : List (List Lexeme)}
  {rest : List Lexeme}

/-- `f(e1,…,en)`, for the tokens of the arguments. -/
def callTokens (f : Text) (arguments : List (List Lexeme)) : List Lexeme :=
  identifier f::inParentheses (commaSeparated arguments)

/-- Some call of `parseExpression` reads a function call there, whatever follows. -/
def ReadsCall (stod : Text → Option UInt64) (f : Text) (arguments : List (List Lexeme))
    (nodes : List ASTNode) : Prop :=
  ∃ n rest rest', Parses (parseExpression (calls stod n)) (callTokens f arguments++rest)
    (.functionCall f nodes) rest'

/-- The name is read as a column, the parenthesis behind it is left. -/
theorem parses_callTokens :
    Parses (parseExpression (calls stod n)) (callTokens f arguments++rest) (.columnRef [] f)
      (inParentheses (commaSeparated arguments)++rest) := by
  have hstops : Stops 1 (inParentheses (commaSeparated arguments)++rest) := Nat.zero_lt_one
  have hprimary : Parses (parsePrimary (calls stod n)) ([identifier f]++
      (inParentheses (commaSeparated arguments)++rest)) (.columnRef [] f)
      (inParentheses (commaSeparated arguments)++rest) :=
    parses_columnRef _ f (hstops.mono (by decide))
  have hunary : Parses (parseUnary (calls stod n)) ([identifier f]++
      (inParentheses (commaSeparated arguments)++rest)) (.columnRef [] f)
      (inParentheses (commaSeparated arguments)++rest) :=
    parses_unary_of_primary (by rw [calls_fuel]; omega) rfl (by simp) hprimary
  exact parses_level_of_le (j := 7) (k := 1) le_rfl le_rfl (by decide) (by rw [calls_fuel]; omega)
    hunary hstops

/-- Column references come first and take every identifier. -/
theorem not_readsCall (stod : Text → Option UInt64) (f : Text) (arguments : List (List Lexeme))
    (nodes : List ASTNode) : ¬ReadsCall stod f arguments nodes := by
  rintro ⟨n,rest,rest',h⟩
  cases (h.unique parses_callTokens).1

theorem not_readsCall_noArguments : ¬ReadsCall (fun _ => none) ['F'] [] [] := by
  rintro ⟨n,rest,rest',h⟩
  cases (h.unique parses_callTokens).1

end Call

end SQLParser

end OrangeSQL
